import StreamMoE.AliasResolution
import StreamMoE.ArenaPlaces

/-! How long a captured tensor is read, against the region it lies in: when two tensors share bytes,
the later one is made behind every reader of the earlier. -/
namespace StreamMoE
namespace ArenaLifetimes

open ByteMemory ComputeGraph LayerPlan LayerPlan.Capture Packing ArenaLayout ArenaRegions UnitOrder
open ArenaPlaces

section statement

variable {Dev : Type*} [DecidableEq Dev] (c : Capture) (m : Placement Dev)

/-- A captured node that computes reads the storage of the captured tensor `p` through `src`. -/
structure Reads (nd src p : ℕ) : Prop where
  node : (c.nlayer nd).isSome = true
  computes : isAliasOp (c.graph.op nd) = false
  source : src ∈ (c.graph.tensor nd).sources
  storage : c.graph.root src = p
  captured : (c.nlayer p).isSome = true

/-- What a node reads is computed before it. -/
def Ordered : Prop := ∀ nd src p, Reads c nd src p → pos c p < pos c nd

/-- No operand in captured storage is on another device. -/
def SameDevice : Prop :=
  ∀ nd ∈ c.graph.nodes, ∀ q ∈ (c.graph.tensor nd).sources, (c.nlayer (c.graph.root q)).isSome = true →
    operandDev c m q = nodeDev c m nd

/-- The analysis sees the reads: those from another layer are direct, those from another unit go
through plain views and not into an alias, those from the own unit through plain views or to a
copy; and a tensor it takes to be read by another unit is, not only copied. -/
structure Traced : Prop where
  layer : ∀ nd src p, Reads c nd src p → c.nlayer nd ≠ c.nlayer p → p ∈ (c.graph.tensor nd).sources
  unit : ∀ nd src p, Reads c nd src p → c.nlayer nd = c.nlayer p → unitOf c nd ≠ unitOf c p →
    c.graph.viewSrc nd = none ∧ producer c.graph src = p
  own : ∀ nd src p, Reads c nd src p → unitOf c nd = unitOf c p →
    producer c.graph src = p ∨ c.graph.op p = .cont
  real : ∀ nd ∈ c.graph.nodes, ∀ src ∈ (c.graph.tensor nd).sources, c.graph.viewSrc nd = none →
    (c.nlayer (producer c.graph src)).isSome = true →
    unitOf c nd ≠ unitOf c (producer c.graph src) → c.graph.root src = producer c.graph src

/-- The captures the layout is made for. -/
structure Regular : Prop where
  closures : Closures c
  ordered : Ordered c
  sameDevice : SameDevice c m
  traced : Traced c
  fits : ∀ D, Fits c m D

end statement

variable {Dev : Type*} {c : Capture} {m : Placement Dev} {nd src p q l : ℕ}

section reads

theorem mem_nodes (h : c.nlayer p = some l) : p ∈ c.graph.nodes :=
  (List.mem_filter.mp (nlayer_eq_some.mp h)).1

theorem Reads.layers (h : Reads c nd src p) : ∃ l l', c.nlayer nd = some l ∧ c.nlayer p = some l' := by
  obtain ⟨l, hl⟩ := Option.isSome_iff_exists.mp h.node
  obtain ⟨l', hl'⟩ := Option.isSome_iff_exists.mp h.captured
  exact ⟨l, l', hl, hl'⟩

theorem root_own (p : ℕ) : c.graph.viewSrc (c.graph.root p) = none := by
  cases hview : c.graph.viewSrc p with
  | none => rw [Graph.root_of_own hview, hview]
  | some r =>
    rw [Graph.root_of_view hview]
    exact (c.graph.conforms p).view_root r hview

theorem Reads.own (h : Reads c nd src p) : c.graph.viewSrc p = none := h.storage ▸ root_own src

/-- A node that makes storage of its own computes. -/
theorem computes_of_own (h : c.graph.viewSrc nd = none) : isAliasOp (c.graph.op nd) = false := by
  by_contra halias
  have halias := Bool.not_eq_false _ ▸ halias
  obtain ⟨q, hq⟩ := Graph.exists_src0 ((isViewOp_iff _).mpr (.inl halias))
  have hview := (Graph.aliasOf_src0 halias hq).1
  rw [show (c.graph.tensor nd).viewSrc = none from h] at hview
  cases hview

variable [DecidableEq Dev]

/-- An operand in captured storage is not replaced by a copy. -/
theorem operand_eq (hdev : SameDevice c m) (hnd : nd ∈ c.graph.nodes)
    (hq : q ∈ (c.graph.tensor nd).sources) (hcap : (c.nlayer (c.graph.root q)).isSome = true) (s : ℕ) :
    operand c m nd s q = .tensor q := by
  have hsame := hdev nd hnd q hq hcap
  unfold operand
  cases c.nlayer nd with
  | none => rfl
  | some L => simp only [Option.bind_some, shellFor, if_pos (Or.inr (Or.inr (Or.inr hsame)))]

theorem resolveFrom_root (hdev : SameDevice c m) (fuel : ℕ) : ∀ {q : ℕ}, q ≤ fuel →
    (isViewOp (c.graph.op q) = true → q ∈ c.graph.nodes) →
    (c.nlayer (c.graph.root q)).isSome = true → producer c.graph q = c.graph.root q →
    resolveFrom c m fuel q = .tensor (c.graph.root q) := by
  induction fuel with
  | zero =>
    intro q hq _ _ _
    obtain rfl := Nat.le_zero.mp hq
    rw [Nat.le_zero.mp (Graph.root_le (g := c.graph) 0)]
    rfl
  | succ fuel ih =>
    intro q hq hnode hcap hprod
    unfold resolveFrom
    by_cases hview : isViewOp (c.graph.op q) = true
    · obtain ⟨q', hq'⟩ := Graph.exists_src0 hview
      have hlt := Graph.src0_lt hq'
      have hmem := mem_sources_of_src0 hq'
      rw [producer_of_view hview hq'] at hprod
      rcases (isViewOp_iff _).mp hview with halias | hcont
      · have hroot := Graph.root_aliasOf (Graph.aliasOf_src0 halias hq')
        rw [hroot] at hcap hprod ⊢
        rw [if_pos hview]
        simp only [hq', operand_eq hdev (hnode hview) hmem hcap]
        refine ih (by omega) (fun hview' => ?_) hcap hprod
        exact c.graph.closed q (hnode hview) q' hmem (by rintro hop; simp [hop, isViewOp] at hview')
      · have hown := (c.graph.conforms q).cont_own hcont
        rw [Graph.root_of_own hown] at hprod
        have hle := producer_le (g := c.graph) q'
        omega
    · rw [if_neg hview]
      rw [producer, unwrap_of_not_view (by simpa using hview)] at hprod
      rw [← hprod]

theorem resolve_of_reads (hdev : SameDevice c m) (h : Reads c nd src p) (hprod : producer c.graph src = p)
    (s : ℕ) : resolve c m (operand c m nd s src) = .tensor p := by
  obtain ⟨l, _, hl, _⟩ := h.layers
  have hnd := mem_nodes hl
  have hcap := h.captured
  rw [← h.storage] at hcap hprod ⊢
  rw [operand_eq hdev hnd h.source hcap]
  refine resolveFrom_root hdev src (Nat.le_refl src) (fun hview => ?_) hcap hprod
  exact c.graph.closed nd hnd src h.source (by rintro hop; simp [hop, isViewOp] at hview)

end reads

section placed

variable {x y lx ly : ℕ}

theorem le_maxConsumer (hnd : nd ∈ c.graph.nodes) (hsrc : p ∈ (c.graph.tensor nd).sources)
    (hne : c.nlayer nd ≠ c.nlayer p) (hl : c.nlayer nd = some l) : l ≤ maxConsumer c p := by
  have hfold : ∀ nodes : List ℕ, ∀ n, n ≤ nodes.foldl (fun m nd =>
      if p ∈ (c.graph.tensor nd).sources ∧ c.nlayer nd ≠ c.nlayer p then max m ((c.nlayer nd).getD 0)
      else m) n ∧ (nd ∈ nodes → l ≤ nodes.foldl (fun m nd =>
      if p ∈ (c.graph.tensor nd).sources ∧ c.nlayer nd ≠ c.nlayer p then max m ((c.nlayer nd).getD 0)
      else m) n) := by
    intro nodes
    induction nodes with
    | nil => exact fun n => ⟨Nat.le_refl n, fun h => absurd h List.not_mem_nil⟩
    | cons a nodes ih =>
      intro n
      rw [List.foldl_cons]
      obtain ⟨hle, hmem⟩ := ih (if p ∈ (c.graph.tensor a).sources ∧ c.nlayer a ≠ c.nlayer p then
        max n ((c.nlayer a).getD 0) else n)
      refine ⟨Nat.le_trans ?_ hle, fun hin => ?_⟩
      · split
        · exact Nat.le_max_left _ _
        · exact Nat.le_refl n
      · rcases List.mem_cons.mp hin with rfl | hin
        · refine Nat.le_trans ?_ hle
          rw [if_pos ⟨hsrc, hne⟩, hl]
          exact Nat.le_max_right _ _
        · exact hmem hin
  exact (hfold c.graph.nodes 0).2 hnd

/-- What another layer reads is carried, at least to that layer. -/
theorem crosses_of_reads (h : Traced c) (hr : Reads c nd src p) (hne : c.nlayer nd ≠ c.nlayer p)
    (hl : c.nlayer nd = some l) : crossesLayer c p = true ∧ l ≤ maxConsumer c p := by
  have hsrc := h.layer nd src p hr hne
  have hnd := mem_nodes hl
  refine ⟨List.any_eq_true.mpr ⟨nd, hnd, ?_⟩, le_maxConsumer hnd hsrc hne hl⟩
  simp [hsrc, hr.node, hr.captured, hne]

theorem layer_of_notCarry (h : Traced c) (hr : Reads c nd src p) (hp : isCarry c m p = false) :
    c.nlayer nd = c.nlayer p := by
  obtain ⟨l, _, hl, _⟩ := hr.layers
  by_contra hne
  have hcross := (crosses_of_reads h hr hne hl).1
  simp [isCarry, hcross] at hp

/-- What is neither carried nor pinned is read in its own unit only. -/
theorem unit_of_notSync (h : Traced c) (hc : Closures c) (hr : Reads c nd src p)
    (hcarry : isCarry c m p = false) (hsync : isSync c m p = false) : unitOf c nd = unitOf c p := by
  obtain ⟨l, l', hl, hl'⟩ := hr.layers
  obtain ⟨i, u, hi, hu⟩ := exists_unit hc hl
  obtain ⟨j, v, hj, hv⟩ := exists_unit hc hl'
  by_contra hne
  obtain ⟨hown, hprod⟩ := h.unit nd src p hr (layer_of_notCarry h hr hcarry) hne
  have hcross : crossesUnit c p = true := by
    refine List.any_eq_true.mpr ⟨nd, mem_nodes hl, ?_⟩
    simp only [hown, unitOf_eq hc hi hu, Option.isNone_none, Option.isSome_some, Bool.true_and,
      decide_not, List.any_eq_true, decide_eq_true_eq, Bool.and_eq_true, Bool.not_eq_true']
    refine ⟨decide_eq_false ?_, src, hr.source, hprod⟩
    rw [← unitOf_eq hc hi hu]
    exact hne
  simp [isSync, unitOf_eq hc hj hv, hr.own, hcarry, hcross] at hsync

theorem nlayer_of_unitOf (hc : Closures c) {i : ℕ} (h : unitOf c p = some i) :
    ∃ l, c.nlayer p = some l := by
  simp only [unitOf] at h
  rcases Option.or_eq_some_iff.mp h with h | ⟨_, h⟩
  · have hmem := List.find?_some h
    cases hu : c.units[i]? with
    | none => simp [hu] at hmem
    | some u =>
      have hp : p ∈ u.nodes := by simpa [hu] using hmem
      refine (mem_order hc).mp ?_
      rw [← order_units]
      exact List.mem_flatMap.mpr ⟨u, List.mem_of_getElem? hu, hp⟩
  · obtain ⟨L, hL, _⟩ := Option.bind_eq_some_iff.mp h
    exact ⟨L, hL⟩

variable [DecidableEq Dev] {D : Dev} {a b : ℕ}

/-- Halves of the double buffer: two layers further the readers are done. -/
theorem readers_end_carry1 (h : Regular c m) (hx : (x, a) ∈ carry1Offsets c m D)
    (hy : (y, b) ∈ carry1Offsets c m D) (hxl : c.nlayer x = some lx) (hyl : c.nlayer y = some ly)
    (hlt : pos c x < pos c y) (hparity : lx % 2 = ly % 2)
    (hshare : ¬ Apart a (c.graph.nbytes x) b (c.graph.nbytes y)) (hr : Reads c nd src x) :
    pos c nd < pos c y := by
  have hle := layer_le_of_pos h.closures hxl hyl hlt
  have hne : lx ≠ ly := by
    rintro rfl
    have hxy : x ≠ y := fun heq => Nat.lt_irrefl _ (heq ▸ hlt)
    exact hshare ((laid c m D).carry1_apart _ hx _ hy hxy (by simp [layerOf, hxl, hyl]))
  obtain ⟨l, _, hl, _⟩ := hr.layers
  refine pos_lt_of_layer h.closures hl hyl ?_
  by_cases hsame : c.nlayer nd = c.nlayer x
  · rw [hsame, hxl] at hl
    cases hl
    omega
  · have hmax := (crosses_of_reads h.traced hr hsame hl).2
    have hpipe := of_decide_eq_true (mem_carry1.mp (mem_onDevice.mp (carry1_entry hx)).1).2.1
    rw [hxl, Option.getD_some] at hpipe
    omega

/-- The sync region: of two units that read a layer, the second pins nothing of it. -/
theorem readers_end_sync (h : Regular c m) (hx : (x, a) ∈ syncOffsets c m D)
    (hy : (y, b) ∈ syncOffsets c m D) (hxl : c.nlayer x = some lx) (hyl : c.nlayer y = some ly)
    (hlt : pos c x < pos c y) (hshare : ¬ Apart a (c.graph.nbytes x) b (c.graph.nbytes y))
    (hr : Reads c nd src x) : pos c nd < pos c y := by
  have hxs := (mem_sync.mp (mem_onDevice.mp (sync_entry hx)).1).2
  have hys := (mem_sync.mp (mem_onDevice.mp (sync_entry hy)).1).2
  obtain ⟨i, u, hi, hxu⟩ := exists_unit h.closures hxl
  obtain ⟨j, v, hj, hyv⟩ := exists_unit h.closures hyl
  have hne : i ≠ j := by
    rintro rfl
    have hxy : x ≠ y := fun heq => Nat.lt_irrefl _ (heq ▸ hlt)
    refine hshare ((laid c m D).sync_apart _ hx _ hy hxy ?_)
    rw [unitOf_eq h.closures hi hxu, unitOf_eq h.closures hj hyv]
  have hij : i < j := by
    by_contra hnot
    have hback := pos_lt_of_unit h.closures hj hi hyv hxu (by omega)
    omega
  simp only [isSync, Bool.and_eq_true, Bool.not_eq_true'] at hxs hys
  obtain ⟨l, _, hl, _⟩ := hr.layers
  have hndl := layer_of_notCarry h.traced hr hxs.1.2
  rw [hl, hxl] at hndl
  cases hndl
  have hle := layer_le_of_pos h.closures hxl hyl hlt
  rcases Nat.lt_or_eq_of_le hle with hlt' | rfl
  · exact pos_lt_of_layer h.closures hl hyl hlt'
  · -- y is read by a third unit that has nodes of the layer
    exfalso
    obtain ⟨rd, hrd, hcond⟩ := List.any_eq_true.mp hys.2
    simp only [Bool.and_eq_true, decide_eq_true_eq, List.any_eq_true] at hcond
    obtain ⟨⟨⟨hown, hsome⟩, hunit⟩, s, hs, hprod⟩ := hcond
    obtain ⟨k, hk⟩ := Option.isSome_iff_exists.mp hsome
    obtain ⟨lr, hlr⟩ := nlayer_of_unitOf h.closures hk
    have hroot := h.traced.real rd hrd s hs (Option.isNone_iff_eq_none.mp hown)
      (by rw [hprod, hyl]; rfl) (by rw [hprod]; exact hunit)
    have hreads : Reads c rd s y :=
      ⟨by rw [hlr]; rfl, computes_of_own (Option.isNone_iff_eq_none.mp hown), hs, by rw [hroot, hprod],
        by rw [hyl]; rfl⟩
    have hlayer := layer_of_notCarry h.traced hreads hys.1.2
    have hbehind := h.ordered rd s y hreads
    obtain ⟨k', w, hk', hw⟩ := exists_unit h.closures hlr
    have hjk : j < k' := by
      by_contra hnot
      rcases Nat.lt_or_eq_of_le (Nat.le_of_not_lt hnot) with hgt | rfl
      · have hback := pos_lt_of_unit h.closures hk' hj hw hyv hgt
        omega
      · exact hunit (by rw [unitOf_eq h.closures hk' hw, unitOf_eq h.closures hj hyv])
    exact not_three_units h.closures hi hj hk' hij hjk hxu hyv hw hxl hyl (hlayer.trans hyl)

theorem etime_le_liveEnd {u : SubmissionUnit} {i : ℕ} (hc : Closures c) (hi : c.units[i]? = some u)
    (hp : p ∈ u.nodes) : etime u p ≤ liveEnd c m u p := by
  unfold liveEnd
  split
  · exact Nat.le_of_lt (etime_lt_length hc hi hp)
  · exact Nat.le_max_right _ _

/-- The recorded end of a tensor is behind the node that reads it. -/
theorem le_liveEnd {u : SubmissionUnit} (hnd : nd ∈ unitOrder u)
    (hsrc : src ∈ (c.graph.tensor nd).sources)
    (hres : ∀ s, resolve c m (operand c m nd s src) = .tensor p) : etime u nd ≤ liveEnd c m u p := by
  obtain ⟨s, hs⟩ := LayoutRewrite.exists_slot c hsrc
  have hmem : etime u nd ∈ ((unitOrder u).filter fun nd =>
      (operands c m nd).any fun o => decide (resolve c m o = .tensor p)).map (etime u) := by
    refine List.mem_map_of_mem (List.mem_filter.mpr ⟨hnd, ?_⟩)
    exact List.any_eq_true.mpr ⟨_, List.mem_map_of_mem hs, decide_eq_true (hres s)⟩
  unfold liveEnd
  cases hlast : lastEtime c m u p with
  | none => exact absurd hmem (by rw [List.max?_eq_none_iff.mp hlast]; exact List.not_mem_nil)
  | some t => exact Nat.le_trans ((List.max?_eq_some_iff.mp hlast).2 _ hmem) (Nat.le_max_left _ _)

/-- What nothing resolves to is held to the end of the unit. -/
theorem liveEnd_unread {u : SubmissionUnit} (h : ∀ nd s src, src ∈ (c.graph.tensor nd).sources →
    nd ∈ unitOrder u → resolve c m (operand c m nd s src) ≠ .tensor p) :
    liveEnd c m u p = (unitOrder u).length := by
  have hnone : lastEtime c m u p = none := by
    refine List.max?_eq_none_iff.mpr (List.map_eq_nil_iff.mpr (List.filter_eq_nil_iff.mpr ?_))
    intro nd hnd hany
    obtain ⟨o, ho, hres⟩ := List.any_eq_true.mp hany
    obtain ⟨x, hx, rfl⟩ := List.mem_map.mp ho
    exact h nd x.1 x.2 (LayoutRewrite.mem_sources_of_slots c hx) hnd (of_decide_eq_true hres)
  simp only [liveEnd, hnone]

/-- Scratch: inside a unit the recorded end decides, and nothing is read behind its unit. -/
theorem readers_end_scratch (h : Regular c m) {i j : ℕ} {u v : SubmissionUnit}
    (hi : c.units[i]? = some u) (hj : c.units[j]? = some v) (hx : (x, a) ∈ (window c m D u).1)
    (hy : (y, b) ∈ (window c m D v).1) (hlt : pos c x < pos c y)
    (hshare : ¬ Apart a (c.graph.nbytes x) b (c.graph.nbytes y)) (hr : Reads c nd src x) :
    pos c nd < pos c y := by
  obtain ⟨hxu, _, hcarry, hsync, _⟩ := mem_windowNodes.mp (window_entry hx)
  obtain ⟨hyv, _⟩ := mem_windowNodes.mp (window_entry hy)
  have hunit := unit_of_notSync h.traced h.closures hr hcarry hsync
  obtain ⟨l, _, hl, _⟩ := hr.layers
  obtain ⟨k, w, hk, hw⟩ := exists_unit h.closures hl
  rw [unitOf_eq h.closures hk hw, unitOf_eq h.closures hi hxu] at hunit
  cases hunit
  rw [hi] at hk
  cases hk
  rcases Nat.lt_trichotomy i j with hij | rfl | hji
  · exact pos_lt_of_unit h.closures hi hj hw hyv hij
  · rw [hi] at hj
    cases hj
    have hxy : x ≠ y := fun heq => Nat.lt_irrefl _ (heq ▸ hlt)
    rw [pos_eq h.closures hi hxu, pos_eq h.closures hi hyv] at hlt
    rw [pos_eq h.closures hi hw, pos_eq h.closures hi hyv]
    have hyend := etime_le_liveEnd (m := m) h.closures hi hyv
    have hmeets : ¬ etime u y ≤ liveEnd c m u x := by
      intro hle
      have hle' : etime u x ≤ liveEnd c m u y := by omega
      exact hshare (window_apart hx hy hxy ⟨hle', hle⟩)
    have hndend : etime u nd ≤ liveEnd c m u x := by
      rcases h.traced.own nd src x hr (by rw [unitOf_eq h.closures hi hw, unitOf_eq h.closures hi hxu])
        with hprod | hcont
      · refine le_liveEnd ?_ hr.source (resolve_of_reads h.sameDevice hr hprod)
        rw [unitOrder_eq (nodup_unit h.closures hi)]
        exact hw
      · -- the walks to a producer go past a copy
        rw [liveEnd_unread]
        · exact Nat.le_of_lt (etime_lt_length h.closures hi hw)
        · intro rd s q _ _ hres
          have hprod := LayoutRewrite.producer_of_resolve c m hres
          have hview := producer_not_view (g := c.graph) q
          rw [hprod] at hview
          simp [hcont, isViewOp] at hview
    omega
  · have hback := pos_lt_of_unit h.closures hj hi hyv hxu hji
    omega

/-- Where two captured tensors of a device share bytes, every reader of the one made first runs
before the other is made. -/
theorem readers_end (h : Regular c m) (hxl : c.nlayer x = some lx) (hyl : c.nlayer y = some ly)
    (hx : place c m D x = some a) (hy : place c m D y = some b) (hlt : pos c x < pos c y)
    (hshare : ¬ Apart a (c.graph.nbytes x) b (c.graph.nbytes y)) (hr : Reads c nd src x) :
    pos c nd < pos c y := by
  obtain ⟨r, hxr⟩ := placedIn_of_place hx
  obtain ⟨r', hyr⟩ := placedIn_of_place hy
  have hxin := inside_of_placedIn (h.fits D) hxr
  have hyin := inside_of_placedIn (h.fits D) hyr
  have hsame : r = r' := by
    by_contra hne
    exact hshare ((laid c m D).inside_apart r r' hne _ _ _ _ hxin hyin)
  have hshift : ∀ {s o o'}, ¬ Apart (s + o) (c.graph.nbytes x) (s + o') (c.graph.nbytes y) →
      ¬ Apart o (c.graph.nbytes x) o' (c.graph.nbytes y) := by
    intro s o o' hnot hapart
    simp only [Apart] at hnot hapart
    omega
  cases hxr with
  | carry1 hxo =>
    cases hyr with
    | carry1 hyo =>
      have hparity : lx % 2 = ly % 2 := by
        simp only [Region.carry1.injEq, layerOf, hxl, hyl, Option.getD_some, decide_eq_decide] at hsame
        omega
      exact readers_end_carry1 h hxo hyo hxl hyl hlt hparity hshare hr
    | _ => cases hsame
  | carryN hxo =>
    cases hyr with
    | carryN hyo =>
      have hxy : x ≠ y := fun heq => Nat.lt_irrefl _ (heq ▸ hlt)
      exact absurd ((laid c m D).carryN_apart _ hxo _ hyo hxy) (hshift hshare)
    | _ => cases hsame
  | sync hxo =>
    cases hyr with
    | sync hyo => exact readers_end_sync h hxo hyo hxl hyl hlt (hshift hshare) hr
    | _ => cases hsame
  | scratch i u hi hxo =>
    cases hyr with
    | scratch j v hj hyo => exact readers_end_scratch h hi hj hxo hyo hlt (hshift hshare) hr
    | _ => cases hsame

end placed

end ArenaLifetimes
end StreamMoE
