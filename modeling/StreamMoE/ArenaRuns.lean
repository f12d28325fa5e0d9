import StreamMoE.ArenaLifetimes
import StreamMoE.SharedStorage

/-! The run of a captured graph in the arenas: every node computes what it computes when each tensor
has a buffer of its own. -/
namespace StreamMoE
namespace ArenaRuns

open ByteMemory ComputeGraph LayerPlan LayerPlan.Capture Packing ArenaLayout ArenaRegions UnitOrder
open ArenaPlaces ArenaLifetimes SharedStorage LayerOrder

/-- What the nodes of a graph compute, from the storages of their operands alone. -/
structure Kernels (g : Graph) (V : Type*) where
  apply : ℕ → (ℕ → ℕ → V) → ℕ → V
  apply_congr : ∀ nd f f', (∀ src ∈ (g.tensor nd).sources, ∀ k < g.nbytes (g.root src),
    f (g.root src) k = f' (g.root src) k) → ∀ k < g.nbytes (g.root nd), apply nd f k = apply nd f' k

section model

/-- The arena of a device, or the buffer of a tensor that is not captured. -/
inductive Buffer (Dev : Type*)
  | arena (D : Dev)
  | other (p : ℕ)
  deriving DecidableEq

variable {Dev : Type*} [DecidableEq Dev] {V : Type*} (c : Capture) (m : Placement Dev)

/-- Where the storage of a tensor lies. -/
def loc (p : ℕ) : Buffer Dev × ℕ :=
  if (c.nlayer p).isSome then (.arena (nodeDev c m p), (place c m (nodeDev c m p) p).getD 0)
  else (.other p, 0)

/-- A node writes its own storage, or in place that of its operand. -/
def program (K : Kernels c.graph V) : Program ℕ ℕ V where
  target := c.graph.root
  reads nd := (c.graph.tensor nd).sources.map c.graph.root
  size := c.graph.nbytes
  apply := K.apply
  apply_congr nd f f' h := K.apply_congr nd f f' fun _ hsrc => h _ (List.mem_map_of_mem hsrc)

/-- The nodes that compute, in the order of the executor. -/
def computed (fusion : ℕ → Fusion) : List ℕ :=
  ((execSteps c fusion).flatMap c.stepNodes).filter fun nd => !isAliasOp (c.graph.op nd)

/-- Exported after the run, or of the last unit and read by no node. -/
def Result (p : ℕ) : Prop :=
  p ∈ retained c m ∨ c.graph.viewSrc p = none ∧ (∃ u, c.units.getLast? = some u ∧ p ∈ u.nodes) ∧
    ∀ nd ∈ c.graph.nodes, p ∉ (c.graph.tensor nd).sources

/-- Results, and what is not in an arena. -/
def Kept (p : ℕ) : Prop := Result c m p ∨ c.nlayer p = none

end model

variable {Dev : Type*} {c : Capture} {m : Placement Dev} {nd src p x y l lx ly : ℕ}

section results

theorem read_of_producer : (∃ nd ∈ c.graph.nodes, src ∈ (c.graph.tensor nd).sources) →
    ∃ nd ∈ c.graph.nodes, producer c.graph src ∈ (c.graph.tensor nd).sources := by
  induction src using view_induction (g := c.graph) with
  | own p h =>
    rintro ⟨nd, hnd, hsrc⟩
    rw [producer, unwrap_of_not_view h]
    exact ⟨nd, hnd, hsrc⟩
  | view p q h hq ih =>
    rintro ⟨nd, hnd, hsrc⟩
    rw [producer_of_view h hq]
    have hp : p ∈ c.graph.nodes :=
      c.graph.closed nd hnd p hsrc (by rintro hop; simp [hop, isViewOp] at h)
    exact ih ⟨p, hp, mem_sources_of_src0 hq⟩

theorem Result.own (h : Result c m p) : c.graph.viewSrc p = none := by
  rcases h with hret | ⟨hown, _⟩
  · obtain ⟨t, _, rfl⟩ := List.mem_map.mp (List.mem_filter.mp hret).1
    exact root_own t
  · exact hown

variable [DecidableEq Dev] {D : Dev} {a b : ℕ}

theorem not_crosses (h : ∀ nd ∈ c.graph.nodes, p ∉ (c.graph.tensor nd).sources) :
    crossesLayer c p = false := by
  refine Bool.eq_false_iff.mpr fun hcross => ?_
  obtain ⟨nd, hnd, hcond⟩ := List.any_eq_true.mp hcross
  simp only [Bool.and_eq_true, decide_eq_true_eq] at hcond
  exact h nd hnd hcond.1.1.1

/-- Nothing made behind a result shares bytes with it. -/
theorem result_apart (h : Regular c m) (hres : Result c m x) (hx : place c m D x = some a)
    (hy : place c m D y = some b) (hlt : pos c x < pos c y) :
    Apart a (c.graph.nbytes x) b (c.graph.nbytes y) := by
  have hxy : x ≠ y := fun heq => Nat.lt_irrefl _ (heq ▸ hlt)
  obtain ⟨r, hxr⟩ := placedIn_of_place hx
  obtain ⟨r', hyr⟩ := placedIn_of_place hy
  have hxin := inside_of_placedIn (h.fits D) hxr
  have hyin := inside_of_placedIn (h.fits D) hyr
  by_cases hne : r = r'
  · subst hne
    cases hxr with
    | carryN hxo =>
      cases hyr with
      | carryN hyo =>
        have hapart := (laid c m D).carryN_apart _ hxo _ hyo hxy
        simp only [Apart] at hapart ⊢
        omega
    | carry1 hxo =>
      obtain ⟨⟨_, hcross, _⟩, _, hnot⟩ := mem_carry1.mp (mem_onDevice.mp (carry1_entry hxo)).1
      rcases hres with hret | ⟨_, _, hunread⟩
      · exact absurd hret hnot
      · exact absurd hcross (by simp [not_crosses hunread])
    | sync hxo =>
      have hsync := (mem_sync.mp (mem_onDevice.mp (sync_entry hxo)).1).2
      simp only [isSync, isCarry, Bool.and_eq_true, Bool.not_eq_true', Bool.or_eq_false_iff,
        decide_eq_false_iff_not] at hsync
      rcases hres with hret | ⟨_, _, hunread⟩
      · exact absurd hret hsync.1.2.2
      · obtain ⟨nd, hnd, hcond⟩ := List.any_eq_true.mp hsync.2
        simp only [Bool.and_eq_true, List.any_eq_true, decide_eq_true_eq] at hcond
        obtain ⟨_, src, hsrc, rfl⟩ := hcond
        obtain ⟨nd', hnd', hmem'⟩ := read_of_producer ⟨nd, hnd, hsrc⟩
        exact absurd hmem' (hunread nd' hnd')
    | scratch i u hi hxo =>
      cases hyr with
      | scratch j v hj hyo =>
        obtain ⟨hxu, _, hcarry, _⟩ := mem_windowNodes.mp (window_entry hxo)
        obtain ⟨hyv, _⟩ := mem_windowNodes.mp (window_entry hyo)
        rcases hres with hret | ⟨_, ⟨w, hw, hxlast⟩, hunread⟩
        · simp [isCarry, hret] at hcarry
        · rw [List.getLast?_eq_getElem?] at hw
          have hlast := unit_inj h.closures hi hw hxu hxlast
          have hjlt := (List.getElem?_eq_some_iff.mp hj).1
          have hij : i = j := by
            by_contra hij
            have hback := pos_lt_of_unit h.closures hj hi hyv hxu (by omega)
            omega
          subst hij
          rw [hi] at hj
          cases hj
          have hend : liveEnd c m u x = (unitOrder u).length := by
            refine liveEnd_unread fun nd s src hsrc hnd hresolve => ?_
            rw [unitOrder_eq (nodup_unit h.closures hi)] at hnd
            obtain ⟨l, hl⟩ := nlayer_of_unitOf h.closures (unitOf_eq h.closures hi hnd)
            obtain ⟨nd', hnd', hmem'⟩ := read_of_producer ⟨nd, mem_nodes hl, hsrc⟩
            rw [LayoutRewrite.producer_of_resolve c m hresolve] at hmem'
            exact hunread nd' hnd' hmem'
          have hytime := etime_lt_length h.closures hi hyv
          have hyend := etime_le_liveEnd (m := m) h.closures hi hyv
          rw [pos_eq h.closures hi hxu, pos_eq h.closures hi hyv] at hlt
          have hmeets : etime u x ≤ liveEnd c m u y ∧ etime u y ≤ liveEnd c m u x := by omega
          have hapart := window_apart hxo hyo hxy hmeets
          simp only [Apart] at hapart ⊢
          omega
  · exact (laid c m D).inside_apart r r' hne _ _ _ _ hxin hyin

end results

section run

variable {V : Type*} {K : Kernels c.graph V} {fusion : ℕ → Fusion} {pre post : List ℕ}

theorem computed_eq (hlayers : c.layers ≠ []) (hfront : FrontOrdered c) :
    computed c fusion = (order c).filter fun nd => !isAliasOp (c.graph.op nd) := by
  rw [computed, execSteps_eq hlayers, frontOrdered_iff.mp hfront, order]

theorem mem_computed (h : Closures c) (hlayers : c.layers ≠ []) (hfront : FrontOrdered c) :
    nd ∈ computed c fusion ↔ (c.nlayer nd).isSome = true ∧ isAliasOp (c.graph.op nd) = false := by
  rw [computed_eq hlayers hfront, List.mem_filter, mem_order h, Option.isSome_iff_exists]
  simp

theorem computed_pos (h : Closures c) (hlayers : c.layers ≠ []) (hfront : FrontOrdered c) :
    (computed c fusion).Pairwise fun p q => pos c p < pos c q := by
  rw [computed_eq hlayers hfront]
  exact (order_pos h).filter _

theorem reads_of_mem (hclosures : Closures c) (hlayers : c.layers ≠ []) (hfront : FrontOrdered c)
    (hnd : nd ∈ computed c fusion) (hp : p ∈ (program c K).reads nd) (hcap : (c.nlayer p).isSome = true) :
    ∃ src, Reads c nd src p := by
  obtain ⟨src, hsrc, hroot⟩ := List.mem_map.mp hp
  obtain ⟨hnode, hcomputes⟩ := (mem_computed hclosures hlayers hfront).mp hnd
  exact ⟨src, hnode, hcomputes, hsrc, hroot, hcap⟩

/-- Before a tensor is made nothing waits for it. -/
theorem not_live_of_mem (hclosures : Closures c) (hord : Ordered c) (hlayers : c.layers ≠ [])
    (hfront : FrontOrdered c) (hsuffix : post <:+ computed c fusion) (hy : y ∈ post)
    (hown : c.graph.viewSrc y = none) (keep : ℕ → Prop) : ¬ Live (program c K) keep post y := by
  have hroot : (program c K).target y = y := Graph.root_of_own hown
  have hmem := fun {j : ℕ} (hj : j ∈ post) => hsuffix.subset hj
  have hcap := ((mem_computed hclosures hlayers hfront).mp (hmem hy)).1
  have hbehind : ∀ j ∈ post, y ∈ (program c K).reads j → pos c y < pos c j := by
    intro j hj hread
    obtain ⟨src, hr⟩ := reads_of_mem hclosures hlayers hfront (hmem hj) hread hcap
    exact hord j src y hr
  obtain ⟨A, B, rfl⟩ := List.append_of_mem hy
  have hsorted := (computed_pos hclosures hlayers hfront).sublist hsuffix.sublist
  have hbefore : ∀ j ∈ A, pos c j < pos c y :=
    fun j hj => (List.pairwise_append.mp hsorted).2.2 j hj y List.mem_cons_self
  have hmade := @not_live_of_made ℕ ℕ V (program c K) keep A B y
  rw [hroot] at hmade
  refine hmade (fun j hj hread => ?_) (fun hread => ?_)
  · have hlt := hbehind j (List.mem_append_left _ hj) hread
    have hlt' := hbefore j hj
    omega
  · exact Nat.lt_irrefl _ (hbehind y hy hread)

theorem own_of_live (h : Live (program c K) (Kept c m) post y) (hcap : (c.nlayer y).isSome = true) :
    c.graph.viewSrc y = none ∧ ((∃ j ∈ post, y ∈ (program c K).reads j) ∨ Result c m y) := by
  rcases h.reader with ⟨j, hj, hread⟩ | hkept
  · obtain ⟨src, _, rfl⟩ := List.mem_map.mp hread
    exact ⟨root_own src, .inl ⟨j, hj, hread⟩⟩
  · rcases hkept with hres | hnone
    · exact ⟨hres.own, .inr hres⟩
    · rw [hnone] at hcap
      cases hcap

variable [DecidableEq Dev]

/-- The buffers of two tensors are one only if both are in the arena of a device. -/
theorem loc_eq (hne : x ≠ y) (h : (loc c m x).1 = (loc c m y).1) :
    (c.nlayer x).isSome = true ∧ (c.nlayer y).isSome = true ∧ nodeDev c m x = nodeDev c m y := by
  unfold loc at h
  split at h
  · split at h
    · rename_i hx hy
      exact ⟨hx, hy, Buffer.arena.inj h⟩
    · cases h
  · split at h
    · cases h
    · exact absurd (Buffer.other.inj h) hne

theorem loc_of_captured (hclosures : Closures c) (hl : c.nlayer p = some l)
    (hown : c.graph.viewSrc p = none) :
    ∃ a, place c m (nodeDev c m p) p = some a ∧ loc c m p = (.arena (nodeDev c m p), a) := by
  obtain ⟨a, ha⟩ := Option.isSome_iff_exists.mp (place_isSome (m := m) hclosures hl hown)
  exact ⟨a, ha, by simp [loc, hl, ha]⟩

omit [DecidableEq Dev] in
theorem reads_in_place (hclosures : Closures c) (hlayers : c.layers ≠ []) (hfront : FrontOrdered c)
    (hnd : nd ∈ computed c fusion) (hcap : (c.nlayer (c.graph.root nd)).isSome = true) :
    c.graph.root nd = nd ∨ ∃ src, Reads c nd src (c.graph.root nd) := by
  by_cases hown : c.graph.viewSrc nd = none
  · exact .inl (Graph.root_of_own hown)
  · obtain ⟨hnode, hcomputes⟩ := (mem_computed hclosures hlayers hfront).mp hnd
    obtain ⟨q, hq, halias⟩ := (c.graph.conforms nd).alias_src hown
    exact .inr ⟨q, hnode, hcomputes, hq, (Graph.root_aliasOf halias).symm, hcap⟩

theorem run_safe (h : Regular c m) (hlayers : c.layers ≠ []) (hfront : FrontOrdered c) :
    Safe (program c K) (loc c m) (Kept c m) (computed c fusion) := by
  intro i post hsuffix y hne hy hbuf
  obtain ⟨hx, hycap, hdev⟩ := loc_eq hne.symm hbuf
  have hi : i ∈ computed c fusion := hsuffix.subset List.mem_cons_self
  have hsorted : (computed c fusion).Pairwise fun p q => pos c p < pos c q :=
    computed_pos h.closures hlayers hfront
  have hbehind : ∀ j ∈ i :: post, pos c i ≤ pos c j := by
    intro j hj
    rcases List.mem_cons.mp hj with rfl | hj
    · exact Nat.le_refl _
    · exact Nat.le_of_lt ((List.pairwise_cons.mp (hsorted.sublist hsuffix.sublist)).1 j hj)
  have hlive : Live (program c K) (Kept c m) (i :: post) y := hy.imp_right fun hlive => ⟨hne, hlive⟩
  obtain ⟨hyown, hwaits⟩ := own_of_live hlive hycap
  obtain ⟨lx, hxl⟩ := Option.isSome_iff_exists.mp hx
  obtain ⟨ly, hyl⟩ := Option.isSome_iff_exists.mp hycap
  obtain ⟨a, ha, hxloc⟩ := loc_of_captured (m := m) h.closures hxl (root_own i)
  obtain ⟨b, hb, hyloc⟩ := loc_of_captured (m := m) h.closures hyl hyown
  have hplace := reads_in_place h.closures hlayers hfront hi hx
  rw [← hdev] at hb
  rw [hxloc, hyloc]
  by_contra hshare
  rcases Nat.lt_trichotomy (pos c (c.graph.root i)) (pos c y) with hlt | heq | hgt
  · -- made before y: then y is made behind the node, and what waits for y comes later still
    have hiy : pos c i < pos c y := by
      rcases hplace with hroot | ⟨src, hr⟩
      · have hlt' := hlt
        rw [hroot] at hlt'
        exact hlt'
      · exact readers_end h hxl hyl ha hb hlt hshare hr
    have hymem : y ∈ computed c fusion :=
      (mem_computed h.closures hlayers hfront).mpr ⟨hycap, computes_of_own hyown⟩
    obtain ⟨pre, hpre⟩ := hsuffix
    rw [← hpre, List.mem_append] at hymem
    rw [← hpre] at hsorted
    rcases hymem with hymem | hymem
    · have hback := (List.pairwise_append.mp hsorted).2.2 y hymem i List.mem_cons_self
      omega
    · exact not_live_of_mem h.closures h.ordered hlayers hfront ⟨pre, hpre⟩ hymem hyown _ hlive
  · exact hne (pos_inj h.closures hxl heq).symm
  · -- made behind y, whose readers are done
    have hix : pos c (c.graph.root i) ≤ pos c i := by
      rcases hplace with hroot | ⟨src, hr⟩
      · exact Nat.le_of_eq (congrArg (pos c) hroot)
      · exact Nat.le_of_lt (h.ordered i src _ hr)
    have hflip : ¬ Apart b (c.graph.nbytes y) a (c.graph.nbytes (c.graph.root i)) :=
      fun hapart => hshare hapart.symm
    rcases hwaits with ⟨j, hj, hread⟩ | hres
    · obtain ⟨src, hr⟩ := reads_of_mem h.closures hlayers hfront (hsuffix.subset hj) hread hycap
      have hend : pos c j < pos c (c.graph.root i) := readers_end h hyl hxl hb ha hgt hflip hr
      have hle := hbehind j hj
      omega
    · exact hflip (result_apart h hres hb ha hgt)

theorem run_start (h : Regular c m) (hlayers : c.layers ≠ []) (hfront : FrontOrdered c)
    {mem : Buffer Dev → ℕ → V} {st : ℕ → ℕ → V}
    (hstart : ∀ p, c.nlayer p = none → ∀ k < c.graph.nbytes p, mem (.other p) k = st p k) :
    Agree (program c K) (loc c m) (Live (program c K) (Kept c m) (computed c fusion)) mem st := by
  intro y hlive k hk
  cases hcap : c.nlayer y with
  | none =>
    have hloc : loc c m y = (.other y, 0) := by simp [loc, hcap]
    simp only [contents, hloc, Nat.zero_add]
    exact hstart y hcap k hk
  | some l =>
    have hsome : (c.nlayer y).isSome = true := by rw [hcap]; rfl
    obtain ⟨hown, _⟩ := own_of_live hlive hsome
    have hmem : y ∈ computed c fusion :=
      (mem_computed h.closures hlayers hfront).mpr ⟨hsome, computes_of_own hown⟩
    exact absurd hlive
      (not_live_of_mem h.closures h.ordered hlayers hfront List.suffix_rfl hmem hown _)

end run

/-- Whatever the arenas hold at first, every node of the run computes what it computes when each tensor
has a buffer of its own; no node writes over another tensor that it reads; and the results and
all that is not captured are the same at the end. -/
theorem arena_run (c : Capture) (m : Placement Dev) [DecidableEq Dev] (fusion : ℕ → Fusion) {V : Type*}
    (K : Kernels c.graph V) (h : Regular c m) (hlayers : c.layers ≠ []) (hfront : FrontOrdered c)
    (mem : Buffer Dev → ℕ → V) (st : ℕ → ℕ → V)
    (hstart : ∀ p, c.nlayer p = none → ∀ k < c.graph.nbytes p, mem (.other p) k = st p k) :
    (∀ pre nd post, computed c fusion = pre ++ nd :: post → ∀ k < c.graph.nbytes (c.graph.root nd),
        contents (loc c m) (run (program c K) (loc c m) (pre ++ [nd]) mem) (c.graph.root nd) k =
          ownRun (program c K) (pre ++ [nd]) st (c.graph.root nd) k) ∧
      (∀ nd ∈ computed c fusion, ∀ src ∈ (c.graph.tensor nd).sources, c.graph.root src ≠ c.graph.root nd →
        Clear (program c K) (loc c m) (c.graph.root nd) (c.graph.root src)) ∧
      ∀ p, Result c m p ∨ c.nlayer p = none → ∀ k < c.graph.nbytes p,
        contents (loc c m) (run (program c K) (loc c m) (computed c fusion) mem) p k =
          ownRun (program c K) (computed c fusion) st p k := by
  have hsafe : Safe (program c K) (loc c m) (Kept c m) (computed c fusion) := run_safe h hlayers hfront
  obtain ⟨hsteps, hend⟩ := run_agree hsafe (run_start h hlayers hfront hstart)
  refine ⟨hsteps, fun nd hnd src hsrc hne => ?_, hend⟩
  obtain ⟨pre, post, hsplit⟩ := List.append_of_mem hnd
  exact hsafe nd post ⟨pre, hsplit.symm⟩ _ hne (.inl (List.mem_map_of_mem hsrc))

section twoLayers

/-- Two layers: a norm, the experts, their sum and the residual. -/
def layersGraph : Graph :=
  Graph.ofList
    [{ name := "inp_embd" },
      { op := .other 1, src := [some 0], nbytes := 64, name := "norm-0" },
      { op := .other 2, src := [some 1], nbytes := 64, name := "ffn_moe_up-0" },
      { op := .other 3, src := [some 2], nbytes := 64, name := "ffn_moe_out-0" },
      { op := .add, src := [some 3, some 1], nbytes := 64, name := "l_out-0" },
      { op := .other 1, src := [some 4], nbytes := 64, name := "norm-1" },
      { op := .other 2, src := [some 5], nbytes := 64, name := "ffn_moe_up-1" },
      { op := .other 3, src := [some 6], nbytes := 64, name := "ffn_moe_out-1" },
      { op := .add, src := [some 7, some 5], nbytes := 64, name := "l_out-1" }]
    [1, 2, 3, 4, 5, 6, 7, 8] (by decide) (by decide)

theorem exec_sorted_layers :
    ([(0, [2, 3]), (1, [6, 7])] : List (ℕ × List ℕ)).Pairwise fun a b => a.1 < b.1 := by decide

def layersCapture : Capture where
  graph := layersGraph
  official _ := none
  exec := [(0, [2, 3]), (1, [6, 7])]
  exec_sorted := exec_sorted_layers
  exec_nodes := by decide

def layersPlacement : Placement Unit where
  physical _ := ()
  leafDev _ := none
  host := ()
  closureDev := ()
  exportRetained := [3]
  compactPack := true

/-- The sum of the operands, byte by byte. -/
def sums (g : Graph) : Kernels g ℕ where
  apply nd f k := ((g.tensor nd).sources.map fun src =>
    if k < g.nbytes (g.root src) then f (g.root src) k else 0).sum + nd
  apply_congr nd f f' h k _ := by
    refine congrArg (·.sum + nd) (List.map_congr_left fun src hsrc => ?_)
    split
    · exact h src hsrc k ‹_›
    · rfl

theorem forall_reads {Q : ℕ → ℕ → ℕ → Prop} (h : ∀ nd ∈ c.graph.nodes, ∀ src ∈ (c.graph.tensor nd).sources,
    (c.nlayer (c.graph.root src)).isSome = true → Q nd src (c.graph.root src)) :
    ∀ nd src p, Reads c nd src p → Q nd src p := by
  intro nd src p hr
  obtain ⟨l, _, hl, _⟩ := hr.layers
  have hcap := hr.captured
  rw [← hr.storage] at hcap ⊢
  exact h nd (mem_nodes hl) src hr.source hcap

theorem regular_layers : Regular layersCapture layersPlacement where
  closures := ⟨by decide, by decide⟩
  ordered := forall_reads (by decide)
  sameDevice _ _ _ _ _ := rfl
  traced :=
    { layer := forall_reads (by decide)
      unit := forall_reads (by decide)
      own := forall_reads (by decide)
      real := by decide }
  fits D := by
    cases D
    exact ⟨by decide, by decide⟩

theorem frontOrdered_layers : FrontOrdered layersCapture := by
  rw [frontOrdered_iff]
  decide

/-- The norms of the two layers lie in the same bytes, and so do two results of the second. -/
theorem arena_run_layers :
    place layersCapture layersPlacement () 1 = place layersCapture layersPlacement () 5 ∧
      place layersCapture layersPlacement () 6 = place layersCapture layersPlacement () 8 ∧
      ∀ (mem : Buffer Unit → ℕ → ℕ) (p : ℕ), p = 3 ∨ p = 8 → ∀ k < 64, contents (loc layersCapture layersPlacement)
        (run (program layersCapture (sums layersGraph)) (loc layersCapture layersPlacement)
          (computed layersCapture fun _ => .nothing) mem) p k =
        ownRun (program layersCapture (sums layersGraph)) (computed layersCapture fun _ => .nothing)
          (fun p => mem (.other p)) p k := by
  refine ⟨by decide, by decide, fun mem p hp => ?_⟩
  have hend := (arena_run layersCapture layersPlacement (fun _ => .nothing) (sums layersGraph)
    regular_layers (by decide) frontOrdered_layers mem (fun p => mem (.other p)) fun _ _ _ _ => rfl).2.2
  have hres : Result layersCapture layersPlacement p := by
    rcases hp with rfl | rfl
    · exact .inl (by decide)
    · exact .inr ⟨by decide, ⟨⟨[6, 7, 8], some 1⟩, by decide, by decide⟩, by decide⟩
  have hsize : layersGraph.nbytes p = 64 := by rcases hp with rfl | rfl <;> rfl
  have hall := hend p (.inl hres)
  rw [show layersCapture.graph.nbytes p = 64 from hsize] at hall
  exact hall

end twoLayers

end ArenaRuns
end StreamMoE
