import StreamMoE.ArenaRuns

/-! When tensors that share bytes of the arena are never alive together, whatever their sizes: every read
of a tensor's storage is held against the reads that `layout_arena` counts. -/
namespace StreamMoE
namespace ArenaLiveness

open ByteMemory ComputeGraph LayerPlan LayerPlan.Capture Packing ArenaLayout ArenaRegions UnitOrder
open ArenaPlaces ArenaLifetimes

section statement

variable {Dev : Type*} [DecidableEq Dev] (c : Capture) (m : Placement Dev)

/-- `y` is made behind `x` and all its readers. -/
structure After (x y : ℕ) : Prop where
  made : pos c x < pos c y
  read : ∀ nd src, Reads c nd src x → pos c nd < pos c y

/-- Tensors of a device that share bytes are not alive together. -/
def LiveApart : Prop := ∀ x y a b, x ≠ y → (c.nlayer x).isSome = true → (c.nlayer y).isSome = true →
  nodeDev c m x = nodeDev c m y → place c m (nodeDev c m x) x = some a →
  place c m (nodeDev c m y) y = some b → ¬ Apart a (c.graph.nbytes x) b (c.graph.nbytes y) →
    After c x y ∨ After c y x

/-- Where a tensor is kept, with the layer or the unit it is laid out with. -/
inductive Home
  | carry1 (layer : ℕ)
  | carryN
  | sync (unit : Option ℕ)
  | scratch (unit : Option ℕ)
  deriving DecidableEq, Repr

def home (p : ℕ) : Home :=
  if p ∈ retained c m then .carryN
  else if crossesLayer c p then if isPipelined c p then .carry1 (layerOf c p) else .carryN
  else if crossesUnit c p then .sync (unitOf c p)
  else .scratch (unitOf c p)

/-- A source of `nd` leads to `x` through views and copies, unless it is replaced by a transfer. -/
def Counted (nd x : ℕ) : Prop := ∃ o ∈ operands c m nd, resolve c m o = .tensor x

instance (nd x : ℕ) : Decidable (Counted c m nd x) := by
  unfold Counted
  infer_instance

/-- In its unit `x` counts as read at or behind `y`, or as read by nobody. -/
def HeldTo (x y : ℕ) : Prop :=
  (∃ nd ∈ c.graph.nodes, unitOf c nd = unitOf c x ∧ Counted c m nd x ∧ pos c y ≤ pos c nd) ∨
    ∀ nd ∈ c.graph.nodes, unitOf c nd = unitOf c x → ¬ Counted c m nd x

instance (x y : ℕ) : Decidable (HeldTo c m x y) := by
  unfold HeldTo
  infer_instance

/-- The layout does not put the later `y` over `x`. -/
def KeptApart (x y : ℕ) : Prop :=
  match home c m x, home c m y with
  | .carry1 l, .carry1 l' => l = l' ∨ l % 2 ≠ l' % 2
  | .sync u, .sync u' => u = u'
  | .scratch u, .scratch u' => u = u' ∧ (m.compactPack = true → HeldTo c m x y)
  | _, _ => True

instance (x y : ℕ) : Decidable (KeptApart c m x y) := by
  unfold KeptApart
  split <;> infer_instance

/-- A tensor that is made while another of its device is still to be read is kept apart from it. -/
def Ruled : Prop := ∀ x y, (c.nlayer x).isSome = true → (c.nlayer y).isSome = true →
  c.graph.viewSrc x = none → c.graph.viewSrc y = none → nodeDev c m x = nodeDev c m y →
  pos c x < pos c y → (∃ nd src, Reads c nd src x ∧ pos c y ≤ pos c nd) → KeptApart c m x y

/-- The same capture with tensors of these sizes. -/
def resized (size : ℕ → ℕ) : Capture where
  graph :=
    { tensor := fun p => { c.graph.tensor p with nbytes := size p }
      addr := c.graph.addr
      nodes := c.graph.nodes
      conforms := fun p =>
        have h := c.graph.conforms p
        ⟨h.src_lt, h.view_lt, h.view_root, h.own_offs, h.cont_own, h.src0_some, h.alias_src0, h.alias_src⟩
      nodup := c.graph.nodup
      topological := c.graph.topological
      closed := c.graph.closed }
  official := c.official
  exec := c.exec
  exec_sorted := c.exec_sorted
  exec_nodes := c.exec_nodes

end statement

section homes

variable {Dev : Type*} {c : Capture} {m : Placement Dev} {D : Dev} {x y l a off : ℕ}

theorem retained_own (h : x ∈ retained c m) : c.graph.viewSrc x = none := by
  obtain ⟨t, _, rfl⟩ := List.mem_map.mp (List.mem_of_mem_filter h)
  exact root_own t

variable [DecidableEq Dev]

theorem home_carry1 (h : (x, off) ∈ carry1Offsets c m D) : home c m x = .carry1 (layerOf c x) := by
  obtain ⟨⟨_, hcross, _⟩, hpipe, hret⟩ := mem_carry1.mp (mem_onDevice.mp (carry1_entry h)).1
  rw [home, if_neg hret, if_pos hcross, if_pos hpipe]

theorem carryN_entry (h : (x, off) ∈ carryNOffsets c m D) : x ∈ onDevice c m D (carryN c m) := by
  rw [← map_fst_carryN]
  exact List.mem_map_of_mem h

theorem home_carryN (h : (x, off) ∈ carryNOffsets c m D) : home c m x = .carryN := by
  unfold home
  rcases mem_carryN.mp (mem_onDevice.mp (carryN_entry h)).1 with hret | ⟨⟨_, hcross, _⟩, hpipe⟩
  · rw [if_pos hret]
  · split
    · rfl
    · simp [hpipe]

theorem home_sync (h : (x, off) ∈ syncOffsets c m D) : home c m x = .sync (unitOf c x) := by
  have hsync := (mem_sync.mp (mem_onDevice.mp (sync_entry h)).1).2
  simp only [isSync, isCarry, Bool.and_eq_true, Bool.not_eq_true', Bool.or_eq_false_iff,
    decide_eq_false_iff_not] at hsync
  obtain ⟨⟨_, hcross, hret⟩, hunit⟩ := hsync
  rw [home, if_neg hret, if_neg (Bool.not_eq_true _ ▸ hcross), if_pos hunit]

theorem home_scratch (hc : Closures c) {u : SubmissionUnit} {i : ℕ} (hi : c.units[i]? = some u)
    (h : (x, off) ∈ (window c m D u).1) : home c m x = .scratch (some i) := by
  obtain ⟨hmem, hown, hcarry, hsync, _⟩ := mem_windowNodes.mp (window_entry h)
  have hunit := unitOf_eq hc hi hmem
  simp only [isSync, hunit, hown, hcarry, Option.isSome_some, Option.isNone_none, Bool.not_false,
    Bool.true_and] at hsync
  simp only [isCarry, Bool.or_eq_false_iff, decide_eq_false_iff_not] at hcarry
  rw [home, if_neg hcarry.2, if_neg (Bool.not_eq_true _ ▸ hcarry.1), if_neg (Bool.not_eq_true _ ▸ hsync), hunit]

/-- What is placed has storage of its own. -/
theorem own_of_place (h : place c m D x = some a) : c.graph.viewSrc x = none := by
  obtain ⟨r, hr⟩ := placedIn_of_place h
  cases hr with
  | carry1 hx => exact (mem_carry1.mp (mem_onDevice.mp (carry1_entry hx)).1).1.2.2
  | carryN hx =>
    rcases mem_carryN.mp (mem_onDevice.mp (carryN_entry hx)).1 with hret | ⟨⟨_, _, hown⟩, _⟩
    · exact retained_own hret
    · exact hown
  | sync hx =>
    have hsync := (mem_sync.mp (mem_onDevice.mp (sync_entry hx)).1).2
    simp only [isSync, Bool.and_eq_true, Option.isNone_iff_eq_none] at hsync
    exact hsync.1.1.2
  | scratch i u hi hx => exact (mem_windowNodes.mp (window_entry hx)).2.1

end homes

section recorded

variable {Dev : Type*} [DecidableEq Dev] {c : Capture} {m : Placement Dev} {x y i nd : ℕ} {u : SubmissionUnit}

theorem mem_unit_of_unitOf (hc : Closures c) (hi : c.units[i]? = some u) (h : unitOf c nd = some i) :
    nd ∈ u.nodes := by
  obtain ⟨l, hl⟩ := nlayer_of_unitOf hc h
  obtain ⟨j, v, hj, hv⟩ := exists_unit hc hl
  rw [unitOf_eq hc hj hv] at h
  cases h
  rw [hi] at hj
  cases hj
  exact hv

/-- The recorded end of `x` reaches `y` exactly if `x` is held to `y`. -/
theorem heldTo_iff (hc : Closures c) (hi : c.units[i]? = some u) (hx : x ∈ u.nodes) (hy : y ∈ u.nodes)
    (hlt : pos c x < pos c y) : HeldTo c m x y ↔ etime u y ≤ liveEnd c m u x := by
  have htimes : ∀ {p q}, p ∈ u.nodes → q ∈ u.nodes → (pos c p ≤ pos c q ↔ etime u p ≤ etime u q) := by
    intro p q hp hq
    rw [pos_eq hc hi hp, pos_eq hc hi hq]
    omega
  have hunit : ∀ {nd}, nd ∈ c.graph.nodes → (unitOf c nd = unitOf c x ↔ nd ∈ u.nodes) := by
    intro nd _
    rw [unitOf_eq hc hi hx]
    exact ⟨mem_unit_of_unitOf hc hi, unitOf_eq hc hi⟩
  have hnode : ∀ {nd}, nd ∈ u.nodes → nd ∈ c.graph.nodes := by
    intro nd hnd
    obtain ⟨l, hl⟩ := nlayer_of_unitOf hc (unitOf_eq hc hi hnd)
    exact mem_nodes hl
  have htime : ∀ {t}, t ∈ ((unitOrder u).filter fun nd =>
      (operands c m nd).any fun o => decide (resolve c m o = .tensor x)).map (etime u) ↔
        ∃ nd ∈ u.nodes, Counted c m nd x ∧ etime u nd = t := by
    intro t
    simp only [unitOrder_eq (nodup_unit hc hi), List.mem_map, List.mem_filter, List.any_eq_true,
      decide_eq_true_eq, and_assoc, Counted]
  unfold HeldTo
  cases hlast : lastEtime c m u x with
  | none =>
    have hnil := List.max?_eq_none_iff.mp hlast
    have hend : liveEnd c m u x = (unitOrder u).length := by simp only [liveEnd, hlast]
    refine iff_of_true (.inr fun nd hnd hsame hcount => ?_)
      (hend ▸ Nat.le_of_lt (etime_lt_length hc hi hy))
    have hmem := htime.mpr ⟨nd, (hunit hnd).mp hsame, hcount, rfl⟩
    rw [hnil] at hmem
    cases hmem
  | some t =>
    obtain ⟨hmem, hmax⟩ := List.max?_eq_some_iff.mp hlast
    obtain ⟨last, hlastu, hcount, ht⟩ := htime.mp hmem
    have hend : liveEnd c m u x = max t (etime u x) := by simp only [liveEnd, hlast]
    have hxy : etime u x < etime u y := by
      rw [pos_eq hc hi hx, pos_eq hc hi hy] at hlt
      omega
    constructor
    · rintro (⟨nd, hnd, hsame, hread, hle⟩ | hnone)
      · have hndu := (hunit hnd).mp hsame
        have hbefore := hmax _ (htime.mpr ⟨nd, hndu, hread, rfl⟩)
        have hyle := (htimes hy hndu).mp hle
        omega
      · exact absurd hcount (hnone last (hnode hlastu) ((hunit (hnode hlastu)).mpr hlastu))
    · intro hle
      refine .inl ⟨last, hnode hlastu, (hunit (hnode hlastu)).mpr hlastu, hcount, ?_⟩
      exact (htimes hy hlastu).mpr (by omega)

end recorded

section sufficient

variable {Dev : Type*} [DecidableEq Dev] {c : Capture} {m : Placement Dev} {D : Dev} {x y a b : ℕ} {r r' : Region}

theorem window_apart_plain {u : SubmissionUnit} {p q : ℕ × ℕ} (hpack : m.compactPack = false)
    (hp : p ∈ (window c m D u).1) (hq : q ∈ (window c m D u).1) (hne : p.1 ≠ q.1) :
    Apart p.2 (c.graph.nbytes p.1) q.2 (c.graph.nbytes q.1) := by
  simp only [window, hpack, Bool.false_eq_true, if_false] at hp hq
  exact @regionOffsets_apart ℕ Unit _ (fun _ => ()) _ _ _ _ _ _ hp hq hne rfl

theorem window_apart_held (hc : Closures c) {i : ℕ} {u : SubmissionUnit} (hi : c.units[i]? = some u)
    (hx : (x, a) ∈ (window c m D u).1) (hy : (y, b) ∈ (window c m D u).1) (hlt : pos c x < pos c y)
    (h : m.compactPack = true → HeldTo c m x y) : Apart a (c.graph.nbytes x) b (c.graph.nbytes y) := by
  have hne : x ≠ y := fun heq => Nat.lt_irrefl _ (heq ▸ hlt)
  cases hpack : m.compactPack with
  | false => exact window_apart_plain hpack hx hy hne
  | true =>
    have hxu := (mem_windowNodes.mp (window_entry hx)).1
    have hyu := (mem_windowNodes.mp (window_entry hy)).1
    have hend := (heldTo_iff hc hi hxu hyu hlt).mp (h hpack)
    have hyend := etime_le_liveEnd (m := m) hc hi hyu
    rw [pos_eq hc hi hxu, pos_eq hc hi hyu] at hlt
    have hstart : etime u x ≤ liveEnd c m u y := by omega
    exact window_apart hx hy hne ⟨hstart, hend⟩

/-- What is kept apart shares no byte. -/
theorem apart_of_kept (hc : Closures c) (hfits : Fits c m D) (hx : PlacedIn c m D x r a)
    (hy : PlacedIn c m D y r' b) (hlt : pos c x < pos c y) (hkept : KeptApart c m x y) :
    Apart a (c.graph.nbytes x) b (c.graph.nbytes y) := by
  have hne : x ≠ y := fun heq => Nat.lt_irrefl _ (heq ▸ hlt)
  have hxin := inside_of_placedIn hfits hx
  have hyin := inside_of_placedIn hfits hy
  by_cases hr : r = r'
  · have hshift : ∀ {s o o'}, Apart o (c.graph.nbytes x) o' (c.graph.nbytes y) →
        Apart (s + o) (c.graph.nbytes x) (s + o') (c.graph.nbytes y) := by
      intro s o o' hapart
      simp only [Apart] at hapart ⊢
      omega
    unfold KeptApart at hkept
    cases hx with
    | carry1 hxo =>
      cases hy with
      | carry1 hyo =>
        rw [home_carry1 hxo, home_carry1 hyo] at hkept
        rcases hkept with hlayer | hparity
        · exact (laid c m D).carry1_apart _ hxo _ hyo hne hlayer
        · simp only [Region.carry1.injEq, decide_eq_decide] at hr
          omega
      | _ => cases hr
    | carryN hxo =>
      cases hy with
      | carryN hyo => exact hshift ((laid c m D).carryN_apart _ hxo _ hyo hne)
      | _ => cases hr
    | sync hxo =>
      cases hy with
      | sync hyo =>
        rw [home_sync hxo, home_sync hyo] at hkept
        exact hshift ((laid c m D).sync_apart _ hxo _ hyo hne hkept)
      | _ => cases hr
    | scratch i u hi hxo =>
      cases hy with
      | scratch j v hj hyo =>
        rw [home_scratch hc hi hxo, home_scratch hc hj hyo] at hkept
        obtain ⟨hunit, hheld⟩ := hkept
        cases hunit
        rw [hi] at hj
        cases hj
        exact hshift (window_apart_held hc hi hxo hyo hlt hheld)
      | _ => cases hr
  · exact (laid c m D).inside_apart r r' hr _ _ _ _ hxin hyin

theorem after_of_ruled (hc : Closures c) (hfits : ∀ D, Fits c m D) (h : Ruled c m)
    (hxl : (c.nlayer x).isSome = true) (hyl : (c.nlayer y).isSome = true)
    (hdev : nodeDev c m x = nodeDev c m y) (hx : place c m (nodeDev c m x) x = some a)
    (hy : place c m (nodeDev c m y) y = some b) (hlt : pos c x < pos c y)
    (hshare : ¬ Apart a (c.graph.nbytes x) b (c.graph.nbytes y)) : After c x y := by
  refine ⟨hlt, fun nd src hr => ?_⟩
  by_contra hnot
  have hkept := h x y hxl hyl (own_of_place hx) (own_of_place hy) hdev hlt ⟨nd, src, hr, by omega⟩
  rw [← hdev] at hy
  obtain ⟨_, hxr⟩ := placedIn_of_place hx
  obtain ⟨_, hyr⟩ := placedIn_of_place hy
  exact hshare (apart_of_kept hc (hfits _) hxr hyr hlt hkept)

theorem liveApart_of_ruled (hc : Closures c) (hfits : ∀ D, Fits c m D) (h : Ruled c m) : LiveApart c m := by
  intro x y a b hne hxl hyl hdev hx hy hshare
  obtain ⟨l, hl⟩ := Option.isSome_iff_exists.mp hxl
  rcases Nat.lt_trichotomy (pos c x) (pos c y) with hlt | heq | hgt
  · exact .inl (after_of_ruled hc hfits h hxl hyl hdev hx hy hlt hshare)
  · exact absurd (pos_inj hc hl heq) hne
  · exact .inr (after_of_ruled hc hfits h hyl hxl hdev.symm hy hx hgt fun hapart => hshare hapart.symm)

end sufficient

section necessary

variable {Dev : Type*} [DecidableEq Dev] {c : Capture} {m : Placement Dev} {D : Dev} {x y a b : ℕ} {r r' : Region}

theorem nodup_onDevice {ps : List ℕ} (h : ps.Nodup) : (onDevice c m D ps).Nodup := h.filter _

theorem nodup_byAddr {ps : List ℕ} (h : ps.Nodup) : (byAddr c ps).Nodup :=
  (List.perm_insertionSort _ _).nodup_iff.mpr h

theorem nodup_carry1 : (onDevice c m D (carry1 c m)).Nodup :=
  nodup_onDevice ((nodup_byAddr (c.graph.nodup.filter _)).filter _)

theorem nodup_sync : (onDevice c m D (sync c m)).Nodup :=
  nodup_onDevice (nodup_byAddr (c.graph.nodup.filter _))

theorem nodup_windowNodes (hc : Closures c) {i : ℕ} {u : SubmissionUnit} (hi : c.units[i]? = some u) :
    (windowNodes c m D u).Nodup := (nodup_unit hc hi).filter _

/-- Sizes in whole steps of 64 bytes fill no region beyond its end. -/
theorem fits_of_aligned (h : ∀ p, 64 ∣ c.graph.nbytes p) : Fits c m D where
  carry1 _ hp := padded_le_region (fun a _ => h a) hp
  sync _ hp := padded_le_region (fun a _ => h a) hp

/-- Of two elements of a window with bytes, one ends before the other is made. -/
theorem windowItems_apart (hc : Closures c) {i : ℕ} {u : SubmissionUnit} (hi : c.units[i]? = some u)
    (hempty : ∀ p ∈ u.nodes, p ≠ x → p ≠ y → c.graph.nbytes p = 0)
    (hsep : x ∈ u.nodes → y ∈ u.nodes → liveEnd c m u x < etime u y) :
    (windowItems c m D u).Pairwise fun p q => p.size = 0 ∨ q.size = 0 ∨ p.meets q = false := by
  have hne : (windowNodes c m D u).zipIdx.Pairwise fun p q => p.1 ≠ q.1 := by
    have hnodup := nodup_windowNodes (m := m) (D := D) hc hi
    rw [← List.zipIdx_map_fst 0 (windowNodes c m D u)] at hnodup
    exact List.pairwise_map.mp hnodup
  refine List.pairwise_map.mpr (hne.imp_of_mem fun {p q} hp hq hpq => ?_)
  have hpu := (mem_windowNodes.mp (List.fst_mem_of_mem_zipIdx hp)).1
  have hqu := (mem_windowNodes.mp (List.fst_mem_of_mem_zipIdx hq)).1
  by_cases hpz : p.1 = x ∨ p.1 = y
  · by_cases hqz : q.1 = x ∨ q.1 = y
    · right; right
      simp only [Item.meets, decide_eq_false_iff_not]
      rcases hpz with hp' | hp' <;> rcases hqz with hq' | hq'
      · exact absurd (hp'.trans hq'.symm) hpq
      · have hend := hsep (hp' ▸ hpu) (hq' ▸ hqu)
        rw [hp', hq']
        omega
      · have hend := hsep (hq' ▸ hqu) (hp' ▸ hpu)
        rw [hp', hq']
        omega
      · exact absurd (hp'.trans hq'.symm) hpq
    · exact .inr (.inl (hempty _ hqu (fun h => hqz (.inl h)) fun h => hqz (.inr h)))
  · exact .inl (hempty _ hpu (fun h => hpz (.inl h)) fun h => hpz (.inr h))

/-- A tensor with bytes begins at the start of its window if every other one is empty, or packed and not
alive together with it. -/
theorem window_start (hc : Closures c) {i : ℕ} {u : SubmissionUnit} (hi : c.units[i]? = some u)
    (hempty : ∀ p ∈ u.nodes, p ≠ x → p ≠ y → c.graph.nbytes p = 0)
    (hsep : x ∈ u.nodes → y ∈ u.nodes → m.compactPack = true ∧ liveEnd c m u x < etime u y)
    {z : ℕ} (hz : z = x ∨ z = y) (hmem : (z, a) ∈ (window c m D u).1) : a = 0 := by
  have hzu := (mem_windowNodes.mp (window_entry hmem)).1
  cases hpack : m.compactPack with
  | true =>
    obtain ⟨k, hk, rfl⟩ := mem_window_packed hpack hmem
    have hpair := windowItems_apart (D := D) hc hi hempty fun hx hy => (hsep hx hy).2
    unfold outOff
    cases hf : (packInterval (windowItems c m D u)).find? fun p => p.1.index == k with
    | none => rfl
    | some p => exact packInterval_start hpair p (List.mem_of_find?_eq_some hf)
  | false =>
    simp only [window, hpack, Bool.false_eq_true, if_false] at hmem
    refine bump_start (by decide) (nodup_windowNodes hc hi) hmem fun p hp hne _ => ?_
    have hpu := (mem_windowNodes.mp hp).1
    refine hempty p hpu ?_ ?_
    · rintro rfl
      rcases hz with rfl | rfl
      · exact hne rfl
      · exact Bool.false_ne_true (hpack ▸ (hsep hpu hzu).1)
    · rintro rfl
      rcases hz with rfl | rfl
      · exact Bool.false_ne_true (hpack ▸ (hsep hzu hpu).1)
      · exact hne rfl

/-- Tensors that no rule keeps apart share their place when all others are empty. -/
theorem same_place (hc : Closures c) (hempty : ∀ p, p ≠ x → p ≠ y → c.graph.nbytes p = 0)
    (hx : PlacedIn c m D x r a) (hy : PlacedIn c m D y r' b) (hlt : pos c x < pos c y)
    (hnot : ¬ KeptApart c m x y) : a = b := by
  have hne : x ≠ y := fun heq => Nat.lt_irrefl _ (heq ▸ hlt)
  unfold KeptApart at hnot
  cases hx with
  | carry1 hxo =>
    rw [home_carry1 hxo] at hnot
    cases hy with
    | carry1 hyo =>
      rw [home_carry1 hyo] at hnot
      simp only [not_or, not_not] at hnot
      obtain ⟨offx, hxm, ha⟩ := carry1_offset hxo
      obtain ⟨offy, hym, hb⟩ := carry1_offset hyo
      have hxz := bump_start (by decide) nodup_carry1 hxm fun p _ hp hkey =>
        hempty p hp fun heq => hnot.1 (heq ▸ hkey).symm
      have hyz := bump_start (by decide) nodup_carry1 hym fun p _ hp hkey =>
        hempty p (fun heq => hnot.1 (heq ▸ hkey)) hp
      have hplace : ∀ {z d : ℕ}, d = Region.start c m D (.carry1 (decide (layerOf c z % 2 ≠ 0))) + 0 →
          layerOf c z % 2 = layerOf c y % 2 →
          d = Region.start c m D (.carry1 (decide (layerOf c y % 2 ≠ 0))) := by
        intro z d hd hparity
        rw [hd, hparity, Nat.add_zero]
      exact (hplace (hxz ▸ ha) hnot.2).trans (hplace (hyz ▸ hb) rfl).symm
    | carryN hyo => exact absurd trivial (by rwa [home_carryN hyo] at hnot)
    | sync hyo => exact absurd trivial (by rwa [home_sync hyo] at hnot)
    | scratch j v hj hyo => exact absurd trivial (by rwa [home_scratch hc hj hyo] at hnot)
  | carryN hxo =>
    rw [home_carryN hxo] at hnot
    exact absurd trivial hnot
  | sync hxo =>
    rw [home_sync hxo] at hnot
    cases hy with
    | carry1 hyo => exact absurd trivial (by rwa [home_carry1 hyo] at hnot)
    | carryN hyo => exact absurd trivial (by rwa [home_carryN hyo] at hnot)
    | sync hyo =>
      rw [home_sync hyo] at hnot
      have hxz := bump_start (by decide) nodup_sync hxo fun p _ hp hkey => hempty p hp fun heq => hnot (heq ▸ hkey).symm
      have hyz := bump_start (by decide) nodup_sync hyo fun p _ hp hkey => hempty p (fun heq => hnot (heq ▸ hkey)) hp
      rw [hxz, hyz]
    | scratch j v hj hyo => exact absurd trivial (by rwa [home_scratch hc hj hyo] at hnot)
  | scratch i u hi hxo =>
    rw [home_scratch hc hi hxo] at hnot
    cases hy with
    | carry1 hyo => exact absurd trivial (by rwa [home_carry1 hyo] at hnot)
    | carryN hyo => exact absurd trivial (by rwa [home_carryN hyo] at hnot)
    | sync hyo => exact absurd trivial (by rwa [home_sync hyo] at hnot)
    | scratch j v hj hyo =>
      rw [home_scratch hc hj hyo] at hnot
      have hxu := (mem_windowNodes.mp (window_entry hxo)).1
      have hyv := (mem_windowNodes.mp (window_entry hyo)).1
      have hsep : ∀ {k : ℕ} {w : SubmissionUnit}, c.units[k]? = some w → x ∈ w.nodes → y ∈ w.nodes →
          m.compactPack = true ∧ liveEnd c m w x < etime w y := by
        intro k w hk hxw hyw
        obtain rfl := unit_inj hc hi hk hxu hxw
        obtain rfl := unit_inj hc hj hk hyv hyw
        simp only [true_and, Classical.not_imp] at hnot
        refine ⟨hnot.1, ?_⟩
        have hend := mt (heldTo_iff hc hk hxw hyw hlt).mpr hnot.2
        omega
      have hxz := window_start hc hi (fun p _ => hempty p) (hsep hi) (.inl rfl) hxo
      have hyz := window_start hc hj (fun p _ => hempty p) (hsep hj) (.inr rfl) hyo
      rw [hxz, hyz]

end necessary

section resized

variable (c : Capture) (size : ℕ → ℕ)

theorem unitsFrom_resized (layers : List ℕ) : ∀ taken,
    (resized c size).unitsFrom taken layers = c.unitsFrom taken layers := by
  induction layers with
  | nil => exact fun _ => rfl
  | cons L rest ih =>
    intro taken
    rw [unitsFrom, unitsFrom, ih]
    rfl

theorem units_resized : (resized c size).units = c.units := unitsFrom_resized c size c.layers false

theorem unitOf_resized (p : ℕ) : unitOf (resized c size) p = unitOf c p := by
  unfold unitOf
  rw [units_resized]
  rfl

theorem unwrapFrom_resized (fuel : ℕ) : ∀ p off,
    unwrapFrom (resized c size).graph fuel p off = unwrapFrom c.graph fuel p off := by
  induction fuel with
  | zero => exact fun _ _ => rfl
  | succ fuel ih =>
    intro p off
    unfold unwrapFrom
    simp only [ih]
    rfl

theorem producer_resized (p : ℕ) : producer (resized c size).graph p = producer c.graph p :=
  congrArg Prod.fst (unwrapFrom_resized c size p p 0)

theorem crossesUnit_resized (p : ℕ) : crossesUnit (resized c size) p = crossesUnit c p := by
  unfold crossesUnit
  simp only [unitOf_resized, producer_resized]
  rfl

theorem closures_resized (h : Closures c) : Closures (resized c size) := ⟨h.inside, h.nodup⟩

variable {Dev : Type*} (m : Placement Dev)

theorem home_resized (p : ℕ) : home (resized c size) m p = home c m p := by
  unfold home
  rw [crossesUnit_resized, unitOf_resized]
  rfl

variable [DecidableEq Dev]

theorem resolveFrom_resized (fuel : ℕ) : ∀ p,
    resolveFrom (resized c size) m fuel p = resolveFrom c m fuel p := by
  induction fuel with
  | zero => exact fun _ => rfl
  | succ fuel ih =>
    intro p
    unfold resolveFrom
    simp only [ih]
    rfl

theorem resolve_resized (o : Operand Dev) : resolve (resized c size) m o = resolve c m o := by
  cases o with
  | tensor p => exact resolveFrom_resized c size m p p
  | shell s => rfl

theorem counted_resized (nd x : ℕ) : Counted (resized c size) m nd x ↔ Counted c m nd x := by
  unfold Counted
  simp only [resolve_resized]
  exact Iff.rfl

theorem heldTo_resized (x y : ℕ) : HeldTo (resized c size) m x y ↔ HeldTo c m x y := by
  unfold HeldTo
  simp only [unitOf_resized, counted_resized]
  exact Iff.rfl

theorem keptApart_resized (x y : ℕ) : KeptApart (resized c size) m x y ↔ KeptApart c m x y := by
  unfold KeptApart
  simp only [home_resized, heldTo_resized]

theorem reads_resized (nd src p : ℕ) : Reads (resized c size) nd src p ↔ Reads c nd src p :=
  ⟨fun h => ⟨h.node, h.computes, h.source, h.storage, h.captured⟩,
    fun h => ⟨h.node, h.computes, h.source, h.storage, h.captured⟩⟩

theorem ruled_resized (h : Ruled c m) : Ruled (resized c size) m := by
  rintro x y hx hy hxo hyo hdev hlt ⟨nd, src, hr, hle⟩
  rw [keptApart_resized]
  exact h x y hx hy hxo hyo hdev hlt ⟨nd, src, (reads_resized c size nd src x).mp hr, hle⟩

end resized

section main

variable {Dev : Type*} [DecidableEq Dev]

theorem ruled_of_liveApart {c : Capture} {m : Placement Dev} (hc : Closures c)
    (h : ∀ size, (∀ D, Fits (resized c size) m D) → LiveApart (resized c size) m) : Ruled c m := by
  rintro x y hxl hyl hxo hyo hdev hlt ⟨nd, src, hr, hle⟩
  by_contra hnot
  have hne : x ≠ y := fun heq => Nat.lt_irrefl _ (heq ▸ hlt)
  -- only the two tensors have bytes
  let size : ℕ → ℕ := fun p => if p = x ∨ p = y then 64 else 0
  have haligned : ∀ p, 64 ∣ (resized c size).graph.nbytes p := by
    intro p
    show 64 ∣ size p
    dsimp only [size]
    split <;> decide
  have hempty : ∀ p, p ≠ x → p ≠ y → (resized c size).graph.nbytes p = 0 :=
    fun p hx hy => if_neg (not_or.mpr ⟨hx, hy⟩)
  have hxs : (resized c size).graph.nbytes x = 64 := if_pos (.inl rfl)
  have hys : (resized c size).graph.nbytes y = 64 := if_pos (.inr rfl)
  have hc' := closures_resized c size hc
  obtain ⟨lx, hlx⟩ := Option.isSome_iff_exists.mp hxl
  obtain ⟨ly, hly⟩ := Option.isSome_iff_exists.mp hyl
  obtain ⟨a, ha⟩ := Option.isSome_iff_exists.mp (place_isSome (c := resized c size) (m := m) hc' hlx hxo)
  obtain ⟨b, hb⟩ := Option.isSome_iff_exists.mp (place_isSome (c := resized c size) (m := m) hc' hly hyo)
  have hb' := hb
  rw [show nodeDev (resized c size) m y = nodeDev (resized c size) m x from hdev.symm] at hb'
  obtain ⟨_, hxr⟩ := placedIn_of_place ha
  obtain ⟨_, hyr⟩ := placedIn_of_place hb'
  have hab : a = b := same_place hc' hempty hxr hyr hlt (mt (keptApart_resized c size m x y).mp hnot)
  have hshare : ¬ Apart a ((resized c size).graph.nbytes x) b ((resized c size).graph.nbytes y) := by
    rw [hxs, hys, hab]
    simp only [Apart]
    omega
  rcases h size (fun D => fits_of_aligned haligned) x y a b hne hxl hyl hdev ha hb hshare with hafter | hafter
  · have hread := hafter.read nd src ((reads_resized c size nd src x).mpr hr)
    exact absurd hle (Nat.not_le_of_lt hread)
  · exact absurd hlt (Nat.not_lt_of_gt hafter.made)

/-- The tensors of a graph share no bytes while alive if their sizes fit the regions and the layout has a
rule for every two of a device that are alive together; where it has none, there are sizes that fit and let
them meet. -/
theorem liveApart_iff_ruled (c : Capture) (m : Placement Dev) (hc : Closures c) :
    (Ruled c m → (∀ D, Fits c m D) → LiveApart c m) ∧
      ((∀ size, (∀ D, Fits (resized c size) m D) → LiveApart (resized c size) m) ↔ Ruled c m) := by
  refine ⟨fun h hfits => liveApart_of_ruled hc hfits h, ruled_of_liveApart hc, fun h size hfits => ?_⟩
  exact liveApart_of_ruled (closures_resized c size hc) hfits (ruled_resized c size m h)

theorem ruled_of_nodes {c : Capture} {m : Placement Dev} (h : ∀ x ∈ c.graph.nodes, ∀ y ∈ c.graph.nodes,
    pos c x < pos c y → (∃ nd ∈ c.graph.nodes, ∃ src ∈ (c.graph.tensor nd).sources,
      c.graph.root src = x ∧ pos c y ≤ pos c nd) → KeptApart c m x y) : Ruled c m := by
  rintro x y hx hy _ _ _ hlt ⟨nd, src, hr, hle⟩
  obtain ⟨lx, hlx⟩ := Option.isSome_iff_exists.mp hx
  obtain ⟨ly, hly⟩ := Option.isSome_iff_exists.mp hy
  obtain ⟨l, _, hl, _⟩ := hr.layers
  exact h x (mem_nodes hlx) y (mem_nodes hly) hlt ⟨nd, mem_nodes hl, src, hr.source, hr.storage, hle⟩

/-- The norms of two layers lie in the same bytes, and no sizes that fit make them meet alive. -/
theorem liveApart_iff_ruled_layers :
    place ArenaRuns.layersCapture ArenaRuns.layersPlacement () 1 =
        place ArenaRuns.layersCapture ArenaRuns.layersPlacement () 5 ∧
      Ruled ArenaRuns.layersCapture ArenaRuns.layersPlacement ∧
      LiveApart ArenaRuns.layersCapture ArenaRuns.layersPlacement ∧
      ∀ size, (∀ D, Fits (resized ArenaRuns.layersCapture size) ArenaRuns.layersPlacement D) →
        LiveApart (resized ArenaRuns.layersCapture size) ArenaRuns.layersPlacement := by
  have hruled : Ruled ArenaRuns.layersCapture ArenaRuns.layersPlacement := by
    refine ruled_of_nodes ?_
    decide +kernel
  have hiff := liveApart_iff_ruled ArenaRuns.layersCapture ArenaRuns.layersPlacement
    ArenaRuns.regular_layers.closures
  exact ⟨by decide, hruled, hiff.1 hruled ArenaRuns.regular_layers.fits, hiff.2.mpr hruled⟩

/-- A tensor, an operation in place on it, another tensor, and the sum of the last two. -/
def inPlaceTensors : List Tensor :=
  [{ name := "inp_embd" },
    { op := .other 1, src := [some 0], nbytes := 64, name := "a-0" },
    { op := .other 2, src := [some 1], viewSrc := some 1, nbytes := 64, name := "b-0" },
    { op := .other 1, src := [some 0], nbytes := 64, name := "c-0" },
    { op := .add, src := [some 2, some 3], nbytes := 64, name := "d-0" }]

def inPlaceCapture : Capture where
  graph := Graph.ofList inPlaceTensors [1, 2, 3, 4] (by decide) (by decide)
  official _ := none
  exec := []
  exec_sorted := exec_sorted_nil
  exec_nodes _ he := absurd he List.not_mem_nil

/-- The result in place is read behind the tensor that was laid over it. -/
theorem not_liveApart_inPlace :
    ¬ ∀ (c : Capture) (m : Placement ℕ), Closures c → Ordered c →
      (∀ nd ∈ c.graph.nodes, ∀ q ∈ (c.graph.tensor nd).sources, ∀ l ∈ c.nlayer q, ∀ l' ∈ c.nlayer nd, l ≤ l') →
      (∀ D, Fits c m D) → LiveApart c m := by
  intro h
  have haligned : ∀ p, 64 ∣ inPlaceCapture.graph.nbytes p := by
    have htensors : ∀ t ∈ inPlaceTensors, 64 ∣ t.nbytes := by decide
    intro p
    show 64 ∣ (inPlaceTensors.getD p {}).nbytes
    rw [List.getD_eq_getElem?_getD]
    cases hp : inPlaceTensors[p]? with
    | none => exact Nat.dvd_zero 64
    | some t => exact htensors t (List.mem_of_getElem? hp)
  have hlive : LiveApart inPlaceCapture chainPlacement :=
    h inPlaceCapture chainPlacement ⟨by decide, by decide⟩ (ArenaRuns.forall_reads (by decide)) (by decide)
      fun D => fits_of_aligned haligned
  have hplaces : place inPlaceCapture chainPlacement 0 1 = some 0 ∧
      place inPlaceCapture chainPlacement 0 3 = some 0 := by decide
  rcases hlive 1 3 0 0 (by decide) (by decide) (by decide) (by decide) hplaces.1 hplaces.2
    (by simp only [Apart]; decide) with hafter | hafter
  · have hread := hafter.read 4 2 ⟨by decide, by decide, by decide, by decide, by decide⟩
    exact absurd hread (by decide)
  · exact absurd hafter.made (by decide)

end main

end ArenaLiveness
end StreamMoE
