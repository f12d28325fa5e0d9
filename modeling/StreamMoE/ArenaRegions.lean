import StreamMoE.ArenaLayout

/-! The regions of a device's arena lie apart inside the buffer, and what lies where in them. -/
namespace StreamMoE
namespace ArenaRegions

open ByteMemory ComputeGraph LayerPlan LayerPlan.Capture Packing ArenaLayout

section keyed

variable {α κ : Type*} [DecidableEq κ] {key : α → κ} {size : α → ℕ}

/-- An element ends within the padded bytes of its key. -/
theorem end_le_of_mem_regionOffsets {l : List α} {a : α} {off : ℕ}
    (h : (a, off) ∈ regionOffsets key size l) :
    off + size a ≤ bumpEnd 64 0 (keySizes key size (key a) l) :=
  (bump_bounds (by decide) h).2

theorem regionOffsets_apart {l : List α} {a b : α} {x y : ℕ} (ha : (a, x) ∈ regionOffsets key size l)
    (hb : (b, y) ∈ regionOffsets key size l) (hne : a ≠ b) (hkey : key a = key b) :
    Apart x (size a) y (size b) := by
  have hpair : (regionOffsets key size l).Pairwise fun p q =>
      key p.1 = key q.1 → p.2 + size p.1 ≤ q.2 := bump_pairwise (by decide) (fun _ => 0) l
  have hall := List.Pairwise.forall_of_forall_of_flip
    (R := fun p q : α × ℕ => p ≠ q → key p.1 = key q.1 → Apart p.2 (size p.1) q.2 (size q.1))
    (fun p _ hp => absurd rfl hp) (hpair.imp fun h _ hk => Or.inl (h hk))
    (hpair.imp fun h _ hk => Or.inr (h hk.symm))
  exact hall ha hb (fun h => hne (congrArg Prod.fst h)) hkey

/-- The elements of a key lie within `bound` exactly if their padded bytes do. -/
theorem regionOffsets_fit_iff {l : List α} {k : κ} (h : ∃ a ∈ l, key a = k) (bound : ℕ) :
    (∀ x ∈ regionOffsets key size l, key x.1 = k → x.2 + size x.1 ≤ bound) ↔
      bumpEnd 64 0 (keySizes key size k l) ≤ bound := by
  constructor
  · intro hall
    obtain ⟨a, off, hmem, hkey, hend⟩ := exists_bump_end (fun _ => 0) h
    have hle := hall (a, off) hmem hkey
    exact Nat.le_trans (Nat.le_of_eq hend.symm) hle
  · intro hle x hx hkey
    have hend := end_le_of_mem_regionOffsets hx
    rw [hkey] at hend
    exact Nat.le_trans hend hle

end keyed

section packed

variable {items : List Item}

theorem Separated.symm {x y : Placed} (h : Separated x y) : Separated y x := by
  intro hmeets
  rw [Item.meets_comm] at hmeets
  exact (h hmeets).symm

theorem outOff_mem {x : Item} (hnodup : (items.map Item.index).Nodup) (hx : x ∈ items) :
    (x, outOff (packInterval items) x.index) ∈ packInterval items := by
  have hmem : x ∈ (packInterval items).map Prod.fst := (packInterval_perm items).mem_iff.mpr hx
  obtain ⟨p, hp, hpx⟩ := List.mem_map.mp hmem
  unfold outOff
  cases hf : (packInterval items).find? fun q => q.1.index == x.index with
  | none =>
    have hnot := List.find?_eq_none.mp hf p hp
    rw [hpx] at hnot
    exact absurd (beq_self_eq_true _) hnot
  | some q =>
    have hq := List.mem_of_find?_eq_some hf
    have hidx : q.1.index = x.index :=
      eq_of_beq (List.find?_some (p := fun q : Placed => q.1.index == x.index) hf)
    have hqx : q.1 = x := by
      refine List.inj_on_of_nodup_map hnodup ?_ hx hidx
      exact (packInterval_perm items).mem_iff.mp (List.mem_map.mpr ⟨q, hq, rfl⟩)
    rw [Option.map_some, Option.getD_some, ← hqx]
    exact hq

theorem outOff_le_arena {x : Item} (hnodup : (items.map Item.index).Nodup) (hx : x ∈ items) :
    outOff (packInterval items) x.index + x.size ≤ arena (packInterval items) :=
  le_arena (outOff_mem hnodup hx)

theorem outOff_apart {x y : Item} (hnodup : (items.map Item.index).Nodup) (hx : x ∈ items)
    (hy : y ∈ items) (hne : x.index ≠ y.index) (hmeets : x.meets y = true) :
    Apart (outOff (packInterval items) x.index) x.size (outOff (packInterval items) y.index)
      y.size := by
  have hpair := packInterval_separated items
  have hkeep : (packInterval items).Pairwise fun p q => p.1.index ≠ q.1.index → Separated p q :=
    hpair.imp fun h => fun _ => h
  have hflip : (packInterval items).Pairwise fun p q => q.1.index ≠ p.1.index → Separated q p :=
    hpair.imp fun h => fun _ => Separated.symm h
  have hall := List.Pairwise.forall_of_forall_of_flip
    (R := fun p q : Placed => p.1.index ≠ q.1.index → Separated p q)
    (fun p _ hp => absurd rfl hp) hkeep hflip
  exact hall (outOff_mem hnodup hx) (outOff_mem hnodup hy) hne hmeets

/-- Items numbered by their place in a list. -/
theorem nodup_zipIdx_index (l : List ℕ) (f : ℕ × ℕ → Item) (hf : ∀ x, (f x).index = x.2) :
    ((l.zipIdx.map f).map Item.index).Nodup := by
  have hmap : (l.zipIdx.map f).map Item.index = List.range' 0 l.length := by
    rw [List.map_map, ← List.zipIdx_map_snd 0 l]
    exact List.map_congr_left fun x _ => hf x
  rw [hmap]
  exact List.nodup_range' ..

end packed

variable {Dev : Type*} [DecidableEq Dev] (c : Capture) (m : Placement Dev) (D : Dev)

/-- `size` bytes at `offset` of the buffer lie in the range of the region. -/
def Region.Inside (r : Region) (offset size : ℕ) : Prop :=
  Region.start c m D r ≤ offset ∧ offset + size ≤ Region.start c m D r + Region.size c m D r

/-- The bytes up to the end of the last element of a key, every element before it rounded up. -/
def paddedBytes {α κ : Type*} [DecidableEq κ] (key : α → κ) (size : α → ℕ) (l : List α) (k : κ) : ℕ :=
  bumpEnd 64 0 (keySizes key size k l)

/-- Sizes in whole steps of 64 bytes leave no gaps. -/
theorem padded_le_region {α κ : Type*} [DecidableEq κ] {key : α → κ} {size : α → ℕ} {l : List α} (h : ∀ a ∈ l, 64 ∣ size a) {a : α} (ha : a ∈ l) :
    paddedBytes key size l (key a) ≤ regionBytes key size l := by
  have hsizes : ∀ n ∈ keySizes key size (key a) l, 64 ∣ n := by
    intro n hn
    obtain ⟨b, hb, rfl⟩ := List.mem_map.mp hn
    exact h b (List.mem_of_mem_filter hb)
  have hmax : ∀ ns : List ℕ, ∀ n ∈ ns, n ≤ ns.foldr max 0 := by
    intro ns
    induction ns with
    | nil => exact fun n hn => absurd hn List.not_mem_nil
    | cons k ns ih =>
      intro n hn
      rw [List.foldr_cons]
      rcases List.mem_cons.mp hn with rfl | hn
      · exact Nat.le_max_left _ _
      · exact Nat.le_trans (ih n hn) (Nat.le_max_right _ _)
  rw [paddedBytes, bumpEnd_aligned (by decide) hsizes 0 (Nat.dvd_zero 64), Nat.zero_add]
  have hsum : (keySizes key size (key a) l).sum ∈ l.map fun a => (keySizes key size (key a) l).sum :=
    List.mem_map.mpr ⟨a, ha, rfl⟩
  have hle : (keySizes key size (key a) l).sum ≤ maxKeyBytes key size l := hmax _ _ hsum
  have hround : maxKeyBytes key size l ≤ roundUp 64 (maxKeyBytes key size l) := le_roundUp (by decide) _
  exact Nat.le_trans hle hround

/-- The regions lie apart in the buffer; what lies in them does so completely, in the regions sized
by plain byte sums as long as the padded bytes of its group fit; what lies in two regions is
apart, and so are the tensors of one group, in the scratch window those recorded alive together. -/
structure Laid : Prop where
  disjoint : ∀ r r', r ≠ r' → Apart (Region.start c m D r) (Region.size c m D r)
    (Region.start c m D r') (Region.size c m D r')
  within : ∀ r, Region.start c m D r + Region.size c m D r ≤ need c m D
  inside_apart : ∀ r r', r ≠ r' → ∀ x n y k, Region.Inside c m D r x n →
    Region.Inside c m D r' y k → Apart x n y k
  carryN_inside : ∀ x ∈ carryNOffsets c m D,
    Region.Inside c m D .carryN (offCarryN c m D + x.2) (c.graph.nbytes x.1)
  scratch_inside : ∀ x ∈ scratchOffsets c m D,
    Region.Inside c m D .scratch (offScratch c m D + x.2) (c.graph.nbytes x.1)
  carry1_inside : ∀ x ∈ carry1Offsets c m D,
    paddedBytes (layerOf c) c.graph.nbytes (onDevice c m D (carry1 c m)) (layerOf c x.1) ≤
      carryHalf c m D →
    Region.Inside c m D (.carry1 (decide (layerOf c x.1 % 2 ≠ 0))) x.2 (c.graph.nbytes x.1)
  sync_inside : ∀ x ∈ syncOffsets c m D,
    paddedBytes (unitOf c) c.graph.nbytes (onDevice c m D (sync c m)) (unitOf c x.1) ≤ syncSize c m D →
    Region.Inside c m D .sync (offSync c m D + x.2) (c.graph.nbytes x.1)
  xfer_inside : ∀ tail, ∀ x ∈ xferOffsets c m D tail,
    paddedBytes Shell.layer (shellBytes c) (slotShells c m D tail) x.1.layer ≤ xferStride c m D tail →
    Region.Inside c m D (.xfer tail) (Region.start c m D (.xfer tail) + x.2) (shellBytes c x.1)
  carryN_apart : ∀ x ∈ carryNOffsets c m D, ∀ y ∈ carryNOffsets c m D, x.1 ≠ y.1 →
    Apart x.2 (c.graph.nbytes x.1) y.2 (c.graph.nbytes y.1)
  carry1_apart : ∀ x ∈ carry1Offsets c m D, ∀ y ∈ carry1Offsets c m D, x.1 ≠ y.1 →
    layerOf c x.1 = layerOf c y.1 → Apart x.2 (c.graph.nbytes x.1) y.2 (c.graph.nbytes y.1)
  sync_apart : ∀ x ∈ syncOffsets c m D, ∀ y ∈ syncOffsets c m D, x.1 ≠ y.1 →
    unitOf c x.1 = unitOf c y.1 → Apart x.2 (c.graph.nbytes x.1) y.2 (c.graph.nbytes y.1)
  xfer_apart : ∀ tail, ∀ x ∈ xferOffsets c m D tail, ∀ y ∈ xferOffsets c m D tail, x.1 ≠ y.1 →
    x.1.layer = y.1.layer → Apart x.2 (shellBytes c x.1) y.2 (shellBytes c y.1)
  scratch_apart : ∀ u ∈ c.units, ∀ x ∈ (window c m D u).1, ∀ y ∈ (window c m D u).1, x.1 ≠ y.1 →
    (etime u x.1 ≤ liveEnd c m u y.1 ∧ etime u y.1 ≤ liveEnd c m u x.1) →
    Apart x.2 (c.graph.nbytes x.1) y.2 (c.graph.nbytes y.1)

variable {c m D}

theorem mem_carryNItems {p k : ℕ} (h : (p, k) ∈ (onDevice c m D (carryN c m)).zipIdx) :
    (⟨k, c.graph.nbytes p, k, (onDevice c m D (carryN c m)).length⟩ : Item) ∈ carryNItems c m D :=
  List.mem_map.mpr ⟨(p, k), h, rfl⟩

theorem nodup_carryNItems : ((carryNItems c m D).map Item.index).Nodup :=
  nodup_zipIdx_index _ _ fun _ => rfl

theorem exists_of_mem_carryNOffsets {x : ℕ × ℕ} (h : x ∈ carryNOffsets c m D) :
    ∃ k, (x.1, k) ∈ (onDevice c m D (carryN c m)).zipIdx ∧
      x.2 = outOff (packInterval (carryNItems c m D)) k := by
  obtain ⟨⟨p, k⟩, hmem, rfl⟩ := List.mem_map.mp h
  exact ⟨k, hmem, rfl⟩

theorem zipIdx_lt {l : List ℕ} {p k : ℕ} (h : (p, k) ∈ l.zipIdx) : k < l.length ∧ l[k]? = some p := by
  have hget := List.mk_mem_zipIdx_iff_getElem?.mp h
  exact ⟨(List.getElem?_eq_some_iff.mp hget).1, hget⟩

theorem zipIdx_ne {l : List ℕ} {p q j k : ℕ} (hp : (p, j) ∈ l.zipIdx) (hq : (q, k) ∈ l.zipIdx)
    (hne : p ≠ q) : j ≠ k := by
  rintro rfl
  exact hne (Option.some.inj ((zipIdx_lt hp).2.symm.trans (zipIdx_lt hq).2))

theorem carryN_inside {x : ℕ × ℕ} (h : x ∈ carryNOffsets c m D) :
    x.2 + c.graph.nbytes x.1 ≤ carryNSize c m D := by
  obtain ⟨k, hk, hx⟩ := exists_of_mem_carryNOffsets h
  have hle := outOff_le_arena nodup_carryNItems (mem_carryNItems hk)
  rw [hx]
  exact hle

theorem carryN_apart {x y : ℕ × ℕ} (hx : x ∈ carryNOffsets c m D) (hy : y ∈ carryNOffsets c m D)
    (hne : x.1 ≠ y.1) : Apart x.2 (c.graph.nbytes x.1) y.2 (c.graph.nbytes y.1) := by
  obtain ⟨j, hj, hxj⟩ := exists_of_mem_carryNOffsets hx
  obtain ⟨k, hk, hyk⟩ := exists_of_mem_carryNOffsets hy
  have hlj := (zipIdx_lt hj).1
  have hlk := (zipIdx_lt hk).1
  have hmeets : (⟨j, c.graph.nbytes x.1, j, (onDevice c m D (carryN c m)).length⟩ : Item).meets
      ⟨k, c.graph.nbytes y.1, k, (onDevice c m D (carryN c m)).length⟩ = true := by
    simp only [Item.meets, decide_eq_true_eq]
    omega
  rw [hxj, hyk]
  exact outOff_apart nodup_carryNItems (mem_carryNItems hj) (mem_carryNItems hk) (zipIdx_ne hj hk hne)
    hmeets

variable {u : SubmissionUnit}

theorem mem_windowItems {p k : ℕ} (h : (p, k) ∈ (windowNodes c m D u).zipIdx) :
    (⟨k, c.graph.nbytes p, etime u p, liveEnd c m u p⟩ : Item) ∈ windowItems c m D u :=
  List.mem_map.mpr ⟨(p, k), h, rfl⟩

theorem nodup_windowItems : ((windowItems c m D u).map Item.index).Nodup :=
  nodup_zipIdx_index _ _ fun _ => rfl

theorem mem_window_packed (hpack : m.compactPack = true) {x : ℕ × ℕ}
    (h : x ∈ (window c m D u).1) : ∃ k, (x.1, k) ∈ (windowNodes c m D u).zipIdx ∧
      x.2 = outOff (packInterval (windowItems c m D u)) k := by
  simp only [window, hpack, if_true] at h
  obtain ⟨⟨p, k⟩, hmem, rfl⟩ := List.mem_map.mp h
  exact ⟨k, hmem, rfl⟩

theorem window_inside {x : ℕ × ℕ} (h : x ∈ (window c m D u).1) :
    x.2 + c.graph.nbytes x.1 ≤ (window c m D u).2 := by
  cases hpack : m.compactPack with
  | true =>
    obtain ⟨k, hk, hx⟩ := mem_window_packed hpack h
    have hle := outOff_le_arena nodup_windowItems (mem_windowItems hk)
    simp only [window, hpack, if_true]
    rw [hx]
    exact hle
  | false =>
    simp only [window, hpack, Bool.false_eq_true, if_false] at h ⊢
    have hle := (bump_bounds (by decide) h).2
    simpa only [keySizes, decide_true, List.filter_true] using hle

theorem window_apart {x y : ℕ × ℕ} (hx : x ∈ (window c m D u).1) (hy : y ∈ (window c m D u).1)
    (hne : x.1 ≠ y.1) (hmeets : etime u x.1 ≤ liveEnd c m u y.1 ∧ etime u y.1 ≤ liveEnd c m u x.1) :
    Apart x.2 (c.graph.nbytes x.1) y.2 (c.graph.nbytes y.1) := by
  cases hpack : m.compactPack with
  | true =>
    obtain ⟨j, hj, hxj⟩ := mem_window_packed hpack hx
    obtain ⟨k, hk, hyk⟩ := mem_window_packed hpack hy
    rw [hxj, hyk]
    exact outOff_apart nodup_windowItems (mem_windowItems hj) (mem_windowItems hk)
      (zipIdx_ne hj hk hne) (by simpa [Item.meets] using hmeets)
  | false =>
    simp only [window, hpack, Bool.false_eq_true, if_false] at hx hy
    exact @regionOffsets_apart ℕ Unit _ (fun _ => ()) _ _ _ _ _ _ hx hy hne rfl

theorem window_le_scratchSize (h : u ∈ c.units) : (window c m D u).2 ≤ scratchSize c m D := by
  have hmax : ∀ us : List SubmissionUnit, u ∈ us →
      (window c m D u).2 ≤ (us.map fun u => (window c m D u).2).foldr max 0 := by
    intro us
    induction us with
    | nil => exact fun hu => absurd hu List.not_mem_nil
    | cons v us ih =>
      intro hu
      rw [List.map_cons, List.foldr_cons]
      rcases List.mem_cons.mp hu with rfl | hu
      · exact Nat.le_max_left _ _
      · exact Nat.le_trans (ih hu) (Nat.le_max_right _ _)
  exact hmax _ h

/-- The place of a region: two halves, retained, sync, scratch, the slot of the tail, the other. -/
def Region.place : Region → ℕ
  | .carry1 odd => if odd then 1 else 0
  | .carryN => 2
  | .sync => 3
  | .scratch => 4
  | .xfer tail => if tail then 5 else 6

/-- The places of the buffer, the last one behind the regions. -/
def placeStart (c : Capture) (m : Placement Dev) (D : Dev) : ℕ → ℕ
  | 0 => 0
  | 1 => carryHalf c m D
  | 2 => offCarryN c m D
  | 3 => offSync c m D
  | 4 => offScratch c m D
  | 5 => offXfer c m D
  | 6 => offXfer c m D + xferStride c m D true
  | _ => offXfer c m D + (xferStride c m D true + xferStride c m D false)

theorem region_place (r : Region) : Region.place r < 7 ∧
    Region.start c m D r = placeStart c m D (Region.place r) ∧
    Region.start c m D r + Region.size c m D r = placeStart c m D (Region.place r + 1) := by
  rcases r with odd | _ | _ | _ | tail
  · cases odd
    · exact ⟨by decide, rfl, Nat.zero_add _⟩
    · exact ⟨by decide, rfl, (Nat.two_mul _).symm⟩
  · exact ⟨by decide, rfl, rfl⟩
  · exact ⟨by decide, rfl, rfl⟩
  · exact ⟨by decide, rfl, rfl⟩
  · cases tail
    · exact ⟨by decide, rfl, Nat.add_assoc ..⟩
    · exact ⟨by decide, Nat.add_zero _, rfl⟩

theorem placeStart_succ (k : ℕ) : placeStart c m D k ≤ placeStart c m D (k + 1) := by
  have hhalf : offCarryN c m D = carryHalf c m D + carryHalf c m D := Nat.two_mul _
  match k with
  | 0 => exact Nat.zero_le _
  | 1 => simp only [placeStart]; omega
  | 2 => simp only [placeStart, offSync]; omega
  | 3 => simp only [placeStart, offScratch]; omega
  | 4 => simp only [placeStart, offXfer]; omega
  | 5 => simp only [placeStart]; omega
  | 6 => simp only [placeStart]; omega
  | _ + 7 => exact Nat.le_refl _

theorem placeStart_mono {j k : ℕ} (h : j ≤ k) : placeStart c m D j ≤ placeStart c m D k := by
  induction h with
  | refl => exact Nat.le_refl _
  | step _ ih => exact Nat.le_trans ih (placeStart_succ _)

theorem region_disjoint {r r' : Region} (h : r ≠ r') :
    Apart (Region.start c m D r) (Region.size c m D r) (Region.start c m D r')
      (Region.size c m D r') := by
  obtain ⟨_, hstart, hend⟩ := region_place (c := c) (m := m) (D := D) r
  obtain ⟨_, hstart', hend'⟩ := region_place (c := c) (m := m) (D := D) r'
  have hne : Region.place r ≠ Region.place r' := by
    intro heq
    rcases r with odd | _ | _ | _ | tail <;> rcases r' with odd' | _ | _ | _ | tail' <;>
      simp [Region.place] at heq h <;> grind
  rcases Nat.lt_or_gt_of_ne hne with hlt | hlt
  · have hmono := placeStart_mono (c := c) (m := m) (D := D) (j := Region.place r + 1) hlt
    exact Or.inl (by omega)
  · have hmono := placeStart_mono (c := c) (m := m) (D := D) (j := Region.place r' + 1) hlt
    exact Or.inr (by omega)

theorem region_within (r : Region) :
    Region.start c m D r + Region.size c m D r ≤ need c m D := by
  obtain ⟨hlt, _, hend⟩ := region_place (c := c) (m := m) (D := D) r
  have hmono := placeStart_mono (c := c) (m := m) (D := D) (j := Region.place r + 1) (k := 7) hlt
  have hneed : placeStart c m D 7 ≤ need c m D := Nat.le_add_right _ _
  omega

theorem carry1_offset {x : ℕ × ℕ} (h : x ∈ carry1Offsets c m D) :
    ∃ off, (x.1, off) ∈ regionOffsets (layerOf c) c.graph.nbytes (onDevice c m D (carry1 c m)) ∧
      x.2 = Region.start c m D (.carry1 (decide (layerOf c x.1 % 2 ≠ 0))) + off := by
  obtain ⟨⟨p, off⟩, hmem, rfl⟩ := List.mem_map.mp h
  refine ⟨off, hmem, ?_⟩
  simp only [Region.start, decide_eq_true_eq]

theorem laid (c : Capture) (m : Placement Dev) (D : Dev) : Laid c m D where
  disjoint _ _ h := region_disjoint h
  within := region_within
  inside_apart r r' h x n y k hx hy := by
    have hdis := region_disjoint (c := c) (m := m) (D := D) h
    exact hdis.mono hx.1 hx.2 hy.1 hy.2
  carryN_inside x hx := by
    have hle := carryN_inside hx
    refine ⟨Nat.le_add_right _ _, ?_⟩
    show offCarryN c m D + x.2 + c.graph.nbytes x.1 ≤ offCarryN c m D + carryNSize c m D
    omega
  scratch_inside x hx := by
    obtain ⟨u, hu, hxu⟩ := List.mem_flatMap.mp hx
    have hle := Nat.le_trans (window_inside hxu) (window_le_scratchSize hu)
    refine ⟨Nat.le_add_right _ _, ?_⟩
    show offScratch c m D + x.2 + c.graph.nbytes x.1 ≤ offScratch c m D + scratchSize c m D
    omega
  carry1_inside x hx hfit := by
    obtain ⟨off, hmem, heq⟩ := carry1_offset hx
    have hle := Nat.le_trans (end_le_of_mem_regionOffsets hmem) hfit
    refine ⟨by omega, ?_⟩
    show x.2 + c.graph.nbytes x.1 ≤ _ + carryHalf c m D
    omega
  sync_inside x hx hfit := by
    have hle := Nat.le_trans (end_le_of_mem_regionOffsets hx) hfit
    refine ⟨Nat.le_add_right _ _, ?_⟩
    show offSync c m D + x.2 + c.graph.nbytes x.1 ≤ offSync c m D + syncSize c m D
    omega
  xfer_inside tail x hx hfit := by
    have hle := Nat.le_trans (end_le_of_mem_regionOffsets hx) hfit
    refine ⟨Nat.le_add_right _ _, ?_⟩
    show Region.start c m D (.xfer tail) + x.2 + shellBytes c x.1 ≤ _ + xferStride c m D tail
    omega
  carryN_apart _ hx _ hy hne := carryN_apart hx hy hne
  carry1_apart x hx y hy hne hkey := by
    obtain ⟨off, hmem, heq⟩ := carry1_offset hx
    obtain ⟨off', hmem', heq'⟩ := carry1_offset hy
    have hapart := regionOffsets_apart hmem hmem' hne hkey
    rw [← hkey] at heq'
    simp only [Apart] at hapart ⊢
    omega
  sync_apart _ hx _ hy hne hkey := regionOffsets_apart hx hy hne hkey
  xfer_apart _ _ hx _ hy hne hkey := regionOffsets_apart hx hy hne hkey
  scratch_apart _ _ _ hx _ hy hne hmeets := window_apart hx hy hne hmeets

section packedUnit

/-- Two small tensors of layer 0 read by layer 1, and a chain of three in layer 1. -/
def chainGraph : Graph :=
  Graph.ofList
    [{ name := "inp_embd" },
      { op := .other 1, src := [some 0], nbytes := 4, name := "a-0" },
      { op := .other 1, src := [some 0], nbytes := 4, name := "b-0" },
      { op := .add, src := [some 1, some 2], nbytes := 100, name := "c-1" },
      { op := .other 1, src := [some 3], nbytes := 100, name := "d-1" },
      { op := .other 1, src := [some 4], nbytes := 100, name := "e-1" }]
    [1, 2, 3, 4, 5] (by decide) (by decide)

def chainCapture : Capture where
  graph := chainGraph
  official _ := none
  exec := []
  exec_sorted := exec_sorted_nil
  exec_nodes _ he := absurd he List.not_mem_nil

def chainPlacement : Placement ℕ where
  physical _ := 0
  leafDev _ := none
  host := 0
  closureDev := 0
  exportRetained := []
  compactPack := true

/-- The last tensor of the chain takes the bytes of the first, which is dead by then; and the second
of the two small tensors lies behind its half of the double buffer. -/
theorem chain_shares :
    (∃ u ∈ chainCapture.units, (3, 0) ∈ (window chainCapture chainPlacement 0 u).1 ∧
        (5, 0) ∈ (window chainCapture chainPlacement 0 u).1 ∧
        ¬ Apart 0 (chainGraph.nbytes 3) 0 (chainGraph.nbytes 5)) ∧
      (2, 64) ∈ carry1Offsets chainCapture chainPlacement 0 ∧
      layerOf chainCapture 2 = 0 ∧ carryHalf chainCapture chainPlacement 0 = 64 := by
  refine ⟨⟨⟨[3, 4, 5], some 0⟩, by decide, by decide, by decide, ?_⟩, by decide, by decide, by decide⟩
  simp only [Apart]
  decide

end packedUnit

end ArenaRegions
end StreamMoE
