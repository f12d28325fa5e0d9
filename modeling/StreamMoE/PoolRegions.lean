import Mathlib.Data.List.Pairwise
import StreamMoE.PoolInit

/-! The bytes of every slot: the slot numbers of the regions of `init` and the slices of their columns. -/
namespace StreamMoE
namespace PoolRegions

open PoolGeometry SchedConfig PoolInit

/-- `col_slice`: slots are `uint32_t`, addresses `size_t`. -/
def colSliceWord (sp : Subpool) (c : Column) (slot : ℕ) : ℕ :=
  (sp.base + c.off + (slot + 2 ^ 32 - sp.slotBegin) % 2 ^ 32 * c.stride) % 2 ^ 64

def toInt32 (n : ℕ) : ℤ := Int.bmod n (2 ^ 32)

/-- The end of the slots of a region, a sum of `uint32_t` -/
def slotEnd (sp : Subpool) : ℕ := (sp.slotBegin + sp.nSlots) % 2 ^ 32

/-- `col_slice_ptr`: slots are `int32_t`. -/
def colSlicePtr (sp : Subpool) (c : Column) (slot : ℤ) : ℕ :=
  (sp.base + c.off + ((slot - toInt32 sp.slotBegin) % 2 ^ 64).toNat * c.stride) % 2 ^ 64

def subpoolOfSlotInt (c : Carved) (slot : ℤ) : Option Subpool :=
  if slot < 0 ∨ toInt32 c.numSlots ≤ slot then none
  else c.subpools.find? fun sp => decide (toInt32 sp.slotBegin ≤ slot ∧ slot < toInt32 (slotEnd sp))

def slotColMemInt (c : Carved) (slot : ℤ) (col : ℕ) : Option ℕ :=
  (subpoolOfSlotInt c slot).bind fun sp => sp.cols[col]?.map fun cl => colSlicePtr sp cl slot

/-- Two blocks of memory without a common byte, each given by its address and its length. -/
def Apart (x y : ℕ × ℕ) : Prop := x.1 + x.2 ≤ y.1 ∨ y.1 + y.2 ≤ x.1

theorem Apart.symm {x y : ℕ × ℕ} (h : Apart x y) : Apart y x := Or.symm h

instance (f : Subpool → ℕ × ℕ) : Std.Symm fun x y => Apart (f x) (f y) := ⟨fun _ _ h => h.symm⟩

/-- Blocks within two others. -/
theorem Apart.mono {x y x' y' : ℕ × ℕ} (h : Apart x y) (hx : x.1 ≤ x'.1 ∧ x'.1 + x'.2 ≤ x.1 + x.2)
    (hy : y.1 ≤ y'.1 ∧ y'.1 + y'.2 ≤ y.1 + y.2) : Apart x' y' := by
  unfold Apart at h ⊢
  omega

def region (sp : Subpool) : ℕ × ℕ := (sp.base, sp.nSlots * sp.expertSize)

section numbering

def slotTotal (sps : List Subpool) : ℕ := (sps.map Subpool.nSlots).sum

theorem endSlot_eq (b : ℕ) (sps : List Subpool) : endSlot b sps = b + slotTotal sps := by
  induction sps generalizing b with
  | nil => rfl
  | cons sp sps ih =>
    rw [endSlot, ih, slotTotal, slotTotal, List.map_cons, List.sum_cons, Nat.add_assoc]

/-- The counter has the slots modulo its width, and as long as they fit it the regions follow one another. -/
structure Numbered (s : List Subpool × ℕ) : Prop where
  counter : s.2 = slotTotal s.1 % 2 ^ 32
  consecutive : slotTotal s.1 < 2 ^ 32 → Consecutive 0 s.1

def Shaped (T : Topology) (sp : Subpool) : Prop :=
  ∃ g, T.groups[sp.group]? = some g ∧ sp.expertSize = g.expertSize ∧
    sp.cols = fillColumns sp.nSlots 0 0 g.strides

structure Pushed (T : Topology) (s : List Subpool × ℕ) : Prop where
  numbered : Numbered s
  shaped : ∀ sp ∈ s.1, Shaped T sp

variable {T : Topology} {s : List Subpool × ℕ}

theorem Pushed.push (h : Pushed T s) {g : Group} (pool : ℕ) {group : ℕ} (ns base : ℕ)
    (hg : T.groups[group]? = some g) : Pushed T (pushRegion s g pool group ns base) := by
  have htotal : slotTotal (pushRegion s g pool group ns base).1 = slotTotal s.1 + ns := by
    simp [pushRegion, slotTotal]
  refine ⟨⟨?_, fun hlt => ?_⟩, fun sp hsp => ?_⟩
  · rw [htotal, ← Nat.mod_add_mod, ← h.numbered.counter]
    rfl
  · rw [htotal] at hlt
    refine (h.numbered.consecutive (by omega)).append ⟨?_, trivial⟩
    rw [endSlot_eq, Nat.zero_add]
    exact h.numbered.counter.trans (Nat.mod_eq_of_lt (by omega))
  · rcases List.mem_append.mp hsp with hsp | hsp
    · exact h.shaped sp hsp
    · rw [List.mem_singleton.mp hsp]
      exact ⟨g, hg, rfl, rfl⟩

theorem pushed_carveGroups (share : ℕ → ℕ → ℕ → ℕ) (spare : ℕ) : Pushed T (carveGroups T share spare) := by
  have hfold : ∀ (gs : List (Group × ℕ)) (s : List Subpool × ℕ), Pushed T s →
      (∀ x ∈ gs, T.groups[x.2]? = some x.1) → Pushed T (gs.foldl (pushGroup T share spare) s) := by
    intro gs
    induction gs with
    | nil => exact fun s hs _ => hs
    | cons x gs ih =>
      intro s hs hgs
      exact ih _ (hs.push 0 _ 0 (hgs x List.mem_cons_self)) fun y hy => hgs y (List.mem_cons_of_mem x hy)
  refine hfold _ _ ⟨⟨rfl, fun _ => trivial⟩, fun sp hsp => absurd hsp List.not_mem_nil⟩ fun x hx => ?_
  exact List.mk_mem_zipIdx_iff_getElem?.mp hx

theorem Pushed.pushDevice (h : Pushed T s) (reg : VRegion) : Pushed T (pushDevice T s reg) := by
  rw [PoolInit.pushDevice]
  cases hg : T.groups[reg.group]? with
  | none => exact h
  | some g =>
    dsimp only
    split
    · exact h
    · exact h.push _ _ _ hg

theorem pushed_carveAll (share : ℕ → ℕ → ℕ → ℕ) (spare : ℕ) (regs : List VRegion) :
    Pushed T (carveAll T share spare regs) := by
  rw [carveAll]
  generalize hs : carveGroups T share spare = s
  have hpushed : Pushed T s := hs ▸ pushed_carveGroups share spare
  clear hs
  induction regs generalizing s with
  | nil => exact hpushed
  | cons reg regs ih => exact ih _ (hpushed.pushDevice reg)

end numbering

section place

def ramBytes (sps : List Subpool) : ℕ := ((ramShapes sps).map fun k => k.2.2.1 * k.2.2.2).sum

theorem ramBytes_cons (sp : Subpool) (sps : List Subpool) :
    ramBytes (sp :: sps) = (if sp.pool = 0 then sp.nSlots * sp.expertSize else 0) + ramBytes sps := by
  by_cases hpool : sp.pool = 0
  · simp [ramBytes, ramShapes, shape, hpool]
  · simp [ramBytes, ramShapes, shape, hpool]

theorem consecutive_placeRam {b n : ℕ} {sps : List Subpool} (h : Consecutive n sps) :
    Consecutive n (placeRam b sps) := by
  induction sps generalizing b n with
  | nil => trivial
  | cons sp sps ih =>
    rw [placeRam]
    split
    · exact ⟨h.1, ih h.2⟩
    · exact ⟨h.1, ih h.2⟩

theorem slotTotal_placeRam (b : ℕ) (sps : List Subpool) : slotTotal (placeRam b sps) = slotTotal sps := by
  have hmap := congrArg (List.map fun k : ℕ × ℕ × ℕ × ℕ => k.2.2.1) (map_shape_placeRam b sps)
  rw [List.map_map, List.map_map] at hmap
  exact congrArg List.sum hmap

theorem shaped_placeRam {T : Topology} {b : ℕ} {sps : List Subpool} (h : ∀ sp ∈ sps, Shaped T sp) :
    ∀ sp ∈ placeRam b sps, Shaped T sp := by
  induction sps generalizing b with
  | nil => exact fun sp hsp => absurd hsp List.not_mem_nil
  | cons x sps ih =>
    intro sp hsp
    have hx := h x List.mem_cons_self
    have hrest := fun b => @ih b fun y hy => h y (List.mem_cons_of_mem x hy)
    rw [placeRam] at hsp
    split at hsp
    · rcases List.mem_cons.mp hsp with rfl | hsp
      · exact hx
      · exact hrest _ sp hsp
    · rcases List.mem_cons.mp hsp with rfl | hsp
      · exact hx
      · exact hrest _ sp hsp

/-- A placed region is one of the device regions or lies in what is left of the block. -/
theorem mem_placeRam {b : ℕ} {sps : List Subpool} (hlt : b + ramBytes sps < 2 ^ 64) {sp : Subpool}
    (h : sp ∈ placeRam b sps) :
    (sp.pool ≠ 0 ∧ sp ∈ sps) ∨ (b ≤ sp.base ∧ sp.base + sp.nSlots * sp.expertSize ≤ b + ramBytes sps) := by
  induction sps generalizing b with
  | nil => exact absurd h List.not_mem_nil
  | cons x sps ih =>
    rw [ramBytes_cons] at hlt ⊢
    rw [placeRam] at h
    split at h
    · rename_i hpool
      rw [if_pos hpool] at hlt ⊢
      rw [Nat.mod_eq_of_lt (by omega)] at h
      rcases List.mem_cons.mp h with rfl | h
      · right
        dsimp only
        omega
      · rcases ih (by omega) h with ⟨hdev, hmem⟩ | hin
        · exact Or.inl ⟨hdev, List.mem_cons_of_mem x hmem⟩
        · right
          omega
    · rename_i hpool
      rw [if_neg hpool] at hlt ⊢
      rcases List.mem_cons.mp h with rfl | h
      · exact Or.inl ⟨hpool, List.mem_cons_self⟩
      · rcases ih (by omega) h with ⟨hdev, hmem⟩ | hin
        · exact Or.inl ⟨hdev, List.mem_cons_of_mem x hmem⟩
        · right
          omega

/-- Device blocks that are apart from each other and from the block of the main memory. -/
theorem pairwise_placeRam {b : ℕ} {sps : List Subpool} (hlt : b + ramBytes sps < 2 ^ 64)
    (hdev : (sps.filter fun sp => sp.pool ≠ 0).Pairwise fun x y => Apart (region x) (region y))
    (hram : ∀ sp ∈ sps, sp.pool ≠ 0 → Apart (region sp) (b, ramBytes sps)) :
    (placeRam b sps).Pairwise fun x y => Apart (region x) (region y) := by
  induction sps generalizing b with
  | nil => exact List.Pairwise.nil
  | cons x sps ih =>
    rw [ramBytes_cons] at hlt hram
    rw [placeRam]
    split
    · rename_i hpool
      rw [if_pos hpool] at hlt hram
      rw [Nat.mod_eq_of_lt (by omega)]
      have hrest : ∀ sp ∈ sps, sp.pool ≠ 0 →
          Apart (region sp) (b, x.nSlots * x.expertSize + ramBytes sps) :=
        fun sp hsp hne => hram sp (List.mem_cons_of_mem x hsp) hne
      refine List.Pairwise.cons (fun sp hsp => ?_) (ih (by omega) ?_ fun sp hsp hne => ?_)
      · rcases mem_placeRam (by omega) hsp with ⟨hne, hmem⟩ | hin
        · have hx : b ≤ b ∧ b + x.nSlots * x.expertSize ≤ b + (x.nSlots * x.expertSize + ramBytes sps) := by
            omega
          exact (hrest sp hmem hne).symm.mono hx ⟨Nat.le_refl _, Nat.le_refl _⟩
        · exact Or.inl hin.1
      · rwa [List.filter_cons_of_neg (by simp [hpool])] at hdev
      · refine (hrest sp hsp hne).mono ⟨Nat.le_refl _, Nat.le_refl _⟩ ?_
        dsimp only
        omega
    · rename_i hpool
      rw [if_neg hpool, Nat.zero_add] at hlt hram
      rw [List.filter_cons_of_pos (by simp [hpool]), List.pairwise_cons] at hdev
      refine List.Pairwise.cons (fun sp hsp => ?_)
        (ih hlt hdev.2 fun sp hsp hne => hram sp (List.mem_cons_of_mem x hsp) hne)
      rcases mem_placeRam hlt hsp with ⟨hne, hmem⟩ | hin
      · exact hdev.1 sp (List.mem_filter.mpr ⟨hmem, decide_eq_true hne⟩)
      · exact (hram x List.mem_cons_self hpool).mono ⟨Nat.le_refl _, Nat.le_refl _⟩ hin

end place

section devices

variable (T : Topology)

/-- The block of memory that comes with a device region, unless `init` skips the region or puts it into
main memory. -/
def deviceBlock (reg : VRegion) : Option (ℕ × ℕ) :=
  match T.groups[reg.group]? with
  | none => none
  | some g =>
      if reg.base = 0 ∨ reg.nSlots = 0 ∨ reg.pool = 0 then none
      else some (reg.base, reg.nSlots * g.expertSize)

/-- What the allocators of the devices and of the main memory give: blocks inside the address space, no two
of which share a byte. -/
structure Buffers (regs : List VRegion) (ram : ℕ × ℕ) : Prop where
  ram_lt : ram.1 + ram.2 < 2 ^ 64
  device_lt : ∀ x ∈ regs.filterMap (deviceBlock T), x.1 + x.2 < 2 ^ 64
  devices : (regs.filterMap (deviceBlock T)).Pairwise Apart
  ram_apart : ∀ x ∈ regs.filterMap (deviceBlock T), Apart x ram

variable {T}

def deviceBlocks (sps : List Subpool) : List (ℕ × ℕ) := (sps.filter fun sp => sp.pool ≠ 0).map region

theorem deviceBlocks_carveGroups (share : ℕ → ℕ → ℕ → ℕ) (spare : ℕ) :
    deviceBlocks (carveGroups T share spare).1 = [] := by
  have hfold : ∀ (gs : List (Group × ℕ)) (s : List Subpool × ℕ), deviceBlocks s.1 = [] →
      deviceBlocks (gs.foldl (pushGroup T share spare) s).1 = [] := by
    intro gs
    induction gs with
    | nil => exact fun s hs => hs
    | cons x gs ih =>
      intro s hs
      refine ih _ ?_
      simpa [deviceBlocks, pushGroup, pushRegion] using hs
  exact hfold _ _ rfl

theorem deviceBlocks_pushDevice (s : List Subpool × ℕ) (reg : VRegion) :
    deviceBlocks (pushDevice T s reg).1 = deviceBlocks s.1 ++ (deviceBlock T reg).toList := by
  rw [pushDevice, deviceBlock]
  cases T.groups[reg.group]? with
  | none => simp
  | some g =>
    dsimp only
    by_cases hskip : reg.base = 0 ∨ reg.nSlots = 0
    · rw [if_pos hskip, if_pos (hskip.imp_right Or.inl)]
      simp
    · rw [if_neg hskip]
      by_cases hpool : reg.pool = 0
      · simp [deviceBlocks, pushRegion, hpool]
      · have hkeep : ¬ (reg.base = 0 ∨ reg.nSlots = 0 ∨ reg.pool = 0) := by
          rwa [← or_assoc, or_iff_left hpool]
        rw [if_neg hkeep]
        simp [deviceBlocks, pushRegion, region, hpool]

theorem deviceBlocks_carveAll (share : ℕ → ℕ → ℕ → ℕ) (spare : ℕ) (regs : List VRegion) :
    deviceBlocks (carveAll T share spare regs).1 = regs.filterMap (deviceBlock T) := by
  have hfold : ∀ s : List Subpool × ℕ, deviceBlocks (regs.foldl (pushDevice T) s).1 =
      deviceBlocks s.1 ++ regs.filterMap (deviceBlock T) := by
    induction regs with
    | nil => simp
    | cons reg regs ih =>
      intro s
      rw [List.foldl_cons, ih, deviceBlocks_pushDevice, List.append_assoc, List.filterMap_cons]
      cases deviceBlock T reg <;> rfl
  rw [carveAll, hfold, deviceBlocks_carveGroups, List.nil_append]

end devices

section slices

/-- Offsets that fit a word are not wrapped. -/
theorem fillColumns_eq {ns i off : ℕ} {strides : List ℕ} (h : off + ns * strides.sum < 2 ^ 64) :
    fillColumns ns i off strides = fillCols ns i off strides := by
  induction strides generalizing i off with
  | nil => rfl
  | cons stride strides ih =>
    rw [List.sum_cons, Nat.mul_add] at h
    have hoff : (off + ns * stride) % 2 ^ 64 = off + ns * stride := Nat.mod_eq_of_lt (by omega)
    rw [fillColumns, fillCols, hoff, ih (by omega)]

/-- A region of its group within the address space: its columns are laid out one behind the other. -/
structure Sound (sp : Subpool) (strides : List ℕ) : Prop where
  cols : sp.cols = fillCols sp.nSlots 0 0 strides
  sum : strides.sum = sp.expertSize
  region_lt : sp.base + sp.nSlots * sp.expertSize < 2 ^ 64
  slots_le : sp.slotBegin + sp.nSlots < 2 ^ 32

theorem Shaped.sound {T : Topology} {sp : Subpool} (h : Shaped T sp)
    (hsum : ∀ g ∈ T.groups, g.strides.sum = g.expertSize)
    (hlt : sp.base + sp.nSlots * sp.expertSize < 2 ^ 64) (hslots : sp.slotBegin + sp.nSlots < 2 ^ 32) :
    ∃ strides, Sound sp strides := by
  obtain ⟨g, hg, hsize, hcols⟩ := h
  have hg := hsum g (List.mem_of_getElem? hg)
  refine ⟨g.strides, ?_, hg.trans hsize.symm, hlt, hslots⟩
  rw [hcols]
  refine fillColumns_eq ?_
  rw [hg, ← hsize]
  omega

variable {sp : Subpool} {strides : List ℕ} (h : Sound sp strides)

include h

theorem Sound.colSlice_mem {c : Column} (hc : c ∈ sp.cols) {slot : ℕ} (hown : sp.owns slot = true) :
    sp.base ≤ colSlice sp c slot ∧ colSlice sp c slot + c.stride ≤ sp.base + sp.nSlots * sp.expertSize := by
  obtain ⟨hbegin, hend⟩ := colSlice_le c hown
  rw [h.cols] at hc
  have hcol := end_le_of_mem_fillCols hc
  rw [h.sum] at hcol
  omega

theorem Sound.colSliceWord_eq {c : Column} (hc : c ∈ sp.cols) {slot : ℕ} (hown : sp.owns slot = true) :
    colSliceWord sp c slot = colSlice sp c slot := by
  have hlt := h.region_lt
  have hslots := h.slots_le
  obtain ⟨_, hend⟩ := h.colSlice_mem hc hown
  simp only [Subpool.owns, decide_eq_true_eq] at hown
  have hlocal : (slot + 2 ^ 32 - sp.slotBegin) % 2 ^ 32 = slot - sp.slotBegin := by omega
  rw [colSliceWord, hlocal]
  exact Nat.mod_eq_of_lt (by unfold colSlice at hend; omega)

theorem Sound.colSlice_apart {i j slot slot' : ℕ} (hi : i < sp.cols.length) (hj : j < sp.cols.length)
    (hown : sp.owns slot = true) (hown' : sp.owns slot' = true) (hne : (slot, i) ≠ (slot', j)) :
    Apart (colSlice sp sp.cols[i] slot, sp.cols[i].stride)
      (colSlice sp sp.cols[j] slot', sp.cols[j].stride) := by
  have hbegin : sp.slotBegin ≤ slot ∧ sp.slotBegin ≤ slot' := by
    simp only [Subpool.owns, decide_eq_true_eq] at hown hown'
    omega
  rcases Nat.lt_trichotomy i j with hij | rfl | hij
  · exact Or.inl (colSlice_before h.cols hown hown' hij hi hj)
  · rcases Nat.lt_trichotomy slot slot' with hlt | rfl | hlt
    · exact Or.inl (colSlice_succ_le sp _ hbegin.1 hlt)
    · exact absurd rfl hne
    · exact Or.inr (colSlice_succ_le sp _ hbegin.2 hlt)
  · exact Or.inr (colSlice_before h.cols hown' hown hij hj hi)

end slices

section geometry

theorem pairwise_of_consecutive {b : ℕ} {sps : List Subpool} (h : Consecutive b sps) :
    sps.Pairwise fun x y => x.slotBegin + x.nSlots ≤ y.slotBegin := by
  induction sps generalizing b with
  | nil => exact List.Pairwise.nil
  | cons x sps ih =>
    refine List.Pairwise.cons (fun y hy => ?_) (ih h.2)
    rw [h.1]
    exact (h.2.bounds hy).1

theorem exists_owner {b : ℕ} {sps : List Subpool} (h : Consecutive b sps) {slot : ℕ} (hb : b ≤ slot)
    (hend : slot < endSlot b sps) : ∃ sp ∈ sps, sp.owns slot = true := by
  induction sps generalizing b with
  | nil => exact absurd hb (Nat.not_le_of_lt hend)
  | cons x sps ih =>
    have hbegin := h.1
    by_cases hx : slot < b + x.nSlots
    · refine ⟨x, List.mem_cons_self, ?_⟩
      simp only [Subpool.owns, decide_eq_true_eq]
      omega
    · obtain ⟨sp, hsp, hown⟩ := ih h.2 (by omega) hend
      exact ⟨sp, List.mem_cons_of_mem x hsp, hown⟩

/-- The slot numbers are shared out among the regions, every slice is within its region, different slices have
no byte in common, and as long as the numbers are positive as `int32_t` the lookup of a slot finds its
slices. -/
structure Separate (c : Carved) : Prop where
  ordered : c.subpools.Pairwise fun x y => x.slotBegin + x.nSlots ≤ y.slotBegin
  cover : ∀ slot, slot < c.numSlots ↔ ∃ sp ∈ c.subpools, sp.owns slot = true
  inside : ∀ sp ∈ c.subpools, ∀ cl ∈ sp.cols, ∀ slot, sp.owns slot = true →
    sp.base ≤ colSliceWord sp cl slot ∧
      colSliceWord sp cl slot + cl.stride ≤ sp.base + sp.nSlots * sp.expertSize
  apart : ∀ x ∈ c.subpools, ∀ y ∈ c.subpools, ∀ (i j : ℕ) (hi : i < x.cols.length)
    (hj : j < y.cols.length) (slot slot' : ℕ), x.owns slot = true → y.owns slot' = true →
    (slot, i) ≠ (slot', j) →
    Apart (colSliceWord x x.cols[i] slot, x.cols[i].stride)
      (colSliceWord y y.cols[j] slot', y.cols[j].stride)
  lookup : c.numSlots < 2 ^ 31 → ∀ sp ∈ c.subpools, ∀ slot, sp.owns slot = true →
    ∀ col, slotColMemInt c slot col = sp.cols[col]?.map fun cl => colSliceWord sp cl slot

theorem toInt32_eq {n : ℕ} (h : n < 2 ^ 31) : toInt32 n = n := by
  have hpow : ((2 ^ 32 : ℕ) : ℤ) = 4294967296 := by norm_num
  exact Int.bmod_eq_of_le_mul_two (by rw [hpow]; omega) (by rw [hpow]; omega)

theorem find?_congr {α : Type*} {l : List α} {p q : α → Bool} (h : ∀ x ∈ l, p x = q x) :
    l.find? p = l.find? q := by
  induction l with
  | nil => rfl
  | cons x l ih =>
    rw [List.find?_cons, List.find?_cons, h x List.mem_cons_self,
      ih fun y hy => h y (List.mem_cons_of_mem x hy)]

theorem slotColMemInt_eq {c : Carved} (hcons : Consecutive 0 c.subpools)
    (hend : endSlot 0 c.subpools = c.numSlots) (hlt : c.numSlots < 2 ^ 31) {sp : Subpool}
    (hsp : sp ∈ c.subpools) {slot : ℕ} (hown : sp.owns slot = true) (col : ℕ) :
    slotColMemInt c slot col = sp.cols[col]?.map fun cl => colSliceWord sp cl slot := by
  have hslot : sp.slotBegin ≤ slot ∧ slot < sp.slotBegin + sp.nSlots := of_decide_eq_true hown
  have hbounds := (hcons.bounds hsp).2
  have howns : ∀ x ∈ c.subpools,
      (decide (toInt32 x.slotBegin ≤ slot ∧ (slot : ℤ) < toInt32 (slotEnd x))) = x.owns slot := by
    intro x hx
    have hx := (hcons.bounds hx).2
    have hword : slotEnd x = x.slotBegin + x.nSlots := Nat.mod_eq_of_lt (by omega)
    rw [Subpool.owns, decide_eq_decide, hword, toInt32_eq (by omega), toInt32_eq (by omega)]
    omega
  have hfind : subpoolOfSlotInt c slot = some sp := by
    have hin : ¬ ((slot : ℤ) < 0 ∨ toInt32 c.numSlots ≤ slot) := by
      rw [toInt32_eq hlt]
      omega
    rw [subpoolOfSlotInt, if_neg hin, find?_congr howns]
    exact hcons.find hsp hown
  have hlocal : (((slot : ℤ) - toInt32 sp.slotBegin) % 2 ^ 64).toNat =
      (slot + 2 ^ 32 - sp.slotBegin) % 2 ^ 32 := by
    rw [toInt32_eq (by omega)]
    omega
  rw [slotColMemInt, hfind, Option.bind_some]
  simp only [colSlicePtr, colSliceWord, hlocal]

/-- As long as the slots fit their counter and the bytes of the main memory a word, the geometry of the pools
is disjoint. -/
theorem pools_separate {T : Topology} (hsum : ∀ g ∈ T.groups, g.strides.sum = g.expertSize)
    {share : ℕ → ℕ → ℕ → ℕ} {poolBytes : ℕ} {alloc : ℕ → Option ℕ} {regs : List VRegion} {c : Carved}
    (hinit : initPools T share poolBytes alloc regs = .ok c)
    (hbuffers : ∀ base, alloc c.poolBytes = some base → Buffers T regs (base, c.poolBytes))
    (hslots : slotTotal c.subpools < 2 ^ 32) (hram : ramBytes c.subpools < 2 ^ 64) : Separate c := by
  obtain ⟨base, hbase, rfl⟩ : ∃ base,
      alloc (commit (carveAll T share (poolBytes - sumFloor T) regs).1) = some base ∧
      c = { subpools := placeRam base (carveAll T share (poolBytes - sumFloor T) regs).1
            numSlots := (carveAll T share (poolBytes - sumFloor T) regs).2
            poolBytes := commit (carveAll T share (poolBytes - sumFloor T) regs).1 } := by
    simp only [initPools] at hinit
    split at hinit
    · cases hinit
    · split at hinit
      · cases hinit
      · split at hinit
        · cases hinit
        · split at hinit
          · cases hinit
          · split at hinit
            · cases hinit
            · rename_i base halloc
              cases hinit
              exact ⟨base, halloc, rfl⟩
  have hpushed := @pushed_carveAll T share (poolBytes - sumFloor T) regs
  have hblocks := @deviceBlocks_carveAll T share (poolBytes - sumFloor T) regs
  generalize carveAll T share (poolBytes - sumFloor T) regs = s at *
  obtain ⟨hblock, hdevice, hdevices, hapart⟩ := hbuffers base hbase
  dsimp only at hblock hapart hslots hram
  rw [slotTotal_placeRam] at hslots
  rw [ramBytes, ramShapes_placeRam] at hram
  rw [commit_eq hram] at hblock hapart
  rw [← hblocks] at hdevice hdevices hapart
  have hcons : Consecutive 0 (placeRam base s.1) :=
    consecutive_placeRam (hpushed.numbered.consecutive hslots)
  have hend : endSlot 0 (placeRam base s.1) = s.2 := by
    rw [endSlot_eq, slotTotal_placeRam, Nat.zero_add, hpushed.numbered.counter, Nat.mod_eq_of_lt hslots]
  have hpairs : (placeRam base s.1).Pairwise fun x y => Apart (region x) (region y) := by
    refine pairwise_placeRam hblock (List.pairwise_map.mp hdevices) fun sp hsp hne => ?_
    exact hapart _ (List.mem_map_of_mem (List.mem_filter.mpr ⟨hsp, decide_eq_true hne⟩))
  have hsound : ∀ sp ∈ placeRam base s.1, ∃ strides, Sound sp strides := by
    intro sp hsp
    refine (shaped_placeRam hpushed.shaped sp hsp).sound hsum ?_ ?_
    · rcases mem_placeRam hblock hsp with ⟨hne, hmem⟩ | hin
      · exact hdevice _ (List.mem_map_of_mem (List.mem_filter.mpr ⟨hmem, decide_eq_true hne⟩))
      · exact lt_of_le_of_lt hin.2 hblock
    · have hbounds := (hcons.bounds hsp).2
      rw [endSlot_eq, slotTotal_placeRam] at hbounds
      omega
  refine ⟨pairwise_of_consecutive hcons, fun slot => ?_, fun sp hsp cl hcl slot hown => ?_, ?_, ?_⟩
  · dsimp only
    rw [← hend]
    refine ⟨fun hlt => exists_owner hcons (Nat.zero_le _) hlt, ?_⟩
    rintro ⟨sp, hsp, hown⟩
    have hbounds := (hcons.bounds hsp).2
    simp only [Subpool.owns, decide_eq_true_eq] at hown
    omega
  · obtain ⟨strides, h⟩ := hsound sp hsp
    rw [h.colSliceWord_eq hcl hown]
    exact h.colSlice_mem hcl hown
  · intro x hx y hy i j hi hj slot slot' hown hown' hne
    obtain ⟨_, h⟩ := hsound x hx
    obtain ⟨_, h'⟩ := hsound y hy
    rw [h.colSliceWord_eq (List.getElem_mem hi) hown, h'.colSliceWord_eq (List.getElem_mem hj) hown']
    by_cases hxy : x = y
    · subst hxy
      exact h.colSlice_apart hi hj hown hown' hne
    · have hapart : Apart (region x) (region y) :=
        hpairs.forall hx hy hxy
      exact hapart.mono (h.colSlice_mem (List.getElem_mem hi) hown)
        (h'.colSlice_mem (List.getElem_mem hj) hown')
  · intro hlt sp hsp slot hown col
    exact slotColMemInt_eq hcons hend hlt hsp hown col

/-- Two groups in main memory and two more slots of the second on a device. -/
theorem pools_separate_twoGroups :
    ∃ c, initPools twoGroups exactShare 700 (fun _ => some 4096) [⟨1, 1, 65536, 2⟩] = .ok c ∧
      Separate c := by
  have hrun : (initPools twoGroups exactShare 700 (fun _ => some 4096) [⟨1, 1, 65536, 2⟩]).map
      (fun c => (c.poolBytes, slotTotal c.subpools, ramBytes c.subpools)) = .ok (580, 12, 580) := by
    decide +kernel
  cases hinit : initPools twoGroups exactShare 700 (fun _ => some 4096) [⟨1, 1, 65536, 2⟩] with
  | error e => rw [hinit] at hrun; cases hrun
  | ok c =>
    rw [hinit] at hrun
    obtain ⟨hbytes, hrest⟩ := Prod.mk.inj (Except.ok.inj hrun)
    obtain ⟨hslots, hram⟩ := Prod.mk.inj hrest
    have hblocks : [⟨1, 1, 65536, 2⟩].filterMap (deviceBlock twoGroups) = [(65536, 60)] := by decide
    have hapart : Apart (65536, 60) (4096, 580) := Or.inr (by decide)
    refine ⟨c, rfl, pools_separate (by decide) hinit (fun base hbase => ?_) ?_ ?_⟩
    · cases hbase
      rw [hbytes]
      refine ⟨by decide, ?_, ?_, ?_⟩ <;> rw [hblocks]
      · simp
      · exact List.pairwise_singleton _ _
      · simpa using hapart
    · rw [hslots]
      decide
    · rw [hram]
      decide

/-- One slot in main memory and all that a `uint32_t` can count on a device: the counter is back at zero. -/
theorem not_pools_separate :
    ¬ ∀ (T : Topology) (poolBytes : ℕ) (alloc : ℕ → Option ℕ) (regs : List VRegion) (c : Carved),
      (∀ g ∈ T.groups, g.strides.sum = g.expertSize) →
      initPools T exactShare poolBytes alloc regs = .ok c →
      (∀ base, alloc c.poolBytes = some base → Buffers T regs (base, c.poolBytes)) →
      ∀ slot, slot < c.numSlots ↔ ∃ sp ∈ c.subpools, sp.owns slot = true := by
  intro h
  let T : Topology :=
    { nLayer := 1, nExpert := 1, numTensors := fun _ _ => 1
      groups := [{ layers := [0], expertSize := 1, totalBytes := 1, strides := [1] }] }
  let regs : List VRegion := [⟨1, 0, 2 ^ 40, 2 ^ 32 - 1⟩]
  let ram : Subpool :=
    { pool := 0, group := 0, slotBegin := 0, nSlots := 1, expertSize := 1, base := 4096, cols := [⟨0, 0, 1⟩] }
  let device : Subpool :=
    { pool := 1, group := 0, slotBegin := 1, nSlots := 2 ^ 32 - 1, expertSize := 1, base := 2 ^ 40
      cols := [⟨0, 0, 1⟩] }
  have hblocks : regs.filterMap (deviceBlock T) = [(2 ^ 40, 2 ^ 32 - 1)] := by decide
  have hapart : Apart (2 ^ 40, 2 ^ 32 - 1) (4096, 1) := Or.inr (by decide)
  have hrun : initPools T exactShare 1 (fun _ => some 4096) regs =
      .ok { subpools := [ram, device], numSlots := 0, poolBytes := 1 } := by decide +kernel
  have hslot := h T 1 (fun _ => some 4096) regs _ (by decide) hrun (fun base hbase => by
    cases hbase
    refine ⟨by decide, ?_, ?_, ?_⟩ <;> rw [hblocks]
    · simp
    · exact List.pairwise_singleton _ _
    · simpa using hapart) 0
  exact absurd (hslot.mpr ⟨ram, List.mem_cons_self, by decide⟩) (Nat.not_lt_zero 0)

end geometry

end PoolRegions
end StreamMoE
