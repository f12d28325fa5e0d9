import Mathlib.Algebra.Order.BigOperators.Group.List
import Mathlib.Algebra.Order.Floor.Semiring
import Mathlib.Data.Rat.Floor
import StreamMoE.SchedConfig

/-! The pools of `expert_scheduler::init` on machine words: what the main memory is carved into, the device
regions behind it, and the budget of the carve. While no word wraps it is the carve of `SchedConfig`
(`carveAll_plain`). -/
namespace StreamMoE
namespace PoolInit

open PoolGeometry SchedConfig

/-- Why there is no scheduler. -/
inductive InitError
  | tooManyExperts
  | noExpertGroups
  | poolTooSmall
  | divisionByZero
  | poolAllocFailed
  deriving DecidableEq, Repr

section carve

variable (T : Topology)

def floorBytes (g : Group) : ℕ := T.nExpert * g.expertSize % 2 ^ 64

def sumFloor : ℕ := (T.groups.map (floorBytes T)).sum % 2 ^ 64

def totalBytes : ℕ := (T.groups.map Group.totalBytes).sum % 2 ^ 64

/-- The part of the spare bytes for a group that has `part` of `total` bytes, as an exact number. -/
def exactShare (spare part total : ℕ) : ℕ := ⌊(spare : ℚ) * ((part : ℚ) / (total : ℚ))⌋₊

variable (share : ℕ → ℕ → ℕ → ℕ) (spare : ℕ)

/-- Bytes and slots of a group: the count is a `uint32_t`, as the experts of the group are. -/
def groupBudget (g : Group) : ℕ := (floorBytes T g + share spare g.totalBytes (totalBytes T)) % 2 ^ 64

def groupSlots (g : Group) : ℕ :=
  let ns := groupBudget T share spare g / g.expertSize % 2 ^ 32
  let expertsTotal := g.layers.length % 2 ^ 32 * T.nExpert % 2 ^ 32
  let ns := if ns < T.nExpert then T.nExpert else ns
  if expertsTotal < ns then expertsTotal else ns

/-- The columns of a region; offsets are `size_t`. -/
def fillColumns (ns : ℕ) : ℕ → ℕ → List ℕ → List Column
  | _, _, [] => []
  | index, off, stride :: strides =>
      { index := index, off := off, stride := stride } ::
        fillColumns ns (index + 1) ((off + ns * stride) % 2 ^ 64) strides

def pushRegion (s : List Subpool × ℕ) (g : Group) (pool group ns base : ℕ) : List Subpool × ℕ :=
  (s.1 ++ [{ pool := pool, group := group, slotBegin := s.2, nSlots := ns, expertSize := g.expertSize,
             base := base, cols := fillColumns ns 0 0 g.strides }],
    (s.2 + ns) % 2 ^ 32)

/-- The region of a group in main memory, which has no base yet. -/
def pushGroup (s : List Subpool × ℕ) (x : Group × ℕ) : List Subpool × ℕ :=
  pushRegion s x.1 0 x.2 (groupSlots T share spare x.1) 0

/-- Regions without a base, a group or a slot are skipped. -/
def pushDevice (s : List Subpool × ℕ) (reg : VRegion) : List Subpool × ℕ :=
  match T.groups[reg.group]? with
  | none => s
  | some g =>
      if reg.base = 0 ∨ reg.nSlots = 0 then s else pushRegion s g reg.pool reg.group reg.nSlots reg.base

def carveGroups : List Subpool × ℕ := T.groups.zipIdx.foldl (pushGroup T share spare) ([], 0)

def carveAll (regs : List VRegion) : List Subpool × ℕ :=
  regs.foldl (pushDevice T) (carveGroups T share spare)

/-- The bytes to allocate. -/
def commit (sps : List Subpool) : ℕ :=
  ((sps.filter fun sp => sp.pool = 0).map fun sp => sp.nSlots * sp.expertSize % 2 ^ 64).sum % 2 ^ 64

/-- The bases of the regions in main memory, one behind the other. -/
def placeRam : ℕ → List Subpool → List Subpool
  | _, [] => []
  | b, sp :: sps =>
      if sp.pool = 0 then { sp with base := b } :: placeRam ((b + sp.nSlots * sp.expertSize) % 2 ^ 64) sps
      else sp :: placeRam b sps

structure Carved where
  subpools : List Subpool
  numSlots : ℕ
  poolBytes : ℕ
  deriving DecidableEq

/-- `expert_scheduler::init` up to the slot table; `alloc` is the allocation of the pool. -/
def initPools (poolBytes : ℕ) (alloc : ℕ → Option ℕ) (regs : List VRegion) : Except InitError Carved :=
  if maxExpertsPerLayer < T.nExpert then .error .tooManyExperts
  else if totalBytes T = 0 then .error .noExpertGroups
  else if poolBytes < sumFloor T then .error .poolTooSmall
  else if T.groups.any fun g => g.expertSize == 0 then .error .divisionByZero
  else
    let s := carveAll T share (poolBytes - sumFloor T) regs
    match alloc (commit s.1) with
    | none => .error .poolAllocFailed
    | some base => .ok { subpools := placeRam base s.1, numSlots := s.2, poolBytes := commit s.1 }

end carve

section regions

/-- What a region is, apart from where it is. -/
def shape (sp : Subpool) : ℕ × ℕ × ℕ × ℕ := (sp.pool, sp.group, sp.nSlots, sp.expertSize)

@[simp] theorem map_shape_placeRam (b : ℕ) (sps : List Subpool) :
    (placeRam b sps).map shape = sps.map shape := by
  induction sps generalizing b with
  | nil => rfl
  | cons sp sps ih =>
    rw [placeRam]
    split
    · simp [ih, shape]
    · simp [ih]

/-- The regions in main memory. -/
def ramShapes (sps : List Subpool) : List (ℕ × ℕ × ℕ × ℕ) := (sps.map shape).filter fun k => k.1 = 0

theorem ramShapes_eq (sps : List Subpool) :
    ramShapes sps = (sps.filter fun sp => sp.pool = 0).map shape := by
  rw [ramShapes, List.filter_map]
  rfl

@[simp] theorem ramShapes_placeRam (b : ℕ) (sps : List Subpool) :
    ramShapes (placeRam b sps) = ramShapes sps := by
  simp [ramShapes]

variable {T : Topology} {share : ℕ → ℕ → ℕ → ℕ} {spare : ℕ}

theorem ramShapes_foldl_pushGroup (s : List Subpool × ℕ) (gs : List (Group × ℕ)) :
    ramShapes (gs.foldl (pushGroup T share spare) s).1 =
      ramShapes s.1 ++ gs.map fun x => (0, x.2, groupSlots T share spare x.1, x.1.expertSize) := by
  induction gs generalizing s with
  | nil => simp
  | cons x gs ih =>
    rw [List.foldl_cons, ih]
    simp [ramShapes, pushGroup, pushRegion, shape]

theorem ramShapes_pushDevice (s : List Subpool × ℕ) {reg : VRegion} (hreg : reg.pool ≠ 0) :
    ramShapes (pushDevice T s reg).1 = ramShapes s.1 := by
  rw [pushDevice]
  split
  · rfl
  · split
    · rfl
    · simp [ramShapes, pushRegion, shape, hreg]

/-- Device regions that are numbered from one leave the main memory to the groups, one region each. -/
theorem ramShapes_carveAll {regs : List VRegion} (hregs : ∀ reg ∈ regs, reg.pool ≠ 0) :
    ramShapes (carveAll T share spare regs).1 =
      T.groups.zipIdx.map fun x => (0, x.2, groupSlots T share spare x.1, x.1.expertSize) := by
  have hdevices : ∀ (l : List VRegion) (s : List Subpool × ℕ), (∀ reg ∈ l, reg.pool ≠ 0) →
      ramShapes (l.foldl (pushDevice T) s).1 = ramShapes s.1 := by
    intro l
    induction l with
    | nil => exact fun s _ => rfl
    | cons reg l ih =>
      intro s hl
      rw [List.foldl_cons, ih _ fun r hr => hl r (List.mem_cons_of_mem reg hr),
        ramShapes_pushDevice s (hl reg List.mem_cons_self)]
  rw [carveAll, hdevices regs _ hregs, carveGroups, ramShapes_foldl_pushGroup]
  rfl

end regions

section budget

/-- The groups as `build_topology` makes them, with bytes in every expert, and within the words: the bytes of
all experts fit a `uint64_t` and the experts of a group a `uint32_t`. -/
structure Sized (T : Topology) : Prop where
  layers : ∀ g ∈ T.groups, g.layers ≠ []
  size_pos : ∀ g ∈ T.groups, 0 < g.expertSize
  total : ∀ g ∈ T.groups, g.totalBytes = g.layers.length * T.nExpert * g.expertSize
  bytes_lt : (T.groups.map Group.totalBytes).sum < 2 ^ 64
  experts_lt : ∀ g ∈ T.groups, g.layers.length * T.nExpert < 2 ^ 32

/-- The bytes of one layer of every group. -/
def floorSum (T : Topology) : ℕ := (T.groups.map fun g => T.nExpert * g.expertSize).sum

theorem sum_exactShare_le (spare : ℕ) (parts : List ℕ) :
    (parts.map fun part => exactShare spare part parts.sum).sum ≤ spare := by
  have hparts : ∀ (l : List ℕ) (t : ℕ),
      ((l.map fun part => exactShare spare part t).sum : ℚ) ≤ spare * ((l.sum : ℚ) / t) := by
    intro l t
    induction l with
    | nil => simp
    | cons part l ih =>
      have hpart : (exactShare spare part t : ℚ) ≤ spare * ((part : ℚ) / t) :=
        Nat.floor_le (by positivity)
      have hsplit : (spare : ℚ) * (((part :: l).sum : ℚ) / t) =
          spare * ((part : ℚ) / t) + spare * ((l.sum : ℚ) / t) := by
        rw [List.sum_cons, Nat.cast_add, add_div, mul_add]
      rw [List.map_cons, List.sum_cons, Nat.cast_add, hsplit]
      exact add_le_add hpart ih
  have hle := hparts parts parts.sum
  have hone : (spare : ℚ) * ((parts.sum : ℚ) / (parts.sum : ℚ)) ≤ spare :=
    mul_le_of_le_one_right (Nat.cast_nonneg _) (div_self_le_one _)
  exact_mod_cast hle.trans hone

variable {T : Topology} (hT : Sized T)

include hT

theorem Sized.floor_le {g : Group} (hg : g ∈ T.groups) : T.nExpert * g.expertSize ≤ g.totalBytes := by
  have hlayers : 1 ≤ g.layers.length := List.length_pos_iff.mpr (hT.layers g hg)
  rw [hT.total g hg, Nat.mul_assoc]
  exact Nat.le_mul_of_pos_left _ hlayers

theorem Sized.floorSum_lt : floorSum T < 2 ^ 64 :=
  lt_of_le_of_lt (List.sum_le_sum fun _ hg => hT.floor_le hg) hT.bytes_lt

theorem Sized.floorBytes_eq {g : Group} (hg : g ∈ T.groups) : floorBytes T g = T.nExpert * g.expertSize := by
  have hle : T.nExpert * g.expertSize ≤ floorSum T := List.le_sum_of_mem (List.mem_map_of_mem hg)
  exact Nat.mod_eq_of_lt (lt_of_le_of_lt hle hT.floorSum_lt)

theorem Sized.sumFloor_eq : sumFloor T = floorSum T := by
  have hmap : T.groups.map (floorBytes T) = T.groups.map fun g => T.nExpert * g.expertSize :=
    List.map_congr_left fun g hg => hT.floorBytes_eq hg
  rw [sumFloor, hmap]
  exact Nat.mod_eq_of_lt hT.floorSum_lt

theorem Sized.totalBytes_eq : totalBytes T = (T.groups.map Group.totalBytes).sum :=
  Nat.mod_eq_of_lt hT.bytes_lt

theorem Sized.sum_share_le (spare : ℕ) :
    (T.groups.map fun g => exactShare spare g.totalBytes (totalBytes T)).sum ≤ spare := by
  have hle := sum_exactShare_le spare (T.groups.map Group.totalBytes)
  rwa [List.map_map, ← hT.totalBytes_eq] at hle

theorem Sized.groupBudget_eq {poolBytes : ℕ} (hpool : poolBytes < 2 ^ 64) (hfits : floorSum T ≤ poolBytes)
    {g : Group} (hg : g ∈ T.groups) :
    groupBudget T exactShare (poolBytes - floorSum T) g =
      T.nExpert * g.expertSize + exactShare (poolBytes - floorSum T) g.totalBytes (totalBytes T) := by
  have hshare : exactShare (poolBytes - floorSum T) g.totalBytes (totalBytes T) ≤ poolBytes - floorSum T :=
    (List.le_sum_of_mem (List.mem_map_of_mem hg)).trans (hT.sum_share_le _)
  have hfloor : T.nExpert * g.expertSize ≤ floorSum T := List.le_sum_of_mem (List.mem_map_of_mem hg)
  rw [groupBudget, hT.floorBytes_eq hg]
  exact Nat.mod_eq_of_lt (by omega)

theorem Sized.groupSlots_bounds (share : ℕ → ℕ → ℕ → ℕ) (spare : ℕ) {g : Group} (hg : g ∈ T.groups) :
    T.nExpert ≤ groupSlots T share spare g ∧
      groupSlots T share spare g ≤ g.layers.length * T.nExpert := by
  have hlayers : 1 ≤ g.layers.length := List.length_pos_iff.mpr (hT.layers g hg)
  have hle : T.nExpert ≤ g.layers.length * T.nExpert := Nat.le_mul_of_pos_left _ hlayers
  have htotal : g.layers.length % 2 ^ 32 * T.nExpert % 2 ^ 32 = g.layers.length * T.nExpert := by
    rw [Nat.mod_mul_mod]
    exact Nat.mod_eq_of_lt (hT.experts_lt g hg)
  simp only [groupSlots, htotal]
  split_ifs <;> omega

/-- The slots of a group fit its budget, whatever is cut off their number. -/
theorem Sized.groupSlots_mul_le {poolBytes : ℕ} (hpool : poolBytes < 2 ^ 64)
    (hfits : floorSum T ≤ poolBytes) {g : Group} (hg : g ∈ T.groups) :
    groupSlots T exactShare (poolBytes - floorSum T) g * g.expertSize ≤
      T.nExpert * g.expertSize + exactShare (poolBytes - floorSum T) g.totalBytes (totalBytes T) := by
  have hbudget := hT.groupBudget_eq hpool hfits hg
  have hquot : groupBudget T exactShare (poolBytes - floorSum T) g / g.expertSize % 2 ^ 32 * g.expertSize ≤
      groupBudget T exactShare (poolBytes - floorSum T) g :=
    (Nat.mul_le_mul_right _ (Nat.mod_le _ _)).trans (Nat.div_mul_le_self _ _)
  have hclamp : groupSlots T exactShare (poolBytes - floorSum T) g ≤
      max (groupBudget T exactShare (poolBytes - floorSum T) g / g.expertSize % 2 ^ 32) T.nExpert := by
    simp only [groupSlots]
    split_ifs <;> omega
  refine (Nat.mul_le_mul_right _ hclamp).trans ?_
  rw [← Nat.mul_max_mul_right]
  exact Nat.max_le.mpr ⟨hquot.trans_eq hbudget, Nat.le_add_right _ _⟩

/-- All regions of main memory together fit the pool. -/
theorem Sized.sum_slots_le {poolBytes : ℕ} (hpool : poolBytes < 2 ^ 64) (hfits : floorSum T ≤ poolBytes) :
    (T.groups.map fun g => groupSlots T exactShare (poolBytes - floorSum T) g * g.expertSize).sum ≤
      poolBytes := by
  have hslots : (T.groups.map fun g =>
      groupSlots T exactShare (poolBytes - floorSum T) g * g.expertSize).sum ≤
      (T.groups.map fun g => T.nExpert * g.expertSize +
        exactShare (poolBytes - floorSum T) g.totalBytes (totalBytes T)).sum :=
    List.sum_le_sum fun g hg => hT.groupSlots_mul_le hpool hfits hg
  have hshares := hT.sum_share_le (poolBytes - floorSum T)
  rw [List.sum_map_add] at hslots
  rw [floorSum] at hfits hshares hslots ⊢
  omega

end budget

section plain

variable (T : Topology) (share : ℕ → ℕ → ℕ → ℕ) (spare : ℕ)

/-- The part of the spare bytes for the group at an index. -/
def groupShare (i : ℕ) : ℕ :=
  match T.groups[i]? with
  | none => 0
  | some g => share spare g.totalBytes (totalBytes T)

/-- No count, budget or address of the carve reaches the end of its word. -/
structure InWords (base : ℕ) (regs : List VRegion) : Prop where
  budget : ∀ g ∈ T.groups,
    T.nExpert * g.expertSize + share spare g.totalBytes (totalBytes T) < 2 ^ 64
  count : ∀ g ∈ T.groups,
    (T.nExpert * g.expertSize + share spare g.totalBytes (totalBytes T)) / g.expertSize < 2 ^ 32
  experts : ∀ g ∈ T.groups, g.layers.length * T.nExpert < 2 ^ 32
  slots : endSlot 0 (carve T (groupShare T share spare) base regs) < 2 ^ 32
  columns : ∀ sp ∈ carve T (groupShare T share spare) base regs, ∀ g ∈ T.groups[sp.group]?,
    sp.nSlots * g.strides.sum < 2 ^ 64
  bases : ∀ sp ∈ carveRam T (groupShare T share spare) 0 0 base T.groups,
    sp.base + sp.nSlots * sp.expertSize < 2 ^ 64

variable {T share spare}

theorem fillColumns_eq {ns : ℕ} (strides : List ℕ) : ∀ index off, off + ns * strides.sum < 2 ^ 64 →
    fillColumns ns index off strides = fillCols ns index off strides := by
  induction strides with
  | nil => exact fun _ _ _ => rfl
  | cons stride strides ih =>
    intro index off h
    rw [List.sum_cons, Nat.mul_add] at h
    rw [fillColumns, fillCols, Nat.mod_eq_of_lt (by omega), ih _ _ (by omega)]

theorem groupSlots_eq {g : Group}
    (hbudget : T.nExpert * g.expertSize + share spare g.totalBytes (totalBytes T) < 2 ^ 64)
    (hcount : (T.nExpert * g.expertSize + share spare g.totalBytes (totalBytes T)) / g.expertSize < 2 ^ 32)
    (hexperts : g.layers.length * T.nExpert < 2 ^ 32) :
    groupSlots T share spare g = slotCount T g (share spare g.totalBytes (totalBytes T)) := by
  have hfloor : floorBytes T g = T.nExpert * g.expertSize := Nat.mod_eq_of_lt (by omega)
  have htotal : g.layers.length % 2 ^ 32 * T.nExpert % 2 ^ 32 = g.layers.length * T.nExpert := by
    rw [Nat.mod_mul_mod, Nat.mod_eq_of_lt hexperts]
  simp only [groupSlots, slotCount, groupBudget, htotal, hfloor, Nat.mod_eq_of_lt hbudget,
    Nat.mod_eq_of_lt hcount]

theorem endSlot_append (b : ℕ) (l l' : List Subpool) : endSlot b (l ++ l') = endSlot (endSlot b l) l' := by
  induction l generalizing b with
  | nil => rfl
  | cons sp l ih => exact ih _

/-- A region without its base. -/
def unplaced (sp : Subpool) : Subpool := { sp with base := 0 }

/-- The regions of main memory before they are placed. -/
theorem foldl_pushGroup_eq (gs : List Group) : ∀ (k b base : ℕ) (acc : List Subpool),
    (∀ x ∈ gs.zipIdx k, T.groups[x.2]? = some x.1 ∧
      groupSlots T share spare x.1 = slotCount T x.1 (groupShare T share spare x.2)) →
    (∀ sp ∈ carveRam T (groupShare T share spare) k b base gs, ∀ g ∈ T.groups[sp.group]?,
      sp.nSlots * g.strides.sum < 2 ^ 64) →
    endSlot b (carveRam T (groupShare T share spare) k b base gs) < 2 ^ 32 →
    (gs.zipIdx k).foldl (pushGroup T share spare) (acc, b) =
      (acc ++ (carveRam T (groupShare T share spare) k b base gs).map unplaced,
        endSlot b (carveRam T (groupShare T share spare) k b base gs)) := by
  induction gs with
  | nil => simp [carveRam, endSlot]
  | cons g gs ih =>
    intro k b base acc hgroups hcols hslots
    obtain ⟨hget, hns⟩ := hgroups (g, k) (by simp [List.zipIdx_cons])
    rw [carveRam] at hcols hslots ⊢
    have hend := le_endSlot (b + slotCount T g (groupShare T share spare k))
      (carveRam T (groupShare T share spare) (k + 1) (b + slotCount T g (groupShare T share spare k))
        (base + slotCount T g (groupShare T share spare k) * g.expertSize) gs)
    have hlt : b + slotCount T g (groupShare T share spare k) < 2 ^ 32 := lt_of_le_of_lt hend hslots
    have hcol := hcols _ List.mem_cons_self g hget
    have hfill := fillColumns_eq g.strides 0 0 (by simpa using hcol)
    rw [List.zipIdx_cons, List.foldl_cons, pushGroup, pushRegion, hns]
    simp only [Nat.mod_eq_of_lt hlt, hfill]
    rw [ih (k + 1) _ (base + slotCount T g (groupShare T share spare k) * g.expertSize) _
      (fun x hx => hgroups x (by simp [List.zipIdx_cons, hx]))
      (fun sp hsp => hcols sp (List.mem_cons_of_mem _ hsp)) hslots]
    simp [unplaced, endSlot]

theorem foldl_pushDevice_eq (regs : List VRegion) : ∀ (b : ℕ) (acc : List Subpool),
    (∀ sp ∈ carveRegions T b regs, ∀ g ∈ T.groups[sp.group]?, sp.nSlots * g.strides.sum < 2 ^ 64) →
    endSlot b (carveRegions T b regs) < 2 ^ 32 →
    regs.foldl (pushDevice T) (acc, b) =
      (acc ++ carveRegions T b regs, endSlot b (carveRegions T b regs)) := by
  induction regs with
  | nil => simp [carveRegions, endSlot]
  | cons reg regs ih =>
    intro b acc hcols hslots
    rw [List.foldl_cons, pushDevice]
    rw [carveRegions] at hcols hslots ⊢
    cases hget : T.groups[reg.group]? with
    | none =>
      simp only [hget] at hcols hslots
      exact ih b acc hcols hslots
    | some g =>
      simp only [hget] at hcols hslots ⊢
      by_cases hskip : reg.base = 0 ∨ reg.nSlots = 0
      · simp only [if_pos hskip] at hcols hslots ⊢
        exact ih b acc hcols hslots
      · simp only [if_neg hskip] at hcols hslots ⊢
        have hlt : b + reg.nSlots < 2 ^ 32 := lt_of_le_of_lt (le_endSlot _ _) hslots
        have hcol := hcols _ List.mem_cons_self g hget
        have hfill := fillColumns_eq g.strides 0 0 (by simpa using hcol)
        rw [pushRegion, hfill]
        simp only [Nat.mod_eq_of_lt hlt]
        rw [ih _ _ (fun sp hsp => hcols sp (List.mem_cons_of_mem _ hsp)) hslots]
        simp [endSlot]

theorem placeRam_unplaced (sps : List Subpool) : ∀ (gs : List Group) (share' : ℕ → ℕ) (k b base : ℕ),
    (∀ sp ∈ sps, sp.pool ≠ 0) →
    (∀ sp ∈ carveRam T share' k b base gs, sp.base + sp.nSlots * sp.expertSize < 2 ^ 64) →
    placeRam base ((carveRam T share' k b base gs).map unplaced ++ sps) =
      carveRam T share' k b base gs ++ sps := by
  have hdevices : ∀ (sps : List Subpool) (base : ℕ), (∀ sp ∈ sps, sp.pool ≠ 0) → placeRam base sps = sps := by
    intro sps
    induction sps with
    | nil => exact fun _ _ => rfl
    | cons sp sps ih =>
      intro base h
      rw [placeRam, if_neg (h sp List.mem_cons_self), ih base fun x hx => h x (List.mem_cons_of_mem _ hx)]
  intro gs
  induction gs with
  | nil => exact fun _ _ _ base hsps _ => hdevices sps base hsps
  | cons g gs ih =>
    intro share' k b base hsps hbases
    rw [carveRam] at hbases ⊢
    have hbase := hbases _ List.mem_cons_self
    rw [List.map_cons, List.cons_append, placeRam, if_pos (by rfl)]
    simp only [unplaced, Nat.mod_eq_of_lt hbase, List.cons_append]
    rw [← ih share' (k + 1) _ _ hsps fun sp hsp => hbases sp (List.mem_cons_of_mem _ hsp)]

theorem pool_carveRegions {regs : List VRegion} (hregs : ∀ reg ∈ regs, reg.pool ≠ 0) (b : ℕ) :
    ∀ sp ∈ carveRegions T b regs, sp.pool ≠ 0 := by
  induction regs generalizing b with
  | nil => exact fun sp h => absurd h List.not_mem_nil
  | cons reg regs ih =>
    have hrest := ih fun r hr => hregs r (List.mem_cons_of_mem _ hr)
    rw [carveRegions]
    split
    · exact hrest b
    · split
      · exact hrest b
      · exact List.forall_mem_cons.mpr ⟨hregs reg List.mem_cons_self, hrest _⟩

/-- Within the words the carve is that of the scheduler's configuration. -/
theorem carveAll_plain {base : ℕ} {regs : List VRegion} (h : InWords T share spare base regs)
    (hregs : ∀ reg ∈ regs, reg.pool ≠ 0) :
    placeRam base (carveAll T share spare regs).1 = carve T (groupShare T share spare) base regs ∧
      (carveAll T share spare regs).2 = endSlot 0 (carve T (groupShare T share spare) base regs) := by
  have hslots := h.slots
  have hcols := h.columns
  rw [carve, endSlot_append] at hslots
  rw [carve] at hcols
  have hram := @foldl_pushGroup_eq T share spare T.groups 0 0 base []
    (by
      rintro ⟨g, i⟩ hx
      have hget := List.mk_mem_zipIdx_iff_getElem?.mp hx
      have hg := List.mem_of_getElem? hget
      refine ⟨hget, ?_⟩
      rw [groupSlots_eq (h.budget g hg) (h.count g hg) (h.experts g hg), groupShare, hget])
    (fun sp hsp => hcols sp (List.mem_append_left _ hsp)) (lt_of_le_of_lt (le_endSlot _ _) hslots)
  rw [carveAll, carveGroups, hram, List.nil_append, carve, endSlot_append,
    foldl_pushDevice_eq regs _ _ (fun sp hsp => hcols sp (List.mem_append_right _ hsp)) hslots]
  exact ⟨placeRam_unplaced _ T.groups _ 0 0 base (pool_carveRegions hregs _) h.bases, rfl⟩

end plain

section committed

/-- What the carve of `poolBytes` may be: one region in main memory for each group, with the slots of at
least one layer and no more than the experts of the group, together within the pool; this is what is
allocated. -/
structure Budgeted (T : Topology) (poolBytes : ℕ) (c : Carved) : Prop where
  groups : (ramShapes c.subpools).map (fun k => k.2.1) = List.range T.groups.length
  slots : ∀ k ∈ ramShapes c.subpools, ∃ g, T.groups[k.2.1]? = some g ∧ k.2.2.2 = g.expertSize ∧
    T.nExpert ≤ k.2.2.1 ∧ k.2.2.1 ≤ g.layers.length * T.nExpert
  committed : c.poolBytes = ((ramShapes c.subpools).map fun k => k.2.2.1 * k.2.2.2).sum
  within : c.poolBytes ≤ poolBytes

theorem commit_eq {sps : List Subpool}
    (h : ((ramShapes sps).map fun k => k.2.2.1 * k.2.2.2).sum < 2 ^ 64) :
    commit sps = ((ramShapes sps).map fun k => k.2.2.1 * k.2.2.2).sum := by
  have hmod : ((ramShapes sps).map fun k => k.2.2.1 * k.2.2.2 % 2 ^ 64) =
      (ramShapes sps).map fun k => k.2.2.1 * k.2.2.2 := by
    apply List.map_congr_left
    intro k hk
    have hle : k.2.2.1 * k.2.2.2 ≤ ((ramShapes sps).map fun k => k.2.2.1 * k.2.2.2).sum :=
      List.le_sum_of_mem (List.mem_map_of_mem (f := fun k : ℕ × ℕ × ℕ × ℕ => k.2.2.1 * k.2.2.2) hk)
    exact Nat.mod_eq_of_lt (lt_of_le_of_lt hle h)
  have hcommit : commit sps = ((ramShapes sps).map fun k => k.2.2.1 * k.2.2.2 % 2 ^ 64).sum % 2 ^ 64 := by
    rw [ramShapes_eq, List.map_map]
    rfl
  rw [hcommit, hmod, Nat.mod_eq_of_lt h]

theorem budgeted_carveAll {T : Topology} (hT : Sized T) {poolBytes : ℕ} (hpool : poolBytes < 2 ^ 64)
    (hfits : floorSum T ≤ poolBytes) {regs : List VRegion} (hregs : ∀ reg ∈ regs, reg.pool ≠ 0)
    (base : ℕ) :
    Budgeted T poolBytes
      { subpools := placeRam base (carveAll T exactShare (poolBytes - sumFloor T) regs).1
        numSlots := (carveAll T exactShare (poolBytes - sumFloor T) regs).2
        poolBytes := commit (carveAll T exactShare (poolBytes - sumFloor T) regs).1 } := by
  rw [hT.sumFloor_eq]
  have hshapes := @ramShapes_carveAll T exactShare (poolBytes - floorSum T) regs hregs
  have hsum : ((ramShapes (carveAll T exactShare (poolBytes - floorSum T) regs).1).map
      fun k => k.2.2.1 * k.2.2.2).sum ≤ poolBytes := by
    rw [hshapes, List.map_map]
    refine le_trans (Nat.le_of_eq ?_) (hT.sum_slots_le hpool hfits)
    rw [← List.zipIdx_map_fst 0 T.groups, List.map_map, List.zipIdx_map_fst]
    rfl
  have hcommit := commit_eq (lt_of_le_of_lt hsum hpool)
  refine ⟨?_, ?_, ?_, hcommit ▸ hsum⟩
  · rw [ramShapes_placeRam, hshapes, List.map_map]
    exact (List.zipIdx_map_snd 0 T.groups).trans List.range_eq_range'.symm
  · intro k hk
    rw [ramShapes_placeRam, hshapes] at hk
    obtain ⟨⟨g, i⟩, hx, rfl⟩ := List.mem_map.mp hk
    have hget := List.mk_mem_zipIdx_iff_getElem?.mp hx
    have hg := List.mem_of_getElem? hget
    exact ⟨g, hget, rfl, hT.groupSlots_bounds _ _ hg⟩
  · rw [hcommit, ramShapes_placeRam]

/-- Within the words `init` refuses a pool exactly if it does not hold one layer of every group, and otherwise
the carve respects the budget. -/
theorem init_budgeted {T : Topology} (hT : Sized T) {poolBytes : ℕ} (hpool : poolBytes < 2 ^ 64)
    (alloc : ℕ → Option ℕ) {regs : List VRegion} (hregs : ∀ reg ∈ regs, reg.pool ≠ 0) :
    (initPools T exactShare poolBytes alloc regs = .error .poolTooSmall ↔
      T.nExpert ≤ maxExpertsPerLayer ∧
        poolBytes < (T.groups.map fun g => T.nExpert * g.expertSize).sum) ∧
    ∀ c, initPools T exactShare poolBytes alloc regs = .ok c → Budgeted T poolBytes c := by
  have hsizes : (T.groups.any fun g => g.expertSize == 0) = false := by
    simp only [List.any_eq_false, beq_iff_eq]
    exact fun g hg => (hT.size_pos g hg).ne'
  have htotal : floorSum T ≤ totalBytes T := by
    rw [hT.totalBytes_eq]
    exact List.sum_le_sum fun g hg => hT.floor_le hg
  rw [← floorSum, initPools, hsizes, hT.sumFloor_eq]
  by_cases hexperts : maxExpertsPerLayer < T.nExpert
  · rw [if_pos hexperts]
    exact ⟨⟨fun h => (nomatch h), fun h => absurd h.1 (Nat.not_le_of_lt hexperts)⟩, fun c h => (nomatch h)⟩
  · rw [if_neg hexperts]
    by_cases hzero : totalBytes T = 0
    · rw [if_pos hzero]
      exact ⟨⟨fun h => (nomatch h), fun h => by omega⟩, fun c h => (nomatch h)⟩
    · rw [if_neg hzero]
      by_cases hsmall : poolBytes < floorSum T
      · rw [if_pos hsmall]
        exact ⟨⟨fun _ => ⟨Nat.le_of_not_lt hexperts, hsmall⟩, fun _ => rfl⟩, fun c h => (nomatch h)⟩
      · rw [if_neg hsmall, if_neg Bool.false_ne_true]
        dsimp only
        cases halloc : alloc (commit (carveAll T exactShare (poolBytes - floorSum T) regs).1) with
        | none =>
          exact ⟨⟨fun h => (nomatch h), fun h => absurd h.2 hsmall⟩, fun c h => (nomatch h)⟩
        | some base =>
          refine ⟨⟨fun h => (nomatch h), fun h => absurd h.2 hsmall⟩, fun c h => ?_⟩
          cases h
          have hbudgeted := budgeted_carveAll hT hpool (Nat.le_of_not_lt hsmall) hregs base
          rwa [hT.sumFloor_eq] at hbudgeted

/-- Two groups, the larger experts in one layer and the smaller ones in three. -/
def twoGroups : Topology where
  nLayer := 4
  nExpert := 4
  groups :=
    [{ layers := [0], expertSize := 100, totalBytes := 400, strides := [60, 40] },
      { layers := [1, 2, 3], expertSize := 30, totalBytes := 360, strides := [30] }]
  numTensors := fun _ _ => 1

example : InWords twoGroups exactShare 180 4096 [⟨1, 1, 65536, 2⟩] := by
  constructor <;> decide +kernel

theorem init_budgeted_twoGroups :
    ∃ c, initPools twoGroups exactShare 700 (fun _ => some 4096) [⟨1, 1, 65536, 2⟩] = .ok c ∧
      c.poolBytes = 580 ∧ Budgeted twoGroups 700 c := by
  have hsized : Sized twoGroups := by
    refine ⟨?_, ?_, ?_, ?_, ?_⟩ <;> decide
  have hrun : (initPools twoGroups exactShare 700 (fun _ => some 4096) [⟨1, 1, 65536, 2⟩]).map
      (fun c => c.poolBytes) = .ok 580 := by decide +kernel
  cases hinit : initPools twoGroups exactShare 700 (fun _ => some 4096) [⟨1, 1, 65536, 2⟩] with
  | error e => rw [hinit] at hrun; cases hrun
  | ok c =>
    rw [hinit] at hrun
    exact ⟨c, rfl, Except.ok.inj hrun,
      (init_budgeted hsized (by decide) _ (by decide)).2 c hinit⟩

/-- A layer of three experts of half the address space each: the floor is taken modulo the word, and half of
the address space is enough. -/
theorem not_init_budgeted :
    ¬ ∀ (T : Topology) (poolBytes : ℕ) (alloc : ℕ → Option ℕ), poolBytes < 2 ^ 64 →
      T.nExpert ≤ maxExpertsPerLayer → (T.groups.map fun g => T.nExpert * g.expertSize).sum > poolBytes →
      initPools T exactShare poolBytes alloc [] = .error .poolTooSmall := by
  intro h
  have hrun := h
    { nLayer := 1, nExpert := 3, numTensors := fun _ _ => 1
      groups := [{ layers := [0], expertSize := 2 ^ 63, totalBytes := 2 ^ 63, strides := [2 ^ 63] }] }
    (2 ^ 63) (fun _ => none) (by decide) (by decide) (by decide)
  exact absurd hrun (by decide +kernel)

end committed

end PoolInit
end StreamMoE
