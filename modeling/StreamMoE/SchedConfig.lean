import StreamMoE.PoolGeometry

/-! `expert_scheduler::init`: the slots carved into one region of main memory for each
expert group and the device regions behind them. -/
namespace StreamMoE
namespace SchedConfig

open PoolGeometry

/-- An expert group: its layers and the stride of each of its columns. -/
structure Group where
  layers : List ℕ
  expertSize : ℕ
  totalBytes : ℕ
  strides : List ℕ

/-- What the scheduler reads of the topology; `numTensors` is the slice count of an expert's
read plan. -/
structure Topology where
  nLayer : ℕ
  nExpert : ℕ
  groups : List Group
  numTensors : ℕ → ℕ → ℕ

structure VRegion where
  pool : ℕ
  group : ℕ
  base : ℕ
  nSlots : ℕ

def maxExpertsPerLayer : ℕ := 512

/-- Slots of a group's region: `share` is its part of the spare bytes. -/
def slotCount (T : Topology) (g : Group) (share : ℕ) : ℕ :=
  let ns := (T.nExpert * g.expertSize + share) / g.expertSize
  let ns := if ns < T.nExpert then T.nExpert else ns
  if g.layers.length * T.nExpert < ns then g.layers.length * T.nExpert else ns

def carveRam (T : Topology) (share : ℕ → ℕ) : ℕ → ℕ → ℕ → List Group → List Subpool
  | _, _, _, [] => []
  | i, slotBegin, base, g :: gs =>
      let ns := slotCount T g (share i)
      { pool := 0, group := i, slotBegin := slotBegin, nSlots := ns, expertSize := g.expertSize,
        base := base, cols := fillCols ns 0 0 g.strides } ::
        carveRam T share (i + 1) (slotBegin + ns) (base + ns * g.expertSize) gs

/-- Regions without a base, a group or a slot are skipped. -/
def carveRegions (T : Topology) : ℕ → List VRegion → List Subpool
  | _, [] => []
  | slotBegin, reg :: regs =>
      match T.groups[reg.group]? with
      | none => carveRegions T slotBegin regs
      | some g =>
          if reg.base = 0 ∨ reg.nSlots = 0 then carveRegions T slotBegin regs
          else
            { pool := reg.pool, group := reg.group, slotBegin := slotBegin, nSlots := reg.nSlots,
              expertSize := g.expertSize, base := reg.base,
              cols := fillCols reg.nSlots 0 0 g.strides } ::
              carveRegions T (slotBegin + reg.nSlots) regs

def endSlot : ℕ → List Subpool → ℕ
  | b, [] => b
  | b, sp :: sps => endSlot (b + sp.nSlots) sps

/-- Regions that follow one another from a first slot. -/
def Consecutive : ℕ → List Subpool → Prop
  | _, [] => True
  | b, sp :: sps => sp.slotBegin = b ∧ Consecutive (b + sp.nSlots) sps

theorem le_endSlot (b : ℕ) (l : List Subpool) : b ≤ endSlot b l := by
  induction l generalizing b with
  | nil => exact Nat.le_refl _
  | cons sp l ih => exact Nat.le_trans (Nat.le_add_right _ _) (ih _)

theorem Consecutive.append {b : ℕ} {l l' : List Subpool} (h : Consecutive b l)
    (h' : Consecutive (endSlot b l) l') : Consecutive b (l ++ l') := by
  induction l generalizing b with
  | nil => exact h'
  | cons sp l ih => exact ⟨h.1, ih h.2 h'⟩

theorem Consecutive.bounds {b : ℕ} {l : List Subpool} (h : Consecutive b l) {sp : Subpool}
    (hsp : sp ∈ l) : b ≤ sp.slotBegin ∧ sp.slotBegin + sp.nSlots ≤ endSlot b l := by
  induction l generalizing b with
  | nil => exact absurd hsp List.not_mem_nil
  | cons x l ih =>
    rcases List.mem_cons.mp hsp with rfl | hsp
    · exact ⟨Nat.le_of_eq h.1.symm, h.1 ▸ le_endSlot _ _⟩
    · have hrest := ih h.2 hsp
      exact ⟨Nat.le_trans (Nat.le_add_right _ _) hrest.1, hrest.2⟩

/-- A slot has one owner. -/
theorem Consecutive.find {b : ℕ} {l : List Subpool} (h : Consecutive b l) {sp : Subpool} {slot : ℕ}
    (hsp : sp ∈ l) (hown : sp.owns slot = true) : l.find? (·.owns slot) = some sp := by
  induction l generalizing b with
  | nil => exact absurd hsp List.not_mem_nil
  | cons x l ih =>
    rcases List.mem_cons.mp hsp with rfl | hsp
    · rw [List.find?_cons, hown]
    · have hle := (h.2.bounds hsp).1
      have hx : x.owns slot = false := by
        simp only [Subpool.owns, decide_eq_true_eq, decide_eq_false_iff_not] at hown ⊢
        have hb := h.1
        omega
      rw [List.find?_cons, hx]
      exact ih h.2 hsp

theorem carveRam_consecutive (T : Topology) (share : ℕ → ℕ) (i b base : ℕ) (gs : List Group) :
    Consecutive b (carveRam T share i b base gs) := by
  induction gs generalizing i b base with
  | nil => trivial
  | cons g gs ih => exact ⟨rfl, ih _ _ _⟩

theorem carveRegions_consecutive (T : Topology) (b : ℕ) (regs : List VRegion) :
    Consecutive b (carveRegions T b regs) := by
  induction regs generalizing b with
  | nil => trivial
  | cons reg regs ih =>
    rw [carveRegions]
    split
    · exact ih b
    · split
      · exact ih b
      · exact ⟨rfl, ih _⟩

/-- An initialised scheduler: every slot of a region is owned by that region alone. -/
structure Config where
  topo : Topology
  geometry : Geometry
  nPools : ℕ
  maxInFlight : ℕ
  experts_le : topo.nExpert ≤ maxExpertsPerLayer
  pool_lt : ∀ sp ∈ geometry.subpools, sp.pool < nPools
  owner : ∀ sp ∈ geometry.subpools, ∀ slot, sp.owns slot = true →
    subpoolOfSlot geometry slot = some sp

def carve (T : Topology) (share : ℕ → ℕ) (poolBase : ℕ) (regs : List VRegion) : List Subpool :=
  let ram := carveRam T share 0 0 poolBase T.groups
  ram ++ carveRegions T (endSlot 0 ram) regs

theorem carve_consecutive (T : Topology) (share : ℕ → ℕ) (poolBase : ℕ) (regs : List VRegion) :
    Consecutive 0 (carve T share poolBase regs) :=
  (carveRam_consecutive T share 0 0 poolBase T.groups).append (carveRegions_consecutive T _ regs)

theorem le_foldl_max (l : List Subpool) (m : ℕ) :
    m ≤ l.foldl (fun m sp => max m sp.pool) m ∧
      ∀ sp ∈ l, sp.pool ≤ l.foldl (fun m sp => max m sp.pool) m := by
  induction l generalizing m with
  | nil => exact ⟨Nat.le_refl _, fun sp h => absurd h List.not_mem_nil⟩
  | cons x l ih =>
    obtain ⟨h₁, h₂⟩ := ih (max m x.pool)
    rw [List.foldl_cons]
    refine ⟨by omega, ?_⟩
    intro sp hsp
    rcases List.mem_cons.mp hsp with rfl | hsp
    · omega
    · exact h₂ sp hsp

/-- `init` refuses a layer that the request bitmap cannot hold, an empty topology and a pool
that cannot hold one layer of every group. -/
def init (T : Topology) (poolBytes : ℕ) (share : ℕ → ℕ) (poolBase loadStaging : ℕ)
    (regs : List VRegion) : Option Config :=
  if hexperts : maxExpertsPerLayer < T.nExpert then none
  else if (T.groups.map Group.totalBytes).sum = 0 then none
  else if poolBytes < (T.groups.map fun g => T.nExpert * g.expertSize).sum then none
  else
    let sps := carve T share poolBase regs
    some
      { topo := T
        geometry := { subpools := sps, numSlots := endSlot 0 sps }
        nPools := sps.foldl (fun m sp => max m sp.pool) 0 + 1
        maxInFlight := max 16 (T.nExpert * if loadStaging = 0 then 2 else 1)
        experts_le := Nat.le_of_not_lt hexperts
        pool_lt := by
          intro sp hsp
          have hle := (le_foldl_max sps 0).2 sp hsp
          exact Nat.lt_succ_of_le hle
        owner := by
          intro sp hsp slot hown
          have hcons := carve_consecutive T share poolBase regs
          have hb := (hcons.bounds hsp).2
          have hslot : slot < endSlot 0 sps := by
            simp only [Subpool.owns, decide_eq_true_eq] at hown
            exact Nat.lt_of_lt_of_le hown.2 hb
          rw [subpoolOfSlot, if_pos hslot]
          exact hcons.find hsp hown }

variable (C : Config)

/-- The first group that lists the layer. -/
def groupOf (layer : ℕ) : Option ℕ :=
  if C.topo.nLayer ≤ layer then none
  else C.topo.groups.findIdx? fun g => g.layers.contains layer

def regionOf (pool group : ℕ) : Option Subpool :=
  C.geometry.subpools.find? fun sp => sp.pool == pool && sp.group == group

def ramSubpool (group : ℕ) : Option Subpool := regionOf C 0 group

def vramSubpool (group : ℕ) : Option Subpool :=
  C.geometry.subpools.find? fun sp => sp.pool != 0 && sp.group == group

theorem regionOf_spec {pool group : ℕ} {sp : Subpool} (h : regionOf C pool group = some sp) :
    sp ∈ C.geometry.subpools ∧ sp.pool = pool ∧ sp.group = group := by
  have hmem := List.mem_of_find?_eq_some h
  have hp := List.find?_some h
  simp only [Bool.and_eq_true, beq_iff_eq] at hp
  exact ⟨hmem, hp.1, hp.2⟩

/-- Slot `i` may hold an expert of `layer` for pool `p`. -/
def InRegion (i pool layer : ℕ) : Prop :=
  ∃ sp, subpoolOfSlot C.geometry i = some sp ∧ sp.pool = pool ∧ groupOf C layer = some sp.group

/-- Slot `i` is in the one region that is filled for a layer in pool `p`. -/
def HomeRegion (i pool layer : ℕ) : Prop :=
  ∃ group sp, groupOf C layer = some group ∧ regionOf C pool group = some sp ∧ sp.owns i = true

variable {C}

theorem HomeRegion.inRegion {i pool layer : ℕ} (h : HomeRegion C i pool layer) :
    InRegion C i pool layer := by
  obtain ⟨group, sp, hg, hsp, hown⟩ := h
  obtain ⟨hmem, hpool, hgroup⟩ := regionOf_spec C hsp
  exact ⟨sp, C.owner sp hmem i hown, hpool, by rw [hg, hgroup]⟩

variable (C)

theorem InRegion.pool_lt {i pool layer : ℕ} (h : InRegion C i pool layer) : pool < C.nPools := by
  obtain ⟨sp, hsp, hpool, _⟩ := h
  unfold subpoolOfSlot at hsp
  split at hsp
  · rw [← hpool]
    exact C.pool_lt sp (List.mem_of_find?_eq_some hsp)
  · cases hsp

end SchedConfig
end StreamMoE
