import Mathlib.Algebra.BigOperators.Fin
import StreamMoE.Binary64
import StreamMoE.SchedConfig
import StreamMoE.TransitionSystem

/-! `route_b_setup`: the expert slots that are planned for each device pool, the blocks that are allocated
for them, and the table of what remains for the pools behind. -/
namespace StreamMoE
namespace DevicePools

open SchedConfig Binary64 TransitionSystem

section plan

variable (T : Topology)

/-- A place of the group list. -/
abbrev Index : Type := Fin T.groups.length

/-- One number for each group: `remaining` and `plan` -/
abbrev Table : Type := Index T → ℕ

def size (g : Index T) : ℕ := (T.groups.get g).expertSize

def experts (g : Index T) : ℕ := (T.groups.get g).layers.length * T.nExpert

/-- What `std::sort` may make of the groups: the larger experts first, equal ones in any order. -/
structure Order where
  seq : List (Index T)
  perm : seq.Perm (List.finRange T.groups.length)
  sorted : seq.Pairwise fun a b => size T b ≤ size T a

variable {T} (remaining : Table T)

/-- One full layer of the group, or what is left of it, if the budget has room for it; the state is the
budget left and the plan. -/
def floorStep (s : ℕ × Table T) (g : Index T) : ℕ × Table T :=
  if s.1 < size T g then s
  else
    let want := if remaining g < T.nExpert then remaining g else T.nExpert
    let need := want * size T g % 2 ^ 64
    if need ≤ s.1 then (s.1 - need, Function.update s.2 g (s.2 g + want)) else s

def floors (order : Order T) (budget : ℕ) : ℕ × Table T :=
  order.seq.foldl (floorStep remaining) (budget, fun _ => 0)

def remBytes (plan : Table T) (g : Index T) : ℕ := (remaining g - plan g) * size T g % 2 ^ 64

def totalRem (plan : Table T) : ℕ :=
  ((List.finRange T.groups.length).map (remBytes remaining plan)).sum % 2 ^ 64

/-- The group's part of the budget, a product and a quotient of doubles. -/
def share (budget : ℕ) (plan : Table T) (g : Index T) : ℕ :=
  ⌊proportion budget (remBytes remaining plan g) (totalRem remaining plan)⌋₊

def fillShare (budget : ℕ) (plan : Table T) (g : Index T) : ℕ :=
  if remBytes remaining plan g = 0 then plan g
  else
    let slots := share remaining budget plan g / size T g
    let can := remaining g - plan g
    plan g + if can < slots then can else slots

def planDeviceSlots (order : Order T) (budget : ℕ) : Table T :=
  let s := floors remaining order budget
  if totalRem remaining s.2 ≠ 0 ∧ s.1 ≠ 0 then fillShare remaining s.1 s.2 else s.2

end plan

section alloc

/-- The loop of `vram_alloc_group`: the slots of each block and the bytes in all. The requests are numbered,
and `ok` says which of them succeed; without fuel there is no result. -/
def allocLoop (ok : ℕ → Bool) (slot want : ℕ) : ℕ → ℕ → ℕ → ℕ → Option (List ℕ × ℕ)
  | 0, _, _, _ => none
  | fuel + 1, call, got, chunk =>
      if got < want then
        let ask := if chunk < want - got then chunk else want - got
        if ok call then
          (allocLoop ok slot want fuel (call + 1) (got + ask) chunk).map fun r => (ask / slot :: r.1, r.2)
        else
          let half := ask / 2 / slot * slot
          if half < slot then some ([], got) else allocLoop ok slot want fuel (call + 1) got half
      else some ([], got)

def vramAllocGroup (ok : ℕ → Bool) (want slot : ℕ) : Option (List ℕ × ℕ) :=
  allocLoop ok slot want (2 * want + 1) 0 0 want

end alloc

section pools

variable (T : Topology)

/-- A device pool of the command line: its megabytes, whether the device is there, the order of the groups
and the outcomes of the requests for every group. -/
structure Pool where
  mb : ℕ
  found : Bool
  order : Order T
  ok : Index T → ℕ → Bool

structure Planned where
  budget : ℕ
  remaining : Table T
  plan : Table T

structure State where
  remaining : Table T
  segs : List (Index T × ℕ)
  pools : List (Planned T)

variable {T}

def Pool.budget (p : Pool T) : ℕ := p.mb * 1024 * 1024 % 2 ^ 64

def Pool.plan (p : Pool T) (remaining : Table T) : Table T := planDeviceSlots remaining p.order p.budget

/-- The blocks that the requests for one group bring in. -/
def Pool.blocks (p : Pool T) (plan : Table T) (g : Index T) : Option (List ℕ × ℕ) :=
  vramAllocGroup (p.ok g) (plan g * size T g % 2 ^ 64) (size T g)

/-- The body of the loop over the groups. -/
def Pool.allocGroup (p : Pool T) (plan : Table T) (s : State T) (g : Index T) : Option (State T) :=
  if plan g = 0 then some s
  else
    (p.blocks plan g).map fun r =>
      let ns := r.2 / size T g
      { s with
        remaining := Function.update s.remaining g (if plan g ≤ ns then 0 else s.remaining g - ns)
        segs := s.segs ++ r.1.map fun n => (g, n) }

def processPool (s : State T) (p : Pool T) : Option (State T) :=
  if p.found then
    let plan := p.plan s.remaining
    ((List.finRange T.groups.length).foldlM (p.allocGroup plan) s).map fun s' =>
      { s' with pools := s.pools ++ [⟨p.budget, s.remaining, plan⟩] }
  else some s

variable (T) in
/-- Every list of device pools is a run of this machine. -/
def machine : Machine (State T) (Pool T) where
  init s := s = { remaining := experts T, segs := [], pools := [] }
  step := processPool

/-- The slots a group has on the devices. -/
def allocated (s : State T) (g : Index T) : ℕ := ((s.segs.filter fun x => x.1 = g).map Prod.snd).sum

structure Planned.Fits (p : Planned T) : Prop where
  plan_le : ∀ g, p.plan g ≤ p.remaining g
  bytes_le : ∑ g, p.plan g * size T g ≤ p.budget

structure Exact (s : State T) : Prop where
  remaining : ∀ g, s.remaining g + allocated s g = experts T g
  planned : ∀ p ∈ s.pools, p.Fits

end pools

section planned

variable {T : Topology}

variable (T) in
/-- An expert has bytes, and the bytes of all experts fit a `size_t`. -/
structure Bounded : Prop where
  size_pos : ∀ g, 0 < size T g
  bytes_lt : ∑ g, experts T g * size T g < 2 ^ 64

theorem Bounded.sum_lt (hT : Bounded T) {f : Table T} (hf : ∀ g, f g ≤ experts T g) :
    ∑ g, f g * size T g < 2 ^ 64 :=
  lt_of_le_of_lt (Finset.sum_le_sum fun g _ => Nat.mul_le_mul_right _ (hf g)) hT.bytes_lt

theorem Bounded.mul_lt (hT : Bounded T) {n : ℕ} {g : Index T} (hn : n ≤ experts T g) :
    n * size T g < 2 ^ 64 := by
  have hle : experts T g * size T g ≤ ∑ g, experts T g * size T g :=
    Finset.single_le_sum (f := fun g => experts T g * size T g) (fun _ _ => Nat.zero_le _)
      (Finset.mem_univ g)
  exact lt_of_le_of_lt ((Nat.mul_le_mul_right _ hn).trans hle) hT.bytes_lt

theorem sum_update (f : Table T) (g : Index T) (n : ℕ) :
    ∑ h, Function.update f g (f g + n) h * size T h = ∑ h, f h * size T h + n * size T g := by
  rw [← Finset.add_sum_erase _ _ (Finset.mem_univ g),
    ← Finset.add_sum_erase _ (fun h => f h * size T h) (Finset.mem_univ g), Function.update_self]
  have hrest : ∑ h ∈ Finset.univ.erase g, Function.update f g (f g + n) h * size T h =
      ∑ h ∈ Finset.univ.erase g, f h * size T h := by
    apply Finset.sum_congr rfl
    intro h hh
    rw [Function.update_of_ne (Finset.ne_of_mem_erase hh)]
  rw [hrest, Nat.add_mul]
  omega

variable {remaining : Table T}

/-- Budget left and bytes planned, for a plan within what remains. -/
structure Booked (remaining : Table T) (budget : ℕ) (s : ℕ × Table T) : Prop where
  plan_le : ∀ g, s.2 g ≤ remaining g
  bytes : s.1 + ∑ g, s.2 g * size T g = budget

theorem floorStep_other {s : ℕ × Table T} {g h : Index T} (hne : h ≠ g) :
    (floorStep remaining s g).2 h = s.2 h := by
  simp only [floorStep]
  split_ifs <;> simp [Function.update_of_ne hne]

theorem Booked.floorStep (hT : Bounded T) (hrem : ∀ g, remaining g ≤ experts T g) {budget : ℕ}
    {s : ℕ × Table T} (h : Booked remaining budget s) {g : Index T} (hg : s.2 g = 0) :
    Booked remaining budget (floorStep remaining s g) := by
  simp only [DevicePools.floorStep]
  generalize hwant : (if remaining g < T.nExpert then remaining g else T.nExpert) = want
  have hle : want ≤ remaining g := by
    split at hwant <;> omega
  rw [Nat.mod_eq_of_lt (hT.mul_lt (hle.trans (hrem g)))]
  split_ifs with hsmall hroom
  · exact h
  · refine ⟨fun k => ?_, ?_⟩
    · by_cases hk : k = g
      · subst hk
        simpa [hg] using hle
      · simpa [Function.update_of_ne hk] using h.plan_le k
    · have hbytes := h.bytes
      dsimp only
      rw [sum_update]
      omega
  · exact h

theorem Booked.foldl (hT : Bounded T) (hrem : ∀ g, remaining g ≤ experts T g) {budget : ℕ}
    (order : List (Index T)) (hnodup : order.Nodup) {s : ℕ × Table T} (h : Booked remaining budget s)
    (hfresh : ∀ g ∈ order, s.2 g = 0) :
    Booked remaining budget (order.foldl (DevicePools.floorStep remaining) s) := by
  induction order generalizing s with
  | nil => exact h
  | cons g order ih =>
    obtain ⟨hg, hnodup⟩ := List.nodup_cons.mp hnodup
    apply ih hnodup (h.floorStep hT hrem (hfresh g List.mem_cons_self))
    intro k hk
    have hne : k ≠ g := fun heq => hg (heq ▸ hk)
    rw [floorStep_other hne]
    exact hfresh k (List.mem_cons_of_mem g hk)

theorem booked_floors (hT : Bounded T) (hrem : ∀ g, remaining g ≤ experts T g) (order : Order T)
    (budget : ℕ) : Booked remaining budget (floors remaining order budget) := by
  have hnodup : order.seq.Nodup := order.perm.nodup_iff.mpr (List.nodup_finRange _)
  refine Booked.foldl hT hrem order.seq hnodup ⟨fun g => Nat.zero_le _, ?_⟩ fun g _ => rfl
  simp

theorem remBytes_eq (hT : Bounded T) (hrem : ∀ g, remaining g ≤ experts T g) (plan : Table T)
    (g : Index T) : remBytes remaining plan g = (remaining g - plan g) * size T g :=
  Nat.mod_eq_of_lt (hT.mul_lt ((Nat.sub_le _ _).trans (hrem g)))

theorem totalRem_eq (hT : Bounded T) (hrem : ∀ g, remaining g ≤ experts T g) (plan : Table T) :
    totalRem remaining plan = ∑ g, remBytes remaining plan g := by
  have hlt : ∑ g, remBytes remaining plan g < 2 ^ 64 := by
    simp only [remBytes_eq hT hrem]
    exact hT.sum_lt fun g => (Nat.sub_le _ _).trans (hrem g)
  rw [totalRem, ← Fin.sum_univ_def, Nat.mod_eq_of_lt hlt]

theorem fillShare_le {plan : Table T} (h : ∀ g, plan g ≤ remaining g) (budget : ℕ) (g : Index T) :
    fillShare remaining budget plan g ≤ remaining g := by
  have hg := h g
  simp only [fillShare]
  split_ifs <;> omega

theorem fillShare_mul_le {plan : Table T} (budget : ℕ) (g : Index T) :
    fillShare remaining budget plan g * size T g ≤
      plan g * size T g + share remaining budget plan g := by
  have hshare := Nat.div_mul_le_self (share remaining budget plan g) (size T g)
  simp only [fillShare]
  split_ifs with hzero hcan
  · omega
  · have hmul := Nat.mul_le_mul_right (size T g) hcan.le
    rw [Nat.add_mul]
    omega
  · rw [Nat.add_mul]
    omega

/-- The plan of a pool within the budget; a rounded share stays below the next whole byte up to a
pebibyte. -/
theorem planDeviceSlots_fits (hT : Bounded T) (hrem : ∀ g, remaining g ≤ experts T g) (order : Order T)
    {budget : ℕ} (hbudget : budget ≤ 2 ^ 50) :
    Planned.Fits { budget, remaining, plan := planDeviceSlots remaining order budget } := by
  have hbooked := booked_floors hT hrem order budget
  have hbytes := hbooked.bytes
  simp only [planDeviceSlots]
  split_ifs
  · refine ⟨fillShare_le hbooked.plan_le _, ?_⟩
    have hshares : ∑ g, share remaining (floors remaining order budget).1
        (floors remaining order budget).2 g ≤ (floors remaining order budget).1 := by
      simp only [share, totalRem_eq hT hrem]
      apply sum_floor_proportion_le
      omega
    have hfill := Finset.sum_le_sum fun g (_ : g ∈ Finset.univ) =>
      @fillShare_mul_le T remaining (floors remaining order budget).2
        (floors remaining order budget).1 g
    rw [Finset.sum_add_distrib] at hfill
    dsimp only
    omega
  · refine ⟨hbooked.plan_le, ?_⟩
    dsimp only
    omega

end planned

section blocks

/-- The loop ends: each request brings in bytes or is followed by a smaller one. What it returns are whole
slots of what was wanted. -/
theorem exists_allocLoop (ok : ℕ → Bool) {slot want : ℕ} (hslot : 0 < slot) (hwant : slot ∣ want)
    {fuel call got chunk : ℕ} (hgot : slot ∣ got) (hle : got ≤ want) (hchunk : slot ∣ chunk)
    (hpos : 0 < chunk) (hfuel : want - got + chunk < fuel) :
    ∃ r, allocLoop ok slot want fuel call got chunk = some r ∧ got + r.1.sum * slot = r.2 ∧
      r.2 ≤ want := by
  induction fuel generalizing call got chunk with
  | zero => omega
  | succ fuel ih =>
    rw [allocLoop]
    by_cases hmore : got < want
    · rw [if_pos hmore]
      generalize hask : (if chunk < want - got then chunk else want - got) = ask
      have hbounds : 0 < ask ∧ ask ≤ chunk ∧ ask ≤ want - got := by
        split at hask <;> omega
      have hdvd : slot ∣ ask := by
        rw [← hask]
        split
        · exact hchunk
        · exact Nat.dvd_sub hwant hgot
      dsimp only
      by_cases hok : ok call = true
      · rw [if_pos hok]
        obtain ⟨r, hr, hsum, hend⟩ := @ih (call + 1) (got + ask) chunk (Nat.dvd_add hgot hdvd) (by omega)
          hchunk hpos (by omega)
        refine ⟨(ask / slot :: r.1, r.2), by rw [hr, Option.map_some], ?_, hend⟩
        have hblock := Nat.div_mul_cancel hdvd
        rw [List.sum_cons, Nat.add_mul, hblock]
        omega
      · rw [if_neg hok]
        by_cases hhalf : ask / 2 / slot * slot < slot
        · rw [if_pos hhalf]
          exact ⟨_, rfl, by simp, hle⟩
        · rw [if_neg hhalf]
          have hdown := Nat.div_mul_le_self (ask / 2) slot
          exact @ih (call + 1) got (ask / 2 / slot * slot) hgot hle (Nat.dvd_mul_left _ _) (by omega)
            (by omega)
    · rw [if_neg hmore]
      exact ⟨_, rfl, by simp, hle⟩

variable {T : Topology}

/-- The blocks of a group hold as many slots as the code counts, and no more than planned. -/
theorem exists_blocks (hT : Bounded T) (p : Pool T) {plan : Table T} {g : Index T}
    (hplan : plan g ≤ experts T g) (hne : plan g ≠ 0) :
    ∃ r, p.blocks plan g = some r ∧ r.2 / size T g = r.1.sum ∧ r.1.sum ≤ plan g := by
  have hsize := hT.size_pos g
  have hwant := Nat.mul_pos (Nat.pos_of_ne_zero hne) hsize
  obtain ⟨r, hr, hsum, hle⟩ := @exists_allocLoop (p.ok g) _ _ hsize (Nat.dvd_mul_left _ (plan g))
    (2 * (plan g * size T g) + 1) 0 _ _ (Nat.dvd_zero _) (Nat.zero_le _) (Nat.dvd_mul_left _ _) hwant
    (by omega)
  refine ⟨r, ?_, ?_, ?_⟩
  · rw [Pool.blocks, vramAllocGroup, Nat.mod_eq_of_lt (hT.mul_lt hplan)]
    exact hr
  · rw [← hsum, Nat.zero_add, Nat.mul_div_cancel _ hsize]
  · rw [← hsum, Nat.zero_add] at hle
    exact Nat.le_of_mul_le_mul_right hle hsize

end blocks

section run

variable {T : Topology}

/-- No group of the pool gets all that was planned for it while the plan left some of it out. -/
def Short (s : State T) (p : Pool T) : Prop :=
  ∀ g r, p.blocks (p.plan s.remaining) g = some r → r.1.sum = p.plan s.remaining g →
    p.plan s.remaining g ≠ 0 → p.plan s.remaining g = s.remaining g

/-- The pools of such a run have at most a pebibyte each. -/
def Meets (s : State T) (p : Pool T) : Prop := p.found → p.budget ≤ 2 ^ 50 ∧ Short s p

theorem allocated_append (s : State T) (g : Index T) (remaining : Table T) (pools : List (Planned T))
    (ns : List ℕ) (h : Index T) :
    allocated { s with remaining, pools, segs := s.segs ++ ns.map fun n => (g, n) } h =
      allocated s h + if h = g then ns.sum else 0 := by
  unfold allocated
  rw [List.filter_append, List.map_append, List.sum_append, List.filter_map]
  by_cases heq : h = g
  · subst heq
    simp [Function.comp_def]
  · have hne : g ≠ h := fun h' => heq h'.symm
    simp [Function.comp_def, heq, hne]

theorem allocGroup_exact (hT : Bounded T) (p : Pool T) {plan : Table T} {s : State T} {g : Index T}
    (hs : ∀ h, s.remaining h + allocated s h = experts T h) (hplan : plan g ≤ s.remaining g)
    (hshort : ∀ r, p.blocks plan g = some r → r.1.sum = plan g → plan g ≠ 0 →
      plan g = s.remaining g) :
    ∃ s', p.allocGroup plan s g = some s' ∧ s'.pools = s.pools ∧
      (∀ h, h ≠ g → s'.remaining h = s.remaining h) ∧
      ∀ h, s'.remaining h + allocated s' h = experts T h := by
  unfold Pool.allocGroup
  by_cases hzero : plan g = 0
  · exact ⟨s, if_pos hzero, rfl, fun _ _ => rfl, hs⟩
  · have hg := hs g
    obtain ⟨r, hr, hcount, hle⟩ := exists_blocks hT p (g := g) (by omega : plan g ≤ experts T g) hzero
    rw [if_neg hzero, hr, Option.map_some]
    refine ⟨_, rfl, rfl, fun h hne => Function.update_of_ne hne _ _, fun h => ?_⟩
    rw [allocated_append]
    dsimp only
    rw [hcount]
    by_cases heq : h = g
    · subst heq
      rw [Function.update_self, if_pos rfl]
      split
      · rename_i hfull
        have hall := hshort r hr (Nat.le_antisymm hle hfull) hzero
        omega
      · omega
    · rw [Function.update_of_ne heq, if_neg heq]
      exact hs h

theorem foldlM_allocGroup (hT : Bounded T) (p : Pool T) {plan : Table T} (gs : List (Index T))
    (hnodup : gs.Nodup) {s : State T} (hs : ∀ h, s.remaining h + allocated s h = experts T h)
    (hplan : ∀ g ∈ gs, plan g ≤ s.remaining g)
    (hshort : ∀ g ∈ gs, ∀ r, p.blocks plan g = some r → r.1.sum = plan g → plan g ≠ 0 →
      plan g = s.remaining g) :
    ∃ s', gs.foldlM (p.allocGroup plan) s = some s' ∧ s'.pools = s.pools ∧
      ∀ h, s'.remaining h + allocated s' h = experts T h := by
  induction gs generalizing s with
  | nil => exact ⟨s, rfl, rfl, hs⟩
  | cons g gs ih =>
    obtain ⟨hg, hnodup⟩ := List.nodup_cons.mp hnodup
    obtain ⟨s₁, h₁, hpools, hother, hs₁⟩ :=
      allocGroup_exact hT p hs (hplan g List.mem_cons_self) (hshort g List.mem_cons_self)
    have hkept : ∀ k ∈ gs, s₁.remaining k = s.remaining k :=
      fun k hk => hother k fun heq => hg (heq ▸ hk)
    obtain ⟨s₂, h₂, hpools₂, hs₂⟩ := ih hnodup hs₁
      (fun k hk => (hkept k hk).symm ▸ hplan k (List.mem_cons_of_mem g hk))
      (fun k hk => (hkept k hk).symm ▸ hshort k (List.mem_cons_of_mem g hk))
    refine ⟨s₂, ?_, hpools₂.trans hpools, hs₂⟩
    rw [List.foldlM_cons, h₁]
    exact h₂

/-- A pool that meets the condition is processed to its end, and the accounting stays exact. -/
theorem processPool_exact (hT : Bounded T) {s : State T} (hs : Exact s) {p : Pool T} (hp : Meets s p) :
    ∃ s', processPool s p = some s' ∧ Exact s' := by
  unfold processPool
  by_cases hfound : p.found = true
  · obtain ⟨hbudget, hshort⟩ := hp hfound
    have hrem : ∀ g, s.remaining g ≤ experts T g := fun g => (Nat.le_add_right _ _).trans_eq (hs.remaining g)
    have hfits := planDeviceSlots_fits hT hrem p.order hbudget
    obtain ⟨s', hrun, hpools, hs'⟩ := @foldlM_allocGroup T hT p (p.plan s.remaining)
      (List.finRange T.groups.length) (List.nodup_finRange _) s hs.remaining (fun g _ => hfits.plan_le g)
      (fun g _ => hshort g)
    rw [if_pos hfound]
    dsimp only
    rw [hrun, Option.map_some]
    refine ⟨_, rfl, hs', fun q hq => ?_⟩
    rcases List.mem_append.mp hq with hq | hq
    · exact hs.planned q hq
    · rw [List.mem_singleton.mp hq]
      exact hfits
  · rw [if_neg hfound]
    exact ⟨s, rfl, hs⟩

theorem exact_init {s : State T} (h : (machine T).init s) : Exact s := by
  subst h
  exact ⟨fun g => rfl, fun p hp => absurd hp List.not_mem_nil⟩

/-- After every pool of a run whose pools meet the condition the accounting is exact, and a further such pool
is processed to its end. -/
theorem device_slots_exact {T : Topology} (hT : Bounded T) {s : State T} (h : Reach (machine T) Meets s) :
    Exact s ∧ ∀ p, Meets s p → ∃ s', processPool s p = some s' := by
  have hexact : Exact s := by
    refine h.invariant (fun s hs => exact_init hs) fun s p s' hs hp hstep => ?_
    obtain ⟨s'', hrun, hs''⟩ := processPool_exact hT hs hp
    cases hrun.symm.trans hstep
    exact hs''
  exact ⟨hexact, fun p hp => (processPool_exact hT hexact hp).imp fun _ h => h.1⟩

end run

section fourExperts

/-- One group of two layers, two experts of a megabyte in each. -/
def fourExperts : Topology where
  nLayer := 2
  nExpert := 2
  groups := [{ layers := [0, 1], expertSize := 2 ^ 20, totalBytes := 2 ^ 22, strides := [2 ^ 20] }]
  numTensors := fun _ _ => 1

def onlyGroup : Index fourExperts := ⟨0, by decide⟩

theorem eq_onlyGroup (g : Index fourExperts) : g = onlyGroup := Fin.fin_one_eq_zero g

theorem bounded_fourExperts : Bounded fourExperts := by
  refine ⟨fun g => ?_, by decide⟩
  rw [eq_onlyGroup g]
  decide

def start : State fourExperts := { remaining := experts fourExperts, segs := [], pools := [] }

def threeMegabytes (ok : ℕ → Bool) : Pool fourExperts where
  mb := 3
  found := true
  order := { seq := [onlyGroup], perm := List.Perm.refl _, sorted := List.pairwise_singleton _ _ }
  ok := fun _ => ok

theorem plan_threeMegabytes (ok : ℕ → Bool) :
    (threeMegabytes ok).plan start.remaining onlyGroup = 3 := by
  have h : (threeMegabytes fun _ => true).plan start.remaining onlyGroup = 3 := by decide +kernel
  exact h

theorem reach_start {guard : State fourExperts → Pool fourExperts → Prop} :
    Reach (machine fourExperts) guard start := .init rfl

/-- The first request fails, half of it is one slot, and the next one fails again. -/
theorem device_slots_exact_partial :
    ∃ s, processPool start (threeMegabytes fun k => k == 1) = some s ∧ Exact s ∧
      s.remaining onlyGroup = 3 := by
  have hrun : (processPool start (threeMegabytes fun k => k == 1)).map
      (fun s => s.remaining onlyGroup) = some 3 := by decide +kernel
  obtain ⟨s, hs, hthree⟩ := Option.map_eq_some_iff.mp hrun
  have hmeets : Meets start (threeMegabytes fun k => k == 1) := by
    refine fun _ => ⟨by decide, fun g r hr hall _ => ?_⟩
    rw [eq_onlyGroup g, plan_threeMegabytes] at hall
    have hblocks : ((threeMegabytes fun k => k == 1).blocks
        ((threeMegabytes fun k => k == 1).plan start.remaining) onlyGroup).map
        (fun r => r.1.sum) = some 1 := by decide +kernel
    rw [eq_onlyGroup g] at hr
    rw [hr, Option.map_some, hall] at hblocks
    cases hblocks
  exact ⟨s, hs, (device_slots_exact bounded_fourExperts (.step reach_start hmeets hs)).1, hthree⟩

/-- Three slots are planned and allocated, one expert is left, and nothing is said to remain. -/
theorem not_device_slots_exact :
    ¬ ∀ T : Topology, Bounded T → ∀ s : State T, Reach (machine T) anyStep s → Exact s := by
  intro h
  have hrun : (processPool start (threeMegabytes fun _ => true)).map
      (fun s => (s.remaining onlyGroup, allocated s onlyGroup)) = some (0, 3) := by decide +kernel
  obtain ⟨s, hs, hpair⟩ := Option.map_eq_some_iff.mp hrun
  have hreach : Reach (machine fourExperts) anyStep s :=
    @Reach.step _ _ _ _ start (threeMegabytes fun _ => true) s reach_start trivial hs
  have hexact := (h fourExperts bounded_fourExperts s hreach).remaining onlyGroup
  rw [(Prod.mk.inj hpair).1, (Prod.mk.inj hpair).2] at hexact
  exact absurd hexact (by decide)

end fourExperts

end DevicePools
end StreamMoE
