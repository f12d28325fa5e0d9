import Mathlib.Algebra.BigOperators.Group.List.Basic
import Mathlib.Algebra.Order.BigOperators.Group.List
import Mathlib.Algebra.Order.Ring.Nat
import StreamMoE.MixSplit
import StreamMoE.ScatterPlan

/-! The round loop of `exec_layer_burst_chain_buckets`: every round folds the slots of its
active tokens and scatters the sums into the accumulator of its target; `layer_fold` adds
the accumulators. Rows are values of a commutative monoid. A plan without rounds, which the
executor refuses before it zeroes the accumulators, leaves them zero. -/
namespace StreamMoE
namespace MixExec

open MixSplit Scatter

variable {M : Type*} [AddCommMonoid M]

/-- The original cell of slot `s` of round column `a`. -/
def scat (o : MixPlan) (r : MixRound) (a s : ℕ) : ℕ × ℕ :=
  o.scatter.getD (r.off + a * r.width + s) (0, 0)

/-- The original token of every round column. -/
def tRound (o : MixPlan) (r : MixRound) : List ℕ :=
  (List.range r.nActive).map fun a => (scat o r a 0).1

/-- `append_expert_fold` on one column: the sum over its slots. -/
def expertFold (c : ℕ → ℕ → M) (o : MixPlan) (r : MixRound) (a : ℕ) : M :=
  ((List.range r.width).map fun s => c (scat o r a s).1 (scat o r a s).2).sum

/-- Column `i` of the folded round, in tight order. -/
def perToken (c : ℕ → ℕ → M) (o : MixPlan) (r : MixRound) (order : List ℕ) (i : ℕ) : M :=
  expertFold c o r (order.getD i 0)

/-- One `ggml_acc`: `len` consecutive columns into an arithmetic run of columns. -/
def accSeg (col : ℕ → M) (acc : ℕ → M) (seg : ScatterSeg) : ℕ → M :=
  (List.range seg.len).foldl
    (fun acc i => Function.update acc (seg.dst + i * seg.delta)
      (acc (seg.dst + i * seg.delta) + col (seg.src + i)))
    acc

/-- The device targets of a layer, by pool; every other pool runs on the CPU target. -/
structure Targets where
  pools : List ℕ
  nodup : pools.Nodup

def targetOf (devs : Targets) (r : MixRound) : Option ℕ :=
  if r.pool ≠ 0 ∧ r.pool ∈ devs.pools then some r.pool else none

/-- One turn of the round loop; it fails when the scatter plan rejects the tokens. -/
def runRound (devs : Targets) (c : ℕ → ℕ → M) (o : MixPlan) (nT : ℕ) (r : MixRound)
    (accs : Option ℕ → ℕ → M) : Option (Option ℕ → ℕ → M) :=
  if r.width = 0 ∨ r.nActive = 0 then some accs
  else
    let sp := buildScatterPlan (tRound o r) nT
    if sp.order.length ≠ r.nActive then none
    else
      some (Function.update accs (targetOf devs r)
        (sp.segs.foldl (accSeg (perToken c o r sp.order)) (accs (targetOf devs r))))

def runRounds (devs : Targets) (c : ℕ → ℕ → M) (o : MixPlan) (nT : ℕ) :
    List MixRound → (Option ℕ → ℕ → M) → Option (Option ℕ → ℕ → M)
  | [], accs => some accs
  | r :: rs, accs => (runRound devs c o nT r accs).bind (runRounds devs c o nT rs)

/-- The first accumulator is copied, the others are added to it. -/
def layerFold : List (ℕ → M) → ℕ → M
  | [], _ => 0
  | a :: as, t => as.foldl (fun out b => out + b t) (a t)

/-- The accumulators of all targets: the CPU's first, then the devices'. -/
def allAccs (devs : Targets) (accs : Option ℕ → ℕ → M) : List (ℕ → M) :=
  (none :: devs.pools.map some).map accs

/-- The layer's result, from zeroed accumulators. -/
def mixResult (R : Routing) (devs : Targets) (c : ℕ → ℕ → M) : Option (ℕ → M) :=
  (runRounds devs c (buildMixPlan R) R.nTokens (buildMixPlan R).rounds fun _ _ => 0).map
    fun accs => layerFold (allAccs devs accs)

theorem accSeg_eq (col : ℕ → M) (acc : ℕ → M) (seg : ScatterSeg) (t : ℕ) :
    accSeg col acc seg t =
      acc t + ((segPairs seg).map fun x => if x.2 = t then col x.1 else 0).sum := by
  suffices h : ∀ (l : List ℕ) (acc : ℕ → M),
      l.foldl (fun acc i => Function.update acc (seg.dst + i * seg.delta)
        (acc (seg.dst + i * seg.delta) + col (seg.src + i))) acc t =
      acc t + (l.map fun i => if seg.dst + i * seg.delta = t then col (seg.src + i) else 0).sum by
    rw [accSeg, h, segPairs, List.map_map]
    rfl
  intro l
  induction l with
  | nil => intro acc; simp
  | cons i l ih =>
    intro acc
    rw [List.foldl_cons, ih, List.map_cons, List.sum_cons]
    by_cases ht : seg.dst + i * seg.delta = t
    · subst ht
      simp [add_assoc]
    · have ht' : ¬ t = seg.dst + i * seg.delta := fun e => ht e.symm
      simp [ht, Function.update_of_ne ht']

theorem foldl_accSeg_eq (col : ℕ → M) (segs : List ScatterSeg) (acc : ℕ → M) (t : ℕ) :
    segs.foldl (accSeg col) acc t =
      acc t + ((segs.flatMap segPairs).map fun x => if x.2 = t then col x.1 else 0).sum := by
  induction segs generalizing acc with
  | nil => simp
  | cons seg segs ih =>
    rw [List.foldl_cons, ih, accSeg_eq, List.flatMap_cons, List.map_append, List.sum_append,
      add_assoc]

/-- What a round adds to column `t`. -/
def roundSum (c : ℕ → ℕ → M) (o : MixPlan) (r : MixRound) (t : ℕ) : M :=
  ((List.range r.nActive).map fun a => if (scat o r a 0).1 = t then expertFold c o r a else 0).sum

/-- The tokens of a round are distinct tokens of the layer. -/
structure RoundOk (nT : ℕ) (o : MixPlan) (r : MixRound) : Prop where
  width : r.width ≠ 0
  lt : ∀ v ∈ tRound o r, v < nT
  nodup : (tRound o r).Nodup
  nonempty : tRound o r ≠ []

@[simp] theorem length_tRound (o : MixPlan) (r : MixRound) : (tRound o r).length = r.nActive := by
  simp [tRound]

theorem runRound_eq {nT : ℕ} (devs : Targets) (c : ℕ → ℕ → M) {o : MixPlan} {r : MixRound}
    (h : RoundOk nT o r) (hnT : nT ≤ 2 ^ 31) (accs : Option ℕ → ℕ → M) :
    ∃ accs', runRound devs c o nT r accs = some accs' ∧ ∀ τ t, accs' τ t =
      accs τ t + if targetOf devs r = τ then roundSum c o r t else 0 := by
  obtain ⟨hperm, hsegs⟩ := buildScatterPlan_spec h.lt h.nodup hnT h.nonempty
  have hlen : (buildScatterPlan (tRound o r) nT).order.length = r.nActive := by
    rw [hperm.length_eq, List.length_range, length_tRound]
  have hactive : r.nActive ≠ 0 := by
    intro h0
    exact h.nonempty (List.eq_nil_of_length_eq_zero ((length_tRound o r).trans h0))
  have hskip : ¬ (r.width = 0 ∨ r.nActive = 0) := fun h' => h'.elim h.width hactive
  refine ⟨_, by simp only [runRound, if_neg hskip, hlen, ne_eq, not_true_eq_false, if_false]; rfl, ?_⟩
  intro τ t
  by_cases hτ : targetOf devs r = τ
  · subst hτ
    rw [Function.update_self, if_pos rfl, foldl_accSeg_eq, hsegs]
    congr 1
    rw [List.map_map, length_tRound, roundSum]
    -- tight column `j` carries round column `order[j]`
    have hcol : ((List.range r.nActive).map ((fun x : ℕ × ℕ => if x.2 = t then
        perToken c o r (buildScatterPlan (tRound o r) nT).order x.1 else 0) ∘
          fun j => (j, (tRound o r).getD ((buildScatterPlan (tRound o r) nT).order.getD j 0) 0))) =
        (buildScatterPlan (tRound o r) nT).order.map fun a =>
          if (scat o r a 0).1 = t then expertFold c o r a else 0 := by
      apply List.ext_getElem
      · simp [hlen]
      · intro j h₁ h₂
        have hj : j < (buildScatterPlan (tRound o r) nT).order.length := by simpa using h₂
        have hmem : (buildScatterPlan (tRound o r) nT).order[j] < r.nActive := by
          have h₃ := hperm.mem_iff.mp (List.getElem_mem hj)
          rwa [length_tRound, List.mem_range] at h₃
        have hord := List.getD_eq_getElem (buildScatterPlan (tRound o r) nT).order 0 hj
        have htok : (tRound o r).getD (buildScatterPlan (tRound o r) nT).order[j] 0 =
            (scat o r (buildScatterPlan (tRound o r) nT).order[j] 0).1 := by
          rw [List.getD_eq_getElem _ _ (by rwa [length_tRound])]
          simp [tRound]
        simp only [List.getElem_map, Function.comp_apply, List.getElem_range, perToken, hord, htok]
    rw [hcol]
    have hperm' := hperm
    rw [length_tRound] at hperm'
    exact (hperm'.map _).sum_eq
  · have hτ' : ¬ τ = targetOf devs r := fun e => hτ e.symm
    rw [Function.update_of_ne hτ', if_neg hτ, add_zero]

theorem runRounds_eq {nT : ℕ} (devs : Targets) (c : ℕ → ℕ → M) {o : MixPlan} (hnT : nT ≤ 2 ^ 31)
    (rs : List MixRound) (h : ∀ r ∈ rs, RoundOk nT o r) (accs : Option ℕ → ℕ → M) :
    ∃ accs', runRounds devs c o nT rs accs = some accs' ∧ ∀ τ t, accs' τ t =
      accs τ t + (rs.map fun r => if targetOf devs r = τ then roundSum c o r t else 0).sum := by
  induction rs generalizing accs with
  | nil => exact ⟨accs, rfl, by simp⟩
  | cons r rs ih =>
    obtain ⟨accs₁, h₁, e₁⟩ := runRound_eq devs c (h r List.mem_cons_self) hnT accs
    obtain ⟨accs₂, h₂, e₂⟩ := ih (fun r' hr' => h r' (List.mem_cons_of_mem _ hr')) accs₁
    refine ⟨accs₂, ?_, ?_⟩
    · rw [runRounds, h₁, Option.bind_some, h₂]
    · intro τ t
      rw [e₂, e₁, List.map_cons, List.sum_cons, add_assoc]

theorem layerFold_eq (l : List (ℕ → M)) (t : ℕ) : layerFold l t = (l.map fun a => a t).sum := by
  cases l with
  | nil => rfl
  | cons a as =>
    have h : ∀ (as : List (ℕ → M)) (x : M),
        as.foldl (fun out b => out + b t) x = x + (as.map fun a => a t).sum := by
      intro as
      induction as with
      | nil => simp
      | cons b bs ih =>
        intro x
        rw [List.foldl_cons, ih, List.map_cons, List.sum_cons, add_assoc]
    rw [layerFold, h, List.map_cons, List.sum_cons]

theorem sum_ite_mem {α : Type*} [DecidableEq α] (l : List α) (hl : l.Nodup) (x : α) (y : M)
    (hx : x ∈ l) : (l.map fun z => if x = z then y else 0).sum = y := by
  induction l with
  | nil => cases hx
  | cons a l ih =>
    obtain ⟨ha, hl'⟩ := List.nodup_cons.mp hl
    rw [List.map_cons, List.sum_cons]
    by_cases h : x = a
    · subst h
      have hzero : (l.map fun z => if x = z then y else 0).sum = 0 := by
        apply List.sum_eq_zero
        intro z hz
        obtain ⟨b, hb, rfl⟩ := List.mem_map.mp hz
        have hne : ¬ x = b := fun e => ha (e ▸ hb)
        simp [hne]
      rw [if_pos rfl, hzero, add_zero]
    · rw [if_neg h, zero_add]
      rcases List.mem_cons.mp hx with h' | h'
      · exact absurd h' h
      · exact ih hl' h'

theorem targetOf_mem (devs : Targets) (r : MixRound) :
    targetOf devs r ∈ none :: devs.pools.map some := by
  unfold targetOf
  split
  · rename_i h
    exact List.mem_cons_of_mem _ (List.mem_map_of_mem (f := some) h.2)
  · exact List.mem_cons_self

theorem targets_nodup (devs : Targets) : (none :: devs.pools.map some : List (Option ℕ)).Nodup := by
  rw [List.nodup_cons]
  exact ⟨by simp, devs.nodup.map (Option.some_injective ℕ)⟩

theorem sum_map_sum_comm {α β : Type*} (l : List α) (k : List β) (f : α → β → M) :
    (l.map fun a => (k.map fun b => f a b).sum).sum =
      (k.map fun b => (l.map fun a => f a b).sum).sum := by
  induction l with
  | nil => simp
  | cons a l ih =>
    simp only [List.map_cons, List.sum_cons, ih, List.sum_map_add]

/-- Every round reaches exactly one target: the layer's result is the sum of the rounds. -/
theorem layerFold_allAccs (devs : Targets) (c : ℕ → ℕ → M) (o : MixPlan) (rs : List MixRound)
    {accs : Option ℕ → ℕ → M} (t : ℕ)
    (h : ∀ τ, accs τ t = (rs.map fun r => if targetOf devs r = τ then roundSum c o r t else 0).sum) :
    layerFold (allAccs devs accs) t = (rs.map fun r => roundSum c o r t).sum := by
  rw [layerFold_eq, allAccs, List.map_map]
  have hrow : ((fun a : ℕ → M => a t) ∘ accs) = fun τ =>
      (rs.map fun r => if targetOf devs r = τ then roundSum c o r t else 0).sum := by
    funext τ
    exact h τ
  rw [hrow, sum_map_sum_comm]
  congr 1
  apply List.map_congr_left
  intro r _
  exact sum_ite_mem _ (targets_nodup devs) _ _ (targetOf_mem devs r)

theorem getD_flatMap_rows {α β : Type*} (l : List α) (row : α → List β) (w : ℕ)
    (hw : ∀ u ∈ l, (row u).length = w) (d : β) :
    ∀ (a s : ℕ) (ha : a < l.length), s < w →
      (l.flatMap row).getD (a * w + s) d = (row l[a]).getD s d := by
  induction l with
  | nil => intro a s ha _; exact absurd ha (Nat.not_lt_zero a)
  | cons u l ih =>
    intro a s ha hs
    have hu := hw u List.mem_cons_self
    rw [List.flatMap_cons]
    cases a with
    | zero =>
      rw [Nat.zero_mul, Nat.zero_add, List.getD_append _ _ _ _ (by omega)]
      rfl
    | succ a =>
      have hle : (row u).length ≤ (a + 1) * w + s := by
        rw [hu, Nat.succ_mul]
        omega
      rw [List.getD_append_right _ _ _ _ hle, hu]
      have hsub : (a + 1) * w + s - w = a * w + s := by
        rw [Nat.succ_mul]
        omega
      rw [hsub]
      exact ih (fun v hv => hw v (List.mem_cons_of_mem _ hv)) a s (Nat.lt_of_succ_lt_succ ha) hs

theorem length_flatMap_rows {α β : Type*} (l : List α) (row : α → List β) (w : ℕ)
    (hw : ∀ u ∈ l, (row u).length = w) : (l.flatMap row).length = l.length * w := by
  induction l with
  | nil => simp
  | cons u l ih =>
    rw [List.flatMap_cons, List.length_append, hw u List.mem_cons_self,
      ih fun v hv => hw v (List.mem_cons_of_mem _ hv), List.length_cons, Nat.succ_mul, Nat.add_comm]

/-- The weight of a cell in column `t`. -/
def cellAt (c : ℕ → ℕ → M) (t : ℕ) (x : ℕ × ℕ) : M := if x.1 = t then c x.1 x.2 else 0

/-- What holds of a plan while its rounds are emitted. -/
structure PlanInv (nT : ℕ) (o : MixPlan) : Prop where
  length_eq : o.ids.length = o.scatter.length
  span : ∀ r ∈ o.rounds, r.off + r.nActive * r.width ≤ o.scatter.length
  ok : ∀ r ∈ o.rounds, RoundOk nT o r

/-- The rounds of the plan carry the cells of the plan, no more and no fewer. -/
def SumsCells (c : ℕ → ℕ → M) (o : MixPlan) : Prop :=
  ∀ t, (o.rounds.map fun r => roundSum c o r t).sum = (o.scatter.map (cellAt c t)).sum

/-- The tokens of a round. -/
def activeToks (R : MixInput) (p vj : ℕ) : List ℕ :=
  (List.range R.nTokens).filter fun t => vj ≤ (poolHits R).count p t

def roundCells (R : MixInput) (p vprev vj : ℕ) : List (ℕ × ℕ) :=
  (activeToks R p vj).flatMap fun t => (roundKs (poolHits R) p t vprev vj).map fun k => (t, k)

def emittedRound (R : MixInput) (p vprev vj : ℕ) (o : MixPlan) : MixRound :=
  { pool := p, width := vj - vprev, nActive := (activeToks R p vj).length,
    off := o.ids.length % 2 ^ 32 }

theorem emitRound_skip {R : MixInput} {p vprev vj : ℕ} {o : MixPlan}
    (h : activeToks R p vj = [] ∨ vj - vprev = 0) : emitRound R (poolHits R) p vprev vj o = o :=
  if_pos h

theorem emitRound_emit {R : MixInput} {p vprev vj : ℕ} {o : MixPlan}
    (h : ¬ (activeToks R p vj = [] ∨ vj - vprev = 0)) :
    emitRound R (poolHits R) p vprev vj o =
      { ids := o.ids ++ (roundCells R p vprev vj).map fun c => idAt R c.1 c.2
        scatter := o.scatter ++ roundCells R p vprev vj
        rounds := o.rounds ++ [emittedRound R p vprev vj o] } :=
  if_neg h

theorem roundCells_skip {R : MixInput} {p vprev vj : ℕ}
    (h : activeToks R p vj = [] ∨ vj - vprev = 0) : roundCells R p vprev vj = [] := by
  rcases h with hempty | hw
  · rw [roundCells, hempty]
    rfl
  · rw [roundCells, List.flatMap_eq_nil_iff]
    intro t _
    simp [roundKs, hw]

theorem emitRound_scatter (R : MixInput) (p vprev vj : ℕ) (o : MixPlan) :
    (emitRound R (poolHits R) p vprev vj o).scatter = o.scatter ++ roundCells R p vprev vj := by
  by_cases h : activeToks R p vj = [] ∨ vj - vprev = 0
  · rw [emitRound_skip h, roundCells_skip h, List.append_nil]
  · rw [emitRound_emit h]

theorem length_roundKs {R : MixInput} {p vj u : ℕ} (vprev : ℕ) (hu : u ∈ activeToks R p vj) :
    (roundKs (poolHits R) p u vprev vj).length = vj - vprev := by
  have hle : vj ≤ (poolHits R).count p u := by simpa using (List.mem_filter.mp hu).2
  rw [roundKs, List.length_take, List.length_drop, length_ksOf]
  omega

theorem scat_append {o o' : MixPlan} {r : MixRound} {cs : List (ℕ × ℕ)}
    (hcs : o'.scatter = o.scatter ++ cs) (hspan : r.off + r.nActive * r.width ≤ o.scatter.length)
    {a s : ℕ} (ha : a < r.nActive) (hs : s < r.width) : scat o' r a s = scat o r a s := by
  have hrow : (a + 1) * r.width ≤ r.nActive * r.width := Nat.mul_le_mul_right _ ha
  rw [Nat.succ_mul] at hrow
  rw [scat, scat, hcs, List.getD_append _ _ _ _ (by omega)]

theorem roundSum_append {o o' : MixPlan} {r : MixRound} {cs : List (ℕ × ℕ)} (c : ℕ → ℕ → M)
    (hcs : o'.scatter = o.scatter ++ cs) (hspan : r.off + r.nActive * r.width ≤ o.scatter.length)
    (hw : r.width ≠ 0) (t : ℕ) : roundSum c o' r t = roundSum c o r t := by
  unfold roundSum
  congr 1
  apply List.map_congr_left
  intro a ha
  have ha' := List.mem_range.mp ha
  rw [scat_append hcs hspan ha' (Nat.pos_of_ne_zero hw), expertFold, expertFold]
  have hfold : ((List.range r.width).map fun s => c (scat o' r a s).1 (scat o' r a s).2) =
      (List.range r.width).map fun s => c (scat o r a s).1 (scat o r a s).2 := by
    apply List.map_congr_left
    intro s hs
    rw [scat_append hcs hspan ha' (List.mem_range.mp hs)]
  rw [hfold]

theorem tRound_append {o o' : MixPlan} {r : MixRound} {cs : List (ℕ × ℕ)}
    (hcs : o'.scatter = o.scatter ++ cs) (hspan : r.off + r.nActive * r.width ≤ o.scatter.length)
    (hw : r.width ≠ 0) : tRound o' r = tRound o r := by
  apply List.map_congr_left
  intro a ha
  rw [scat_append hcs hspan (List.mem_range.mp ha) (Nat.pos_of_ne_zero hw)]

/-- The cells of a new round, row by row. -/
theorem scat_emit {R : MixInput} {p vprev vj : ℕ} {o o' : MixPlan}
    (hcs : o'.scatter = o.scatter ++ roundCells R p vprev vj)
    (hoff : (emittedRound R p vprev vj o).off = o.scatter.length)
    {a s : ℕ} (ha : a < (activeToks R p vj).length) (hs : s < vj - vprev) :
    scat o' (emittedRound R p vprev vj o) a s = ((activeToks R p vj)[a],
      (roundKs (poolHits R) p (activeToks R p vj)[a] vprev vj).getD s 0) := by
  have hrows : ∀ u ∈ activeToks R p vj,
      ((roundKs (poolHits R) p u vprev vj).map fun k => (u, k)).length = vj - vprev := by
    intro u hu
    rw [List.length_map, length_roundKs vprev hu]
  have hw : (emittedRound R p vprev vj o).width = vj - vprev := rfl
  have hidx : o.scatter.length + a * (vj - vprev) + s - o.scatter.length =
      a * (vj - vprev) + s := by omega
  have hlen := length_roundKs vprev (List.getElem_mem ha)
  rw [scat, hcs, hoff, hw, List.getD_append_right _ _ _ _ (by omega), hidx, roundCells,
    getD_flatMap_rows _ _ _ hrows _ a s ha hs, List.getD_eq_getElem _ _ (by simpa [hlen] using hs),
    List.getElem_map, List.getD_eq_getElem _ _ (by omega)]

theorem map_range_getD {α β : Type*} (l : List α) (d : α) (g : α → β) :
    ((List.range l.length).map fun s => g (l.getD s d)) = l.map g := by
  apply List.ext_getElem
  · simp
  · intro j h₁ h₂
    have hj : j < l.length := by simpa using h₂
    simp only [List.getElem_map, List.getElem_range, List.getD_eq_getElem _ _ hj]

theorem sum_map_flatMap {α β : Type*} (l : List α) (row : α → List β) (f : β → M) :
    ((l.flatMap row).map f).sum = (l.map fun u => ((row u).map f).sum).sum := by
  induction l with
  | nil => rfl
  | cons u l ih =>
    rw [List.flatMap_cons, List.map_append, List.sum_append, ih, List.map_cons, List.sum_cons]

/-- A new round carries its cells. -/
theorem roundSum_emit {R : MixInput} {p vprev vj : ℕ} {o o' : MixPlan} (c : ℕ → ℕ → M)
    (hcs : o'.scatter = o.scatter ++ roundCells R p vprev vj)
    (hoff : (emittedRound R p vprev vj o).off = o.scatter.length) (hw : vj - vprev ≠ 0) (t : ℕ) :
    roundSum c o' (emittedRound R p vprev vj o) t =
      ((roundCells R p vprev vj).map (cellAt c t)).sum := by
  have hact : (emittedRound R p vprev vj o).nActive = (activeToks R p vj).length := rfl
  have hwidth : (emittedRound R p vprev vj o).width = vj - vprev := rfl
  rw [roundCells, sum_map_flatMap, roundSum, hact]
  congr 1
  apply List.ext_getElem
  · simp
  · intro a h₁ h₂
    have ha : a < (activeToks R p vj).length := by simpa using h₂
    simp only [List.getElem_map, List.getElem_range, List.map_map]
    rw [scat_emit hcs hoff ha (Nat.pos_of_ne_zero hw), expertFold, hwidth]
    have hrow : ((List.range (vj - vprev)).map fun s =>
        c (scat o' (emittedRound R p vprev vj o) a s).1
          (scat o' (emittedRound R p vprev vj o) a s).2) =
        (roundKs (poolHits R) p (activeToks R p vj)[a] vprev vj).map
          fun k => c (activeToks R p vj)[a] k := by
      rw [← map_range_getD (roundKs _ _ _ _ _) 0, length_roundKs vprev (List.getElem_mem ha)]
      apply List.map_congr_left
      intro s hs
      rw [scat_emit hcs hoff ha (List.mem_range.mp hs)]
    rw [hrow]
    by_cases ht : (activeToks R p vj)[a] = t
    · simp [ht, cellAt, Function.comp_def]
    · simp [ht, cellAt, Function.comp_def]

theorem tRound_emit {R : MixInput} {p vprev vj : ℕ} {o o' : MixPlan}
    (hcs : o'.scatter = o.scatter ++ roundCells R p vprev vj)
    (hoff : (emittedRound R p vprev vj o).off = o.scatter.length) (hw : vj - vprev ≠ 0) :
    tRound o' (emittedRound R p vprev vj o) = activeToks R p vj := by
  apply List.ext_getElem
  · rw [length_tRound]
    rfl
  · intro a h₁ h₂
    simp only [tRound, List.getElem_map, List.getElem_range]
    rw [scat_emit hcs hoff h₂ (Nat.pos_of_ne_zero hw)]

theorem length_roundCells (R : MixInput) (p vprev vj : ℕ) :
    (roundCells R p vprev vj).length = (activeToks R p vj).length * (vj - vprev) := by
  apply length_flatMap_rows
  intro u hu
  rw [List.length_map, length_roundKs vprev hu]

theorem emitRound_inv {R : MixInput} {o : MixPlan} (p vprev vj : ℕ) (c : ℕ → ℕ → M)
    (hI : PlanInv R.nTokens o) (hS : SumsCells c o) (hlt : o.scatter.length < 2 ^ 32) :
    PlanInv R.nTokens (emitRound R (poolHits R) p vprev vj o) ∧
      SumsCells c (emitRound R (poolHits R) p vprev vj o) := by
  have hcs := emitRound_scatter R p vprev vj o
  by_cases h : activeToks R p vj = [] ∨ vj - vprev = 0
  · rw [emitRound_skip h]
    exact ⟨hI, hS⟩
  · obtain ⟨hne, hw⟩ := not_or.mp h
    have hoff : (emittedRound R p vprev vj o).off = o.scatter.length := by
      have hmod : (emittedRound R p vprev vj o).off = o.ids.length % 2 ^ 32 := rfl
      rw [hmod, hI.length_eq, Nat.mod_eq_of_lt hlt]
    have hrounds : (emitRound R (poolHits R) p vprev vj o).rounds =
        o.rounds ++ [emittedRound R p vprev vj o] := by rw [emitRound_emit h]
    have htok := tRound_emit hcs hoff hw
    refine ⟨⟨?_, ?_, ?_⟩, ?_⟩
    · rw [emitRound_emit h, List.length_append, List.length_append, List.length_map, hI.length_eq]
    · intro r hr
      rw [hrounds, List.mem_append, List.mem_singleton] at hr
      rw [hcs, List.length_append]
      rcases hr with hr | rfl
      · have hold := hI.span r hr
        omega
      · rw [hoff, length_roundCells]
        exact le_refl _
    · intro r hr
      rw [hrounds, List.mem_append, List.mem_singleton] at hr
      rcases hr with hr | rfl
      · have hok := hI.ok r hr
        have heq := tRound_append hcs (hI.span r hr) hok.width
        exact ⟨hok.width, heq ▸ hok.lt, heq ▸ hok.nodup, heq ▸ hok.nonempty⟩
      · refine ⟨hw, ?_, ?_, ?_⟩
        · intro v hv
          rw [htok, activeToks, List.mem_filter, List.mem_range] at hv
          exact hv.1
        · rw [htok]
          exact List.nodup_range.filter _
        · rw [htok]
          exact hne
    · intro t
      rw [hrounds, hcs, List.map_append, List.sum_append, List.map_append, List.sum_append, ← hS t,
        List.map_singleton, List.sum_singleton, roundSum_emit c hcs hoff hw]
      congr 2
      apply List.map_congr_left
      intro r hr
      exact roundSum_append c hcs (hI.span r hr) (hI.ok r hr).width t

def peelCells (R : MixInput) (p : ℕ) : ℕ → List ℕ → List (ℕ × ℕ)
  | _, [] => []
  | vprev, vj :: vs => roundCells R p vprev vj ++ peelCells R p vj vs

theorem peelRounds_inv {R : MixInput} {p : ℕ} (c : ℕ → ℕ → M) (vs : List ℕ) :
    ∀ (vprev : ℕ) (o : MixPlan), PlanInv R.nTokens o → SumsCells c o →
      o.scatter.length + (peelCells R p vprev vs).length < 2 ^ 32 →
      PlanInv R.nTokens (peelRounds R (poolHits R) p vprev vs o) ∧
        SumsCells c (peelRounds R (poolHits R) p vprev vs o) ∧
        (peelRounds R (poolHits R) p vprev vs o).scatter =
          o.scatter ++ peelCells R p vprev vs := by
  induction vs with
  | nil =>
    intro vprev o hI hS _
    exact ⟨hI, hS, by simp [peelRounds, peelCells]⟩
  | cons vj vs ih =>
    intro vprev o hI hS hlt
    rw [peelCells, List.length_append] at hlt
    have hcs := emitRound_scatter R p vprev vj o
    obtain ⟨hI₁, hS₁⟩ := emitRound_inv p vprev vj c hI hS (by omega)
    have hlt₁ : (emitRound R (poolHits R) p vprev vj o).scatter.length +
        (peelCells R p vj vs).length < 2 ^ 32 := by
      rw [hcs, List.length_append]
      omega
    obtain ⟨hI₂, hS₂, hcs₂⟩ := ih vj _ hI₁ hS₁ hlt₁
    refine ⟨hI₂, hS₂, ?_⟩
    rw [peelRounds, hcs₂, hcs, peelCells, List.append_assoc]

/-- One peel step takes the slots of every token with enough hits, and only from those. -/
theorem drop_peel {R : MixInput} {p vprev vj t : ℕ} (hv : vprev ≤ vj)
    (hcount : vj ≤ (poolHits R).count p t ∨ (poolHits R).count p t ≤ vprev) :
    (ksOf (poolHits R) p t).drop vprev =
      (if vj ≤ (poolHits R).count p t then roundKs (poolHits R) p t vprev vj else []) ++
        (ksOf (poolHits R) p t).drop vj := by
  have hlen := length_ksOf R p t
  by_cases h : vj ≤ (poolHits R).count p t
  · have hsum : vprev + (vj - vprev) = vj := by omega
    have hdrop := List.drop_drop (i := vj - vprev) (j := vprev) (l := ksOf (poolHits R) p t)
    rw [hsum] at hdrop
    rw [if_pos h, roundKs, ← hdrop, List.take_append_drop]
  · have hle : (poolHits R).count p t ≤ vprev := by omega
    rw [if_neg h, List.nil_append, List.drop_eq_nil_of_le (by omega),
      List.drop_eq_nil_of_le (by omega)]

theorem sum_map_filter {α : Type*} (l : List α) (q : α → Prop) [DecidablePred q] (g : α → M) :
    ((l.filter q).map g).sum = (l.map fun u => if q u then g u else 0).sum := by
  induction l with
  | nil => rfl
  | cons u l ih =>
    by_cases hu : q u <;> simp [hu, ih]

theorem sum_roundCells (R : MixInput) (p vprev vj : ℕ) (f : ℕ × ℕ → M) :
    ((roundCells R p vprev vj).map f).sum =
      ((List.range R.nTokens).map fun t => ((if vj ≤ (poolHits R).count p t then
        roundKs (poolHits R) p t vprev vj else []).map fun k => f (t, k)).sum).sum := by
  rw [roundCells, sum_map_flatMap, activeToks, sum_map_filter]
  congr 1
  apply List.map_congr_left
  intro t _
  rw [List.map_map]
  split <;> rfl

/-- The rounds of a pool take every slot of every token exactly once. -/
theorem sum_peelCells {R : MixInput} {p : ℕ} (f : ℕ × ℕ → M) (vs : List ℕ) :
    ∀ vprev, (vprev :: vs).Pairwise (· < ·) →
      (∀ t < R.nTokens, (poolHits R).count p t ≤ vprev ∨ (poolHits R).count p t ∈ vs) →
      ((peelCells R p vprev vs).map f).sum = ((List.range R.nTokens).map fun t =>
        (((ksOf (poolHits R) p t).drop vprev).map fun k => f (t, k)).sum).sum := by
  induction vs with
  | nil =>
    intro vprev _ hcount
    rw [peelCells, List.map_nil, List.sum_nil]
    symm
    apply List.sum_eq_zero
    intro x hx
    obtain ⟨t, ht, rfl⟩ := List.mem_map.mp hx
    have hle := (hcount t (List.mem_range.mp ht)).resolve_right (List.not_mem_nil)
    rw [List.drop_eq_nil_of_le (by rw [length_ksOf]; exact hle)]
    rfl
  | cons vj vs ih =>
    intro vprev hpair hcount
    obtain ⟨hlt, hpair'⟩ := List.pairwise_cons.mp hpair
    obtain ⟨hlt', _⟩ := List.pairwise_cons.mp hpair'
    have hv := hlt vj List.mem_cons_self
    have hcount' : ∀ t < R.nTokens,
        (poolHits R).count p t ≤ vj ∨ (poolHits R).count p t ∈ vs := by
      intro t ht
      rcases hcount t ht with h | h
      · exact .inl (by omega)
      · rcases List.mem_cons.mp h with h | h
        · exact .inl (le_of_eq h)
        · exact .inr h
    rw [peelCells, List.map_append, List.sum_append, ih vj hpair' hcount', sum_roundCells,
      ← List.sum_map_add]
    congr 1
    apply List.map_congr_left
    intro t ht
    have hstep : vj ≤ (poolHits R).count p t ∨ (poolHits R).count p t ≤ vprev := by
      rcases hcount t (List.mem_range.mp ht) with h | h
      · exact .inr h
      · rcases List.mem_cons.mp h with h | h
        · exact .inl (le_of_eq h.symm)
        · exact .inl (le_of_lt (hlt' _ h))
    rw [drop_peel (le_of_lt hv) hstep, List.map_append, List.sum_append]

def planCells (R : MixInput) (ps : List ℕ) : List (ℕ × ℕ) :=
  ps.flatMap fun p => peelCells R p 0 (peelBounds R (poolHits R) p)

theorem sum_poolCells (R : MixInput) (p : ℕ) (f : ℕ × ℕ → M) :
    ((peelCells R p 0 (peelBounds R (poolHits R) p)).map f).sum =
      ((List.range R.nTokens).map fun t => ((List.range R.nExpertUsed).map fun k =>
        if cellPool R t k = some p then f (t, k) else 0).sum).sum := by
  have hpair : (0 :: peelBounds R (poolHits R) p).Pairwise (· < ·) :=
    List.pairwise_cons.mpr ⟨fun _ h => pos_of_mem_peelBounds h, peelBounds_pairwise _ _ _⟩
  have hcount : ∀ t < R.nTokens, (poolHits R).count p t ≤ 0 ∨
      (poolHits R).count p t ∈ peelBounds R (poolHits R) p := by
    intro t ht
    exact (count_mem_peelBounds R p ht).imp le_of_eq id
  rw [sum_peelCells f _ 0 hpair hcount]
  congr 1
  apply List.map_congr_left
  intro t ht
  rw [List.drop_zero, ksOf_eq R p (List.mem_range.mp ht), sum_map_filter]

/-- Every valid cell lies in exactly one pool. -/
theorem sum_planCells (R : MixInput) (f : ℕ × ℕ → M) :
    ((planCells R (List.range R.nPools)).map f).sum =
      ((List.range R.nTokens).map fun t => ((List.range R.nExpertUsed).map fun k =>
        if (cellPool R t k).isSome then f (t, k) else 0).sum).sum := by
  have hpools : ∀ t k, ((List.range R.nPools).map fun p =>
      if cellPool R t k = some p then f (t, k) else 0).sum =
        if (cellPool R t k).isSome then f (t, k) else 0 := by
    intro t k
    cases hc : cellPool R t k with
    | none => simp
    | some q =>
      have hq := List.mem_range.mpr (cellPool_lt hc)
      simpa using sum_ite_mem _ List.nodup_range q (f (t, k)) hq
  rw [planCells, sum_map_flatMap]
  simp only [sum_poolCells]
  rw [sum_map_sum_comm]
  congr 1
  apply List.map_congr_left
  intro t _
  rw [sum_map_sum_comm]
  congr 1
  apply List.map_congr_left
  intro k _
  exact hpools t k

theorem length_planCells_le (R : MixInput) :
    (planCells R (List.range R.nPools)).length ≤ R.nTokens * R.nExpertUsed := by
  have h := sum_planCells R fun _ => (1 : ℕ)
  rw [List.map_const', List.sum_replicate_nat, mul_one] at h
  rw [h]
  have hrow : ∀ t, ((List.range R.nExpertUsed).map fun k =>
      if (cellPool R t k).isSome then 1 else 0).sum ≤ R.nExpertUsed := by
    intro t
    have hle := List.sum_le_card_nsmul ((List.range R.nExpertUsed).map fun k =>
      if (cellPool R t k).isSome then 1 else 0) 1 (by
        intro x hx
        obtain ⟨k, _, rfl⟩ := List.mem_map.mp hx
        split <;> omega)
    simpa using hle
  have hle := List.sum_le_card_nsmul ((List.range R.nTokens).map fun t =>
    ((List.range R.nExpertUsed).map fun k => if (cellPool R t k).isSome then 1 else 0).sum)
    R.nExpertUsed (by
      intro x hx
      obtain ⟨t, _, rfl⟩ := List.mem_map.mp hx
      exact hrow t)
  simpa using hle

theorem foldl_peelRounds_inv {R : MixInput} (c : ℕ → ℕ → M) (ps : List ℕ) :
    ∀ o : MixPlan, PlanInv R.nTokens o → SumsCells c o →
      o.scatter.length + (planCells R ps).length < 2 ^ 32 →
      PlanInv R.nTokens (ps.foldl
          (fun o p => peelRounds R (poolHits R) p 0 (peelBounds R (poolHits R) p) o) o) ∧
        SumsCells c (ps.foldl
          (fun o p => peelRounds R (poolHits R) p 0 (peelBounds R (poolHits R) p) o) o) ∧
        (ps.foldl (fun o p => peelRounds R (poolHits R) p 0 (peelBounds R (poolHits R) p) o)
          o).scatter = o.scatter ++ planCells R ps := by
  induction ps with
  | nil =>
    intro o hI hS _
    exact ⟨hI, hS, by simp [planCells]⟩
  | cons p ps ih =>
    intro o hI hS hlt
    have hcells : planCells R (p :: ps) =
        peelCells R p 0 (peelBounds R (poolHits R) p) ++ planCells R ps := rfl
    rw [hcells, List.length_append] at hlt
    obtain ⟨hI₁, hS₁, hcs₁⟩ := peelRounds_inv (p := p) c (peelBounds R (poolHits R) p) 0 o hI hS
      (by omega)
    obtain ⟨hI₂, hS₂, hcs₂⟩ := ih _ hI₁ hS₁ (by rw [hcs₁, List.length_append]; omega)
    refine ⟨hI₂, hS₂, ?_⟩
    rw [List.foldl_cons, hcs₂, hcs₁, hcells, List.append_assoc]

/-- The plan of a layer carries the valid cells of its routing. -/
theorem buildMixPlan_spec (R : Routing) (c : ℕ → ℕ → M) :
    PlanInv R.nTokens (buildMixPlan R) ∧ ∀ t < R.nTokens,
      ((buildMixPlan R).rounds.map fun r => roundSum c (buildMixPlan R) r t).sum =
        ((List.range R.nExpertUsed).map fun k => if (cellPool R t k).isSome then c t k else 0).sum := by
  by_cases h : R.nTokens = 0 ∨ R.nExpertUsed = 0
  · have hplan : buildMixPlan R = { ids := [], scatter := [], rounds := [] } := if_pos h
    rw [hplan]
    refine ⟨⟨rfl, ?_, ?_⟩, ?_⟩
    · intro r hr
      exact absurd hr List.not_mem_nil
    · intro r hr
      exact absurd hr List.not_mem_nil
    · intro t ht
      have h0 : R.nExpertUsed = 0 := h.resolve_left (by omega)
      rw [h0]
      rfl
  · have hplan : buildMixPlan R = (List.range R.nPools).foldl
        (fun o p => peelRounds R (poolHits R) p 0 (peelBounds R (poolHits R) p) o)
        { ids := [], scatter := [], rounds := [] } := if_neg h
    have hlt : (planCells R (List.range R.nPools)).length < 2 ^ 32 := by
      have hle := length_planCells_le R
      have hcells := R.cells_lt
      omega
    have hI : PlanInv R.nTokens { ids := [], scatter := [], rounds := [] } := by
      refine ⟨rfl, ?_, ?_⟩ <;> intro r hr <;> exact absurd hr List.not_mem_nil
    have hS : SumsCells c { ids := [], scatter := [], rounds := [] } := fun _ => rfl
    obtain ⟨hI', hS', hcs⟩ := foldl_peelRounds_inv c (List.range R.nPools) _ hI hS
      (by simpa using hlt)
    rw [← hplan] at hI' hS' hcs
    refine ⟨hI', ?_⟩
    intro t ht
    rw [hS' t, hcs, List.nil_append, sum_planCells]
    -- the cells of one column
    have hcol : ∀ u, ((List.range R.nExpertUsed).map fun k =>
        if (cellPool R u k).isSome then cellAt c t (u, k) else 0).sum =
          if t = u then ((List.range R.nExpertUsed).map fun k =>
            if (cellPool R t k).isSome then c t k else 0).sum else 0 := by
      intro u
      by_cases hu : t = u
      · subst hu
        simp [cellAt]
      · have hu' : ¬ u = t := fun e => hu e.symm
        simp [cellAt, hu, hu']
    simp only [hcol]
    exact sum_ite_mem _ List.nodup_range _ _ (List.mem_range.mpr ht)

theorem mixResult_eq (R : Routing) (devs : Targets) (c : ℕ → ℕ → M) :
    ∃ out, mixResult R devs c = some out ∧ ∀ t < R.nTokens, out t =
      ((List.range R.nExpertUsed).map fun k => if (cellPool R t k).isSome then c t k else 0).sum := by
  obtain ⟨hI, hsum⟩ := buildMixPlan_spec R c
  by_cases h : R.nTokens = 0 ∨ R.nExpertUsed = 0
  · have hplan : buildMixPlan R = { ids := [], scatter := [], rounds := [] } := if_pos h
    refine ⟨layerFold (allAccs devs fun _ _ => (0 : M)), by rw [mixResult, hplan]; rfl, ?_⟩
    intro t ht
    rw [← hsum t ht, hplan]
    apply layerFold_allAccs devs c (buildMixPlan R) []
    intro τ
    rfl
  · have hnT : R.nTokens ≤ 2 ^ 31 := by
      have hcells := R.cells_lt
      have hpos : 1 ≤ R.nExpertUsed := by omega
      have hmul := Nat.mul_le_mul_left R.nTokens hpos
      omega
    obtain ⟨accs, haccs, heq⟩ := runRounds_eq devs c hnT _ hI.ok fun _ _ => 0
    refine ⟨layerFold (allAccs devs accs), by rw [mixResult, haccs]; rfl, ?_⟩
    intro t ht
    rw [← hsum t ht]
    apply layerFold_allAccs
    intro τ
    rw [heq, zero_add]

/-- The layer's result is the sum over the valid slots, wherever the experts are placed. -/
theorem mixResult_sum (R : Routing) (devs : Targets) (c : ℕ → ℕ → M) :
    (∃ out, mixResult R devs c = some out ∧ ∀ t < R.nTokens, out t =
      (((List.range R.nExpertUsed).filter fun k => (cellPool R t k).isSome).map (c t)).sum) ∧
    ∀ (pool' : ℕ → ℤ) (nPools' : ℕ) (devs' : Targets),
      (∀ t < R.nTokens, ∀ k < R.nExpertUsed,
        (cellPool { R with expertPool := pool', nPools := nPools' } t k).isSome =
          (cellPool R t k).isSome) →
      ∃ out out', mixResult R devs c = some out ∧
        mixResult { R with expertPool := pool', nPools := nPools' } devs' c = some out' ∧
        ∀ t < R.nTokens, out t = out' t := by
  obtain ⟨out, hout, hsum⟩ := mixResult_eq R devs c
  refine ⟨⟨out, hout, ?_⟩, ?_⟩
  · intro t ht
    rw [hsum t ht, ← sum_map_filter]
    congr 2
    apply List.filter_congr
    intro k _
    simp
  · intro pool' nPools' devs' hvalid
    obtain ⟨out', hout', hsum'⟩ :=
      mixResult_eq { R with expertPool := pool', nPools := nPools' } devs' c
    refine ⟨out, out', hout, hout', ?_⟩
    intro t ht
    rw [hsum t ht, hsum' t ht]
    congr 1
    apply List.map_congr_left
    intro k hk
    rw [hvalid t ht k (List.mem_range.mp hk)]

/-- Three tokens, one slot without an expert; the experts of both pools change place. -/
def threeTokens : Routing where
  ids i := [0, 1, 1, -1, 2, 0].getD i 0
  nExpertUsed := 2
  nTokens := 3
  expertPool e := [0, 1, 1].getD e 0
  nExpert := 3
  nPools := 2
  cells_lt := by decide

theorem mixResult_sum_threeTokens :
    (∃ out, mixResult threeTokens ⟨[1], by decide⟩ (fun t k => 10 * t + k) = some out ∧
      ∀ t < 3, out t = ([1, 10, 41].getD t 0)) ∧
    ∃ out out', mixResult threeTokens ⟨[1], by decide⟩ (fun t k => 10 * t + k) = some out ∧
      mixResult { threeTokens with expertPool := fun e => [1, 0, 0].getD e 0 } ⟨[], by decide⟩
        (fun t k => 10 * t + k) = some out' ∧ ∀ t < 3, out t = out' t := by
  obtain ⟨⟨out, hout, hsum⟩, hplace⟩ :=
    mixResult_sum threeTokens ⟨[1], by decide⟩ fun t k => 10 * t + k
  refine ⟨⟨out, hout, ?_⟩, hplace _ _ _ (by decide)⟩
  intro t ht
  rw [hsum t ht]
  exact (by decide : ∀ t < 3, (((List.range threeTokens.nExpertUsed).filter fun k =>
    (cellPool threeTokens t k).isSome).map fun k => 10 * t + k).sum = [1, 10, 41].getD t 0) t ht

end MixExec
end StreamMoE
