import Mathlib.Algebra.GroupWithZero.Nat
import Mathlib.Data.Int.Notation
import Mathlib.Data.List.Basic
import Mathlib.Data.List.Nodup
import Mathlib.Data.List.Range

/-! `build_mix_plan`: the routing ids of a layer cut, pool by pool, into full
rectangles of tokens and slots. -/
namespace StreamMoE
namespace MixSplit

/-- The arguments of `build_mix_plan`: `ids[t * n_expert_used + k]` and the pool of every expert. -/
structure MixInput where
  ids : ℕ → ℤ
  nExpertUsed : ℕ
  nTokens : ℕ
  expertPool : ℕ → ℤ
  nExpert : ℕ
  nPools : ℕ

/-- The routing of one layer. The graph numbers the routed cells with `int32_t`. -/
structure Routing extends MixInput where
  cells_lt : nTokens * nExpertUsed < 2 ^ 31

instance : Coe Routing MixInput := ⟨Routing.toMixInput⟩

structure MixRound where
  pool : ℕ
  width : ℕ
  nActive : ℕ
  off : ℕ
  deriving DecidableEq, Repr

structure MixPlan where
  ids : List ℤ
  scatter : List (ℕ × ℕ)
  rounds : List MixRound
  deriving DecidableEq, Repr

def idAt (R : MixInput) (t k : ℕ) : ℤ := R.ids (t * R.nExpertUsed + k)

/-- The pool of a routed cell; none when its expert or pool is out of range. -/
def cellPool (R : MixInput) (t k : ℕ) : Option ℕ :=
  let e := idAt R t k
  if e < 0 ∨ (R.nExpert : ℤ) ≤ e then none
  else
    let p := R.expertPool e.toNat
    if p < 0 ∨ (R.nPools : ℤ) ≤ p then none else some p.toNat

/-- `pool_hits` as `(t, k)` pairs, and `hit_count`. -/
structure Hits where
  pairs : ℕ → List (ℕ × ℕ)
  count : ℕ → ℕ → ℕ

def pushHit (R : MixInput) (h : Hits) (c : ℕ × ℕ) : Hits :=
  match cellPool R c.1 c.2 with
  | none => h
  | some p =>
      { pairs := fun q => if q = p then h.pairs q ++ [c] else h.pairs q
        count := fun q t => if q = p ∧ t = c.1 then h.count q t + 1 else h.count q t }

/-- All cells, `t` ascending, `k` fastest. -/
def cells (R : MixInput) : List (ℕ × ℕ) :=
  (List.range R.nTokens).flatMap fun t => (List.range R.nExpertUsed).map fun k => (t, k)

def poolHits (R : MixInput) : Hits :=
  (cells R).foldl (pushHit R) { pairs := fun _ => [], count := fun _ _ => 0 }

/-- Per-token list of the slots that hit the pool. -/
def ksOf (h : Hits) (p t : ℕ) : List ℕ := ((h.pairs p).filter fun c => c.1 == t).map Prod.snd

/-- Number of tokens with a given hit count. -/
def bucket (R : MixInput) (h : Hits) (p c : ℕ) : ℕ :=
  (List.range R.nTokens).countP fun t => h.count p t = c

/-- The distinct nonzero hit counts, ascending. -/
def peelBounds (R : MixInput) (h : Hits) (p : ℕ) : List ℕ :=
  (List.range (R.nExpertUsed + 1)).filter fun c => decide (1 ≤ c ∧ bucket R h p c ≠ 0)

def roundKs (h : Hits) (p t vprev vj : ℕ) : List ℕ := ((ksOf h p t).drop vprev).take (vj - vprev)

/-- One round: every token with at least `vj` hits gives its slots `vprev` to `vj`. -/
def emitRound (R : MixInput) (h : Hits) (p vprev vj : ℕ) (o : MixPlan) : MixPlan :=
  let active := (List.range R.nTokens).filter fun t => vj ≤ h.count p t
  if active = [] ∨ vj - vprev = 0 then o
  else
    let cs := active.flatMap fun t => (roundKs h p t vprev vj).map fun k => (t, k)
    { ids := o.ids ++ cs.map fun c => idAt R c.1 c.2
      scatter := o.scatter ++ cs
      rounds := o.rounds ++ [{ pool := p, width := vj - vprev, nActive := active.length,
                               off := o.ids.length % 2 ^ 32 }] }

def peelRounds (R : MixInput) (h : Hits) (p : ℕ) : ℕ → List ℕ → MixPlan → MixPlan
  | _, [], o => o
  | vprev, vj :: vs, o => peelRounds R h p vj vs (emitRound R h p vprev vj o)

def buildMixPlan (R : MixInput) : MixPlan :=
  if R.nTokens = 0 ∨ R.nExpertUsed = 0 then { ids := [], scatter := [], rounds := [] }
  else
    (List.range R.nPools).foldl
      (fun o p => peelRounds R (poolHits R) p 0 (peelBounds R (poolHits R) p) o)
      { ids := [], scatter := [], rounds := [] }

theorem cellPool_lt {R : MixInput} {t k p : ℕ} (h : cellPool R t k = some p) : p < R.nPools := by
  simp only [cellPool] at h
  split at h
  · cases h
  · split at h
    · cases h
    · cases h
      omega

theorem foldl_pushHit (R : MixInput) (l : List (ℕ × ℕ)) (h : Hits) (p t : ℕ) :
    (l.foldl (pushHit R) h).pairs p =
        h.pairs p ++ l.filter (fun c => cellPool R c.1 c.2 = some p) ∧
      (l.foldl (pushHit R) h).count p t =
        h.count p t + l.countP (fun c => decide (cellPool R c.1 c.2 = some p) && c.1 == t) := by
  induction l generalizing h with
  | nil => simp
  | cons c l ih =>
    obtain ⟨ih₁, ih₂⟩ := ih (pushHit R h c)
    rw [List.foldl_cons, ih₁, ih₂]
    cases hc : cellPool R c.1 c.2 with
    | none => simp [pushHit, hc]
    | some q =>
      by_cases hq : p = q
      · subst hq
        by_cases ht : t = c.1
        · subst ht
          simp [pushHit, hc]
          omega
        · have ht' : ¬ c.1 = t := fun e => ht e.symm
          simp [pushHit, hc, ht, ht']
      · have hq' : ¬ q = p := fun e => hq e.symm
        simp [pushHit, hc, hq, hq']

theorem pairs_poolHits (R : MixInput) (p : ℕ) :
    (poolHits R).pairs p = (cells R).filter (fun c => cellPool R c.1 c.2 = some p) := by
  have h := (foldl_pushHit R (cells R) { pairs := fun _ => [], count := fun _ _ => 0 } p 0).1
  rw [List.nil_append] at h
  exact h

/-- A token's hit count is the length of its slot list. -/
theorem length_ksOf (R : MixInput) (p t : ℕ) :
    (ksOf (poolHits R) p t).length = (poolHits R).count p t := by
  have hcount := (foldl_pushHit R (cells R) { pairs := fun _ => [], count := fun _ _ => 0 } p t).2
  rw [ksOf, List.length_map, pairs_poolHits, List.filter_filter, ← List.countP_eq_length_filter]
  rw [Nat.zero_add] at hcount
  refine Eq.trans ?_ hcount.symm
  apply List.countP_congr
  intro c _
  simp [and_comm]

theorem filter_row (R : MixInput) (p t t' : ℕ) :
    (((List.range R.nExpertUsed).map fun k => (t', k)).filter
        fun c => (c.1 == t) && decide (cellPool R c.1 c.2 = some p)).map Prod.snd =
      if t' = t then (List.range R.nExpertUsed).filter fun k => cellPool R t k = some p else [] := by
  rw [List.filter_map, List.map_map]
  by_cases h : t' = t
  · subst h
    simp [Function.comp_def]
  · simp [Function.comp_def, h]

theorem flatMap_ite_of_nodup {α : Type*} (l : List ℕ) (hl : l.Nodup) (t : ℕ) (x : List α) :
    (l.flatMap fun t' => if t' = t then x else []) = if t ∈ l then x else [] := by
  induction l with
  | nil => rfl
  | cons a l ih =>
    obtain ⟨ha, hl'⟩ := List.nodup_cons.mp hl
    rw [List.flatMap_cons, ih hl']
    by_cases h : a = t
    · subst h
      simp [ha]
    · have h' : ¬ t = a := fun e => h e.symm
      simp [h, h']

/-- The slots of a token that hit a pool, ascending. -/
theorem ksOf_eq (R : MixInput) (p : ℕ) {t : ℕ} (ht : t < R.nTokens) :
    ksOf (poolHits R) p t = (List.range R.nExpertUsed).filter fun k => cellPool R t k = some p := by
  rw [ksOf, pairs_poolHits, List.filter_filter, cells, List.filter_flatMap, List.map_flatMap]
  rw [List.flatMap_congr (fun t' _ => filter_row R p t t'), flatMap_ite_of_nodup _ List.nodup_range,
    if_pos (List.mem_range.mpr ht)]

theorem count_le (R : MixInput) (p : ℕ) {t : ℕ} (ht : t < R.nTokens) :
    (poolHits R).count p t ≤ R.nExpertUsed := by
  rw [← length_ksOf, ksOf_eq R p ht]
  exact (List.length_filter_le _ _).trans (by simp)

/-- The peel bounds are ascending, positive, and contain every nonzero hit count. -/
theorem peelBounds_pairwise (R : MixInput) (h : Hits) (p : ℕ) :
    (peelBounds R h p).Pairwise (· < ·) :=
  List.Pairwise.filter _ List.pairwise_lt_range

theorem pos_of_mem_peelBounds {R : MixInput} {h : Hits} {p c : ℕ} (hc : c ∈ peelBounds R h p) :
    0 < c := by
  simp only [peelBounds, List.mem_filter, decide_eq_true_eq] at hc
  exact hc.2.1

theorem count_mem_peelBounds (R : MixInput) (p : ℕ) {t : ℕ} (ht : t < R.nTokens) :
    (poolHits R).count p t = 0 ∨ (poolHits R).count p t ∈ peelBounds R (poolHits R) p := by
  by_cases h0 : (poolHits R).count p t = 0
  · exact .inl h0
  · right
    have hle := count_le R p ht
    have hbucket : bucket R (poolHits R) p ((poolHits R).count p t) ≠ 0 := by
      rw [bucket, ← Nat.pos_iff_ne_zero, List.countP_pos_iff]
      exact ⟨t, List.mem_range.mpr ht, by simp⟩
    simp only [peelBounds, List.mem_filter, List.mem_range, decide_eq_true_eq]
    exact ⟨by omega, by omega, hbucket⟩

end MixSplit
end StreamMoE
