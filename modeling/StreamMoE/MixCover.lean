import StreamMoE.MixExec
import StreamMoE.Spans

/-! Whether `build_mix_plan` cuts the valid cells of a routing into rectangles, each cell into one.
Offsets and the number of rounds are `uint32_t`, and so is the counter of `peel_bounds`. -/
namespace StreamMoE
namespace MixCover

open MixSplit MixExec Spans

/-- The loop of `peel_bounds` over `c`, a `uint32_t`, up to `bucket.size()`. -/
def countsLoop (bucket : ℕ → ℕ) (size : ℕ) : ℕ → ℕ → List ℕ → Option (List ℕ)
  | 0, _, _ => none
  | fuel + 1, c, counts =>
      if c < size then
        countsLoop bucket size fuel ((c + 1) % 2 ^ 32) (if bucket c ≠ 0 then counts ++ [c] else counts)
      else some counts

/-- `build_mix_plan` with that loop; none when it does not end in `fuel` turns. -/
def mixPlanWithin (fuel : ℕ) (R : MixInput) : Option MixPlan :=
  if R.nTokens = 0 ∨ R.nExpertUsed = 0 then some { ids := [], scatter := [], rounds := [] }
  else
    (List.range R.nPools).foldlM (fun o p =>
        (countsLoop (bucket R (poolHits R) p) (R.nExpertUsed + 1) fuel 1 []).map fun vs =>
          peelRounds R (poolHits R) p 0 vs o)
      { ids := [], scatter := [], rounds := [] }

/-- The rounds the plan tells: `n_rounds` is a `uint32_t`. -/
def toldRounds (o : MixPlan) : List MixRound := o.rounds.take (o.rounds.length % 2 ^ 32)

def area (r : MixRound) : ℕ := r.nActive * r.width

/-- The columns of the round are distinct ascending tokens, each with ascending slots. -/
structure Rectangle (o : MixPlan) (r : MixRound) : Prop where
  tokens : ∃ ts : List ℕ, ts.length = r.nActive ∧ ts.Pairwise (· < ·) ∧
    ∀ a < r.nActive, ∀ s < r.width, (scat o r a s).1 = ts.getD a 0
  slots : ∀ a < r.nActive, ∀ s s', s < s' → s' < r.width → (scat o r a s).2 < (scat o r a s').2

/-- Cell `s` of column `a` of round `i`. -/
structure IsCell (o : MixPlan) (x : ℕ × ℕ × ℕ) (c : ℕ × ℕ) : Prop where
  round : x.1 < (toldRounds o).length
  column : x.2.1 < (toldRounds o)[x.1].nActive
  slot : x.2.2 < (toldRounds o)[x.1].width
  cell : scat o (toldRounds o)[x.1] x.2.1 x.2.2 = c

/-- The plan takes every valid cell exactly once, and nothing else, in full rectangles that lie one
behind the other in both arrays. -/
structure ExactCover (R : MixInput) (o : MixPlan) : Prop where
  spans : Tiles MixRound.off area 0 (toldRounds o) o.scatter.length
  ids_length : o.ids.length = o.scatter.length
  rectangle : ∀ r ∈ toldRounds o, Rectangle o r
  valid : ∀ r ∈ toldRounds o, ∀ a < r.nActive, ∀ s < r.width,
    (scat o r a s).1 < R.nTokens ∧ (scat o r a s).2 < R.nExpertUsed ∧
      cellPool R (scat o r a s).1 (scat o r a s).2 = some r.pool ∧
      o.ids.getD (r.off + a * r.width + s) 0 = idAt R (scat o r a s).1 (scat o r a s).2
  once : ∀ t < R.nTokens, ∀ k < R.nExpertUsed, (cellPool R t k).isSome → ∃! x, IsCell o x (t, k)

section counts

variable {bucket : ℕ → ℕ} {size : ℕ}

theorem countsLoop_eq (hsize : size < 2 ^ 32) (fuel : ℕ) :
    ∀ (c : ℕ) (counts : List ℕ), c ≤ size → countsLoop bucket size fuel c counts =
      if size - c < fuel then
        some (counts ++ (List.range' c (size - c)).filter fun c => decide (bucket c ≠ 0))
      else none := by
  induction fuel with
  | zero => simp [countsLoop]
  | succ fuel ih =>
    intro c counts hc
    rw [countsLoop]
    by_cases h : c < size
    · have hmod : (c + 1) % 2 ^ 32 = c + 1 := Nat.mod_eq_of_lt (by omega)
      have hrange : size - c = (size - (c + 1)) + 1 := by omega
      rw [if_pos h, hmod, ih (c + 1) _ h, hrange, List.range'_succ]
      by_cases hb : bucket c = 0
      · simp [hb]
      · simp [hb]
    · have hzero : size - c = 0 := by omega
      simp [h, hzero]

/-- A counter below `2 ^ 32` never reaches a size above it. -/
theorem countsLoop_none (hsize : 2 ^ 32 ≤ size) (fuel : ℕ) :
    ∀ (c : ℕ) (counts : List ℕ), c < 2 ^ 32 → countsLoop bucket size fuel c counts = none := by
  induction fuel with
  | zero => simp [countsLoop]
  | succ fuel ih =>
    intro c counts hc
    rw [countsLoop, if_pos (by omega)]
    exact ih _ _ (Nat.mod_lt _ (by decide))

end counts

theorem countsLoop_peelBounds (R : MixInput) (p : ℕ) (hused : R.nExpertUsed + 1 < 2 ^ 32)
    (fuel : ℕ) : countsLoop (bucket R (poolHits R) p) (R.nExpertUsed + 1) fuel 1 [] =
      if R.nExpertUsed < fuel then some (peelBounds R (poolHits R) p) else none := by
  rw [countsLoop_eq hused fuel 1 [] (by omega), peelBounds, List.range_eq_range', List.range'_succ]
  simp only [Nat.add_sub_cancel, List.nil_append, Nat.zero_add]
  rw [List.filter_cons_of_neg (by simp)]
  congr 2
  apply List.filter_congr
  intro c hc
  have hpos := (List.mem_range'_1.mp hc).1
  simp [hpos]

/-- One round to emit: the slots `vprev` to `vj` of every token with `vj` hits. -/
structure Peel where
  pool : ℕ
  vprev : ℕ
  vj : ℕ
  deriving DecidableEq, Repr

def peels (p : ℕ) : ℕ → List ℕ → List Peel
  | _, [] => []
  | vprev, vj :: vs => ⟨p, vprev, vj⟩ :: peels p vj vs

/-- All rounds of a routing, in the order they are emitted. -/
def allPeels (R : MixInput) : List Peel :=
  (List.range R.nPools).flatMap fun p => peels p 0 (peelBounds R (poolHits R) p)

/-- How many cells a round has: the tokens with enough hits times the slots each gives. -/
def Peel.size (R : MixInput) (x : Peel) : ℕ := (activeToks R x.pool x.vj).length * (x.vj - x.vprev)

def Peel.cells (R : MixInput) (x : Peel) : List (ℕ × ℕ) := roundCells R x.pool x.vprev x.vj

@[simp] theorem length_cells (R : MixInput) (x : Peel) : (x.cells R).length = x.size R :=
  length_roundCells R x.pool x.vprev x.vj

/-- The rounds with their offsets, from the cell `n` on. -/
def roundsFrom (R : MixInput) : ℕ → List Peel → List MixRound
  | _, [] => []
  | n, x :: xs =>
      { pool := x.pool, width := x.vj - x.vprev, nActive := (activeToks R x.pool x.vj).length,
        off := n % 2 ^ 32 } :: roundsFrom R (n + x.size R) xs

theorem length_roundsFrom (R : MixInput) (n : ℕ) (xs : List Peel) :
    (roundsFrom R n xs).length = xs.length := by
  induction xs generalizing n with
  | nil => rfl
  | cons x xs ih => simp [roundsFrom, ih]

theorem roundsFrom_append (R : MixInput) (n : ℕ) (xs ys : List Peel) :
    roundsFrom R n (xs ++ ys) =
      roundsFrom R n xs ++ roundsFrom R (n + (xs.map (Peel.size R)).sum) ys := by
  induction xs generalizing n with
  | nil => simp [roundsFrom]
  | cons x xs ih => simp [roundsFrom, ih, Nat.add_assoc]

/-- A count that a token has belongs to at least one active token. -/
theorem activeToks_ne_nil {R : MixInput} {p vj : ℕ} (h : vj ∈ peelBounds R (poolHits R) p) :
    activeToks R p vj ≠ [] := by
  simp only [peelBounds, List.mem_filter, decide_eq_true_eq] at h
  have hpos : 0 < bucket R (poolHits R) p vj := Nat.pos_of_ne_zero h.2.2
  obtain ⟨t, ht, hcount⟩ := List.countP_pos_iff.mp hpos
  have hmem : t ∈ activeToks R p vj := by
    simp only [decide_eq_true_eq] at hcount
    simpa [activeToks, hcount] using ht
  exact List.ne_nil_of_mem hmem

theorem mem_peels {p : ℕ} {vs : List ℕ} : ∀ {vprev : ℕ} {x : Peel},
    (vprev :: vs).Pairwise (· < ·) → x ∈ peels p vprev vs →
      x.pool = p ∧ x.vprev < x.vj ∧ x.vj ∈ vs := by
  induction vs with
  | nil => simp [peels]
  | cons vj vs ih =>
    intro vprev x hpair hx
    obtain ⟨hlt, hpair'⟩ := List.pairwise_cons.mp hpair
    rcases List.mem_cons.mp hx with rfl | hx
    · exact ⟨rfl, hlt vj (by simp), by simp⟩
    · obtain ⟨hp, hless, hmem⟩ := ih hpair' hx
      exact ⟨hp, hless, by simp [hmem]⟩

theorem bounds_pairwise (R : MixInput) (p : ℕ) :
    (0 :: peelBounds R (poolHits R) p).Pairwise (· < ·) :=
  List.pairwise_cons.mpr ⟨fun _ h => pos_of_mem_peelBounds h, peelBounds_pairwise _ _ _⟩

/-- Every round to emit takes slots from some token of its pool. -/
theorem mem_allPeels {R : MixInput} {x : Peel} (hx : x ∈ allPeels R) :
    x.pool < R.nPools ∧ x.vprev < x.vj ∧ activeToks R x.pool x.vj ≠ [] := by
  obtain ⟨p, hp, hx⟩ := List.mem_flatMap.mp hx
  obtain ⟨rfl, hlt, hmem⟩ := mem_peels (bounds_pairwise R p) hx
  exact ⟨List.mem_range.mp hp, hlt, activeToks_ne_nil hmem⟩

theorem size_pos {R : MixInput} {x : Peel} (hx : x ∈ allPeels R) : 0 < x.size R := by
  obtain ⟨_, hlt, hne⟩ := mem_allPeels hx
  have hlen := List.length_pos_iff.mpr hne
  exact Nat.mul_pos hlen (by omega)

/-- A plan extended by the rounds to emit. -/
def extend (R : MixInput) (o : MixPlan) (xs : List Peel) : MixPlan :=
  { ids := o.ids ++ (xs.flatMap (Peel.cells R)).map fun c => idAt R c.1 c.2
    scatter := o.scatter ++ xs.flatMap (Peel.cells R)
    rounds := o.rounds ++ roundsFrom R o.ids.length xs }

theorem extend_append (R : MixInput) (o : MixPlan) (xs ys : List Peel) :
    extend R (extend R o xs) ys = extend R o (xs ++ ys) := by
  have hsum : (xs.flatMap (Peel.cells R)).length = (xs.map (Peel.size R)).sum := by
    simp [List.length_flatMap]
  simp [extend, roundsFrom_append, hsum, List.append_assoc]

theorem emitRound_extend {R : MixInput} (o : MixPlan) {x : Peel} (hlt : x.vprev < x.vj)
    (hne : activeToks R x.pool x.vj ≠ []) :
    emitRound R (poolHits R) x.pool x.vprev x.vj o = extend R o [x] := by
  rw [emitRound_emit (by simp only [hne, false_or]; omega)]
  simp [extend, roundsFrom, emittedRound, Peel.cells]

theorem peelRounds_extend {R : MixInput} {p : ℕ} {vs : List ℕ} :
    ∀ {vprev : ℕ} (o : MixPlan), (vprev :: vs).Pairwise (· < ·) →
      (∀ vj ∈ vs, activeToks R p vj ≠ []) →
      peelRounds R (poolHits R) p vprev vs o = extend R o (peels p vprev vs) := by
  induction vs with
  | nil => intro vprev o _ _; simp [peelRounds, peels, extend, roundsFrom]
  | cons vj vs ih =>
    intro vprev o hpair hne
    obtain ⟨hlt, hpair'⟩ := List.pairwise_cons.mp hpair
    have hemit := emitRound_extend (x := ⟨p, vprev, vj⟩) o (hlt vj (by simp)) (hne vj (by simp))
    rw [peelRounds, ih _ hpair' fun v hv => hne v (by simp [hv])]
    simp only at hemit
    rw [hemit, extend_append]
    rfl

def emptyPlan : MixPlan := { ids := [], scatter := [], rounds := [] }

theorem foldl_peelRounds_extend (R : MixInput) (ps : List ℕ) (o : MixPlan) :
    ps.foldl (fun o p => peelRounds R (poolHits R) p 0 (peelBounds R (poolHits R) p) o) o =
      extend R o (ps.flatMap fun p => peels p 0 (peelBounds R (poolHits R) p)) := by
  induction ps generalizing o with
  | nil => simp [extend, roundsFrom]
  | cons p ps ih =>
    rw [List.foldl_cons, peelRounds_extend o (bounds_pairwise R p) fun _ h => activeToks_ne_nil h, ih,
      extend_append]
    rfl

/-- Without tokens or slots there is nothing to emit. -/
theorem allPeels_trivial {R : MixInput} (h : R.nTokens = 0 ∨ R.nExpertUsed = 0) : allPeels R = [] := by
  have hbounds : ∀ p, peelBounds R (poolHits R) p = [] := by
    intro p
    apply List.filter_eq_nil_iff.mpr
    intro c hc
    rcases h with h | h
    · simp [bucket, h]
    · have hzero : c = 0 := by simpa [h] using hc
      simp [hzero]
  simp [allPeels, hbounds, peels]

theorem buildMixPlan_extend (R : MixInput) : buildMixPlan R = extend R emptyPlan (allPeels R) := by
  by_cases h : R.nTokens = 0 ∨ R.nExpertUsed = 0
  · rw [buildMixPlan, if_pos h, allPeels_trivial h]
    simp [extend, emptyPlan, roundsFrom]
  · rw [buildMixPlan, if_neg h]
    exact foldl_peelRounds_extend R _ _

/-- When the counter of `peel_bounds` does not wrap, `build_mix_plan` returns its plan. -/
theorem mixPlanWithin_eq {R : MixInput} (hused : R.nExpertUsed + 1 < 2 ^ 32) {fuel : ℕ}
    (hfuel : R.nExpertUsed < fuel) : mixPlanWithin fuel R = some (buildMixPlan R) := by
  by_cases h : R.nTokens = 0 ∨ R.nExpertUsed = 0
  · simp [mixPlanWithin, buildMixPlan, h]
  · have hfold : ∀ (ps : List ℕ) (o : MixPlan), ps.foldlM (fun o p =>
        (countsLoop (bucket R (poolHits R) p) (R.nExpertUsed + 1) fuel 1 []).map fun vs =>
          peelRounds R (poolHits R) p 0 vs o) o =
        some (ps.foldl (fun o p =>
          peelRounds R (poolHits R) p 0 (peelBounds R (poolHits R) p) o) o) := by
      intro ps
      induction ps with
      | nil => intro o; rfl
      | cons p ps ih =>
        intro o
        rw [List.foldlM_cons, countsLoop_peelBounds R p hused, if_pos hfuel, List.foldl_cons]
        exact ih _
    rw [mixPlanWithin, if_neg h, hfold, buildMixPlan, if_neg h]

/-- A pool whose loop does not end leaves the call without a plan. -/
theorem mixPlanWithin_none {R : MixInput} {fuel : ℕ} (hsome : ¬ (R.nTokens = 0 ∨ R.nExpertUsed = 0))
    (hpools : R.nPools ≠ 0)
    (hnone : ∀ p, countsLoop (bucket R (poolHits R) p) (R.nExpertUsed + 1) fuel 1 [] = none) :
    mixPlanWithin fuel R = none := by
  obtain ⟨n, hn⟩ := Nat.exists_eq_succ_of_ne_zero hpools
  rw [mixPlanWithin, if_neg hsome, hn, Nat.succ_eq_add_one, List.range_succ_eq_map, List.foldlM_cons,
    hnone]
  rfl

/-- Without tokens, slots or pools the plan is empty. -/
theorem mixPlanWithin_trivial {R : MixInput} (fuel : ℕ)
    (h : R.nTokens = 0 ∨ R.nExpertUsed = 0 ∨ R.nPools = 0) :
    mixPlanWithin fuel R = some (buildMixPlan R) := by
  by_cases htrivial : R.nTokens = 0 ∨ R.nExpertUsed = 0
  · simp [mixPlanWithin, buildMixPlan, htrivial]
  · have hpools : R.nPools = 0 := by omega
    simp [mixPlanWithin, buildMixPlan, htrivial, hpools]

/-- Whatever `build_mix_plan` returns is the plan, and it returns unless its counter wraps. -/
theorem mixPlanWithin_iff (R : MixInput) :
    (∀ fuel o, mixPlanWithin fuel R = some o → o = buildMixPlan R) ∧
      ((∃ fuel o, mixPlanWithin fuel R = some o) ↔
        R.nExpertUsed + 1 < 2 ^ 32 ∨ R.nTokens = 0 ∨ R.nPools = 0) := by
  by_cases htrivial : R.nTokens = 0 ∨ R.nExpertUsed = 0 ∨ R.nPools = 0
  · refine ⟨?_, fun _ => by omega, fun _ => ⟨0, _, mixPlanWithin_trivial 0 htrivial⟩⟩
    intro fuel o h
    rw [mixPlanWithin_trivial fuel htrivial] at h
    exact (Option.some.inj h).symm
  · have hsome : ¬ (R.nTokens = 0 ∨ R.nExpertUsed = 0) := by omega
    have hpools : R.nPools ≠ 0 := by omega
    by_cases hused : R.nExpertUsed + 1 < 2 ^ 32
    · refine ⟨?_, fun _ => .inl hused, fun _ => ⟨_, _, mixPlanWithin_eq hused (Nat.lt_succ_self _)⟩⟩
      intro fuel o h
      by_cases hfuel : R.nExpertUsed < fuel
      · rw [mixPlanWithin_eq hused hfuel] at h
        exact (Option.some.inj h).symm
      · have hnone : mixPlanWithin fuel R = none := mixPlanWithin_none hsome hpools fun p => by
          rw [countsLoop_peelBounds R p hused, if_neg hfuel]
        simp [hnone] at h
    · have hnone : ∀ fuel, mixPlanWithin fuel R = none := fun fuel =>
        mixPlanWithin_none hsome hpools fun p => countsLoop_none (by omega) fuel 1 [] (by decide)
      refine ⟨by simp [hnone], by simp [hnone], by omega⟩

/-- Numbers that fit `uint32_t`: the rounds can be counted, and each starts at an offset that can be
told. -/
structure Fits (R : MixInput) : Prop where
  rounds : (allPeels R).length < 2 ^ 32
  offsets : ((allPeels R).map (Peel.size R)).dropLast.sum < 2 ^ 32

theorem map_area_roundsFrom (R : MixInput) (n : ℕ) (xs : List Peel) :
    (roundsFrom R n xs).map area = xs.map (Peel.size R) := by
  induction xs generalizing n with
  | nil => rfl
  | cons x xs ih => simp [roundsFrom, ih, area, Peel.size]

theorem roundsFrom_take (R : MixInput) (n k : ℕ) (xs : List Peel) :
    (roundsFrom R n xs).take k = roundsFrom R n (xs.take k) := by
  induction xs generalizing n k with
  | nil => simp [roundsFrom]
  | cons x xs ih =>
    cases k with
    | zero => simp [roundsFrom]
    | succ k => simp [roundsFrom, ih]

theorem tiles_roundsFrom {R : MixInput} {xs : List Peel} (hpos : ∀ x ∈ xs, 0 < x.size R) :
    ∀ {n : ℕ}, n + (xs.map (Peel.size R)).dropLast.sum < 2 ^ 32 →
      Tiles MixRound.off area n (roundsFrom R n xs) (n + (xs.map (Peel.size R)).sum) := by
  induction xs with
  | nil => intro n _; exact .nil n
  | cons x xs ih =>
    intro n hlt
    refine .cons (Nat.mod_eq_of_lt (by omega)) (hpos x (by simp)) ?_
    cases xs with
    | nil => simpa [roundsFrom, area, Peel.size] using Tiles.nil _
    | cons y ys =>
      have hrest := ih (fun z hz => hpos z (by simp [hz])) (n := n + x.size R)
        (by simpa [Nat.add_assoc] using hlt)
      simpa [Nat.add_assoc, area, Peel.size] using hrest

theorem lt_of_tiles {R : MixInput} {xs : List Peel} {m : ℕ} : ∀ {n : ℕ}, xs ≠ [] →
    Tiles MixRound.off area n (roundsFrom R n xs) m →
      n + (xs.map (Peel.size R)).dropLast.sum < 2 ^ 32 := by
  induction xs with
  | nil => simp
  | cons x xs ih =>
    intro n _ h
    rw [roundsFrom] at h
    cases h with
    | cons hstart _ hrest =>
      have hn : n < 2 ^ 32 := by
        simp only at hstart
        omega
      cases xs with
      | nil => simpa using hn
      | cons y ys =>
        have hlt := ih (n := n + x.size R) (by simp) hrest
        simpa [Nat.add_assoc] using hlt

/-- The rounds of the plan, whatever their offsets. -/
theorem toldRounds_eq (R : MixInput) : toldRounds (buildMixPlan R) =
    roundsFrom R 0 ((allPeels R).take ((allPeels R).length % 2 ^ 32)) := by
  simp [toldRounds, buildMixPlan_extend, extend, emptyPlan, length_roundsFrom, roundsFrom_take]

theorem scatter_eq (R : MixInput) :
    (buildMixPlan R).scatter = (allPeels R).flatMap (Peel.cells R) := by
  simp [buildMixPlan_extend, extend, emptyPlan]

theorem ids_eq (R : MixInput) :
    (buildMixPlan R).ids = (buildMixPlan R).scatter.map fun c => idAt R c.1 c.2 := by
  simp [buildMixPlan_extend, extend, emptyPlan]

theorem length_scatter (R : MixInput) :
    (buildMixPlan R).scatter.length = ((allPeels R).map (Peel.size R)).sum := by
  simp [scatter_eq, List.length_flatMap]

/-- Spans that cover the arrays need offsets and a number of rounds that fit. -/
theorem fits_of_tiles {R : MixInput} (h : Tiles MixRound.off area 0 (toldRounds (buildMixPlan R))
    (buildMixPlan R).scatter.length) : Fits R := by
  rw [toldRounds_eq] at h
  have htotal := h.total
  rw [map_area_roundsFrom, length_scatter, Nat.zero_add] at htotal
  have hlen : (allPeels R).length < 2 ^ 32 := by
    by_contra hge
    have hmod := Nat.mod_lt (allPeels R).length (y := 2 ^ 32) (by decide)
    have hsplit := List.take_append_drop ((allPeels R).length % 2 ^ 32) (allPeels R)
    have hsum := congrArg (fun l => (l.map (Peel.size R)).sum) hsplit
    simp only [List.map_append, List.sum_append] at hsum
    have hdrop : 0 < (((allPeels R).drop ((allPeels R).length % 2 ^ 32)).map (Peel.size R)).sum := by
      cases hd : (allPeels R).drop ((allPeels R).length % 2 ^ 32) with
      | nil =>
        have hnil := congrArg List.length hd
        rw [List.length_drop, List.length_nil] at hnil
        omega
      | cons x xs =>
        have hmem : x ∈ allPeels R := List.mem_of_mem_drop (hd ▸ List.mem_cons_self)
        have hpos := size_pos hmem
        simp only [List.map_cons, List.sum_cons]
        omega
    omega
  refine ⟨hlen, ?_⟩
  rw [Nat.mod_eq_of_lt hlen, List.take_length] at h
  cases hxs : allPeels R with
  | nil => simp
  | cons x xs =>
    have hlt := lt_of_tiles (by simp [hxs]) h
    rw [hxs] at hlt
    simpa using hlt

/-- What a round of the plan is cut from. -/
structure CutFrom (R : MixInput) (r : MixRound) (x : Peel) : Prop where
  peel : x ∈ allPeels R
  pool : r.pool = x.pool
  width : r.width = x.vj - x.vprev
  active : r.nActive = (activeToks R x.pool x.vj).length
  cell : ∀ a < r.nActive, ∀ s < r.width, scat (buildMixPlan R) r a s =
    ((activeToks R x.pool x.vj).getD a 0,
      (roundKs (poolHits R) x.pool ((activeToks R x.pool x.vj).getD a 0) x.vprev x.vj).getD s 0)

theorem scat_at {R : MixInput} {o : MixPlan} {r : MixRound} {before behind : List (ℕ × ℕ)} {x : Peel}
    (hscatter : o.scatter = before ++ (x.cells R ++ behind)) (hoff : r.off = before.length)
    (hwidth : r.width = x.vj - x.vprev) {a s : ℕ} (ha : a < (activeToks R x.pool x.vj).length)
    (hs : s < r.width) : scat o r a s = ((activeToks R x.pool x.vj).getD a 0,
      (roundKs (poolHits R) x.pool ((activeToks R x.pool x.vj).getD a 0) x.vprev x.vj).getD s 0) := by
  have hrows : ∀ u ∈ activeToks R x.pool x.vj,
      ((roundKs (poolHits R) x.pool u x.vprev x.vj).map fun k => (u, k)).length = r.width := by
    intro u hu
    rw [List.length_map, length_roundKs x.vprev hu, hwidth]
  have hlen := length_roundKs x.vprev (List.getElem_mem ha)
  have hin : a * r.width + s < (x.cells R).length := by
    have hrow := Nat.mul_le_mul_right r.width (Nat.succ_le_of_lt ha)
    rw [Nat.succ_mul] at hrow
    rw [length_cells, Peel.size, ← hwidth]
    omega
  have hidx : r.off + a * r.width + s - before.length = a * r.width + s := by omega
  rw [scat, hscatter, List.getD_append_right _ _ _ _ (by omega), hidx, List.getD_append _ _ _ _ hin,
    Peel.cells, roundCells, getD_flatMap_rows _ _ _ hrows _ a s ha hs,
    List.getD_eq_getElem _ _ (by simpa [hlen, hwidth] using hs), List.getD_eq_getElem _ _ ha]
  rw [List.getElem_map, List.getD_eq_getElem _ _ (by omega)]

theorem roundKs_sublist {R : MixInput} {p t vprev vj : ℕ} (ht : t < R.nTokens) :
    (roundKs (poolHits R) p t vprev vj).Sublist
      ((List.range R.nExpertUsed).filter fun k => cellPool R t k = some p) := by
  rw [← ksOf_eq R p ht]
  exact (List.take_sublist _ _).trans (List.drop_sublist _ _)

theorem activeToks_pairwise (R : MixInput) (p vj : ℕ) : (activeToks R p vj).Pairwise (· < ·) :=
  List.Pairwise.filter _ List.pairwise_lt_range

/-- What a cell of a round is: a slot of its column's token that hits the round's pool. -/
theorem CutFrom.slot {R : MixInput} {r : MixRound} {x : Peel} (h : CutFrom R r x) {a s : ℕ} (ha : a < r.nActive)
    (hs : s < r.width) :
    (activeToks R x.pool x.vj).getD a 0 < R.nTokens ∧
      s < (roundKs (poolHits R) x.pool ((activeToks R x.pool x.vj).getD a 0) x.vprev x.vj).length := by
  have ha' : a < (activeToks R x.pool x.vj).length := h.active ▸ ha
  have hmem := List.getElem_mem ha'
  rw [List.getD_eq_getElem _ _ ha', length_roundKs x.vprev hmem, ← h.width]
  exact ⟨List.mem_range.mp (List.mem_filter.mp hmem).1, hs⟩

section fits

variable {R : MixInput} (hfits : Fits R)
include hfits

theorem toldRounds_of_fits : toldRounds (buildMixPlan R) = roundsFrom R 0 (allPeels R) := by
  rw [toldRounds_eq, Nat.mod_eq_of_lt hfits.rounds, List.take_length]

theorem tiles_of_fits : Tiles MixRound.off area 0 (toldRounds (buildMixPlan R))
    (buildMixPlan R).scatter.length := by
  rw [toldRounds_of_fits hfits, length_scatter]
  simpa using tiles_roundsFrom (fun x hx => size_pos hx) (n := 0) (by simpa using hfits.offsets)

theorem cutFrom_getElem {i : ℕ} (hi : i < (toldRounds (buildMixPlan R)).length)
    (hlen : i < (allPeels R).length) :
    CutFrom R (toldRounds (buildMixPlan R))[i] (allPeels R)[i] := by
  have hsplit : allPeels R = (allPeels R).take i ++ (allPeels R)[i] :: (allPeels R).drop (i + 1) := by
    rw [List.getElem_cons_drop, List.take_append_drop]
  -- the round at index `i` starts behind the cells of the rounds before it
  have hround : (toldRounds (buildMixPlan R))[i] =
      { pool := (allPeels R)[i].pool, width := (allPeels R)[i].vj - (allPeels R)[i].vprev,
        nActive := (activeToks R (allPeels R)[i].pool (allPeels R)[i].vj).length,
        off := (((allPeels R).take i).map (Peel.size R)).sum % 2 ^ 32 } := by
    have hfrom : toldRounds (buildMixPlan R) = roundsFrom R 0 ((allPeels R).take i) ++
        roundsFrom R (((allPeels R).take i).map (Peel.size R)).sum
          ((allPeels R)[i] :: (allPeels R).drop (i + 1)) := by
      rw [toldRounds_of_fits hfits]
      conv => lhs; rw [hsplit]
      rw [roundsFrom_append, Nat.zero_add]
    have htake : (roundsFrom R 0 ((allPeels R).take i)).length = i := by
      rw [length_roundsFrom, List.length_take, Nat.min_eq_left (le_of_lt hlen)]
    simp only [hfrom, roundsFrom, List.getElem_append_right (Nat.le_of_eq htake), htake, Nat.sub_self,
      List.getElem_cons_zero]
  have hbefore : (((allPeels R).take i).flatMap (Peel.cells R)).length =
      (((allPeels R).take i).map (Peel.size R)).sum := by
    simp [List.length_flatMap]
  have hoff : (toldRounds (buildMixPlan R))[i].off =
      (((allPeels R).take i).flatMap (Peel.cells R)).length := by
    have hmem : i < (roundsFrom R 0 (allPeels R)).length := by rwa [length_roundsFrom]
    have hle : (((allPeels R).take i).map (Peel.size R)).sum < 2 ^ 32 := by
      have hbound := hfits.offsets
      have hsum := congrArg (fun l => (l.map (Peel.size R)).dropLast.sum) hsplit
      simp only [List.map_append, List.map_cons] at hsum
      rw [List.dropLast_append_of_ne_nil (by simp), List.sum_append] at hsum
      omega
    rw [hround, hbefore]
    exact Nat.mod_eq_of_lt hle
  have hscatter : (buildMixPlan R).scatter = ((allPeels R).take i).flatMap (Peel.cells R) ++
      ((allPeels R)[i].cells R ++ ((allPeels R).drop (i + 1)).flatMap (Peel.cells R)) := by
    have hcells := congrArg (List.flatMap (Peel.cells R)) hsplit
    rw [List.flatMap_append, List.flatMap_cons] at hcells
    rw [scatter_eq]
    exact hcells
  refine ⟨List.getElem_mem hlen, ?_, ?_, ?_, ?_⟩
  · rw [hround]
  · rw [hround]
  · rw [hround]
  · intro a ha s hs
    refine scat_at hscatter hoff (by rw [hround]) ?_ hs
    rwa [hround] at ha

theorem length_toldRounds : (toldRounds (buildMixPlan R)).length = (allPeels R).length := by
  rw [toldRounds_of_fits hfits, length_roundsFrom]

theorem exists_cutFrom {r : MixRound} (hr : r ∈ toldRounds (buildMixPlan R)) :
    ∃ x, CutFrom R r x := by
  obtain ⟨i, hi, rfl⟩ := List.getElem_of_mem hr
  exact ⟨_, cutFrom_getElem hfits hi (length_toldRounds hfits ▸ hi)⟩

theorem rectangle_of_fits {r : MixRound} (hr : r ∈ toldRounds (buildMixPlan R)) :
    Rectangle (buildMixPlan R) r := by
  obtain ⟨x, hx⟩ := exists_cutFrom hfits hr
  refine ⟨⟨activeToks R x.pool x.vj, hx.active.symm, activeToks_pairwise _ _ _, ?_⟩, ?_⟩
  · intro a ha s hs
    rw [hx.cell a ha s hs]
  · intro a ha s s' hlt hs'
    obtain ⟨htok, hlen⟩ := hx.slot ha hs'
    have hpair : (roundKs (poolHits R) x.pool ((activeToks R x.pool x.vj).getD a 0)
        x.vprev x.vj).Pairwise (· < ·) :=
      (List.pairwise_lt_range.filter _).sublist (roundKs_sublist htok)
    have hless := List.pairwise_iff_getElem.mp hpair s s' (hlt.trans hlen) hlen hlt
    rw [hx.cell a ha s (hlt.trans hs'), hx.cell a ha s' hs', List.getD_eq_getElem _ _ (hlt.trans hlen),
      List.getD_eq_getElem _ _ hlen]
    exact hless

/-- Cell `s` of column `a` lies inside the arrays. -/
theorem cell_lt {r : MixRound} (hr : r ∈ toldRounds (buildMixPlan R)) {a s : ℕ} (ha : a < r.nActive)
    (hs : s < r.width) : r.off + a * r.width + s < (buildMixPlan R).scatter.length := by
  have hbounds := (tiles_of_fits hfits).bounds hr
  have hrow := Nat.mul_le_mul_right r.width (Nat.succ_le_of_lt ha)
  rw [Nat.succ_mul] at hrow
  have harea : area r = r.nActive * r.width := rfl
  omega

theorem valid_of_fits {r : MixRound} (hr : r ∈ toldRounds (buildMixPlan R)) {a s : ℕ}
    (ha : a < r.nActive) (hs : s < r.width) :
    (scat (buildMixPlan R) r a s).1 < R.nTokens ∧ (scat (buildMixPlan R) r a s).2 < R.nExpertUsed ∧
      cellPool R (scat (buildMixPlan R) r a s).1 (scat (buildMixPlan R) r a s).2 = some r.pool ∧
      (buildMixPlan R).ids.getD (r.off + a * r.width + s) 0 =
        idAt R (scat (buildMixPlan R) r a s).1 (scat (buildMixPlan R) r a s).2 := by
  obtain ⟨x, hx⟩ := exists_cutFrom hfits hr
  obtain ⟨htok, hlen⟩ := hx.slot ha hs
  have hidx := cell_lt hfits hr ha hs
  have hid : (buildMixPlan R).ids.getD (r.off + a * r.width + s) 0 =
      idAt R (scat (buildMixPlan R) r a s).1 (scat (buildMixPlan R) r a s).2 := by
    rw [ids_eq, List.getD_eq_getElem _ _ (by simpa using hidx), List.getElem_map, scat,
      List.getD_eq_getElem _ _ hidx]
  have hk := (roundKs_sublist htok).subset (List.getElem_mem hlen)
  rw [List.mem_filter, List.mem_range, ← List.getD_eq_getElem _ 0 hlen] at hk
  rw [hid, hx.cell a ha s hs]
  exact ⟨htok, hk.1, by simpa [hx.pool] using hk.2, rfl⟩

end fits

theorem flatMap_peels (R : MixInput) (p : ℕ) (vs : List ℕ) (vprev : ℕ) :
    (peels p vprev vs).flatMap (Peel.cells R) = peelCells R p vprev vs := by
  induction vs generalizing vprev with
  | nil => rfl
  | cons vj vs ih => simp [peels, peelCells, ih, Peel.cells]

theorem scatter_planCells (R : MixInput) :
    (buildMixPlan R).scatter = planCells R (List.range R.nPools) := by
  simp [scatter_eq, allPeels, planCells, List.flatMap_assoc, flatMap_peels]

theorem sum_indicator {α : Type*} [DecidableEq α] [BEq α] [LawfulBEq α] (x : α) (l : List α) :
    (l.map fun y => if x = y then 1 else 0).sum = l.count x := by
  induction l with
  | nil => rfl
  | cons y l ih =>
    rw [List.map_cons, List.sum_cons, ih, List.count_cons]
    by_cases h : x = y
    · simp [h, Nat.add_comm]
    · have h' : ¬ y = x := fun e => h e.symm
      simp [h, h']

theorem count_scatter (R : MixInput) (t k : ℕ) : (buildMixPlan R).scatter.count (t, k) =
    if t < R.nTokens ∧ k < R.nExpertUsed ∧ (cellPool R t k).isSome then 1 else 0 := by
  have hrow : ∀ u, ((List.range R.nExpertUsed).map fun l =>
      if (cellPool R u l).isSome then (if (t, k) = (u, l) then 1 else 0) else 0).sum =
        if t = u then (if k < R.nExpertUsed ∧ (cellPool R t k).isSome then 1 else 0) else 0 := by
    intro u
    by_cases hu : t = u
    · subst hu
      have hcell : ∀ l, (if (cellPool R t l).isSome then (if (t, k) = (t, l) then 1 else 0) else 0) =
          if k = l then (if (cellPool R t k).isSome then 1 else 0) else 0 := by
        intro l
        by_cases hl : k = l
        · simp [hl]
        · simp [hl]
      simp only [hcell, if_true]
      by_cases hk : k < R.nExpertUsed
      · rw [sum_ite_mem _ List.nodup_range k _ (List.mem_range.mpr hk)]
        simp [hk]
      · simp only [hk, false_and, if_false]
        apply List.sum_eq_zero
        intro x hx
        obtain ⟨l, hl, rfl⟩ := List.mem_map.mp hx
        have hne : ¬ k = l := by
          have hlt := List.mem_range.mp hl
          omega
        simp [hne]
    · simp [hu]
  rw [← sum_indicator, scatter_planCells, sum_planCells R fun c => if (t, k) = c then 1 else 0]
  simp only [hrow]
  by_cases ht : t < R.nTokens
  · rw [sum_ite_mem _ List.nodup_range t _ (List.mem_range.mpr ht)]
    simp [ht]
  · simp only [ht, false_and, if_false]
    apply List.sum_eq_zero
    intro x hx
    obtain ⟨u, hu, rfl⟩ := List.mem_map.mp hx
    have hne : ¬ t = u := by
      have hlt := List.mem_range.mp hu
      omega
    simp [hne]

theorem scatter_nodup (R : MixInput) : (buildMixPlan R).scatter.Nodup := by
  refine List.nodup_iff_count_le_one.mpr ?_
  rintro ⟨t, k⟩
  rw [count_scatter]
  split <;> omega

theorem exists_place {w n j : ℕ} (h : j < n * w) : ∃ a < n, ∃ s < w, a * w + s = j := by
  have hw : 0 < w := Nat.pos_of_ne_zero fun h0 => by simp [h0] at h
  have hdiv := Nat.div_add_mod j w
  rw [Nat.mul_comm] at hdiv
  exact ⟨j / w, (Nat.div_lt_iff_lt_mul hw).mpr h, j % w, Nat.mod_lt _ hw, hdiv⟩

/-- Where a cell lies in its round is determined by its place in the arrays. -/
theorem place_unique {w a s a' s' : ℕ} (hs : s < w) (hs' : s' < w)
    (h : a * w + s = a' * w + s') : a = a' ∧ s = s' := by
  have hdiv := congrArg (· / w) h
  have hmod := congrArg (· % w) h
  simp only [Nat.mul_comm _ w] at hdiv hmod
  rw [Nat.mul_add_div (by omega), Nat.mul_add_div (by omega), Nat.div_eq_of_lt hs,
    Nat.div_eq_of_lt hs'] at hdiv
  rw [Nat.mul_add_mod, Nat.mul_add_mod, Nat.mod_eq_of_lt hs, Nat.mod_eq_of_lt hs'] at hmod
  omega

theorem once_of_fits {R : MixInput} (hfits : Fits R) {t k : ℕ} (ht : t < R.nTokens)
    (hk : k < R.nExpertUsed) (hvalid : (cellPool R t k).isSome) :
    ∃! x, IsCell (buildMixPlan R) x (t, k) := by
  have htiles := tiles_of_fits hfits
  have hcount : (buildMixPlan R).scatter.count (t, k) = 1 := by
    rw [count_scatter, if_pos ⟨ht, hk, hvalid⟩]
  have hmem : (t, k) ∈ (buildMixPlan R).scatter := List.count_pos_iff.mp (by omega)
  obtain ⟨j, hj, hcell⟩ := List.getElem_of_mem hmem
  obtain ⟨r, hr, hlo, hhi⟩ := htiles.covers (Nat.zero_le j) hj
  obtain ⟨i, hi, rfl⟩ := List.getElem_of_mem hr
  have harea : ∀ r : MixRound, area r = r.nActive * r.width := fun _ => rfl
  rw [harea] at hhi
  obtain ⟨a, ha, l, hl, hplace⟩ := exists_place (w := (toldRounds (buildMixPlan R))[i].width)
    (n := (toldRounds (buildMixPlan R))[i].nActive) (j := j - (toldRounds (buildMixPlan R))[i].off)
    (by omega)
  refine ⟨(i, a, l), ⟨hi, ha, hl, ?_⟩, ?_⟩
  · have hidx : (toldRounds (buildMixPlan R))[i].off +
        a * (toldRounds (buildMixPlan R))[i].width + l = j := by omega
    rw [scat, hidx, List.getD_eq_getElem _ _ hj, hcell]
  · rintro ⟨i', a', l'⟩ ⟨hi', ha', hl', hcell'⟩
    simp only at hi' ha' hl' hcell'
    have hlt := cell_lt hfits (List.getElem_mem hi') ha' hl'
    rw [scat, List.getD_eq_getElem _ _ hlt, ← hcell] at hcell'
    have hsame := (List.Nodup.getElem_inj_iff (scatter_nodup R)).mp hcell'
    have hrow := Nat.mul_le_mul_right (toldRounds (buildMixPlan R))[i'].width (Nat.succ_le_of_lt ha')
    rw [Nat.succ_mul] at hrow
    have hround : i' = i := by
      refine htiles.index_unique hi' hi (c := j) ⟨by omega, ?_⟩ ⟨hlo, by rw [harea]; exact hhi⟩
      rw [harea]
      omega
    subst hround
    have hplace : a' * (toldRounds (buildMixPlan R))[i'].width + l' =
        a * (toldRounds (buildMixPlan R))[i'].width + l := by omega
    obtain ⟨rfl, rfl⟩ := place_unique hl' hl hplace
    rfl

/-- The plan covers the valid cells exactly when its offsets and its number of rounds fit. -/
theorem exactCover_buildMixPlan {R : MixInput} : ExactCover R (buildMixPlan R) ↔ Fits R := by
  constructor
  · exact fun h => fits_of_tiles h.spans
  · intro hfits
    refine ⟨tiles_of_fits hfits, by rw [ids_eq, List.length_map],
      fun r hr => rectangle_of_fits hfits hr, fun r hr a ha s hs => valid_of_fits hfits hr ha hs, ?_⟩
    exact fun t ht k hk hvalid => once_of_fits hfits ht hk hvalid

theorem fits_routing (R : Routing) : Fits (R : MixInput) := by
  have hle := length_planCells_le (R : MixInput)
  rw [← scatter_planCells, length_scatter] at hle
  have hcells := R.cells_lt
  refine ⟨?_, ?_⟩
  · have hlen := List.length_le_sum_of_one_le ((allPeels (R : MixInput)).map (Peel.size R)) (by
      intro n hn
      obtain ⟨x, hx, rfl⟩ := List.mem_map.mp hn
      exact size_pos hx)
    rw [List.length_map] at hlen
    omega
  · have hsub : ((allPeels (R : MixInput)).map (Peel.size R)).dropLast.sum ≤
        ((allPeels (R : MixInput)).map (Peel.size R)).sum := (List.dropLast_sublist _).sum_le_sum (by simp)
    omega

/-- `build_mix_plan` returns a plan that takes every valid cell exactly once if the counter of
`peel_bounds`, the offsets and the number of rounds fit, and only then. -/
theorem mixPlan_cover_iff (R : MixInput) :
    (∃ fuel o, mixPlanWithin fuel R = some o ∧ ExactCover R o) ↔
      (R.nExpertUsed + 1 < 2 ^ 32 ∨ R.nTokens = 0 ∨ R.nPools = 0) ∧ Fits R := by
  obtain ⟨hplan, hreturns⟩ := mixPlanWithin_iff R
  rw [← hreturns, ← exactCover_buildMixPlan]
  constructor
  · rintro ⟨fuel, o, hsome, hcover⟩
    exact ⟨⟨fuel, o, hsome⟩, hplan fuel o hsome ▸ hcover⟩
  · rintro ⟨⟨fuel, o, hsome⟩, hcover⟩
    exact ⟨fuel, o, hsome, (hplan fuel o hsome).symm ▸ hcover⟩

/-- A pool that every token hits equally often has one round, of all tokens. -/
theorem peels_uniform {R : MixInput} {p c : ℕ} (htok : 0 < R.nTokens) (hc : 0 < c)
    (h : ∀ t < R.nTokens, (poolHits R).count p t = c) :
    peels p 0 (peelBounds R (poolHits R) p) = [⟨p, 0, c⟩] ∧
      activeToks R p c = List.range R.nTokens := by
  have hmem : c ∈ peelBounds R (poolHits R) p :=
    h 0 htok ▸ (count_mem_peelBounds R p htok).resolve_left (by rw [h 0 htok]; omega)
  have hall : ∀ d ∈ peelBounds R (poolHits R) p, d = c := by
    intro d hd
    obtain ⟨t, ht⟩ := List.exists_mem_of_ne_nil _ (activeToks_ne_nil hd)
    simp only [peelBounds, List.mem_filter, decide_eq_true_eq] at hd
    obtain ⟨u, hu, hcount⟩ := List.countP_pos_iff.mp (Nat.pos_of_ne_zero hd.2.2)
    have hcount' : (poolHits R).count p u = d := by simpa using hcount
    rw [← hcount', h u (List.mem_range.mp hu)]
  have hbounds : peelBounds R (poolHits R) p = [c] := by
    have hpair := peelBounds_pairwise R (poolHits R) p
    cases hl : peelBounds R (poolHits R) p with
    | nil => simp [hl] at hmem
    | cons d ds =>
      rw [hl] at hall hpair
      obtain rfl := hall d (by simp)
      cases ds with
      | nil => rfl
      | cons e es =>
        have hlt := (List.pairwise_cons.mp hpair).1 e (by simp)
        have heq := hall e (by simp)
        omega
  refine ⟨by rw [hbounds]; rfl, ?_⟩
  rw [activeToks, List.filter_eq_self]
  intro t ht
  simp [h t (List.mem_range.mp ht)]

/-- Three slots a token, the last one in the second pool. -/
def wide (n : ℕ) : MixInput where
  ids i := if i % 3 = 2 then 1 else 0
  nExpertUsed := 3
  nTokens := n
  expertPool e := e
  nExpert := 2
  nPools := 2

theorem count_wide {n t : ℕ} (ht : t < (wide n).nTokens) :
    (poolHits (wide n)).count 0 t = 2 ∧ (poolHits (wide n)).count 1 t = 1 := by
  have hids : ∀ k < 3, idAt (wide n) t k = if k = 2 then 1 else 0 := by
    intro k hk
    have hmod : (t * 3 + k) % 3 = k := by omega
    simp [idAt, wide, hmod]
  have hcell : ∀ k < 3, cellPool (wide n) t k = if k = 2 then some 1 else some 0 := by
    intro k hk
    rw [cellPool, hids k hk]
    by_cases h : k = 2
    · simp [h, wide]
    · simp [h, wide]
  have hrange : List.range (wide n).nExpertUsed = [0, 1, 2] := rfl
  rw [← length_ksOf, ← length_ksOf, ksOf_eq _ _ ht, ksOf_eq _ _ ht, hrange]
  simp [hcell]

theorem offsets_wide {n : ℕ} (hn : 0 < n) :
    ((allPeels (wide n)).map (Peel.size (wide n))).dropLast.sum = n * 2 := by
  have hzero := peels_uniform (R := wide n) (p := 0) hn (by decide) fun t ht => (count_wide ht).1
  have hone := peels_uniform (R := wide n) (p := 1) hn (by decide) fun t ht => (count_wide ht).2
  have hpeels : allPeels (wide n) = [⟨0, 0, 2⟩, ⟨1, 0, 1⟩] := by
    have hrange : List.range (wide n).nPools = [0, 1] := rfl
    rw [allPeels, hrange, List.flatMap_cons, List.flatMap_cons, hzero.1, hone.1]
    rfl
  have hlen : (List.range (wide n).nTokens).length = n := List.length_range
  simp [hpeels, Peel.size, hzero.2, hlen]

/-- With `2 ^ 31` tokens the second round starts at cell `2 ^ 32`, told as 0: the two rounds share
the first cells. -/
theorem not_mixPlan_cover_wide : ¬ ∃ fuel o, mixPlanWithin fuel (wide (2 ^ 31)) = some o ∧
    ExactCover (wide (2 ^ 31)) o := by
  rintro ⟨fuel, o, hsome, hcover⟩
  have heq := (mixPlanWithin_iff (wide (2 ^ 31))).1 fuel o hsome
  rw [heq] at hcover
  have hlt := (exactCover_buildMixPlan.mp hcover).offsets
  rw [offsets_wide (by omega)] at hlt
  omega

end MixCover
end StreamMoE
