import StreamMoE.ScatterPlan

/-! The search of `build_scatter_plan`: which run `best_run` takes out of the remaining values, and
what its `uint32_t` additions do to that. -/
namespace StreamMoE
namespace ScatterSearch

open Scatter

/-- `b` is at least as good as `r`: longer, or as long with a smaller step, or with the same step and
no later start. -/
def Prefer (b r : Run) : Prop :=
  r.len < b.len ∨ (r.len = b.len ∧ (b.delta < r.delta ∨ (b.delta = r.delta ∧ b.start ≤ r.start)))

/-- The run that every other run in the set is compared to. -/
structure Best (inSet : ℕ → Bool) (b : Run) : Prop where
  mem : InSet inSet b
  prefer : ∀ r, InSet inSet r → Prefer b r

theorem Best.unique {inSet : ℕ → Bool} {b b' : Run} (h : Best inSet b) (h' : Best inSet b') :
    b = b' := by
  have h₁ := h.prefer b' h'.mem
  have h₂ := h'.prefer b h.mem
  unfold Prefer at h₁ h₂
  cases b
  cases b'
  simp only [Run.mk.injEq] at *
  omega

/-- The remaining values: the ascending list and the table say the same. -/
structure Remaining (nT : ℕ) (inSet : ℕ → Bool) (rem : List ℕ) : Prop where
  mem : ∀ v, v ∈ rem ↔ inSet v = true
  sorted : rem.Pairwise (· < ·)
  lt : ∀ v ∈ rem, v < nT
  nonempty : rem ≠ []

/-- No step of `delta` from one value to another wraps around `uint32_t`. -/
def Unwrapped (inSet : ℕ → Bool) (delta : ℕ) : Prop :=
  ∀ u v, inSet u = true → inSet v = true → u + delta ≠ v + 2 ^ 32

section chain

variable {inSet : ℕ → Bool} {nT delta : ℕ}

/-- Without wraps a chain is followed to its end. -/
theorem chainLen_spec (hlt : ∀ v, inSet v = true → v < nT) (hnT : nT < 2 ^ 32)
    (hw : Unwrapped inSet delta) (hpos : 0 < delta) (hdelta : delta < 2 ^ 32) (fuel : ℕ) :
    ∀ u, nT ≤ u + fuel → (∀ i < chainLen inSet nT delta fuel u, inSet (u + i * delta) = true) ∧
      inSet (u + chainLen inSet nT delta fuel u * delta) = false := by
  have hout : ∀ v, nT ≤ v → inSet v = false := by
    intro v hv
    by_contra hin
    have hless := hlt v (by simpa using hin)
    omega
  induction fuel with
  | zero =>
    intro u hu
    simpa [chainLen] using hout u hu
  | succ fuel ih =>
    intro u hu
    rw [chainLen]
    by_cases h : u < nT ∧ inSet u = true
    · rw [if_pos h]
      by_cases hwrap : u + delta < 2 ^ 32
      · rw [Nat.mod_eq_of_lt hwrap]
        obtain ⟨hin, hend⟩ := ih (u + delta) (by omega)
        refine ⟨?_, ?_⟩
        · intro i hi
          cases i with
          | zero => simpa using h.2
          | succ i =>
            have hnext := hin i (by omega)
            rwa [Nat.succ_mul, Nat.add_comm (i * delta), ← Nat.add_assoc]
        · rw [Nat.add_mul, Nat.one_mul, ← Nat.add_assoc]
          exact hend
      · have hmod : (u + delta) % 2 ^ 32 = u + delta - 2 ^ 32 := by omega
        have hnext : inSet ((u + delta) % 2 ^ 32) = false := by
          by_contra hin
          have hne := hw u _ h.2 (by simpa using hin)
          omega
        have hzero : chainLen inSet nT delta fuel ((u + delta) % 2 ^ 32) = 0 := by
          cases fuel with
          | zero => rfl
          | succ fuel => rw [chainLen, hnext, if_neg fun hin => Bool.false_ne_true hin.2]
        rw [hzero]
        refine ⟨?_, hout _ (by omega)⟩
        intro i hi
        have hi0 : i = 0 := by omega
        simpa [hi0] using h.2
    · rw [if_neg h]
      refine ⟨by simp, ?_⟩
      by_cases hu' : u < nT
      · simpa [hu'] using h
      · simpa using hout u (by omega)

def Starts (inSet : ℕ → Bool) (delta v : ℕ) : Prop := ¬ (delta ≤ v ∧ inSet (v - delta) = true)

/-- A run that stays in the set is not longer than the chain through its start. -/
theorem le_chainLen (hlt : ∀ v, inSet v = true → v < nT) (hnT : nT < 2 ^ 32)
    (hw : Unwrapped inSet delta) (hpos : 0 < delta) (hdelta : delta < 2 ^ 32) {u n : ℕ}
    (h : ∀ i < n, inSet (u + i * delta) = true) : n ≤ chainLen inSet nT delta nT u := by
  have hend := (chainLen_spec hlt hnT hw hpos hdelta nT u (by omega)).2
  by_contra hle
  rw [h _ (by omega)] at hend
  cases hend

/-- Every run belongs to the chain of a start, which is as long only when the run begins there. -/
theorem exists_start (hlt : ∀ v, inSet v = true → v < nT) (hnT : nT < 2 ^ 32)
    (hw : Unwrapped inSet delta) (hpos : 0 < delta) (hdelta : delta < 2 ^ 32) (u : ℕ) :
    ∀ n, 0 < n → (∀ i < n, inSet (u + i * delta) = true) →
      ∃ v ≤ u, inSet v = true ∧ Starts inSet delta v ∧ n ≤ chainLen inSet nT delta nT v ∧
        (n = chainLen inSet nT delta nT v → v = u) := by
  induction u using Nat.strong_induction_on with
  | _ u ih =>
    intro n hn h
    by_cases hstart : delta ≤ u ∧ inSet (u - delta) = true
    · have hback : ∀ i < n + 1, inSet (u - delta + i * delta) = true := by
        intro i hi
        cases i with
        | zero => simpa using hstart.2
        | succ i =>
          have hstep : u - delta + (i + 1) * delta = u + i * delta := by
            rw [Nat.succ_mul]
            omega
          rw [hstep]
          exact h i (by omega)
      obtain ⟨v, hv, hin, hs, hle, _⟩ := ih (u - delta) (by omega) (n + 1) (by omega) hback
      exact ⟨v, by omega, hin, hs, by omega, by omega⟩
    · have hin := h 0 hn
      exact ⟨u, Nat.le_refl _, by simpa using hin, hstart,
        le_chainLen hlt hnT hw hpos hdelta h, fun _ => rfl⟩

end chain

section sweep

variable {inSet : ℕ → Bool} {nT delta : ℕ}

/-- What the sweep has found among the values it has seen. -/
structure Swept (inSet : ℕ → Bool) (nT delta : ℕ) (seen : List ℕ) (best : ℕ × ℕ) : Prop where
  found : best = (0, 0) ∨ (best.2 ∈ seen ∧ chainLen inSet nT delta nT best.2 = best.1)
  prefer : ∀ v ∈ seen, Starts inSet delta v → chainLen inSet nT delta nT v < best.1 ∨
    (chainLen inSet nT delta nT v = best.1 ∧ best.2 ≤ v)

theorem Swept.step {seen : List ℕ} {best : ℕ × ℕ} {v : ℕ} (h : Swept inSet nT delta seen best)
    (hv : ∀ u ∈ seen, u < v) : Swept inSet nT delta (seen ++ [v]) (sweepStep inSet nT delta best v) := by
  have hkeep : best = (0, 0) ∨
      (best.2 ∈ seen ++ [v] ∧ chainLen inSet nT delta nT best.2 = best.1) :=
    h.found.imp_right fun hf => ⟨by simp [hf.1], hf.2⟩
  unfold sweepStep
  by_cases hskip : delta ≤ v ∧ inSet (v - delta) = true
  · rw [if_pos hskip]
    refine ⟨hkeep, ?_⟩
    intro u hu hs
    rcases List.mem_append.mp hu with hu | hu
    · exact h.prefer u hu hs
    · obtain rfl := List.mem_singleton.mp hu
      exact absurd hskip hs
  · rw [if_neg hskip]
    by_cases hlonger : best.1 < chainLen inSet nT delta nT v
    · rw [if_pos hlonger]
      refine ⟨.inr ⟨by simp, rfl⟩, ?_⟩
      intro u hu hs
      rcases List.mem_append.mp hu with hu | hu
      · have hle := h.prefer u hu hs
        simp only
        omega
      · obtain rfl := List.mem_singleton.mp hu
        exact .inr ⟨rfl, Nat.le_refl _⟩
    · rw [if_neg hlonger]
      refine ⟨hkeep, ?_⟩
      intro u hu hs
      rcases List.mem_append.mp hu with hu | hu
      · exact h.prefer u hu hs
      · obtain rfl := List.mem_singleton.mp hu
        have hearlier : best.2 ≤ u := by
          rcases h.found with h0 | hf
          · simp [h0]
          · exact Nat.le_of_lt (hv _ hf.1)
        omega

theorem swept_sweep {rem : List ℕ} (hsorted : rem.Pairwise (· < ·)) :
    Swept inSet nT delta rem (sweep inSet nT delta rem) := by
  have hfold : ∀ l : List ℕ, l.Pairwise (· < ·) →
      Swept inSet nT delta l (l.foldl (sweepStep inSet nT delta) (0, 0)) := by
    intro l
    induction l using List.reverseRecOn with
    | nil => exact fun _ => ⟨.inl rfl, by simp⟩
    | append_singleton l v ih =>
      intro hl
      obtain ⟨hl', _, hlast⟩ := List.pairwise_append.mp hl
      rw [List.foldl_append, List.foldl_cons, List.foldl_nil]
      exact (ih hl').step fun u hu => hlast u hu v (by simp)
  exact hfold rem hsorted

variable {rem : List ℕ} (hrem : Remaining nT inSet rem)
include hrem

theorem Remaining.inSet_lt (v : ℕ) (h : inSet v = true) : v < nT := hrem.lt v ((hrem.mem v).mpr h)

/-- The sweep of one step finds its longest run, and of these the one that starts first. -/
theorem sweep_best (hnT : nT < 2 ^ 32) (hw : Unwrapped inSet delta) (hpos : 0 < delta)
    (hdelta : delta < 2 ^ 32) :
    InSet inSet { len := (sweep inSet nT delta rem).1, delta := delta,
                  start := (sweep inSet nT delta rem).2 } ∧
      ∀ r, InSet inSet r → r.delta = delta → r.len < (sweep inSet nT delta rem).1 ∨
        (r.len = (sweep inSet nT delta rem).1 ∧ (sweep inSet nT delta rem).2 ≤ r.start) := by
  have hsw : Swept inSet nT delta rem (sweep inSet nT delta rem) := swept_sweep hrem.sorted
  have hlt := hrem.inSet_lt
  have hall : ∀ r, InSet inSet r → r.delta = delta → r.len < (sweep inSet nT delta rem).1 ∨
      (r.len = (sweep inSet nT delta rem).1 ∧ (sweep inSet nT delta rem).2 ≤ r.start) := by
    intro r hr hrd
    subst hrd
    obtain ⟨v, hv, hin, hs, hle, heq⟩ := exists_start hlt hnT hw hpos hdelta r.start r.len hr.pos hr.mem
    have hprefer := hsw.prefer v ((hrem.mem v).mpr hin) hs
    omega
  refine ⟨?_, hall⟩
  obtain ⟨v, hv⟩ := List.exists_mem_of_ne_nil rem hrem.nonempty
  have hone : InSet inSet { len := 1, delta := delta, start := v } := by
    refine ⟨Nat.one_pos, hpos, ?_⟩
    intro i hi
    have hi0 : i = 0 := by
      simp only at hi
      omega
    simpa [hi0] using (hrem.mem v).mp hv
  have hge := hall _ hone rfl
  simp only at hge
  refine ⟨by simp only; omega, hpos, ?_⟩
  rcases hsw.found with h0 | ⟨_, hchain⟩
  · rw [h0]
    simp
  · intro i hi
    simp only at hi ⊢
    rw [← hchain] at hi
    exact (chainLen_spec hlt hnT hw hpos hdelta nT _ (by omega)).1 i hi

end sweep

/-- The steps the search can look at do not wrap: those that are not ruled out because a run with a
smaller step is already as long as any run with this step. -/
def NoWrap (inSet : ℕ → Bool) (range : ℕ) : Prop :=
  ∀ delta, 0 < delta → delta ≤ range →
    (∀ r, InSet inSet r → r.delta < delta → r.len < range / delta + 1) → Unwrapped inSet delta

/-- The remaining values lie between the first and the last. -/
structure Bounds (inSet : ℕ → Bool) (minv maxv : ℕ) : Prop where
  min : inSet minv = true
  max : inSet maxv = true
  between : ∀ v, inSet v = true → minv ≤ v ∧ v ≤ maxv

section search

variable {inSet : ℕ → Bool} {nT minv maxv : ℕ} {rem : List ℕ}

theorem Bounds.span (hb : Bounds inSet minv maxv) {r : Run} (hr : InSet inSet r) :
    (r.len - 1) * r.delta ≤ maxv - minv := by
  have hfirst := (hb.between _ (hr.mem 0 hr.pos)).1
  have hlast := (hb.between _ (hr.mem (r.len - 1) (Nat.sub_lt hr.pos Nat.one_pos))).2
  rw [Nat.zero_mul, Nat.add_zero] at hfirst
  omega

theorem Bounds.len_le (hb : Bounds inSet minv maxv) {r : Run} (hr : InSet inSet r) :
    r.len ≤ (maxv - minv) / r.delta + 1 := by
  have hdiv := (Nat.le_div_iff_mul_le hr.delta).mpr (hb.span hr)
  omega

theorem inSet_pair (hb : Bounds inSet minv maxv) (h : minv < maxv) :
    InSet inSet { len := 2, delta := maxv - minv, start := minv } := by
  refine ⟨Nat.succ_pos 1, by simp only; omega, ?_⟩
  intro i hi
  simp only at hi ⊢
  have hi2 : i = 0 ∨ i = 1 := by omega
  rcases hi2 with rfl | rfl
  · simpa using hb.min
  · rw [Nat.one_mul, Nat.add_sub_cancel' (Nat.le_of_lt h)]
    exact hb.max

/-- A run as long as the list takes all values, so that it spans them. -/
theorem span_of_full (hrem : Remaining nT inSet rem) (hb : Bounds inSet minv maxv) {r : Run}
    (hr : InSet inSet r) (hfull : r.len = rem.length) : maxv - minv ≤ (r.len - 1) * r.delta := by
  have hsub : runValues r ⊆ rem := by
    intro v hv
    obtain ⟨i, hi, rfl⟩ := mem_runValues.mp hv
    exact (hrem.mem _).mpr (hr.mem i hi)
  have hperm := (List.subperm_of_subset (runValues_nodup hr.delta) hsub).perm_of_length_le
    (by rw [length_runValues]; omega)
  obtain ⟨i, hi, hmin⟩ := mem_runValues.mp (hperm.mem_iff.mpr ((hrem.mem _).mpr hb.min))
  obtain ⟨j, hj, hmax⟩ := mem_runValues.mp (hperm.mem_iff.mpr ((hrem.mem _).mpr hb.max))
  have hmul : j * r.delta ≤ (r.len - 1) * r.delta := Nat.mul_le_mul_right _ (by omega)
  omega

/-- What the loop over the steps has established when it comes to `delta`. -/
structure Searched (inSet : ℕ → Bool) (minv delta : ℕ) (b : Run) : Prop where
  mem : InSet inSet b
  earlier : b.delta < delta ∨ (delta = 1 ∧ b = { len := 1, delta := 1, start := minv })
  prefer : ∀ r, InSet inSet r → r.delta < delta → Prefer b r

theorem Searched.step (hrem : Remaining nT inSet rem) (hb : Bounds inSet minv maxv)
    (hnT : nT < 2 ^ 32) {delta : ℕ} {b : Run} (hpos : 0 < delta) (hdelta : delta < 2 ^ 32)
    (hw : Unwrapped inSet delta) (h : Searched inSet minv delta b) :
    Searched inSet minv (delta + 1) (better b delta (sweep inSet nT delta rem)) := by
  obtain ⟨hin, hbest⟩ := sweep_best hrem hnT hw hpos hdelta
  have hfirst : minv ≤ (sweep inSet nT delta rem).2 := by
    have hmem := hin.mem 0 hin.pos
    simp only [Nat.zero_mul, Nat.add_zero] at hmem
    exact (hb.between _ hmem).1
  unfold better
  by_cases hcond : b.len < (sweep inSet nT delta rem).1 ∨ ((sweep inSet nT delta rem).1 = b.len ∧
      (delta < b.delta ∨ (delta = b.delta ∧ (sweep inSet nT delta rem).2 < b.start)))
  · have hlonger : b.len < (sweep inSet nT delta rem).1 := by
      rcases hcond with hlt | ⟨_, hge⟩
      · exact hlt
      · rcases h.earlier with hless | ⟨rfl, rfl⟩
        · omega
        · simp only at hge
          omega
    rw [if_pos hcond]
    refine ⟨hin, .inl (Nat.lt_succ_self delta), ?_⟩
    intro r hr hrd
    unfold Prefer
    simp only
    by_cases hsame : r.delta = delta
    · have hle := hbest r hr hsame
      omega
    · have hle := h.prefer r hr (by omega)
      unfold Prefer at hle
      omega
  · rw [if_neg hcond]
    refine ⟨h.mem, .inl ?_, ?_⟩
    · rcases h.earlier with hless | ⟨rfl, rfl⟩
      · omega
      · exact Nat.lt_succ_self 1
    · intro r hr hrd
      by_cases hsame : r.delta = delta
      · have hle := hbest r hr hsame
        have hstart : minv ≤ r.start := by
          have hmem := hr.mem 0 hr.pos
          rw [Nat.zero_mul, Nat.add_zero] at hmem
          exact (hb.between _ hmem).1
        unfold Prefer
        rcases h.earlier with hless | ⟨rfl, rfl⟩
        · omega
        · simp only at hcond ⊢
          omega
      · exact h.prefer r hr (by omega)

theorem deltaLoop_best (hrem : Remaining nT inSet rem) (hb : Bounds inSet minv maxv)
    (hnT : nT < 2 ^ 32) (hlt : minv < maxv) (hw : NoWrap inSet (maxv - minv)) (left : ℕ) :
    ∀ (delta : ℕ) (b : Run), delta + left = maxv - minv + 1 → 0 < delta →
      Searched inSet minv delta b →
      Best inSet (deltaLoop inSet rem nT (maxv - minv) rem.length left delta b) := by
  have hmax : maxv < nT := hrem.inSet_lt maxv hb.max
  induction left with
  | zero =>
    intro delta b hdelta hpos h
    rw [deltaLoop]
    refine ⟨h.mem, ?_⟩
    intro r hr
    by_cases hless : r.delta < delta
    · exact h.prefer r hr hless
    · -- a step beyond the range has no second value
      have hpair := h.prefer _ (inSet_pair hb hlt) (by simp only; omega)
      have hle := hb.len_le hr
      rw [Nat.div_eq_of_lt (by omega)] at hle
      unfold Prefer at hpair ⊢
      simp only at hpair
      omega
  | succ left ih =>
    intro delta b hdelta hpos h
    rw [deltaLoop]
    by_cases hprune : (maxv - minv) / delta + 1 ≤ b.len
    · rw [if_pos hprune]
      refine ⟨h.mem, ?_⟩
      intro r hr
      by_cases hless : r.delta < delta
      · exact h.prefer r hr hless
      · have hle := hb.len_le hr
        have hmono : (maxv - minv) / r.delta ≤ (maxv - minv) / delta :=
          Nat.div_le_div_left (Nat.le_of_not_lt hless) hpos
        have hearlier : b.delta < delta := by
          rcases h.earlier with hlt' | ⟨rfl, rfl⟩
          · exact hlt'
          · rw [Nat.div_one] at hprune
            simp only at hprune
            omega
        unfold Prefer
        omega
    · rw [if_neg hprune]
      have hw' := hw delta hpos (by omega) fun r hr hless => by
        have hle := h.prefer r hr hless
        unfold Prefer at hle
        omega
      have hnext := h.step hrem hb hnT hpos (by omega) hw'
      have hfound := (sweep_best hrem hnT hw' hpos (by omega)).1.pos
      simp only at hfound ⊢
      rw [if_neg (by omega)]
      split
      · rename_i hfull
        refine ⟨hnext.mem, ?_⟩
        intro r hr
        by_cases hless : r.delta < delta + 1
        · exact hnext.prefer r hr hless
        · -- all values are in one run already: a larger step cannot take them all
          have hspan := hb.span hr
          have hall := span_of_full hrem hb hnext.mem hfull
          have hstep : (better b delta (sweep inSet nT delta rem)).delta < r.delta := by
            rcases hnext.earlier with hlt' | ⟨h1, _⟩
            · omega
            · omega
          have hless' : r.len < (better b delta (sweep inSet nT delta rem)).len := by
            by_contra hge
            have hmul := Nat.mul_lt_mul_of_pos_left hstep
              (show 0 < (better b delta (sweep inSet nT delta rem)).len - 1 by
                by_contra hzero
                have h0 : (better b delta (sweep inSet nT delta rem)).len - 1 = 0 := by omega
                rw [h0, Nat.zero_mul] at hall
                omega)
            have hle := Nat.mul_le_mul_right r.delta
              (show (better b delta (sweep inSet nT delta rem)).len - 1 ≤ r.len - 1 by omega)
            omega
          exact .inl hless'
      · exact ih (delta + 1) _ (by omega) (by omega) hnext

end search

section greedy

theorem Remaining.bounds {nT minv : ℕ} {inSet : ℕ → Bool} {rem tail : List ℕ}
    (hrem : Remaining nT inSet rem) (hcons : rem = minv :: tail) :
    Bounds inSet minv (tail.getLastD minv) := by
  have hsorted := hrem.sorted
  rw [hcons] at hsorted
  refine ⟨(hrem.mem _).mp (by simp [hcons]), (hrem.mem _).mp ?_, ?_⟩
  · rw [hcons]
    exact List.getLastD_mem_cons
  · intro v hv
    have hmem := (hrem.mem v).mpr hv
    rw [hcons] at hmem
    exact le_getLastD hsorted hmem

/-- The search of one turn of the extraction loop. -/
theorem nextRun_best {nT minv : ℕ} {tail : List ℕ} {s : Tight} (hrem : Remaining nT s.inSet s.rem)
    (hcons : s.rem = minv :: tail) (hnT : nT < 2 ^ 32)
    (hw : NoWrap s.inSet (tail.getLastD minv - minv)) :
    Best s.inSet (nextRun nT s minv (tail.getLastD minv)) := by
  have hb := hrem.bounds hcons
  have hsingle : InSet s.inSet { len := 1, delta := 1, start := minv } := by
    refine ⟨Nat.one_pos, Nat.one_pos, ?_⟩
    intro i hi
    have hi0 : i = 0 := Nat.lt_one_iff.mp hi
    simpa [hi0] using hb.min
  unfold nextRun
  by_cases hone : s.rem.length = 1
  · rw [if_pos hone]
    have hnil : tail = [] := by
      rw [hcons, List.length_cons] at hone
      exact List.eq_nil_of_length_eq_zero (by omega)
    subst hnil
    refine ⟨hsingle, ?_⟩
    intro r hr
    have hle := hb.len_le hr
    have hfirst := (hb.between _ (hr.mem 0 hr.pos)).1
    have hpos := hr.pos
    have hdelta := hr.delta
    simp only [List.getLastD_nil, Nat.sub_self, Nat.zero_div, Nat.zero_mul, Nat.add_zero] at hle hfirst
    unfold Prefer
    simp only
    omega
  · rw [if_neg hone]
    have hlt : minv < tail.getLastD minv := by
      cases htail : tail with
      | nil => simp [hcons, htail] at hone
      | cons a as =>
        have hsorted := hrem.sorted
        rw [hcons] at hsorted
        have hle := (List.pairwise_cons.mp hsorted).1 (tail.getLastD minv) (by
          rw [htail, List.getLastD_cons]
          exact List.getLastD_mem_cons)
        rwa [htail] at hle
    refine deltaLoop_best hrem hb hnT hlt hw _ 1 _ (by omega) Nat.one_pos ⟨hsingle, .inr ⟨rfl, rfl⟩, ?_⟩
    intro r hr hless
    have hdelta := hr.delta
    omega

/-- The set without the values of a run. -/
def without (S : ℕ → Bool) (r : Run) : ℕ → Bool := fun v => S v && !(runValues r).contains v

/-- The runs take a set apart, each the best one of what the runs before it have left. -/
def Greedy (S : ℕ → Bool) : List Run → Prop
  | [] => ∀ v, S v = false
  | r :: rs => Best S r ∧ Greedy (without S r) rs

/-- The runs of a set are determined by the set. -/
theorem Greedy.unique {rs : List Run} : ∀ {S : ℕ → Bool} {rs' : List Run}, Greedy S rs →
    Greedy S rs' → rs = rs' := by
  have hempty : ∀ {S : ℕ → Bool} {r : Run}, Best S r → ¬ ∀ v, S v = false := by
    intro S r hr hall
    have hin := hr.mem.mem 0 hr.mem.pos
    rw [hall] at hin
    cases hin
  induction rs with
  | nil =>
    intro S rs' h h'
    cases rs' with
    | nil => rfl
    | cons r' rs' => exact absurd h (hempty h'.1)
  | cons r rs ih =>
    intro S rs' h h'
    cases rs' with
    | nil => exact absurd h' (hempty h.1)
    | cons r' rs' =>
      obtain rfl := h.1.unique h'.1
      rw [ih h.2 h'.2]

/-- What may remain of a set after some turns. -/
inductive Stage (S : ℕ → Bool) : (ℕ → Bool) → Prop
  | start : Stage S S
  | take {S' : ℕ → Bool} {r : Run} : Stage S S' → Best S' r → Stage S (without S' r)

def NeverWraps (S : ℕ → Bool) : Prop :=
  ∀ S', Stage S S' → ∀ minv maxv, Bounds S' minv maxv → NoWrap S' (maxv - minv)

theorem NeverWraps.without {S : ℕ → Bool} (h : NeverWraps S) {r : Run} (hr : Best S r) :
    NeverWraps (without S r) := by
  have hstage : ∀ {S'}, Stage (ScatterSearch.without S r) S' → Stage S S' := by
    intro S' hs
    induction hs with
    | start => exact .take .start hr
    | take _ hbest ih => exact .take ih hbest
  exact fun S' hs => h S' (hstage hs)

theorem Stage.mem {S S' : ℕ → Bool} (h : Stage S S') {v : ℕ} (hv : S' v = true) : S v = true := by
  induction h with
  | start => exact hv
  | take _ _ ih => exact ih (Bool.and_eq_true_iff.mp hv).1

theorem neverWraps_of_near {S : ℕ → Bool}
    (h : ∀ u v, S u = true → S v = true → u < v + 2 ^ 31) : NeverWraps S := by
  intro S' hs minv maxv hb delta _ hle _ u v hu hv
  have hrange := h maxv minv (hs.mem hb.max) (hs.mem hb.min)
  have hnear := h u v (hs.mem hu) (hs.mem hv)
  omega

def ScatterSeg.run (seg : ScatterSeg) : Run := { len := seg.len, delta := seg.delta, start := seg.dst }

theorem extractLoop_greedy {t : List ℕ} {nT : ℕ} (hnT : nT < 2 ^ 32) (fuel : ℕ) :
    ∀ {vals : List ℕ} {s : Tight}, LoopInv t nT vals s → s.rem.length ≤ fuel → NeverWraps s.inSet →
      ∃ rs, (extractLoop (fun v => t.idxOf v) nT fuel s).segs.map ScatterSeg.run =
        s.segs.map ScatterSeg.run ++ rs ∧ Greedy s.inSet rs := by
  have hnil : ∀ {vals : List ℕ} {s : Tight}, LoopInv t nT vals s → s.rem = [] →
      Greedy s.inSet [] := by
    intro vals s h hrem v
    have hiff := h.mem_rem v
    rw [hrem] at hiff
    simpa using hiff
  induction fuel with
  | zero =>
    intro vals s h hlen _
    exact ⟨[], by simp [extractLoop], hnil h (List.eq_nil_of_length_eq_zero (by omega))⟩
  | succ fuel ih =>
    intro vals s h hlen hw
    rw [extractLoop]
    split
    · rename_i hrem
      exact ⟨[], by simp, hnil h hrem⟩
    · rename_i minv tail hrem
      have hrest : Remaining nT s.inSet s.rem := by
        refine ⟨h.mem_rem, h.sorted, ?_, by simp [hrem]⟩
        exact fun v hv => h.lt v (h.perm.mem_iff.mp (List.mem_append_right _ hv))
      have hb := hrest.bounds hrem
      have hbest := nextRun_best hrest hrem hnT (hw _ .start _ _ hb)
      obtain ⟨h', hless⟩ := inv_extract h hrem hbest.mem
      obtain ⟨rs, hsegs, hgreedy⟩ := ih h' (by omega) (hw.without hbest)
      refine ⟨nextRun nT s minv (tail.getLastD minv) :: rs, ?_, hbest, hgreedy⟩
      dsimp only
      rw [hsegs]
      simp [extract, ScatterSeg.run]

/-- The segments of a plan are the runs of its set of tokens. -/
theorem greedy_segs {t : List ℕ} {nT : ℕ} (hnT : nT < 2 ^ 32) (hlt : ∀ v ∈ t, v < nT)
    (ht : t.Nodup) (hw : NeverWraps fun v => t.contains v) :
    Greedy (fun v => t.contains v) ((buildScatterPlan t nT).segs.map ScatterSeg.run) := by
  by_cases hne : t = []
  · subst hne
    simp [buildScatterPlan, Greedy]
  · obtain ⟨rs, hsegs, hgreedy⟩ := extractLoop_greedy hnT t.length (inv_initial hlt ht)
      (by rw [initialTight, (List.perm_insertionSort (· ≤ ·) t).length_eq]) hw
    rw [buildScatterPlan_of_valid hlt ht hne]
    simp only [tightOf, hsegs]
    simpa [initialTight] using hgreedy

/-- The search takes a longest run, of these one with the smallest step, and of these the one that
starts first, as long as no step it looks at wraps around `uint32_t`; then the segments depend on the
set of the tokens alone. -/
theorem search_best_of_noWrap {nT : ℕ} (hnT : nT < 2 ^ 32) :
    (∀ (s : Tight) (minv : ℕ) (tail : List ℕ), s.rem = minv :: tail → Remaining nT s.inSet s.rem →
      NoWrap s.inSet (tail.getLastD minv - minv) →
        Best s.inSet (nextRun nT s minv (tail.getLastD minv))) ∧
    ∀ t : List ℕ, (∀ v ∈ t, v < nT) → t.Nodup → NeverWraps (fun v => t.contains v) →
      Greedy (fun v => t.contains v) ((buildScatterPlan t nT).segs.map ScatterSeg.run) ∧
      ∀ t' : List ℕ, t'.Nodup → (∀ v, v ∈ t' ↔ v ∈ t) →
        (buildScatterPlan t' nT).segs.map ScatterSeg.run =
          (buildScatterPlan t nT).segs.map ScatterSeg.run := by
  refine ⟨fun s minv tail hcons hrem hw => nextRun_best hrem hcons hnT hw, ?_⟩
  intro t hlt ht hw
  refine ⟨greedy_segs hnT hlt ht hw, ?_⟩
  intro t' ht' hsame
  have hset : (fun v => t'.contains v) = fun v => t.contains v := by
    funext v
    simp [hsame]
  have hgreedy := greedy_segs hnT (fun v hv => hlt v ((hsame v).mp hv)) ht' (hset ▸ hw)
  rw [hset] at hgreedy
  exact hgreedy.unique (greedy_segs hnT hlt ht hw)

/-- Five tokens in two orders. -/
theorem search_best_of_noWrap_five :
    Greedy (fun v => [3, 0, 7, 5, 1].contains v)
        ((buildScatterPlan [3, 0, 7, 5, 1] 8).segs.map ScatterSeg.run) ∧
      (buildScatterPlan [0, 1, 3, 5, 7] 8).segs.map ScatterSeg.run =
        (buildScatterPlan [3, 0, 7, 5, 1] 8).segs.map ScatterSeg.run := by
  have hnear : NeverWraps fun v => [3, 0, 7, 5, 1].contains v := by
    refine neverWraps_of_near ?_
    intro u v hu _
    have hlt : ∀ w ∈ [3, 0, 7, 5, 1], w < 8 := by decide
    have hu' := hlt u (by simpa using hu)
    omega
  have h := (search_best_of_noWrap (by decide : 8 < 2 ^ 32)).2 [3, 0, 7, 5, 1] (by decide)
    (by decide) hnear
  refine ⟨h.1, h.2 [0, 1, 3, 5, 7] (by decide) ?_⟩
  intro v
  simp
  omega

end greedy

section halves

/-- Two tokens half the range of `uint32_t` apart. -/
def halves : Tight :=
  { rem := [0, 2 ^ 31], inSet := fun v => v == 0 || v == 2 ^ 31, order := [], segs := [] }

theorem halves_inSet {v : ℕ} : halves.inSet v = true ↔ v = 0 ∨ v = 2 ^ 31 := by
  simp [halves]

/-- The chain through both never ends: after the second comes the first again. -/
theorem chainLen_halves (fuel : ℕ) :
    chainLen halves.inSet (2 ^ 31 + 1) (2 ^ 31) fuel 0 = fuel ∧
      chainLen halves.inSet (2 ^ 31 + 1) (2 ^ 31) fuel (2 ^ 31) = fuel := by
  induction fuel with
  | zero => exact ⟨rfl, rfl⟩
  | succ fuel ih =>
    have h₀ : 0 < 2 ^ 31 + 1 ∧ halves.inSet 0 = true := ⟨by omega, halves_inSet.mpr (.inl rfl)⟩
    have h₁ : 2 ^ 31 < 2 ^ 31 + 1 ∧ halves.inSet (2 ^ 31) = true :=
      ⟨by omega, halves_inSet.mpr (.inr rfl)⟩
    have hnext₀ : (0 + 2 ^ 31) % 2 ^ 32 = 2 ^ 31 := by omega
    have hnext₁ : (2 ^ 31 + 2 ^ 31) % 2 ^ 32 = 0 := by omega
    rw [chainLen, chainLen, if_pos h₀, if_pos h₁, hnext₀, hnext₁, ih.1, ih.2]
    omega

/-- With a smaller step there are only single values. -/
theorem chainLen_halves_short {delta fuel u : ℕ} (hpos : 0 < delta) (hlt : delta < 2 ^ 31)
    (hu : u = 0 ∨ u = 2 ^ 31) :
    chainLen halves.inSet (2 ^ 31 + 1) delta (fuel + 1) u = 1 := by
  have hmod : (u + delta) % 2 ^ 32 = u + delta := by omega
  have hnext : ¬ (u + delta < 2 ^ 31 + 1 ∧ halves.inSet (u + delta) = true) := by
    rw [halves_inSet]
    omega
  have hzero : chainLen halves.inSet (2 ^ 31 + 1) delta fuel (u + delta) = 0 := by
    cases fuel with
    | zero => rfl
    | succ fuel => rw [chainLen, if_neg hnext]
  rw [chainLen, if_pos ⟨by omega, halves_inSet.mpr hu⟩, hmod, hzero]

theorem sweep_halves {delta : ℕ} (hpos : 0 < delta) (hle : delta ≤ 2 ^ 31) :
    sweep halves.inSet (2 ^ 31 + 1) delta halves.rem =
      if delta = 2 ^ 31 then (2 ^ 31 + 1, 0) else (1, 0) := by
  have hfirst : ¬ (delta ≤ 0 ∧ halves.inSet (0 - delta) = true) := by omega
  have hrem : halves.rem = [0, 2 ^ 31] := rfl
  rw [sweep, hrem, List.foldl_cons, List.foldl_cons, List.foldl_nil, sweepStep, sweepStep, if_neg hfirst]
  by_cases h : delta = 2 ^ 31
  · rw [h, (chainLen_halves _).1, if_pos ⟨Nat.le_refl _, halves_inSet.mpr (.inl (Nat.sub_self _))⟩]
    simp
  · have hsecond : ¬ (delta ≤ 2 ^ 31 ∧ halves.inSet (2 ^ 31 - delta) = true) := by
      rw [halves_inSet]
      omega
    rw [if_neg hsecond, chainLen_halves_short hpos (by omega) (.inl rfl),
      chainLen_halves_short hpos (by omega) (.inr rfl), if_neg h]
    rfl

theorem deltaLoop_halves (left : ℕ) : ∀ delta, delta + left = 2 ^ 31 + 1 → 0 < left → 0 < delta →
    deltaLoop halves.inSet halves.rem (2 ^ 31 + 1) (2 ^ 31) 2 left delta
      { len := 1, delta := 1, start := 0 } = { len := 2 ^ 31 + 1, delta := 2 ^ 31, start := 0 } := by
  induction left with
  | zero => omega
  | succ left ih =>
    intro delta hsum _ hpos
    have hmore : ¬ 2 ^ 31 / delta + 1 ≤ 1 := by
      have hdiv := (Nat.le_div_iff_mul_le hpos (x := 1) (y := 2 ^ 31)).mpr (by omega)
      omega
    rw [deltaLoop, if_neg hmore, sweep_halves hpos (by omega)]
    by_cases h : delta = 2 ^ 31
    · have hleft : left = 0 := by omega
      subst hleft
      simp [h, better, deltaLoop]
    · have hbetter : better { len := 1, delta := 1, start := 0 } delta (1, 0) =
          { len := 1, delta := 1, start := 0 } := by
        rw [better, if_neg (by simp only; omega)]
      simp only [h, if_false, hbetter]
      exact ih (delta + 1) (by omega) (by omega) (by omega)

/-- The walk from the first to the second token does not end, and no length it is given is that of a
run in the set. -/
theorem not_search_best_halves : ∃ (s : Tight) (minv : ℕ) (tail : List ℕ), s.rem = minv :: tail ∧
    Remaining (2 ^ 31 + 1) s.inSet s.rem ∧
    (∀ fuel, chainLen s.inSet (2 ^ 31 + 1) (2 ^ 31) fuel minv = fuel) ∧
    ¬ Best s.inSet (nextRun (2 ^ 31 + 1) s minv (tail.getLastD minv)) := by
  refine ⟨halves, 0, [2 ^ 31], rfl, ⟨?_, ?_, ?_, ?_⟩, fun fuel => (chainLen_halves fuel).1, ?_⟩
  · intro v
    simp [halves]
  · simp [halves]
  · simp [halves]
  · simp [halves]
  · intro h
    have hrun : nextRun (2 ^ 31 + 1) halves 0 ([2 ^ 31].getLastD 0) =
        { len := 2 ^ 31 + 1, delta := 2 ^ 31, start := 0 } := by
      have hlen : halves.rem.length = 2 := rfl
      have hlast : [2 ^ 31].getLastD 0 = 2 ^ 31 := rfl
      rw [nextRun, if_neg (by omega), hlast, bestRun, hlen, Nat.sub_zero]
      exact deltaLoop_halves (2 ^ 31) 1 (by omega) (by omega) (by omega)
    rw [hrun] at h
    have hin := h.mem.mem 2 (by simp only; omega)
    rw [halves_inSet] at hin
    simp only at hin
    omega

end halves

end ScatterSearch
end StreamMoE
