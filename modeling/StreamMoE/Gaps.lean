import Mathlib.Algebra.GroupWithZero.Nat
import Mathlib.Data.List.Basic
import Mathlib.Data.Nat.Notation

/-! How often a position lies in spans, and the spans between others. -/
namespace StreamMoE
namespace Gaps

section hits

variable {α : Type*} (start len : α → ℕ)

/-- Position `p` lies in the span of `x`. -/
def Covers (x : α) (p : ℕ) : Prop := start x ≤ p ∧ p < start x + len x

instance (x : α) (p : ℕ) : Decidable (Covers start len x p) := inferInstanceAs (Decidable (_ ∧ _))

/-- The number of spans that `p` lies in. -/
def hits (xs : List α) (p : ℕ) : ℕ := xs.countP fun x => decide (Covers start len x p)

variable {start len} {xs ys : List α} {p : ℕ}

@[simp] theorem hits_nil : hits start len [] p = 0 := rfl

theorem hits_cons (x : α) :
    hits start len (x :: xs) p = hits start len xs p + if Covers start len x p then 1 else 0 := by
  simp [hits, List.countP_cons]

@[simp] theorem hits_append : hits start len (xs ++ ys) p = hits start len xs p + hits start len ys p :=
  List.countP_append

theorem hits_flatMap {β : Type*} (f : β → List α) (bs : List β) :
    hits start len (bs.flatMap f) p = (bs.map fun b => hits start len (f b) p).sum := by
  simp [hits, List.countP_flatMap, Function.comp_def]

theorem sum_covers :
    (xs.map fun x => if Covers start len x p then 1 else 0).sum = hits start len xs p := by
  induction xs with
  | nil => rfl
  | cons x xs ih => rw [List.map_cons, List.sum_cons, ih, hits_cons, Nat.add_comm]

theorem hits_eq_zero : hits start len xs p = 0 ↔ ∀ x ∈ xs, ¬ Covers start len x p := by
  simp [hits, List.countP_eq_zero]

theorem hits_pos : 0 < hits start len xs p ↔ ∃ x ∈ xs, Covers start len x p := by
  simp [hits, List.countP_pos_iff]

/-- Spans that hold a position hit once are the same. -/
theorem eq_of_hits (h : hits start len xs p = 1) {x y : α} (hx : x ∈ xs) (hy : y ∈ xs)
    (hxp : Covers start len x p) (hyp : Covers start len y p) : x = y := by
  rw [hits, List.countP_eq_length_filter, List.length_eq_one_iff] at h
  obtain ⟨z, hz⟩ := h
  have hmem : ∀ w ∈ xs, Covers start len w p → w = z := by
    intro w hw hwp
    have hfilter : w ∈ xs.filter fun x => decide (Covers start len x p) :=
      List.mem_filter.mpr ⟨hw, by simpa using hwp⟩
    rw [hz] at hfilter
    exact List.mem_singleton.mp hfilter
  rw [hmem x hx hxp, hmem y hy hyp]

/-- Spans that no position lies in twice do not meet. -/
theorem pairwise_of_hits (h : ∀ p, hits start len xs p ≤ 1) :
    xs.Pairwise fun x y => ∀ p, ¬ (Covers start len x p ∧ Covers start len y p) := by
  induction xs with
  | nil => exact .nil
  | cons x xs ih =>
    refine List.pairwise_cons.mpr ⟨fun y hy p hboth => ?_, ih fun p => ?_⟩
    · have hle := h p
      have hpos := hits_pos.mpr ⟨y, hy, hboth.2⟩
      rw [hits_cons, if_pos hboth.1] at hle
      omega
    · have hle := h p
      rw [hits_cons] at hle
      omega

/-- Spans that follow one another: one hit inside each. -/
theorem hits_of_ordered (h : xs.Pairwise fun x y => start x + len x ≤ start y) :
    hits start len xs p = if ∃ x ∈ xs, Covers start len x p then 1 else 0 := by
  induction xs with
  | nil => simp
  | cons x xs ih =>
    obtain ⟨hx, hxs⟩ := List.pairwise_cons.mp h
    rw [hits_cons, ih hxs]
    by_cases hin : Covers start len x p
    · have hnone : ¬ ∃ y ∈ xs, Covers start len y p := by
        rintro ⟨y, hy, hyp⟩
        have hle := hx y hy
        unfold Covers at hin hyp
        omega
      simp [hin, hnone]
    · simp [hin]

end hits

section gaps

/-- The spans, as start and length, that are left from `cursor` to `stop` between pairs of start and
end. -/
def gaps (stop : ℕ) : ℕ → List (ℕ × ℕ) → List (ℕ × ℕ)
  | cursor, [] => if cursor < stop then [(cursor, stop - cursor)] else []
  | cursor, c :: cs =>
      (if c.1 > cursor then [(cursor, c.1 - cursor)] else []) ++ gaps stop (max cursor c.2) cs

theorem hits_gaps {stop p : ℕ} (cs : List (ℕ × ℕ)) (cursor : ℕ) (hsorted : cs.Pairwise fun c d => c.1 ≤ d.1)
    (hcs : ∀ c ∈ cs, c.1 ≤ c.2 ∧ c.2 ≤ stop) :
    hits Prod.fst Prod.snd (gaps stop cursor cs) p =
      if cursor ≤ p ∧ p < stop ∧ ∀ c ∈ cs, ¬ (c.1 ≤ p ∧ p < c.2) then 1 else 0 := by
  induction cs generalizing cursor with
  | nil =>
    unfold gaps
    split
    · rw [hits_cons, hits_nil, Nat.zero_add]
      refine if_congr ?_ rfl rfl
      simp only [Covers, List.not_mem_nil, false_imp_iff, implies_true, and_true]
      omega
    · rw [hits_nil, if_neg]
      omega
  | cons c cs ih =>
    obtain ⟨hc, hsorted⟩ := List.pairwise_cons.mp hsorted
    obtain ⟨⟨hle, hstop⟩, hcs⟩ := List.forall_mem_cons.mp hcs
    have hfirst : hits Prod.fst Prod.snd (if c.1 > cursor then [(cursor, c.1 - cursor)] else []) p =
        if cursor ≤ p ∧ p < c.1 then 1 else 0 := by
      split
      · rw [hits_cons, hits_nil, Nat.zero_add]
        refine if_congr ?_ rfl rfl
        simp only [Covers]
        omega
      · rw [hits_nil, if_neg]
        omega
    rw [gaps, hits_append, hfirst, ih _ hsorted hcs]
    simp only [List.forall_mem_cons]
    by_cases hbefore : p < c.1
    · have hlater : ∀ d ∈ cs, ¬ (d.1 ≤ p ∧ p < d.2) := by
        intro d hd
        have hge := hc d hd
        omega
      rw [if_neg (by omega : ¬ (max cursor c.2 ≤ p ∧ _))]
      refine if_congr ?_ rfl rfl
      constructor
      · exact fun h => ⟨h.1, by omega, by omega, hlater⟩
      · exact fun h => ⟨h.1, hbefore⟩
    · rw [if_neg (by omega), Nat.zero_add]
      refine if_congr ?_ rfl rfl
      constructor
      · exact fun h => ⟨by omega, h.2.1, by omega, h.2.2⟩
      · exact fun h => ⟨by omega, h.2.1, h.2.2.2⟩

end gaps

end Gaps
end StreamMoE
