import Mathlib.Algebra.BigOperators.Ring.Finset
import Mathlib.Algebra.Order.BigOperators.Group.Finset
import Mathlib.Algebra.Order.Ring.Defs
import Mathlib.Data.Fintype.BigOperators
import Mathlib.Data.List.FinRange
import Mathlib.Data.List.Sort
import Mathlib.Tactic.Linarith

/-! Largest remainders: of finitely many remainders the `k` greatest are chosen, the earlier of two
equal ones first, and the parts of the chosen ones grow by one. -/
namespace StreamMoE
namespace LargestRemainder

section order

variable {ι K : Type*} [LinearOrder ι] [LinearOrder K] (f : ι → K)

/-- `j` is chosen before `i`. -/
def Before (j i : ι) : Prop := f i < f j ∨ f i = f j ∧ j < i

instance (j i : ι) : Decidable (Before f j i) := inferInstanceAs (Decidable (_ ∨ _))

variable {f}

theorem Before.le {j i : ι} (h : Before f j i) : f i ≤ f j :=
  h.elim le_of_lt fun h => h.1.le

theorem Before.ne {j i : ι} (h : Before f j i) : j ≠ i := by
  rintro rfl
  rcases h with h | h
  · exact lt_irrefl _ h
  · exact lt_irrefl _ h.2

theorem Before.not_swap {j i : ι} (h : Before f j i) : ¬ Before f i j := by
  rintro (h' | h')
  · exact absurd h.le (not_le.mpr h')
  · rcases h with h | h
    · exact absurd h'.1 h.ne'
    · exact lt_asymm h.2 h'.2

/-- A stable sort puts the later of two equal remainders behind. -/
theorem pairwise_orderedInsert {a : ι} {l : List ι} (hl : l.Pairwise (Before f)) (ha : ∀ b ∈ l, a < b) :
    (l.orderedInsert (fun a b => f b ≤ f a) a).Pairwise (Before f) := by
  induction l with
  | nil => simp
  | cons b l ih =>
    obtain ⟨hb, hl'⟩ := List.pairwise_cons.mp hl
    rw [List.orderedInsert_cons]
    split
    · rename_i hle
      refine List.pairwise_cons.mpr ⟨fun c hc => ?_, hl⟩
      have hfc : f c ≤ f a := by
        rcases List.mem_cons.mp hc with rfl | hc
        · exact hle
        · exact (hb c hc).le.trans hle
      rcases hfc.lt_or_eq with hlt | heq
      · exact .inl hlt
      · exact .inr ⟨heq, ha c hc⟩
    · rename_i hlt
      have hrest := ih hl' fun c hc => ha c (List.mem_cons_of_mem _ hc)
      refine List.pairwise_cons.mpr ⟨fun c hc => ?_, hrest⟩
      rcases (List.mem_orderedInsert _).mp hc with rfl | hc
      · exact .inl (not_le.mp hlt)
      · exact hb c hc

theorem pairwise_insertionSort {l : List ι} (hl : l.Pairwise (· < ·)) :
    (l.insertionSort fun a b => f b ≤ f a).Pairwise (Before f) := by
  induction l with
  | nil => simp
  | cons a l ih =>
    obtain ⟨ha, hl⟩ := List.pairwise_cons.mp hl
    rw [List.insertionSort_cons]
    exact pairwise_orderedInsert (ih hl) fun b hb => ha b ((List.mem_insertionSort _).mp hb)

/-- In a sorted list the first `k` are those with fewer than `k` before them. -/
theorem mem_take_iff {l : List ι} (hl : l.Pairwise (Before f)) {i : ι} (hi : i ∈ l) (k : ℕ) :
    i ∈ l.take k ↔ (l.filter fun j => Before f j i).length < k := by
  induction l generalizing k with
  | nil => cases hi
  | cons a l ih =>
    obtain ⟨ha, hl⟩ := List.pairwise_cons.mp hl
    cases k with
    | zero => simp
    | succ k =>
      rw [List.take_succ_cons, List.mem_cons]
      rcases List.mem_cons.mp hi with rfl | hi
      · have hnone : ((i :: l).filter fun j => Before f j i) = [] := by
          refine List.filter_eq_nil_iff.mpr fun j hj => ?_
          rcases List.mem_cons.mp hj with rfl | hj
          · simpa using fun h : Before f j j => h.ne rfl
          · simpa using (ha j hj).not_swap
        simp [hnone]
      · have hne : i ≠ a := (ha i hi).ne.symm
        rw [List.filter_cons_of_pos (by simpa using ha i hi), List.length_cons, Nat.add_lt_add_iff_right,
          ← ih hl hi]
        exact or_iff_right hne

end order

section rank

variable {n : ℕ} {K : Type*} [LinearOrder K] (f : Fin n → K)

/-- How many are chosen before `i`. -/
def rank (i : Fin n) : ℕ := (Finset.univ.filter fun j => Before f j i).card

/-- All indices, the greatest remainder first. -/
def ordered : List (Fin n) := (List.finRange n).insertionSort fun a b => f b ≤ f a

variable {f}

theorem pairwise_ordered : (ordered f).Pairwise (Before f) :=
  pairwise_insertionSort (List.pairwise_lt_finRange n)

theorem ordered_perm : (ordered f).Perm (List.finRange n) := List.perm_insertionSort _ _

@[simp] theorem length_ordered : (ordered f).length = n := by simp [ordered]

theorem mem_ordered (i : Fin n) : i ∈ ordered f := by simp [ordered]

theorem nodup_ordered : (ordered f).Nodup := ordered_perm.nodup_iff.mpr (List.nodup_finRange n)

theorem mem_take_ordered {i : Fin n} {k : ℕ} : i ∈ (ordered f).take k ↔ rank f i < k := by
  rw [mem_take_iff pairwise_ordered (mem_ordered i), (ordered_perm.filter _).length_eq]
  have hcard : rank f i = ((List.finRange n).filter fun j => Before f j i).length := by
    rw [rank, ← List.toFinset_card_of_nodup ((List.nodup_finRange n).filter _)]
    congr 1
    ext j
    simp
  rw [hcard]

theorem card_rank_lt {k : ℕ} (hk : k ≤ n) : (Finset.univ.filter fun i => rank f i < k).card = k := by
  have hset : (Finset.univ.filter fun i => rank f i < k) = ((ordered f).take k).toFinset := by
    ext i
    simp [mem_take_ordered]
  rw [hset, List.toFinset_card_of_nodup (nodup_ordered.sublist (List.take_sublist _ _))]
  simpa using hk

end rank

section share

variable {n : ℕ} {K : Type*} [LinearOrder K]

/-- The parts with one more for the `k` greatest remainders. -/
def share (t : Fin n → ℤ) (f : Fin n → K) (k : ℕ) (i : Fin n) : ℤ :=
  t i + if rank f i < k then 1 else 0

theorem sum_share (t : Fin n → ℤ) (f : Fin n → K) {k : ℕ} (hk : k ≤ n) :
    ∑ i, share t f k i = ∑ i, t i + k := by
  have hsum : ∑ i, share t f k i = ∑ i, t i + ∑ i, if rank f i < k then (1 : ℤ) else 0 :=
    Finset.sum_add_distrib
  rw [hsum, Finset.sum_boole, card_rank_lt hk]

/-- As many units as the remainders make together go to positive remainders only. -/
theorem pos_of_rank_lt [Ring K] [IsStrictOrderedRing K] {f : Fin n → K} {k : ℕ} (hone : ∀ i, f i < 1)
    (hsum : ∑ i, f i = k) {i : Fin n} (hi : rank f i < k) : 0 < f i := by
  by_contra hneg
  have hle : ∀ j, f j ≤ if Before f j i then 1 else 0 := by
    intro j
    split
    · exact (hone j).le
    · rename_i h
      have hfj : f j ≤ f i := not_lt.mp fun hlt => h (.inl hlt)
      exact hfj.trans (not_lt.mp hneg)
  have hcard : ∑ j, f j ≤ (rank f i : K) := by
    refine (Finset.sum_le_sum fun j _ => hle j).trans (le_of_eq ?_)
    rw [Finset.sum_boole, rank]
  rw [hsum, Nat.cast_le] at hcard
  omega

end share

end LargestRemainder
end StreamMoE
