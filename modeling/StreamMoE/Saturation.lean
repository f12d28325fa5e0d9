import Mathlib.Algebra.Order.BigOperators.Group.List
import Mathlib.Algebra.Order.Group.Nat
import Mathlib.Data.Nat.Notation
import Mathlib.Logic.Function.Basic

/-! Loops that repeat a pass over a table until a pass changes no entry. -/
namespace StreamMoE
namespace Saturation

variable {β : Type*} [DecidableEq β]

/-- Repeat `pass` until it changes no entry of `keys`, at most `fuel` times. -/
def saturate (keys : List ℕ) (pass : (ℕ → β) → ℕ → β) : ℕ → (ℕ → β) → ℕ → β
  | 0, table => table
  | fuel + 1, table =>
      if keys.all fun i => decide (pass table i = table i) then table
      else saturate keys pass fuel (pass table)

variable {keys : List ℕ} {pass : (ℕ → β) → ℕ → β}

theorem exists_changed {table : ℕ → β} (h : ¬ (keys.all fun i => decide (pass table i = table i)) = true) :
    ∃ i ∈ keys, pass table i ≠ table i := by
  by_contra hnone
  apply h
  rw [List.all_eq_true]
  intro i hi
  by_contra hne
  exact hnone ⟨i, hi, fun heq => hne (decide_eq_true heq)⟩

/-- What a pass preserves the loop preserves. -/
theorem saturate_induction {motive : (ℕ → β) → Prop} (step : ∀ t, motive t → motive (pass t))
    (fuel : ℕ) {table : ℕ → β} (h : motive table) : motive (saturate keys pass fuel table) := by
  induction fuel generalizing table with
  | zero => exact h
  | succ fuel ih =>
    unfold saturate
    split
    · exact h
    · exact ih (step table h)

/-- If every pass that changes something lowers `measure`, enough fuel ends in a table the pass
does not change. -/
theorem saturate_stable {motive : (ℕ → β) → Prop} (measure : (ℕ → β) → ℕ)
    (step : ∀ t, motive t → motive (pass t))
    (lower : ∀ t, motive t → ∀ i ∈ keys, pass t i ≠ t i → measure (pass t) < measure t)
    {fuel : ℕ} {table : ℕ → β} (h : motive table) (hfuel : measure table < fuel) :
    ∀ i ∈ keys, pass (saturate keys pass fuel table) i = saturate keys pass fuel table i := by
  induction fuel generalizing table with
  | zero => exact absurd hfuel (Nat.not_lt_zero _)
  | succ fuel ih =>
    unfold saturate
    split
    · rename_i hall
      intro i hi
      exact of_decide_eq_true (List.all_eq_true.mp hall i hi)
    · rename_i hall
      obtain ⟨i, hi, hne⟩ := exists_changed hall
      have hlt := lower table h i hi hne
      exact ih (step table h) (by omega)

theorem saturate_of_fixed {table : ℕ → β} (h : pass table = table) (fuel : ℕ) :
    saturate keys pass fuel table = table := by
  induction fuel with
  | zero => rfl
  | succ fuel ih =>
    rw [saturate, h, ih]
    split <;> rfl

section sweep

variable {γ : Type*} {f : (ℕ → γ) → ℕ → γ} {order pre post : List ℕ} {i j : ℕ}

/-- A pass in place: the entries of `order` are rewritten one by one, each from the table so far. -/
def sweep (f : (ℕ → γ) → ℕ → γ) (order : List ℕ) (table : ℕ → γ) : ℕ → γ :=
  order.foldl (fun t i => Function.update t i (f t i)) table

theorem sweep_append_cons (table : ℕ → γ) : sweep f (pre ++ i :: post) table =
    sweep f post (Function.update (sweep f pre table) i (f (sweep f pre table) i)) := by
  rw [sweep, List.foldl_append, List.foldl_cons]
  rfl

theorem sweep_of_not_mem (h : i ∉ order) (table : ℕ → γ) : sweep f order table i = table i := by
  induction order generalizing table with
  | nil => rfl
  | cons j order ih =>
    have hij : i ≠ j := List.ne_of_not_mem_cons h
    have hmem : i ∉ order := List.not_mem_of_not_mem_cons h
    exact (ih hmem _).trans (Function.update_of_ne hij ..)

/-- An entry is made from the new entries before it and the old ones behind it. -/
theorem sweep_apply (h : (pre ++ i :: post).Nodup) (table : ℕ → γ) :
    sweep f (pre ++ i :: post) table i = f (sweep f pre table) i := by
  have hpost : i ∉ post := (List.nodup_cons.mp (List.nodup_append.mp h).2.1).1
  rw [sweep_append_cons, sweep_of_not_mem hpost, Function.update_self]

theorem sweep_of_fixed {table : ℕ → γ} (h : ∀ i ∈ order, f table i = table i) :
    sweep f order table = table := by
  induction order with
  | nil => rfl
  | cons i order ih =>
    have hstep : Function.update table i (f table i) = table := by
      rw [h i List.mem_cons_self, Function.update_eq_self]
    rw [sweep, List.foldl_cons, hstep]
    exact ih fun j hj => h j (List.mem_cons_of_mem i hj)

theorem sweep_induction {motive : (ℕ → γ) → Prop}
    (step : ∀ t i, motive t → motive (Function.update t i (f t i))) {table : ℕ → γ} (h : motive table) :
    motive (sweep f order table) := by
  induction order generalizing table with
  | nil => exact h
  | cons i order ih => exact ih (step table i h)

theorem rank_le_update {rank : γ → ℕ} {t : ℕ → γ} {i : ℕ} (hrise : rank (t i) ≤ rank (f t i)) (j : ℕ) :
    rank (t j) ≤ rank (Function.update t i (f t i) j) := by
  by_cases hji : j = i
  · rw [hji, Function.update_self]
    exact hrise
  · rw [Function.update_of_ne hji]

theorem update_rank_le {rank : γ → ℕ} {K : ℕ} {t : ℕ → γ} {i : ℕ} (ht : ∀ j, rank (t j) ≤ K)
    (hi : rank (f t i) ≤ K) (j : ℕ) : rank (Function.update t i (f t i) j) ≤ K := by
  by_cases hji : j = i
  · rw [hji, Function.update_self]
    exact hi
  · rw [Function.update_of_ne hji]
    exact ht j

/-- A sweep that a second one would leave alone is all that the loop makes. -/
theorem saturate_sweep {f : (ℕ → β) → ℕ → β} {table : ℕ → β}
    (h : ∀ i ∈ keys, f (sweep f keys table) i = sweep f keys table i) (fuel : ℕ) :
    saturate keys (sweep f keys) (fuel + 1) table = sweep f keys table := by
  rw [saturate]
  split
  · rename_i hall
    funext i
    by_cases hi : i ∈ keys
    · exact (of_decide_eq_true (List.all_eq_true.mp hall i hi)).symm
    · exact (sweep_of_not_mem hi table).symm
  · exact saturate_of_fixed (sweep_of_fixed h) fuel

end sweep

section loops

/-- A loop whose body returns the new state and whether anything changed, run to its end. -/
inductive Loops {α : Type*} (body : α → α × Bool) : α → α → Prop
  | last {t : α} : (body t).2 = false → Loops body t (body t).1
  | again {t r : α} : (body t).2 = true → Loops body (body t).1 r → Loops body t r

theorem Loops.unique {α : Type*} {body : α → α × Bool} {t r r' : α} (h : Loops body t r)
    (h' : Loops body t r') : r = r' := by
  induction h with
  | last hstop =>
    cases h' with
    | last => rfl
    | again hgo => exact absurd (hstop.symm.trans hgo) Bool.false_ne_true
  | again hgo _ ih =>
    cases h' with
    | last hstop => exact absurd (hstop.symm.trans hgo) Bool.false_ne_true
    | again _ hrest => exact ih hrest

/-- One entry of a pass in place, with the flag of the pass. -/
def mark (f : (ℕ → β) → ℕ → β) (s : (ℕ → β) × Bool) (i : ℕ) : (ℕ → β) × Bool :=
  (Function.update s.1 i (f s.1 i), s.2 || decide (f s.1 i ≠ s.1 i))

def markedSweep (f : (ℕ → β) → ℕ → β) (order : List ℕ) (table : ℕ → β) : (ℕ → β) × Bool :=
  order.foldl (mark f) (table, false)

variable {f : (ℕ → β) → ℕ → β} {order : List ℕ}

theorem foldl_mark_fst (s : (ℕ → β) × Bool) : (order.foldl (mark f) s).1 = sweep f order s.1 := by
  induction order generalizing s with
  | nil => rfl
  | cons i order ih => exact ih (mark f s i)

theorem foldl_mark_snd (h : order.Nodup) (s : (ℕ → β) × Bool) :
    (order.foldl (mark f) s).2 = true ↔ s.2 = true ∨ ∃ i ∈ order, sweep f order s.1 i ≠ s.1 i := by
  induction order generalizing s with
  | nil => simp
  | cons i order ih =>
    obtain ⟨hi, hnodup⟩ := List.nodup_cons.mp h
    have hsweep : sweep f (i :: order) s.1 = sweep f order (mark f s i).1 := rfl
    have hhead : sweep f (i :: order) s.1 i = f s.1 i := by
      rw [hsweep, sweep_of_not_mem hi]
      exact Function.update_self ..
    have htail : ∀ j ∈ order, (mark f s i).1 j = s.1 j := by
      intro j hj
      have hji : j ≠ i := fun heq => hi (heq ▸ hj)
      exact Function.update_of_ne hji ..
    have hrest : (∃ j ∈ order, sweep f order (mark f s i).1 j ≠ (mark f s i).1 j) ↔
        ∃ j ∈ order, sweep f order (mark f s i).1 j ≠ s.1 j := by
      refine exists_congr fun j => and_congr_right fun hj => ?_
      rw [htail j hj]
    have hcons : (∃ j ∈ i :: order, sweep f (i :: order) s.1 j ≠ s.1 j) ↔
        f s.1 i ≠ s.1 i ∨ ∃ j ∈ order, sweep f order (mark f s i).1 j ≠ s.1 j := by
      rw [← hhead, ← hsweep]
      simp only [List.mem_cons, or_and_right, exists_or, exists_eq_left]
    rw [List.foldl_cons, ih hnodup, hrest, hcons]
    simp [mark, or_assoc]

theorem markedSweep_fst (table : ℕ → β) : (markedSweep f order table).1 = sweep f order table :=
  foldl_mark_fst (table, false)

/-- The flag says whether the pass changed an entry. -/
theorem markedSweep_snd (h : order.Nodup) (table : ℕ → β) :
    (markedSweep f order table).2 = true ↔ ∃ i ∈ order, sweep f order table i ≠ table i := by
  rw [markedSweep, foldl_mark_snd h]
  simp

/-- The loop ends where the bounded one does: after a sweep that a second one would leave alone. -/
theorem loops_sweep (hnodup : order.Nodup) {table : ℕ → β}
    (h : ∀ i ∈ order, f (sweep f order table) i = sweep f order table i) :
    Loops (markedSweep f order) table (sweep f order table) := by
  cases hflag : (markedSweep f order table).2 with
  | false =>
    rw [← markedSweep_fst]
    exact .last hflag
  | true =>
    refine .again hflag ?_
    have hfixed := sweep_of_fixed h
    have hstop : (markedSweep f order (sweep f order table)).2 = false := by
      rw [← Bool.not_eq_true, markedSweep_snd hnodup, hfixed]
      simp
    have hlast := Loops.last hstop
    rw [markedSweep_fst, hfixed] at hlast
    rw [markedSweep_fst]
    exact hlast

/-- What the body preserves the loop preserves. -/
theorem Loops.induction {α : Type*} {body : α → α × Bool} {motive : α → Prop}
    (step : ∀ t, motive t → motive (body t).1) {t r : α} (h : Loops body t r) (ht : motive t) : motive r := by
  induction h with
  | last => exact step _ ht
  | again _ _ ih => exact ih (step _ ht)

/-- It ends where the bounded one does when every sweep that changes something lowers `measure`. -/
theorem loops_saturate (hnodup : order.Nodup) {motive : (ℕ → β) → Prop} (measure : (ℕ → β) → ℕ)
    (step : ∀ t, motive t → motive (sweep f order t))
    (lower : ∀ t, motive t → ∀ i ∈ order, sweep f order t i ≠ t i → measure (sweep f order t) < measure t)
    {fuel : ℕ} {table : ℕ → β} (h : motive table) (hfuel : measure table < fuel) :
    Loops (markedSweep f order) table (saturate order (sweep f order) fuel table) := by
  induction fuel generalizing table with
  | zero => exact absurd hfuel (Nat.not_lt_zero _)
  | succ fuel ih =>
    rw [saturate]
    split
    · rename_i hall
      have hsame : ∀ i ∈ order, sweep f order table i = table i :=
        fun i hi => of_decide_eq_true (List.all_eq_true.mp hall i hi)
      have hfixed : sweep f order table = table := by
        funext i
        by_cases hi : i ∈ order
        · exact hsame i hi
        · exact sweep_of_not_mem hi table
      have hstop : (markedSweep f order table).2 = false := by
        rw [← Bool.not_eq_true, markedSweep_snd hnodup]
        rintro ⟨i, hi, hne⟩
        exact hne (hsame i hi)
      have hlast := Loops.last hstop
      rw [markedSweep_fst, hfixed] at hlast
      exact hlast
    · rename_i hall
      obtain ⟨i, hi, hne⟩ := exists_changed hall
      have hlt := lower table h i hi hne
      have hrest := @ih (sweep f order table) (step table h) (by omega)
      rw [← markedSweep_fst] at hrest ⊢
      exact .again ((markedSweep_snd hnodup table).mpr ⟨i, hi, hne⟩) hrest

end loops

section rising

variable {f : (ℕ → β) → ℕ → β} {order : List ℕ} {rank : β → ℕ} {K : ℕ}

/-- A loop whose entries only rise, and not above what the table has, comes to an end. -/
theorem exists_loops (hnodup : order.Nodup) (hinj : Function.Injective rank)
    (hrise : ∀ t i, rank (t i) ≤ rank (f t i))
    (hbound : ∀ t i, (∀ j, rank (t j) ≤ K) → rank (f t i) ≤ K) {table : ℕ → β}
    (h : ∀ i, rank (table i) ≤ K) : ∃ r, Loops (markedSweep f order) table r := by
  have hkeep : ∀ t, (∀ i, rank (t i) ≤ K) → ∀ i, rank (sweep f order t i) ≤ K := fun t =>
    sweep_induction (motive := fun t => ∀ i, rank (t i) ≤ K) fun t i ht => update_rank_le ht (hbound t i ht)
  have hgrow : ∀ t i, rank (t i) ≤ rank (sweep f order t i) := fun t =>
    sweep_induction (motive := fun t' => ∀ i, rank (t i) ≤ rank (t' i))
      (fun t' j ht' i => (ht' i).trans (rank_le_update (hrise t' j) i)) fun _ => Nat.le_refl _
  refine ⟨_, loops_saturate hnodup (fun t => (order.map fun i => K - rank (t i)).sum) hkeep ?_ h
    (Nat.lt_succ_self _)⟩
  intro t ht i hi hne
  have hlt := Nat.lt_of_le_of_ne (hgrow t i) fun heq => hne (hinj heq).symm
  have hle := hkeep t ht i
  refine List.sum_lt_sum _ _ (fun j _ => Nat.sub_le_sub_left (hgrow t j) K) ⟨i, hi, ?_⟩
  omega

end rising

end Saturation
end StreamMoE
