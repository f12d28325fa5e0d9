import Mathlib.Data.Nat.Notation
import Mathlib.Logic.Basic
import Mathlib.Logic.Function.Basic

/-! Named buffers that are written run by run, with a record of the writes, and buffers of columns of
equal length. -/
namespace StreamMoE
namespace Buffers

variable {B A : Type*}

/-- A run of `len` elements from `off` on. -/
structure Write (B : Type*) where
  buf : B
  off : ℕ
  len : ℕ
  deriving DecidableEq, Repr

structure State (B A : Type*) where
  mem : B → ℕ → A
  writes : List (Write B) := []

/-- Every write ends where its buffer has room. -/
def Inside (room : B → ℕ → Prop) (ws : List (Write B)) : Prop := ∀ w ∈ ws, room w.buf (w.off + w.len)

section loops

variable {room : B → ℕ → Prop}

theorem inside_nil : Inside room [] := fun _ h => absurd h List.not_mem_nil

/-- A loop of writes stays inside if every turn does. -/
theorem inside_foldl {α : Type*} (f : State B A → α → State B A) (l : List α)
    (hstep : ∀ st, ∀ a ∈ l, Inside room st.writes → Inside room (f st a).writes) {st : State B A}
    (h : Inside room st.writes) : Inside room (l.foldl f st).writes := by
  induction l generalizing st with
  | nil => exact h
  | cons a l ih =>
    exact ih (fun st b hb => hstep st b (List.mem_cons_of_mem a hb))
      (hstep st a List.mem_cons_self h)

/-- A buffer that no turn of a loop writes keeps its contents. -/
theorem mem_foldl {α : Type*} (f : State B A → α → State B A) (l : List α) {b : B}
    (hstep : ∀ st, ∀ a ∈ l, (f st a).mem b = st.mem b) (st : State B A) :
    (l.foldl f st).mem b = st.mem b := by
  induction l generalizing st with
  | nil => rfl
  | cons a l ih =>
    rw [List.foldl_cons, ih (fun st c hc => hstep st c (List.mem_cons_of_mem a hc)),
      hstep st a List.mem_cons_self]

end loops

variable [DecidableEq B]

/-- `v i` goes to element `off + i`. -/
def State.put (st : State B A) (b : B) (off len : ℕ) (v : ℕ → A) : State B A where
  mem := Function.update st.mem b fun i =>
    if off ≤ i ∧ i < off + len then v (i - off) else st.mem b i
  writes := st.writes ++ [⟨b, off, len⟩]

@[simp] theorem put_writes (st : State B A) (b : B) (off len : ℕ) (v : ℕ → A) :
    (st.put b off len v).writes = st.writes ++ [⟨b, off, len⟩] := rfl

theorem put_other (st : State B A) {b b' : B} (h : b' ≠ b) (off len : ℕ) (v : ℕ → A) :
    (st.put b off len v).mem b' = st.mem b' := Function.update_of_ne h _ _

theorem put_whole (st : State B A) (b : B) (len : ℕ) (v : ℕ → A) (i : ℕ) :
    (st.put b 0 len v).mem b i = if i < len then v i else st.mem b i := by
  simp [State.put]

theorem Inside.put {room : B → ℕ → Prop} {st : State B A} (h : Inside room st.writes) {b : B} {off len : ℕ}
    (hroom : room b (off + len)) (v : ℕ → A) : Inside room (st.put b off len v).writes := by
  intro w hw
  rcases List.mem_append.mp hw with hw | hw
  · exact h w hw
  · rw [List.mem_singleton.mp hw]
    exact hroom

section columns

variable {d t u x : ℕ}

/-- Element `x` of column `t`. -/
theorem column_lt {n : ℕ} (ht : t < n) (hx : x < d) : t * d + x < n * d := by
  have hmul := Nat.mul_le_mul_right d (Nat.succ_le_of_lt ht)
  rw [Nat.succ_mul] at hmul
  omega

theorem column_div (hx : x < d) : (t * d + x) / d = t := by
  rw [Nat.mul_comm, Nat.mul_add_div (by omega), Nat.div_eq_of_lt hx, Nat.add_zero]

theorem column_mod (hx : x < d) : (t * d + x) % d = x := by
  rw [Nat.mul_comm, Nat.mul_add_mod, Nat.mod_eq_of_lt hx]

theorem column_mem_iff (hx : x < d) : u * d ≤ t * d + x ∧ t * d + x < u * d + d ↔ u = t := by
  constructor
  · rintro ⟨h₁, h₂⟩
    have hdiv : (t * d + x) / d = u := by
      apply Nat.div_eq_of_lt_le h₁
      rwa [Nat.succ_mul]
    exact hdiv.symm.trans (column_div hx)
  · rintro rfl
    omega

theorem put_column (st : State B A) (b : B) (u t : ℕ) {x : ℕ} (hx : x < d) (v : ℕ → A) :
    (st.put b (u * d) d v).mem b (t * d + x) = if u = t then v x else st.mem b (t * d + x) := by
  simp only [State.put, Function.update_self, column_mem_iff hx]
  by_cases h : u = t
  · subst h
    simp
  · simp [h]

/-- Columns one behind the other. -/
def flat (d : ℕ) (f : ℕ → ℕ → A) (i : ℕ) : A := f (i / d) (i % d)

theorem flat_column (f : ℕ → ℕ → A) (hx : x < d) : flat d f (t * d + x) = f t x := by
  rw [flat, column_div hx, column_mod hx]

/-- `f` starts with the `n` columns `g`, of `d` elements each. -/
def HasColumns (n d : ℕ) (f : ℕ → A) (g : ℕ → ℕ → A) : Prop := ∀ t < n, ∀ x < d, f (t * d + x) = g t x

theorem put_columns {n : ℕ} (st : State B A) (b : B) {v : ℕ → A} {g : ℕ → ℕ → A}
    (h : HasColumns n d v g) : HasColumns n d ((st.put b 0 (n * d) v).mem b) g := by
  intro t ht x hx
  rw [put_whole, if_pos (column_lt ht hx), h t ht x hx]

end columns

end Buffers
end StreamMoE
