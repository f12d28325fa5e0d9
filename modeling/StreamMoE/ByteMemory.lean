import Mathlib.Algebra.GroupWithZero.Nat
import Mathlib.Data.Nat.Notation
import Mathlib.Logic.Function.Basic

/-! Memories as functions from addresses, block copies into them, and the frame
rules of disjoint byte ranges. -/
namespace StreamMoE
namespace ByteMemory

variable {β : Type*}

/-- Copy `len` cells of `src` to `dst`. -/
def blit (m : ℕ → β) (dst len : ℕ) (src : ℕ → β) : ℕ → β :=
  fun a => if dst ≤ a ∧ a < dst + len then src (a - dst) else m a

theorem blit_inside (m : ℕ → β) (src : ℕ → β) {dst len i : ℕ} (h : i < len) :
    blit m dst len src (dst + i) = src i := by
  have hin : dst ≤ dst + i ∧ dst + i < dst + len := by omega
  simp only [blit, if_pos hin, Nat.add_sub_cancel_left]

theorem blit_outside (m : ℕ → β) (src : ℕ → β) {dst len a : ℕ}
    (h : a < dst ∨ dst + len ≤ a) : blit m dst len src a = m a := by
  have hout : ¬ (dst ≤ a ∧ a < dst + len) := by omega
  simp only [blit, if_neg hout]

/-- Two half-open ranges given by start and length do not meet. -/
def Apart (x n y k : ℕ) : Prop := x + n ≤ y ∨ y + k ≤ x

theorem Apart.symm {x n y k : ℕ} (h : Apart x n y k) : Apart y k x n := Or.symm h

theorem Apart.mono {x n y k x' n' y' k' : ℕ} (h : Apart x n y k) (hx : x ≤ x')
    (hn : x' + n' ≤ x + n) (hy : y ≤ y') (hk : y' + k' ≤ y + k) : Apart x' n' y' k' := by
  simp only [Apart] at h ⊢
  omega

/-- The range at `x` holds the first `n` cells of `src`. -/
def Holds (m : ℕ → β) (x n : ℕ) (src : ℕ → β) : Prop := ∀ i < n, m (x + i) = src i

theorem Holds.blit {m : ℕ → β} {x n y k : ℕ} {src src' : ℕ → β} (h : Holds m x n src)
    (ha : Apart x n y k) : Holds (blit m y k src') x n src := by
  intro i hi
  have hout : x + i < y ∨ y + k ≤ x + i := by
    simp only [Apart] at ha
    omega
  rw [blit_outside m src' hout]
  exact h i hi

theorem Holds.sub {m : ℕ → β} {x n : ℕ} {src : ℕ → β} (h : Holds m x n src) {d k : ℕ}
    (hd : d + k ≤ n) : Holds m (x + d) k (fun i => src (d + i)) := by
  intro i hi
  rw [Nat.add_assoc]
  exact h (d + i) (by omega)

theorem Holds.congr {m : ℕ → β} {x n : ℕ} {src src' : ℕ → β} (h : Holds m x n src)
    (he : ∀ i < n, src i = src' i) : Holds m x n src' :=
  fun i hi => (h i hi).trans (he i hi)

section blits

variable {α : Type*} (dst len : α → ℕ) (src : α → ℕ → β)

/-- One copy after the other. -/
def blits (m : ℕ → β) (l : List α) : ℕ → β := l.foldl (fun m x => blit m (dst x) (len x) (src x)) m

variable {dst len src}

theorem blits_outside {l : List α} {a : ℕ} : ∀ {m : ℕ → β},
    (∀ x ∈ l, ¬ (dst x ≤ a ∧ a < dst x + len x)) → blits dst len src m l a = m a := by
  induction l with
  | nil => intros; rfl
  | cons x xs ih =>
    intro m h
    have hout := h x List.mem_cons_self
    rw [blits, List.foldl_cons, ← blits, ih fun y hy => h y (List.mem_cons_of_mem _ hy)]
    exact if_neg hout

/-- An address that is written holds the cell of a copy that writes it. -/
theorem blits_covered {l : List α} {a : ℕ} : ∀ {m : ℕ → β},
    (∃ x ∈ l, dst x ≤ a ∧ a < dst x + len x) →
      ∃ y ∈ l, (dst y ≤ a ∧ a < dst y + len y) ∧ blits dst len src m l a = src y (a - dst y) := by
  induction l with
  | nil => simp
  | cons x xs ih =>
    intro m h
    by_cases hrest : ∃ y ∈ xs, dst y ≤ a ∧ a < dst y + len y
    · obtain ⟨y, hy, hin, hval⟩ := ih (m := blit m (dst x) (len x) (src x)) hrest
      exact ⟨y, List.mem_cons_of_mem _ hy, hin, hval⟩
    · obtain ⟨y, hy, hin⟩ := h
      rcases List.mem_cons.mp hy with rfl | hy
      · refine ⟨y, List.mem_cons_self, hin, ?_⟩
        rw [blits, List.foldl_cons, ← blits, blits_outside fun z hz h => hrest ⟨z, hz, h⟩]
        exact if_pos hin
      · exact absurd ⟨y, hy, hin⟩ hrest

end blits

section pairs

/-- Of the pairs of a target and a source, each is still to be copied or its target holds the byte
that `B` has at its source. -/
def Copying (B m : ℕ → β) (all left : List (ℕ × ℕ)) : Prop := ∀ p ∈ all, p ∈ left ∨ m p.1 = B p.2

variable {B m : ℕ → β} {all left : List (ℕ × ℕ)}

theorem copying_self : Copying B m all all := fun _ hp => .inl hp

theorem Copying.done (h : Copying B m all []) : ∀ p ∈ all, m p.1 = B p.2 :=
  fun p hp => (h p hp).resolve_left List.not_mem_nil

/-- One more pair, in whatever order. -/
theorem Copying.copy (h : Copying B m all left) {p : ℕ × ℕ} (hsrc : m p.2 = B p.2)
    (hfun : ∀ q ∈ all, q.1 = p.1 → q.2 = p.2) :
    Copying B (Function.update m p.1 (m p.2)) all (left.erase p) := by
  intro q hq
  by_cases hqp : q.1 = p.1
  · right
    rw [hqp, Function.update_self, hfun q hq hqp, hsrc]
  · rw [Function.update_of_ne hqp]
    have hne : q ≠ p := fun e => hqp (congrArg Prod.fst e)
    exact (h q hq).imp_left fun hleft => (List.mem_erase_of_ne hne).mpr hleft

/-- Bytes elsewhere. -/
theorem Copying.frame (h : Copying B m all left) {a : ℕ} (v : β) (ha : ∀ p ∈ all, p.1 ≠ a) :
    Copying B (Function.update m a v) all left := by
  intro p hp
  rw [Function.update_of_ne (ha p hp)]
  exact h p hp

end pairs

end ByteMemory
end StreamMoE
