import Mathlib.Algebra.GroupWithZero.Nat
import Mathlib.Data.List.Basic
import Mathlib.Data.Nat.Notation

/-! Lists of spans that follow one another: each begins where the one before it ends. -/
namespace StreamMoE
namespace Spans

variable {α : Type*} {start len : α → ℕ}

/-- The spans of `xs` are not empty and tile the positions from `n` to `m` in order. -/
inductive Tiles (start len : α → ℕ) : ℕ → List α → ℕ → Prop
  | nil (n : ℕ) : Tiles start len n [] n
  | cons {n m : ℕ} {x : α} {xs : List α} : start x = n → 0 < len x →
      Tiles start len (n + len x) xs m → Tiles start len n (x :: xs) m

theorem Tiles.total {n m : ℕ} {xs : List α} (h : Tiles start len n xs m) :
    n + (xs.map len).sum = m := by
  induction h with
  | nil => simp
  | cons _ _ _ ih => simpa [Nat.add_assoc] using ih

theorem Tiles.append {n k m : ℕ} {xs ys : List α} (h : Tiles start len n xs k)
    (h' : Tiles start len k ys m) : Tiles start len n (xs ++ ys) m := by
  induction h with
  | nil => exact h'
  | cons hstart hpos _ ih => exact .cons hstart hpos (ih h')

theorem Tiles.bounds {n m : ℕ} {xs : List α} (h : Tiles start len n xs m) {x : α} (hx : x ∈ xs) :
    n ≤ start x ∧ start x + len x ≤ m ∧ 0 < len x := by
  induction h with
  | nil => simp at hx
  | @cons n m y xs hstart hpos htail ih =>
    rcases List.mem_cons.mp hx with rfl | hx
    · have htotal := htail.total
      exact ⟨by omega, by omega, hpos⟩
    · have h := ih hx
      exact ⟨by omega, h.2⟩

/-- A later span begins behind an earlier one. -/
theorem Tiles.ordered {n m : ℕ} {xs : List α} (h : Tiles start len n xs m) :
    xs.Pairwise fun x y => start x + len x ≤ start y := by
  induction h with
  | nil => simp
  | cons hstart _ htail ih =>
    refine List.pairwise_cons.mpr ⟨?_, ih⟩
    intro y hy
    have hbounds := htail.bounds hy
    omega

theorem Tiles.covers {n m : ℕ} {xs : List α} (h : Tiles start len n xs m) {c : ℕ} (hn : n ≤ c)
    (hm : c < m) : ∃ x ∈ xs, start x ≤ c ∧ c < start x + len x := by
  induction h with
  | nil => omega
  | @cons n m y xs hstart hpos htail ih =>
    by_cases hc : c < n + len y
    · exact ⟨y, by simp, by omega, by omega⟩
    · obtain ⟨x, hx, hin⟩ := ih (by omega) hm
      exact ⟨x, by simp [hx], hin⟩

/-- The spans at two indices meet only if the indices are equal. -/
theorem Tiles.index_unique {n m : ℕ} {xs : List α} (h : Tiles start len n xs m) {c i j : ℕ}
    (hi : i < xs.length) (hj : j < xs.length)
    (hci : start xs[i] ≤ c ∧ c < start xs[i] + len xs[i])
    (hcj : start xs[j] ≤ c ∧ c < start xs[j] + len xs[j]) : i = j := by
  have hpair := List.pairwise_iff_getElem.mp h.ordered
  rcases Nat.lt_trichotomy i j with hlt | heq | hgt
  · have hle := hpair i j hi hj hlt
    omega
  · exact heq
  · have hle := hpair j i hj hi hgt
    omega

/-- Lists whose elements have the same spans tile the same positions. -/
theorem Tiles.congr {β : Type*} {start' len' : β → ℕ} {n m : ℕ} {xs : List α} {ys : List β}
    (h : Tiles start len n xs m)
    (heq : List.Forall₂ (fun x y => start x = start' y ∧ len x = len' y) xs ys) :
    Tiles start' len' n ys m := by
  induction h generalizing ys with
  | nil n =>
    cases heq
    exact .nil n
  | cons hstart hpos _ ih =>
    cases heq with
    | cons hxy hrest =>
      refine .cons (hxy.1.symm.trans hstart) (hxy.2 ▸ hpos) ?_
      rw [← hxy.2]
      exact ih hrest

end Spans
end StreamMoE
