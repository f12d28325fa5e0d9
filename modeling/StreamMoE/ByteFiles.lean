import StreamMoE.ByteMemory
import StreamMoE.Gaps

/-! Files of bytes: reads, writes that leave holes behind the end, and what lies in a file after a list of
writes. -/
namespace StreamMoE
namespace ByteFiles

open ByteMemory Gaps

variable {β : Type*}

/-- The bytes before `len`; the others are not part of the file. -/
structure File (β : Type*) where
  len : ℕ
  byte : ℕ → β

def File.read (f : File β) (a : ℕ) : Option β := if a < f.len then some (f.byte a) else none

theorem File.read_eq {f : File β} {a : ℕ} (h : a < f.len) : f.read a = some (f.byte a) := if_pos h

variable [Zero β]

/-- `n` bytes at `off`; what they leave between the old end and `off` reads as zeros. -/
def File.write (f : File β) (off n : ℕ) (src : ℕ → β) : File β :=
  if n = 0 then f
  else
    { len := max f.len (off + n)
      byte := blit (fun a => if a < f.len then f.byte a else 0) off n src }

section write

variable {f : File β} {off n k a : ℕ} {src : ℕ → β}

@[simp] theorem write_zero : f.write off 0 src = f := if_pos rfl

theorem le_len_write : f.len ≤ (f.write off n src).len := by
  unfold File.write
  split
  · exact Nat.le_refl _
  · exact Nat.le_max_left _ _

theorem end_le_write (h : n ≠ 0) : off + n ≤ (f.write off n src).len := by
  rw [File.write, if_neg h]
  exact Nat.le_max_right _ _

theorem read_write_inside (hle : off ≤ a) (hlt : a < off + n) :
    (f.write off n src).read a = some (src (a - off)) := by
  have hn : n ≠ 0 := by omega
  have hend : off + n ≤ (f.write off n src).len := end_le_write hn
  rw [File.read_eq (by omega), File.write, if_neg hn]
  exact congrArg some (if_pos ⟨hle, hlt⟩)

theorem read_write_outside (ha : a < f.len) (h : ¬ (off ≤ a ∧ a < off + n)) :
    (f.write off n src).read a = f.read a := by
  rw [File.read_eq ha, File.read_eq (Nat.lt_of_lt_of_le ha le_len_write)]
  unfold File.write
  split
  · rfl
  · have hkeep : (if off ≤ a ∧ a < off + n then src (a - off)
        else if a < f.len then f.byte a else 0) = f.byte a := by rw [if_neg h, if_pos ha]
    exact congrArg some hkeep

theorem write_write (hn : n ≠ 0) : (f.write off n src).write (off + n) k (fun i => src (n + i)) =
    f.write off (n + k) src := by
  unfold File.write
  rw [if_neg hn, if_neg (by omega : n + k ≠ 0)]
  split
  case isTrue hk =>
    subst hk
    rfl
  case isFalse hk =>
    have hlen : max (max f.len (off + n)) (off + n + k) = max f.len (off + (n + k)) := by omega
    simp only [hlen, File.mk.injEq, true_and]
    funext a
    simp only [blit]
    by_cases hsecond : off + n ≤ a ∧ a < off + n + k
    · have hindex : n + (a - (off + n)) = a - off := by omega
      have hin : off ≤ a ∧ a < off + (n + k) := by omega
      rw [if_pos hsecond, if_pos hin, hindex]
    · rw [if_neg hsecond]
      by_cases hfirst : off ≤ a ∧ a < off + n
      · have hin : off ≤ a ∧ a < off + (n + k) := by omega
        have hlt : a < max f.len (off + n) := by omega
        rw [if_pos hlt, if_pos hfirst, if_pos hin]
      · have hout : ¬ (off ≤ a ∧ a < off + (n + k)) := by omega
        rw [if_neg hfirst, if_neg hout]
        by_cases hold : a < f.len
        · have hlt : a < max f.len (off + n) := by omega
          rw [if_pos hlt]
        · rw [if_neg hold, ite_self]

end write

/-- A write of `len` bytes at `off`. -/
structure Write (β : Type*) where
  off : ℕ
  len : ℕ
  src : ℕ → β

def writes (f : File β) (ws : List (Write β)) : File β :=
  ws.foldl (fun f w => f.write w.off w.len w.src) f

section writes

variable {f : File β} {ws : List (Write β)} {a : ℕ}

theorem read_writes_outside (ha : a < f.len) (h : ∀ w ∈ ws, ¬ Covers Write.off Write.len w a) :
    (writes f ws).read a = f.read a := by
  induction ws generalizing f with
  | nil => rfl
  | cons w ws ih =>
    obtain ⟨hw, hws⟩ := List.forall_mem_cons.mp h
    calc (writes f (w :: ws)).read a = (f.write w.off w.len w.src).read a := ih (Nat.lt_of_lt_of_le ha le_len_write) hws
      _ = f.read a := read_write_outside ha hw

theorem read_writes_covered {v : β} (hex : ∃ w ∈ ws, Covers Write.off Write.len w a)
    (hsame : ∀ w ∈ ws, Covers Write.off Write.len w a → w.src (a - w.off) = v) :
    (writes f ws).read a = some v := by
  induction ws generalizing f with
  | nil =>
    obtain ⟨w, hw, _⟩ := hex
    cases hw
  | cons w ws ih =>
    obtain ⟨hw, hws⟩ := List.forall_mem_cons.mp hsame
    by_cases hrest : ∃ x ∈ ws, Covers Write.off Write.len x a
    · exact ih hrest hws
    · have hnone : ∀ x ∈ ws, ¬ Covers Write.off Write.len x a := by simpa using hrest
      have hin : Covers Write.off Write.len w a := by
        obtain ⟨x, hx, hxa⟩ := hex
        rcases List.mem_cons.mp hx with rfl | hx
        · exact hxa
        · exact absurd hxa (hnone x hx)
      have hread : (f.write w.off w.len w.src).read a = some v :=
        (read_write_inside hin.1 hin.2).trans (congrArg some (hw hin))
      have hlen : a < (f.write w.off w.len w.src).len := by
        by_contra hout
        rw [File.read, if_neg hout] at hread
        cases hread
      calc (writes f (w :: ws)).read a = (f.write w.off w.len w.src).read a :=
            read_writes_outside hlen hnone
        _ = some v := hread

end writes

end ByteFiles
end StreamMoE
