import Mathlib.Algebra.GroupWithZero.Nat
import Mathlib.Data.Nat.Notation
import Mathlib.Data.List.Basic

/-! The 64-bit word of a slot: generation, refcount and state in one atomic. A
compare-and-swap loop is the single step in which it succeeds. -/
namespace StreamMoE
namespace SlotWord

abbrev Word := BitVec 64

inductive SlotState
  | empty | ioInflight | ready | evicting | failed
  deriving DecidableEq, Repr

def SlotState.code : SlotState → ℕ
  | .empty => 0
  | .ioInflight => 1
  | .ready => 2
  | .evicting => 3
  | .failed => 4

def slotWordState (w : Word) : ℕ := (w &&& 0x7#64).toNat

def slotWordRefcount (w : Word) : ℕ := ((w &&& 0xFFFFFFF8#64) >>> 3).toNat

def slotWordGeneration (w : Word) : ℕ := (w >>> 32).toNat

def slotWord (state refcount generation : ℕ) : Word :=
  (BitVec.ofNat 64 generation <<< 32) ||| (BitVec.ofNat 64 refcount <<< 3) |||
    (BitVec.ofNat 64 state &&& 0x7#64)

/-- The next value of a `uint32_t` generation. -/
def nextGen (gen : ℕ) : ℕ := (gen + 1) % 2 ^ 32

/-- The new word of a successful pin; its generation is the answer. -/
def tryPin (w : Word) : Option Word :=
  if slotWordState w = SlotState.ready.code then
    if 2 ^ 29 - 1 ≤ slotWordRefcount w then none
    else some (slotWord SlotState.ready.code (slotWordRefcount w + 1) (slotWordGeneration w))
  else none

def unpin (w : Word) : Word :=
  if slotWordRefcount w = 0 then w
  else slotWord (slotWordState w) (slotWordRefcount w - 1) (slotWordGeneration w)

def markReady (w : Word) : Word :=
  if slotWordState w = SlotState.ioInflight.code then
    slotWord SlotState.ready.code (slotWordRefcount w) (slotWordGeneration w)
  else w

def beginEvict (w : Word) : Option Word :=
  if slotWordState w = SlotState.ready.code then
    some (slotWord SlotState.evicting.code (slotWordRefcount w) (slotWordGeneration w))
  else none

def beginReload (w : Word) : Word :=
  slotWord SlotState.ioInflight.code 0 (nextGen (slotWordGeneration w))

def releaseToEmpty (w : Word) : Word :=
  slotWord SlotState.empty.code 0 (nextGen (slotWordGeneration w))

def markFailed (w : Word) : Word :=
  slotWord SlotState.failed.code (slotWordRefcount w) (slotWordGeneration w)

theorem slotWordState_eq (w : Word) : slotWordState w = w.toNat % 8 := by
  rw [slotWordState, BitVec.toNat_and]
  exact Nat.and_two_pow_sub_one_eq_mod w.toNat 3

theorem slotWordRefcount_eq (w : Word) : slotWordRefcount w = w.toNat / 8 % 2 ^ 29 := by
  rw [slotWordRefcount, BitVec.toNat_ushiftRight, BitVec.toNat_and, Nat.shiftRight_and_distrib,
    Nat.shiftRight_eq_div_pow]
  exact Nat.and_two_pow_sub_one_eq_mod (w.toNat / 2 ^ 3) 29

theorem slotWordGeneration_eq (w : Word) : slotWordGeneration w = w.toNat / 2 ^ 32 := by
  rw [slotWordGeneration, BitVec.toNat_ushiftRight, Nat.shiftRight_eq_div_pow]

theorem slotWordRefcount_lt (w : Word) : slotWordRefcount w < 2 ^ 29 := by
  rw [slotWordRefcount_eq]
  omega

theorem slotWordGeneration_lt (w : Word) : slotWordGeneration w < 2 ^ 32 := by
  have hw := w.isLt
  rw [slotWordGeneration_eq]
  omega

/-- The three fields do not overlap. -/
theorem toNat_slotWord {st rc gen : ℕ} (hst : st < 8) (hrc : rc < 2 ^ 29) (hgen : gen < 2 ^ 32) :
    (slotWord st rc gen).toNat = gen * 2 ^ 32 + (rc * 2 ^ 3 + st) := by
  have h₁ : (BitVec.ofNat 64 gen <<< 32).toNat = gen <<< 32 := by
    rw [BitVec.toNat_shiftLeft, BitVec.toNat_ofNat, Nat.shiftLeft_eq, Nat.shiftLeft_eq]
    omega
  have h₂ : (BitVec.ofNat 64 rc <<< 3).toNat = rc <<< 3 := by
    rw [BitVec.toNat_shiftLeft, BitVec.toNat_ofNat, Nat.shiftLeft_eq, Nat.shiftLeft_eq]
    omega
  have h₃ : (BitVec.ofNat 64 st &&& 0x7#64).toNat = st := by
    have hmask := slotWordState_eq (BitVec.ofNat 64 st)
    rw [slotWordState] at hmask
    rw [hmask, BitVec.toNat_ofNat]
    omega
  have hlow : rc <<< 3 + st < 2 ^ 32 := by
    rw [Nat.shiftLeft_eq]
    omega
  rw [slotWord, BitVec.toNat_or, BitVec.toNat_or, h₁, h₂, h₃, Nat.or_assoc,
    ← Nat.shiftLeft_add_eq_or_of_lt (i := 3) hst,
    ← Nat.shiftLeft_add_eq_or_of_lt hlow, Nat.shiftLeft_eq, Nat.shiftLeft_eq]

section fields

variable {st rc gen : ℕ}

theorem slotWordState_slotWord (hst : st < 8) (hrc : rc < 2 ^ 29) (hgen : gen < 2 ^ 32) :
    slotWordState (slotWord st rc gen) = st := by
  rw [slotWordState_eq, toNat_slotWord hst hrc hgen]
  omega

theorem slotWordRefcount_slotWord (hst : st < 8) (hrc : rc < 2 ^ 29) (hgen : gen < 2 ^ 32) :
    slotWordRefcount (slotWord st rc gen) = rc := by
  rw [slotWordRefcount_eq, toNat_slotWord hst hrc hgen]
  omega

theorem slotWordGeneration_slotWord (hst : st < 8) (hrc : rc < 2 ^ 29) (hgen : gen < 2 ^ 32) :
    slotWordGeneration (slotWord st rc gen) = gen := by
  rw [slotWordGeneration_eq, toNat_slotWord hst hrc hgen]
  omega

end fields

theorem code_lt (st : SlotState) : st.code < 8 := by cases st <;> decide

theorem code_injective {a b : SlotState} (h : a.code = b.code) : a = b := by
  cases a <;> cases b <;> first | rfl | exact absurd h (by decide)

theorem nextGen_lt (gen : ℕ) : nextGen gen < 2 ^ 32 := Nat.mod_lt _ (by decide)

structure Reads (w : Word) (st : SlotState) (rc gen : ℕ) : Prop where
  state : slotWordState w = st.code
  refcount : slotWordRefcount w = rc
  generation : slotWordGeneration w = gen

theorem reads_slotWord (st : SlotState) {rc gen : ℕ} (hrc : rc < 2 ^ 29) (hgen : gen < 2 ^ 32) :
    Reads (slotWord st.code rc gen) st rc gen :=
  ⟨slotWordState_slotWord (code_lt st) hrc hgen, slotWordRefcount_slotWord (code_lt st) hrc hgen,
    slotWordGeneration_slotWord (code_lt st) hrc hgen⟩

theorem Reads.tryPin {w : Word} {st : SlotState} {rc gen : ℕ} (h : Reads w st rc gen) :
    (∃ w', SlotWord.tryPin w = some w' ∧ st = .ready ∧ Reads w' .ready (rc + 1) gen) ∨
      (SlotWord.tryPin w = none ∧ (st ≠ .ready ∨ 2 ^ 29 - 1 ≤ rc)) := by
  have hgen := slotWordGeneration_lt w
  rw [h.generation] at hgen
  unfold SlotWord.tryPin
  rw [h.state, h.refcount, h.generation]
  by_cases hst : st.code = SlotState.ready.code
  · by_cases hrc : 2 ^ 29 - 1 ≤ rc
    · right
      rw [if_pos hst, if_pos hrc]
      exact ⟨rfl, .inr hrc⟩
    · left
      rw [if_pos hst, if_neg hrc]
      exact ⟨_, rfl, code_injective hst, reads_slotWord .ready (by omega) hgen⟩
  · right
    rw [if_neg hst]
    exact ⟨rfl, .inl fun e => hst (e ▸ rfl)⟩

theorem Reads.unpin {w : Word} {st : SlotState} {rc gen : ℕ} (h : Reads w st rc gen) :
    Reads (SlotWord.unpin w) st (rc - 1) gen := by
  have hrc := slotWordRefcount_lt w
  have hgen := slotWordGeneration_lt w
  rw [h.refcount] at hrc
  rw [h.generation] at hgen
  unfold SlotWord.unpin
  rw [h.state, h.refcount, h.generation]
  split
  · rename_i h0
    subst h0
    exact h
  · exact reads_slotWord st (by omega) hgen

theorem Reads.markReady {w : Word} {rc gen : ℕ} (h : Reads w .ioInflight rc gen) :
    Reads (SlotWord.markReady w) .ready rc gen := by
  have hrc := slotWordRefcount_lt w
  have hgen := slotWordGeneration_lt w
  rw [h.refcount] at hrc
  rw [h.generation] at hgen
  rw [SlotWord.markReady, if_pos h.state, h.refcount, h.generation]
  exact reads_slotWord .ready hrc hgen

theorem Reads.beginEvict {w : Word} {rc gen : ℕ} (h : Reads w .ready rc gen) :
    ∃ w', SlotWord.beginEvict w = some w' ∧ Reads w' .evicting rc gen := by
  have hrc := slotWordRefcount_lt w
  have hgen := slotWordGeneration_lt w
  rw [h.refcount] at hrc
  rw [h.generation] at hgen
  rw [SlotWord.beginEvict, if_pos h.state, h.refcount, h.generation]
  exact ⟨_, rfl, reads_slotWord .evicting hrc hgen⟩

theorem Reads.beginReload {w : Word} {st : SlotState} {rc gen : ℕ} (h : Reads w st rc gen) :
    Reads (SlotWord.beginReload w) .ioInflight 0 (nextGen gen) := by
  rw [SlotWord.beginReload, h.generation]
  exact reads_slotWord .ioInflight (by decide) (nextGen_lt _)

theorem Reads.releaseToEmpty {w : Word} {st : SlotState} {rc gen : ℕ} (h : Reads w st rc gen) :
    Reads (SlotWord.releaseToEmpty w) .empty 0 (nextGen gen) := by
  rw [SlotWord.releaseToEmpty, h.generation]
  exact reads_slotWord .empty (by decide) (nextGen_lt _)

theorem Reads.markFailed {w : Word} {st : SlotState} {rc gen : ℕ} (h : Reads w st rc gen) :
    Reads (SlotWord.markFailed w) .failed rc gen := by
  have hrc := slotWordRefcount_lt w
  have hgen := slotWordGeneration_lt w
  rw [h.refcount] at hrc
  rw [h.generation] at hgen
  rw [SlotWord.markFailed, h.refcount, h.generation]
  exact reads_slotWord .failed hrc hgen

end SlotWord
end StreamMoE
