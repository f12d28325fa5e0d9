import Mathlib.Data.Nat.Digits.Defs

/-! Numbers as little-endian bytes, and arrays of such numbers behind one another. A word of which bytes
are missing is read with zeros in their place. -/
namespace StreamMoE
namespace LittleEndian

/-- The number that bytes stand for. -/
def value (bytes : List UInt8) : ℕ := Nat.ofDigits 256 (bytes.map UInt8.toNat)

/-- The low `k` bytes of a number. -/
def bytesOf : ℕ → ℕ → List UInt8
  | 0, _ => []
  | k + 1, v => UInt8.ofNat v :: bytesOf k (v / 256)

@[simp] theorem value_nil : value [] = 0 := rfl

theorem value_cons (b : UInt8) (bytes : List UInt8) : value (b :: bytes) = b.toNat + 256 * value bytes := rfl

@[simp] theorem length_bytesOf (k v : ℕ) : (bytesOf k v).length = k := by
  induction k generalizing v with
  | zero => rfl
  | succ k ih => simp [bytesOf, ih]

theorem value_bytesOf (k v : ℕ) : value (bytesOf k v) = v % 256 ^ k := by
  induction k generalizing v with
  | zero => simp [bytesOf, Nat.mod_one]
  | succ k ih =>
    have hlow : (UInt8.ofNat v).toNat = v % 256 := UInt8.toNat_ofNat'
    rw [bytesOf, value_cons, ih, hlow, Nat.pow_succ', Nat.mod_mul]

theorem bytesOf_value (bytes : List UInt8) : bytesOf bytes.length (value bytes) = bytes := by
  induction bytes with
  | nil => rfl
  | cons b bytes ih =>
    have hlt := b.toNat_lt
    have hlow : UInt8.ofNat (b.toNat + 256 * value bytes) = b := by
      apply UInt8.toNat_inj.mp
      rw [UInt8.toNat_ofNat']
      omega
    have hhigh : (b.toNat + 256 * value bytes) / 256 = value bytes := by omega
    rw [value_cons, List.length_cons, bytesOf, hlow, hhigh, ih]

theorem value_lt (bytes : List UInt8) : value bytes < 256 ^ bytes.length := by
  have hdigits : ∀ x ∈ bytes.map UInt8.toNat, x < 256 := by
    simp only [List.forall_mem_map]
    exact fun b _ => b.toNat_lt
  have hlt := Nat.ofDigits_lt_base_pow_length (by decide) hdigits
  rwa [List.length_map] at hlt

theorem value_eq_zero_iff {bytes : List UInt8} : value bytes = 0 ↔ ∀ b ∈ bytes, b = 0 := by
  induction bytes with
  | nil => simp
  | cons b bytes ih =>
    have hbyte : b.toNat = 0 ↔ b = 0 := @UInt8.toNat_inj b 0
    rw [value_cons, List.forall_mem_cons, ← ih, ← hbyte]
    omega

section words

variable (k : ℕ)

/-- `n` numbers of `k` bytes each. -/
def words : ℕ → List UInt8 → List ℕ
  | 0, _ => []
  | n + 1, bytes => value (bytes.take k) :: words n (bytes.drop k)

@[simp] theorem length_words (n : ℕ) (bytes : List UInt8) : (words k n bytes).length = n := by
  induction n generalizing bytes with
  | zero => rfl
  | succ n ih => simp [words, ih]

theorem words_lt (n : ℕ) (bytes : List UInt8) : ∀ v ∈ words k n bytes, v < 256 ^ k := by
  induction n generalizing bytes with
  | zero => simp [words]
  | succ n ih =>
    rw [words, List.forall_mem_cons]
    refine ⟨?_, ih _⟩
    have hlt := value_lt (bytes.take k)
    have hle : (bytes.take k).length ≤ k := List.length_take_le k bytes
    exact hlt.trans_le (Nat.pow_le_pow_right (by decide) hle)

/-- What was written is read, whatever follows it. -/
theorem words_flatMap {vs : List ℕ} (h : ∀ v ∈ vs, v < 256 ^ k) (rest : List UInt8) :
    words k vs.length (vs.flatMap (bytesOf k) ++ rest) = vs := by
  induction vs with
  | nil => rfl
  | cons v vs ih =>
    obtain ⟨hv, hvs⟩ := List.forall_mem_cons.mp h
    have hlen := length_bytesOf k v
    rw [List.length_cons, List.flatMap_cons, List.append_assoc, words, List.take_left' hlen,
      List.drop_left' hlen, ih hvs, value_bytesOf, Nat.mod_eq_of_lt hv]

/-- Numbers are zero together with their bytes. -/
theorem words_eq_zero_iff (n : ℕ) (bytes : List UInt8) :
    (∀ v ∈ words k n bytes, v = 0) ↔ ∀ b ∈ bytes.take (k * n), b = 0 := by
  induction n generalizing bytes with
  | zero => simp [words]
  | succ n ih =>
    have hsplit : bytes.take (k * (n + 1)) = bytes.take k ++ (bytes.drop k).take (k * n) := by
      rw [Nat.mul_succ, Nat.add_comm, List.take_add]
    rw [words, List.forall_mem_cons, ih, value_eq_zero_iff, hsplit, List.forall_mem_append]

end words

theorem length_flatMap_bytesOf (k : ℕ) (vs : List ℕ) : (vs.flatMap (bytesOf k)).length = k * vs.length := by
  induction vs with
  | nil => rfl
  | cons v vs ih =>
    rw [List.flatMap_cons, List.length_append, length_bytesOf, ih, List.length_cons, Nat.mul_succ, Nat.add_comm]

end LittleEndian
end StreamMoE
