import Mathlib.Algebra.GroupWithZero.Nat
import Mathlib.Data.Nat.Notation
import Mathlib.Data.List.Basic

/-! Sector arithmetic of `common/types.h` and `build_expert_read_plan`: the direct-I/O
windows of one expert's source segments. -/
namespace StreamMoE
namespace ReadPlan

def dioSectorSize : ℕ := 4096

def maxSubTensorsPerExpert : ℕ := 64

/-- `val & ~(align - 1)`; every caller passes a power of two. -/
def alignFloor (val align : ℕ) : ℕ := val / align * align

def alignCeil (val align : ℕ) : ℕ := (val + (align - 1)) / align * align

def isAligned (val : ℕ) : Bool := val % dioSectorSize == 0

structure SubTensorReq where
  shardIdx : ℕ
  fileOffset : ℕ
  byteSize : ℕ
  column : ℕ
  colOff : ℕ
  deriving DecidableEq, Repr

structure TensorSliceRead where
  shardIdx : ℕ
  fileReadStart : ℕ
  fileReadLen : ℕ
  column : ℕ
  stagingOffset : ℕ
  copySrcOffset : ℕ
  copyDstOffset : ℕ
  copyByteLen : ℕ
  direct : Bool
  deriving DecidableEq, Repr

structure ExpertReadPlan where
  slices : List TensorSliceRead
  totalStagingSize : ℕ
  totalSlotSize : ℕ
  deriving DecidableEq, Repr

def alignedStart (r : SubTensorReq) : ℕ := alignFloor r.fileOffset dioSectorSize

def alignedEnd (r : SubTensorReq) : ℕ := alignCeil (r.fileOffset + r.byteSize) dioSectorSize

/-- The length field is a `uint32_t`. -/
def alignedLen (r : SubTensorReq) : ℕ := (alignedEnd r - alignedStart r) % 2 ^ 32

/-- One turn of the loop, with the running staging offset. -/
def sliceOf (curStagingOffset : ℕ) (r : SubTensorReq) : TensorSliceRead where
  shardIdx := r.shardIdx
  fileReadStart := alignedStart r
  fileReadLen := alignedLen r
  column := r.column
  stagingOffset := curStagingOffset
  copySrcOffset := curStagingOffset + (r.fileOffset - alignedStart r)
  copyDstOffset := r.colOff
  copyByteLen := r.byteSize
  direct := alignedStart r == r.fileOffset && r.byteSize % dioSectorSize == 0

def stagingStep (curStagingOffset : ℕ) (r : SubTensorReq) : ℕ :=
  curStagingOffset + alignCeil (alignedLen r) dioSectorSize

def planSlices : ℕ → List SubTensorReq → List TensorSliceRead
  | _, [] => []
  | cur, r :: rs => sliceOf cur r :: planSlices (stagingStep cur r) rs

def buildExpertReadPlan (reqs : List SubTensorReq) : ExpertReadPlan :=
  if reqs.length = 0 ∨ maxSubTensorsPerExpert < reqs.length then
    { slices := [], totalStagingSize := 0, totalSlotSize := 0 }
  else
    { slices := planSlices 0 reqs
      totalStagingSize := reqs.foldl stagingStep 0
      totalSlotSize := alignCeil ((reqs.map SubTensorReq.byteSize).foldl max 0) dioSectorSize }

theorem foldl_max_le_iff {l : List ℕ} {x n : ℕ} : l.foldl max x ≤ n ↔ x ≤ n ∧ ∀ y ∈ l, y ≤ n := by
  induction l generalizing x with
  | nil => simp
  | cons y l ih =>
    rw [List.foldl_cons, ih, Nat.max_le, List.forall_mem_cons, and_assoc]

theorem alignFloor_le (v : ℕ) : alignFloor v dioSectorSize ≤ v := Nat.div_mul_le_self _ _

theorem alignFloor_mod (v : ℕ) : alignFloor v dioSectorSize % 4096 = 0 := Nat.mul_mod_left _ _

theorem alignCeil_mod (v : ℕ) : alignCeil v dioSectorSize % 4096 = 0 := Nat.mul_mod_left _ _

theorem le_alignCeil (v : ℕ) : v ≤ alignCeil v dioSectorSize := by
  simp only [alignCeil, dioSectorSize]
  omega

theorem alignCeil_lt (v : ℕ) : alignCeil v dioSectorSize < v + 4096 := by
  simp only [alignCeil, dioSectorSize]
  omega

theorem alignCeil_of_mod {v : ℕ} (h : v % 4096 = 0) : alignCeil v dioSectorSize = v := by
  simp only [alignCeil, dioSectorSize]
  omega

theorem alignedStart_le (r : SubTensorReq) : alignedStart r ≤ r.fileOffset :=
  alignFloor_le r.fileOffset

/-- The sectors a request touches, before the cast to `uint32_t`. -/
def span (r : SubTensorReq) : ℕ := alignedEnd r - alignedStart r

theorem alignedLen_eq (r : SubTensorReq) : alignedLen r = span r % 2 ^ 32 := rfl

theorem payload_le_span (r : SubTensorReq) :
    r.fileOffset - alignedStart r + r.byteSize ≤ span r := by
  have h₁ : r.fileOffset + r.byteSize ≤ alignedEnd r := le_alignCeil _
  have h₂ := alignedStart_le r
  simp only [span]
  omega

theorem span_mod (r : SubTensorReq) : span r % 4096 = 0 := by
  have h₁ : alignedEnd r % 4096 = 0 := alignCeil_mod _
  have h₂ : alignedStart r % 4096 = 0 := alignFloor_mod _
  simp only [span]
  omega

theorem span_lt (r : SubTensorReq) :
    span r < r.fileOffset - alignedStart r + r.byteSize + 4096 := by
  have h₁ : alignedEnd r < r.fileOffset + r.byteSize + 4096 := alignCeil_lt _
  have h₂ := alignedStart_le r
  simp only [span]
  omega

theorem alignedLen_mod (r : SubTensorReq) : alignedLen r % 4096 = 0 := by
  have h := span_mod r
  rw [alignedLen_eq]
  omega

theorem stagingStep_eq (cur : ℕ) (r : SubTensorReq) : stagingStep cur r = cur + alignedLen r := by
  rw [stagingStep, alignCeil_of_mod (alignedLen_mod r)]

/-- A window that was not truncated contains its payload. -/
theorem payload_le_alignedLen {r : SubTensorReq} (h : span r < 2 ^ 32) :
    r.fileOffset - alignedStart r + r.byteSize ≤ alignedLen r := by
  rw [alignedLen_eq, Nat.mod_eq_of_lt h]
  exact payload_le_span r

/-- A truncated window ends before the last payload byte. -/
theorem alignedLen_lt_payload {r : SubTensorReq} (h : 2 ^ 32 ≤ span r) :
    alignedLen r < r.fileOffset - alignedStart r + r.byteSize := by
  have h₁ := span_lt r
  have h₂ := alignedLen_mod r
  have h₃ : alignedLen r < 2 ^ 32 := by
    rw [alignedLen_eq]
    exact Nat.mod_lt _ (by decide)
  have h₄ := span_mod r
  omega

/-- A direct slice starts at its payload and its window is no longer than the payload. -/
theorem direct_window {cur : ℕ} {r : SubTensorReq} (h : (sliceOf cur r).direct = true) :
    alignedStart r = r.fileOffset ∧ alignedLen r ≤ r.byteSize := by
  simp only [sliceOf, Bool.and_eq_true, beq_iff_eq] at h
  obtain ⟨h₁, h₂⟩ := h
  refine ⟨h₁, ?_⟩
  have h₃ := span_lt r
  have h₄ := payload_le_span r
  have h₅ := span_mod r
  have h₆ : alignedLen r ≤ span r := Nat.mod_le _ _
  simp only [dioSectorSize] at h₂
  omega

theorem length_planSlices (cur : ℕ) (reqs : List SubTensorReq) :
    (planSlices cur reqs).length = reqs.length := by
  induction reqs generalizing cur with
  | nil => rfl
  | cons r rs ih => simp [planSlices, ih]

/-- Slice `i` of a plan is the request `i` at its own staging offset. -/
theorem getElem_planSlices (cur : ℕ) (reqs : List SubTensorReq) (i : ℕ)
    (h : i < (planSlices cur reqs).length) (h' : i < reqs.length) :
    (planSlices cur reqs)[i] = sliceOf ((reqs.take i).foldl stagingStep cur) reqs[i] := by
  induction reqs generalizing cur i with
  | nil => exact absurd h' (Nat.not_lt_zero i)
  | cons r rs ih =>
    cases i with
    | zero => rfl
    | succ i =>
      simp only [planSlices, List.getElem_cons_succ, List.take_succ_cons, List.foldl_cons]
      exact ih _ i _ (Nat.lt_of_succ_lt_succ h')

theorem le_foldl_stagingStep (cur : ℕ) (reqs : List SubTensorReq) :
    cur ≤ reqs.foldl stagingStep cur := by
  induction reqs generalizing cur with
  | nil => exact Nat.le_refl _
  | cons r rs ih => exact Nat.le_trans (Nat.le_add_right _ _) (ih (stagingStep cur r))

theorem staging_apart (cur : ℕ) (reqs : List SubTensorReq) :
    (planSlices cur reqs).Pairwise fun a b => a.stagingOffset + a.fileReadLen ≤ b.stagingOffset := by
  induction reqs generalizing cur with
  | nil => exact List.Pairwise.nil
  | cons r rs ih =>
    refine List.Pairwise.cons ?_ (ih _)
    intro b hb
    obtain ⟨i, hi, rfl⟩ := List.mem_iff_getElem.mp hb
    have hi' : i < rs.length := length_planSlices _ rs ▸ hi
    rw [getElem_planSlices _ rs i hi hi']
    have h := le_foldl_stagingStep (stagingStep cur r) (rs.take i)
    rw [stagingStep_eq] at h ⊢
    exact h

end ReadPlan
end StreamMoE
