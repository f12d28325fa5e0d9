import Mathlib.Data.Nat.Bitwise
import StreamMoE.ReadPlan

/-! `build_expert_read_plan` on machine words: file offsets and lengths of 64 bits, a window length of
32 bits, and the masks of `align_floor` and `align_ceil`. -/
namespace StreamMoE
namespace ReadWindows

open ReadPlan (SubTensorReq TensorSliceRead dioSectorSize maxSubTensorsPerExpert)

structure Req where
  shardIdx : UInt32
  fileOffset : UInt64
  byteSize : UInt64
  column : UInt32
  colOff : UInt64
  deriving DecidableEq, Repr

structure Slice where
  shardIdx : UInt32
  fileReadStart : UInt64
  fileReadLen : UInt32
  column : UInt32
  stagingOffset : UInt64
  copySrcOffset : UInt64
  copyDstOffset : UInt64
  copyByteLen : UInt64
  direct : Bool
  deriving DecidableEq, Repr

structure Plan where
  slices : List Slice
  totalStagingSize : UInt64
  totalSlotSize : UInt64
  deriving DecidableEq, Repr

/-- `val & ~(align - 1)` with the sector size as alignment. -/
def alignFloor (val : UInt64) : UInt64 := val &&& ~~~(4096 - 1)

def alignCeil (val : UInt64) : UInt64 := (val + (4096 - 1)) &&& ~~~(4096 - 1)

def alignCeil32 (val : UInt32) : UInt32 := (val + (4096 - 1)) &&& ~~~(4096 - 1)

def alignedStart (r : Req) : UInt64 := alignFloor r.fileOffset

def alignedLen (r : Req) : UInt32 := (alignCeil (r.fileOffset + r.byteSize) - alignedStart r).toUInt32

def sliceOf (cur : UInt64) (r : Req) : Slice where
  shardIdx := r.shardIdx
  fileReadStart := alignedStart r
  fileReadLen := alignedLen r
  column := r.column
  stagingOffset := cur
  copySrcOffset := cur + (r.fileOffset - alignedStart r)
  copyDstOffset := r.colOff
  copyByteLen := r.byteSize
  direct := alignedStart r == r.fileOffset && r.byteSize % 4096 == 0

def stagingStep (cur : UInt64) (r : Req) : UInt64 := cur + (alignCeil32 (alignedLen r)).toUInt64

def planSlices : UInt64 → List Req → List Slice
  | _, [] => []
  | cur, r :: rs => sliceOf cur r :: planSlices (stagingStep cur r) rs

def slotExtent (reqs : List Req) : UInt64 :=
  reqs.foldl (fun extent r => if r.byteSize > extent then r.byteSize else extent) 0

def buildExpertReadPlan (reqs : List Req) : Plan :=
  if reqs.length = 0 ∨ maxSubTensorsPerExpert < reqs.length then
    { slices := [], totalStagingSize := 0, totalSlotSize := 0 }
  else
    { slices := planSlices 0 reqs
      totalStagingSize := reqs.foldl stagingStep 0
      totalSlotSize := alignCeil (slotExtent reqs) }

/-- The request with its numbers. -/
def Req.nat (r : Req) : SubTensorReq where
  shardIdx := r.shardIdx.toNat
  fileOffset := r.fileOffset.toNat
  byteSize := r.byteSize.toNat
  column := r.column.toNat
  colOff := r.colOff.toNat

def Slice.nat (s : Slice) : TensorSliceRead where
  shardIdx := s.shardIdx.toNat
  fileReadStart := s.fileReadStart.toNat
  fileReadLen := s.fileReadLen.toNat
  column := s.column.toNat
  stagingOffset := s.stagingOffset.toNat
  copySrcOffset := s.copySrcOffset.toNat
  copyDstOffset := s.copyDstOffset.toNat
  copyByteLen := s.copyByteLen.toNat
  direct := s.direct

section mask

/-- Clearing the low bits of a number. -/
theorem and_mask (v k w : ℕ) (hk : k ≤ w) (hv : v < 2 ^ w) : v &&& (2 ^ w - 2 ^ k) = v / 2 ^ k * 2 ^ k := by
  have hmask : 2 ^ w - 2 ^ k = (2 ^ (w - k) - 1) <<< k := by
    rw [Nat.shiftLeft_eq, Nat.sub_mul, ← Nat.pow_add, Nat.sub_add_cancel hk, Nat.one_mul]
  have hshift : v / 2 ^ k * 2 ^ k = (v >>> k) <<< k := by
    rw [Nat.shiftLeft_eq, Nat.shiftRight_eq_div_pow]
  rw [hmask, hshift]
  apply Nat.eq_of_testBit_eq
  intro i
  rw [Nat.testBit_and, Nat.testBit_shiftLeft, Nat.testBit_shiftLeft, Nat.testBit_shiftRight,
    Nat.testBit_two_pow_sub_one]
  by_cases hi : k ≤ i
  · rw [show k + (i - k) = i by omega]
    by_cases hbit : v.testBit i = true
    · have hlt : i < w := by
        by_contra hge
        have hpow : 2 ^ w ≤ 2 ^ i := Nat.pow_le_pow_right (by omega) (by omega)
        rw [Nat.testBit_lt_two_pow (by omega)] at hbit
        cases hbit
      simp [hbit, hi, show i - k < w - k by omega]
    · simp [hbit]
  · simp [hi]

theorem toNat_alignFloor (v : UInt64) : (alignFloor v).toNat = v.toNat / 4096 * 4096 := by
  have hmask : (~~~(4096 - 1) : UInt64).toNat = 2 ^ 64 - 2 ^ 12 := rfl
  rw [alignFloor, UInt64.toNat_and, hmask, and_mask _ _ _ (by omega) v.toNat_lt]
  rfl

theorem toNat_alignCeil (v : UInt64) : (alignCeil v).toNat = (v.toNat + 4095) % 2 ^ 64 / 4096 * 4096 := by
  have hone : (4096 - 1 : UInt64).toNat = 4095 := rfl
  rw [alignCeil, ← alignFloor, toNat_alignFloor, UInt64.toNat_add, hone]

theorem toNat_alignCeil32 (v : UInt32) :
    (alignCeil32 v).toNat = (v.toNat + 4095) % 2 ^ 32 / 4096 * 4096 := by
  have hmask : (~~~(4096 - 1) : UInt32).toNat = 2 ^ 32 - 2 ^ 12 := rfl
  have hone : (4096 - 1 : UInt32).toNat = 4095 := rfl
  rw [alignCeil32, UInt32.toNat_and, hmask, and_mask _ _ _ (by omega) (UInt32.toNat_lt _),
    UInt32.toNat_add, hone]
  rfl

end mask

section requests

variable (r : Req)

theorem toNat_alignedStart : (alignedStart r).toNat = ReadPlan.alignedStart r.nat := toNat_alignFloor _

/-- The difference of the two ends is the number of bytes of the sectors, however far the sum wraps. -/
theorem toNat_alignedLen : (alignedLen r).toNat = ReadPlan.alignedLen r.nat := by
  have hstart := toNat_alignedStart r
  have hend : (alignCeil (r.fileOffset + r.byteSize)).toNat = ReadPlan.alignedEnd r.nat % 2 ^ 64 := by
    rw [toNat_alignCeil, UInt64.toNat_add]
    simp only [ReadPlan.alignedEnd, ReadPlan.alignCeil, dioSectorSize, Req.nat]
    omega
  have hle : ReadPlan.alignedStart r.nat ≤ ReadPlan.alignedEnd r.nat := by
    have h₁ := ReadPlan.alignedStart_le r.nat
    have h₂ : r.nat.fileOffset + r.nat.byteSize ≤ ReadPlan.alignedEnd r.nat := ReadPlan.le_alignCeil _
    omega
  have hlt : ReadPlan.alignedStart r.nat < 2 ^ 64 := hstart ▸ (alignedStart r).toNat_lt
  rw [alignedLen, UInt64.toNat_toUInt32, UInt64.toNat_sub, hend, hstart, ReadPlan.alignedLen]
  omega

theorem toNat_windowStep : (alignCeil32 (alignedLen r)).toNat = ReadPlan.alignedLen r.nat := by
  have hmod := ReadPlan.alignedLen_mod r.nat
  have hlt := (alignedLen r).toNat_lt
  rw [toNat_alignCeil32, toNat_alignedLen] at *
  omega

variable {cur : UInt64}

theorem toNat_stagingStep (h : cur.toNat + ReadPlan.alignedLen r.nat < 2 ^ 64) :
    (stagingStep cur r).toNat = ReadPlan.stagingStep cur.toNat r.nat := by
  rw [stagingStep, UInt64.toNat_add, UInt32.toNat_toUInt64, toNat_windowStep, ReadPlan.stagingStep_eq,
    Nat.mod_eq_of_lt h]

theorem nat_sliceOf (h : cur.toNat + 4096 ≤ 2 ^ 64) : (sliceOf cur r).nat = ReadPlan.sliceOf cur.toNat r.nat := by
  have hle := ReadPlan.alignedStart_le r.nat
  have hstart := toNat_alignedStart r
  have hdiff : (r.fileOffset - alignedStart r).toNat = r.nat.fileOffset - ReadPlan.alignedStart r.nat := by
    rw [UInt64.toNat_sub_of_le _ _ (UInt64.le_iff_toNat_le.mpr (hstart ▸ hle)), hstart]
    rfl
  have hsmall : r.nat.fileOffset - ReadPlan.alignedStart r.nat < 4096 := by
    simp only [ReadPlan.alignedStart, ReadPlan.alignFloor, dioSectorSize]
    omega
  have hsrc : (cur + (r.fileOffset - alignedStart r)).toNat =
      cur.toNat + (r.nat.fileOffset - ReadPlan.alignedStart r.nat) := by
    rw [UInt64.toNat_add, hdiff, Nat.mod_eq_of_lt (by omega)]
  have hsame : (alignedStart r == r.fileOffset) = (ReadPlan.alignedStart r.nat == r.nat.fileOffset) := by
    rw [Bool.eq_iff_iff, beq_iff_eq, beq_iff_eq, ← hstart, ← UInt64.toNat_inj]
    rfl
  have hwhole : (r.byteSize % 4096 == 0) = (r.nat.byteSize % dioSectorSize == 0) := by
    have hzero : (0 : UInt64).toNat = 0 := rfl
    have hsector : (4096 : UInt64).toNat = dioSectorSize := rfl
    rw [Bool.eq_iff_iff, beq_iff_eq, beq_iff_eq, ← UInt64.toNat_inj, UInt64.toNat_mod, hzero, hsector]
    rfl
  simp only [Slice.nat, sliceOf, ReadPlan.sliceOf, hstart, hsrc, hsame, hwhole, toNat_alignedLen]
  rfl

end requests

section lists

variable (reqs : List Req)

theorem alignedLen_lt (r : SubTensorReq) : ReadPlan.alignedLen r < 2 ^ 32 := Nat.mod_lt _ (by decide)

/-- The staging offsets of a request list of the machine are those of its numbers. -/
theorem nat_planSlices {cur : UInt64} (h : cur.toNat + reqs.length * 2 ^ 32 < 2 ^ 64) :
    (planSlices cur reqs).map Slice.nat = ReadPlan.planSlices cur.toNat (reqs.map Req.nat) ∧
      (reqs.foldl stagingStep cur).toNat = (reqs.map Req.nat).foldl ReadPlan.stagingStep cur.toNat := by
  induction reqs generalizing cur with
  | nil => exact ⟨rfl, rfl⟩
  | cons r rs ih =>
    rw [List.length_cons] at h
    have hlt := alignedLen_lt r.nat
    have hstep : (stagingStep cur r).toNat = _ := toNat_stagingStep r (by omega)
    have hcur := ReadPlan.stagingStep_eq cur.toNat r.nat
    obtain ⟨hslices, htotal⟩ := @ih (stagingStep cur r) (by omega)
    rw [hstep] at hslices htotal
    constructor
    · rw [planSlices, List.map_cons, List.map_cons, ReadPlan.planSlices, nat_sliceOf r (by omega), hslices]
    · rw [List.foldl_cons, List.map_cons, List.foldl_cons, htotal]

theorem toNat_slotExtent :
    (slotExtent reqs).toNat = ((reqs.map Req.nat).map SubTensorReq.byteSize).foldl max 0 := by
  have hfold : ∀ m : UInt64,
      (reqs.foldl (fun extent r => if r.byteSize > extent then r.byteSize else extent) m).toNat =
        ((reqs.map Req.nat).map SubTensorReq.byteSize).foldl max m.toNat := by
    induction reqs with
    | nil => exact fun m => rfl
    | cons r rs ih =>
      intro m
      rw [List.foldl_cons, ih, List.map_cons, List.map_cons, List.foldl_cons]
      congr 1
      have hsize : r.nat.byteSize = r.byteSize.toNat := rfl
      rw [hsize]
      split
      case isTrue hgt =>
        have hlt := UInt64.lt_iff_toNat_lt.mp hgt
        omega
      case isFalse hle =>
        have hge := UInt64.le_iff_toNat_le.mp (UInt64.not_lt.mp hle)
        omega
  exact hfold 0

end lists

section spec

variable (reqs : List Req)

/-- A slice and the request it was made for: sectors around the payload, all of them, and the place of the
payload in the staging window. -/
structure Window (r : Req) (s : Slice) : Prop where
  start : s.fileReadStart.toNat % 4096 = 0
  sectors : s.fileReadLen.toNat % 4096 = 0
  low : s.fileReadStart.toNat ≤ r.fileOffset.toNat
  high : r.fileOffset.toNat + r.byteSize.toNat ≤ s.fileReadStart.toNat + s.fileReadLen.toNat
  length : s.fileReadLen.toNat = ReadPlan.alignedEnd r.nat - s.fileReadStart.toNat
  payload : s.copySrcOffset.toNat = s.stagingOffset.toNat + (r.fileOffset.toNat - s.fileReadStart.toNat)
  target : s.copyDstOffset = r.colOff ∧ s.copyByteLen = r.byteSize

structure WellFormed : Prop where
  windows : List.Forall₂ Window reqs (buildExpertReadPlan reqs).slices
  apart : (buildExpertReadPlan reqs).slices.Pairwise fun a b =>
    a.stagingOffset.toNat + a.fileReadLen.toNat ≤ b.stagingOffset.toNat
  staged : ∀ s ∈ (buildExpertReadPlan reqs).slices,
    s.stagingOffset.toNat + s.fileReadLen.toNat ≤ (buildExpertReadPlan reqs).totalStagingSize.toNat
  slot : ∀ s ∈ (buildExpertReadPlan reqs).slices,
    s.copyDstOffset.toNat + s.copyByteLen.toNat ≤ (buildExpertReadPlan reqs).totalSlotSize.toNat

/-- The sectors of every payload are fewer than 2^32 bytes, and no payload ends behind the longest one,
rounded up to sectors. -/
structure Fits : Prop where
  short : ∀ r ∈ reqs, ReadPlan.span r.nat < 2 ^ 32
  column : ∀ r ∈ reqs, r.colOff.toNat + r.byteSize.toNat ≤
    ReadPlan.alignCeil (((reqs.map Req.nat).map SubTensorReq.byteSize).foldl max 0) dioSectorSize

end spec

section wellFormed

variable {reqs : List Req}

/-- The plan of a list that is not too long. -/
theorem slices_eq (h : reqs.length ≤ maxSubTensorsPerExpert) :
    (buildExpertReadPlan reqs).slices = planSlices 0 reqs ∧
      (buildExpertReadPlan reqs).totalStagingSize = reqs.foldl stagingStep 0 := by
  cases reqs with
  | nil => exact ⟨rfl, rfl⟩
  | cons r rs =>
    rw [buildExpertReadPlan, if_neg (by rw [List.length_cons] at h ⊢; omega)]
    exact ⟨rfl, rfl⟩

/-- A window is the sectors of its payload unless its length does not fit 32 bits. -/
theorem window_iff {r : Req} {c : UInt64} (hc : c.toNat + 2 ^ 32 ≤ 2 ^ 64) :
    Window r (sliceOf c r) ↔ ReadPlan.span r.nat < 2 ^ 32 := by
  have hstart : (sliceOf c r).fileReadStart.toNat = ReadPlan.alignedStart r.nat := toNat_alignedStart r
  have hlen : (sliceOf c r).fileReadLen.toNat = ReadPlan.span r.nat % 2 ^ 32 := toNat_alignedLen r
  have hspan : ReadPlan.span r.nat = ReadPlan.alignedEnd r.nat - ReadPlan.alignedStart r.nat := rfl
  constructor
  · intro h
    have hlength := h.length
    rw [hlen, hstart, ← hspan] at hlength
    omega
  · intro h
    rw [Nat.mod_eq_of_lt h] at hlen
    have hslice := congrArg TensorSliceRead.copySrcOffset (@nat_sliceOf r c (by omega))
    have hle := ReadPlan.alignedStart_le r.nat
    have hpayload := ReadPlan.payload_le_span r.nat
    have hoff : r.fileOffset.toNat = r.nat.fileOffset := rfl
    have hsize : r.byteSize.toNat = r.nat.byteSize := rfl
    refine ⟨?_, ?_, by omega, by omega, by omega, ?_, rfl, rfl⟩
    · rw [hstart]
      exact ReadPlan.alignFloor_mod _
    · rw [hlen]
      exact ReadPlan.span_mod _
    · rw [hstart]
      exact hslice

section walk

variable {cur : UInt64} (hbound : cur.toNat + reqs.length * 2 ^ 32 < 2 ^ 64)

include hbound

theorem windows_iff : List.Forall₂ Window reqs (planSlices cur reqs) ↔ ∀ r ∈ reqs, ReadPlan.span r.nat < 2 ^ 32 := by
  induction reqs generalizing cur with
  | nil => simp [planSlices]
  | cons r rs ih =>
    rw [List.length_cons] at hbound
    have hlt := alignedLen_lt r.nat
    have hstep : (stagingStep cur r).toNat = _ := toNat_stagingStep r (by omega)
    rw [ReadPlan.stagingStep_eq] at hstep
    rw [planSlices, List.forall₂_cons, List.forall_mem_cons, window_iff (by omega), ih (by omega)]

theorem staged : ∀ s ∈ planSlices cur reqs,
    s.stagingOffset.toNat + s.fileReadLen.toNat ≤ (reqs.foldl stagingStep cur).toNat := by
  induction reqs generalizing cur with
  | nil => simp [planSlices]
  | cons r rs ih =>
    rw [List.length_cons] at hbound
    have hlt := alignedLen_lt r.nat
    have hstep : (stagingStep cur r).toNat = _ := toNat_stagingStep r (by omega)
    rw [ReadPlan.stagingStep_eq] at hstep
    rw [planSlices, List.forall_mem_cons, List.foldl_cons]
    refine ⟨?_, ih (by omega)⟩
    have hlen : (sliceOf cur r).fileReadLen.toNat = ReadPlan.alignedLen r.nat := toNat_alignedLen r
    have hoff : (sliceOf cur r).stagingOffset = cur := rfl
    rw [hoff, hlen, ← hstep, (nat_planSlices rs (by omega)).2]
    exact ReadPlan.le_foldl_stagingStep _ _

theorem staging_apart : (planSlices cur reqs).Pairwise fun a b =>
    a.stagingOffset.toNat + a.fileReadLen.toNat ≤ b.stagingOffset.toNat := by
  have hpair := ReadPlan.staging_apart cur.toNat (reqs.map Req.nat)
  rw [← (nat_planSlices reqs hbound).1, List.pairwise_map] at hpair
  exact hpair

end walk

theorem targets_iff {cur : UInt64} {n : ℕ} :
    (∀ s ∈ planSlices cur reqs, s.copyDstOffset.toNat + s.copyByteLen.toNat ≤ n) ↔
      ∀ r ∈ reqs, r.colOff.toNat + r.byteSize.toNat ≤ n := by
  induction reqs generalizing cur with
  | nil => simp [planSlices]
  | cons r rs ih =>
    rw [planSlices, List.forall_mem_cons, List.forall_mem_cons, ih]
    rfl

theorem toNat_totalSlotSize (h : reqs.length ≤ maxSubTensorsPerExpert)
    (hshort : ∀ r ∈ reqs, ReadPlan.span r.nat < 2 ^ 32) :
    (buildExpertReadPlan reqs).totalSlotSize.toNat =
      ReadPlan.alignCeil (((reqs.map Req.nat).map SubTensorReq.byteSize).foldl max 0) dioSectorSize := by
  cases reqs with
  | nil => rfl
  | cons r rs =>
    rw [buildExpertReadPlan, if_neg (by rw [List.length_cons] at h ⊢; omega)]
    have hextent : ((((r :: rs).map Req.nat).map SubTensorReq.byteSize).foldl max 0) ≤ 2 ^ 32 := by
      refine ReadPlan.foldl_max_le_iff.mpr ⟨Nat.zero_le _, ?_⟩
      rw [List.forall_mem_map, List.forall_mem_map]
      intro q hq
      have hpayload := ReadPlan.payload_le_span q.nat
      have hspan := hshort q hq
      omega
    rw [toNat_alignCeil, toNat_slotExtent, Nat.mod_eq_of_lt (by omega)]
    rfl

end wellFormed

/-- The plan is well formed exactly for requests whose sectors fit 32 bits and whose payloads end inside the
longest payload, rounded up. -/
theorem readPlan_wellFormed_iff (reqs : List Req) (h : reqs.length ≤ maxSubTensorsPerExpert) :
    WellFormed reqs ↔ Fits reqs := by
  have hbound : (0 : UInt64).toNat + reqs.length * 2 ^ 32 < 2 ^ 64 := by
    have hzero : (0 : UInt64).toNat = 0 := rfl
    have hmax : maxSubTensorsPerExpert = 64 := rfl
    omega
  obtain ⟨hslices, htotal⟩ := slices_eq h
  constructor
  · rintro ⟨hwindows, -, -, hslot⟩
    rw [hslices] at hwindows hslot
    have hshort := (windows_iff hbound).mp hwindows
    rw [toNat_totalSlotSize h hshort] at hslot
    exact ⟨hshort, targets_iff.mp hslot⟩
  · rintro ⟨hshort, hcolumn⟩
    refine ⟨?_, ?_, ?_, ?_⟩ <;> rw [hslices]
    · exact (windows_iff hbound).mpr hshort
    · exact staging_apart hbound
    · rw [htotal]
      exact staged hbound
    · rw [toNat_totalSlotSize h hshort]
      exact targets_iff.mpr hcolumn

def threeBranches : List Req := [⟨0, 1234, 54321, 0, 0⟩, ⟨0, 78901, 32100, 1, 0⟩, ⟨0, 200013, 65432, 2, 0⟩]

theorem readPlan_wellFormed_threeBranches : WellFormed threeBranches :=
  (readPlan_wellFormed_iff threeBranches (by decide)).mpr ⟨by decide, by decide⟩

/-- A branch in two parts: the second one begins behind the first in its column. -/
def twoParts : List Req := [⟨0, 0, 4096, 0, 0⟩, ⟨1, 0, 4096, 0, 4096⟩]

theorem not_readPlan_wellFormed :
    ¬ ∀ reqs : List Req, reqs.length ≤ maxSubTensorsPerExpert → WellFormed reqs := by
  intro h
  have hslot := (h twoParts (by decide)).slot (sliceOf 4096 ⟨1, 0, 4096, 0, 4096⟩) (by decide)
  revert hslot
  decide

end ReadWindows
end StreamMoE
