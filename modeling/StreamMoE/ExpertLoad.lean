import Mathlib.Data.Int.Notation
import Mathlib.Logic.Function.Basic
import StreamMoE.PoolGeometry
import StreamMoE.ReadPlan
import StreamMoE.TransitionSystem

/-! One expert load: the requests `build_topology` makes for an expert,
`start_async_load` and the completions `drain_completions` settles, with the bytes
they move. -/
namespace StreamMoE
namespace ExpertLoad

open ByteMemory PoolGeometry ReadPlan TransitionSystem

/-- A source segment of one branch (`per_expert_srcs[e]`). -/
structure Segment where
  file : ℕ
  off : ℕ
  len : ℕ
  deriving DecidableEq, Repr

def perExpert (branch : List Segment) : ℕ := (branch.map Segment.len).sum

def branchReqs (colOrd : ℕ) : ℕ → List Segment → List SubTensorReq
  | _, [] => []
  | colStart, s :: ss =>
      { shardIdx := s.file, fileOffset := s.off, byteSize := s.len, column := colOrd,
        colOff := colStart } :: branchReqs colOrd (colStart + s.len) ss

def expertReqs : ℕ → List (List Segment) → List SubTensorReq
  | _, [] => []
  | colOrd, b :: bs => branchReqs colOrd 0 b ++ expertReqs (colOrd + 1) bs

/-- An expert and the slot it is loaded into. The columns of the slot's region have the strides of its group,
whatever the branches of the expert are. -/
structure LoadInput where
  geometry : Geometry
  slot : ℕ
  subpool : Subpool
  strides : List ℕ
  branches : List (List Segment)
  owner : subpoolOfSlot geometry slot = some subpool
  columns : subpool.cols = fillCols subpool.nSlots 0 0 strides
  count_le : (expertReqs 0 branches).length ≤ maxSubTensorsPerExpert

def LoadInput.reqs (E : LoadInput) : List SubTensorReq := expertReqs 0 E.branches

def LoadInput.plan (E : LoadInput) : ExpertReadPlan := buildExpertReadPlan E.reqs

/-- `aligned_buf` of a request: an address in the pool or an offset in the staging area. -/
inductive Buf
  | pool (addr : ℕ)
  | staging (off : ℕ)
  deriving DecidableEq, Repr

inductive ReqState
  | idle
  | inFlight (buf : Buf)
  | landed (ok : Bool)
  | drained
  deriving DecidableEq, Repr

inductive DirState
  | loading | ready | absent
  deriving DecidableEq, Repr

/-- `async_load_t` with the memories its requests write. `shiftUndefined` records that a
shift of a 32-bit word by 32 or more was evaluated. -/
structure Load where
  mem : ℕ → UInt8
  staging : ℕ → UInt8
  reqs : ℕ → ReqState
  pending : ℤ
  failed : Bool
  stagingMask : BitVec 8
  shiftUndefined : Bool
  dir : DirState

def sliceBit (s : ℕ) : BitVec 8 := ((1#32) <<< s).setWidth 8

/-- Whether the slice is read straight into its column; undefined without the column. -/
def useDirect (E : LoadInput) (sl : TensorSliceRead) : Option Bool :=
  if sl.direct then
    (slotColMem E.geometry E.slot sl.column).map fun dst => isAligned (dst + sl.copyDstOffset)
  else some false

/-- Address of the slice's payload in the slot. -/
def dstAddr (E : LoadInput) (sl : TensorSliceRead) : ℕ :=
  (slotColMem E.geometry E.slot sl.column).getD 0 + sl.copyDstOffset

def alignedBuf (E : LoadInput) (sl : TensorSliceRead) (direct : Bool) : Buf :=
  if direct then .pool (dstAddr E sl) else .staging sl.stagingOffset

def markStaging (s : ℕ) (t : Load) : Load :=
  if 32 ≤ s then { t with shiftUndefined := true }
  else { t with stagingMask := t.stagingMask ||| sliceBit s }

def submitSlices (E : LoadInput) (accept : ℕ → Bool) : ℕ → List TensorSliceRead → Load → Load
  | _, [], t => t
  | s, sl :: rest, t =>
      match useDirect E sl with
      | none => { t with failed := true }
      | some direct =>
          let t := if direct then t else markStaging s t
          if accept s then
            submitSlices E accept (s + 1) rest
              { t with
                reqs := Function.update t.reqs s (.inFlight (alignedBuf E sl direct))
                pending := t.pending + 1 }
          else { t with failed := true }

def newLoad (mem staging : ℕ → UInt8) : Load :=
  { mem := mem, staging := staging, reqs := fun _ => .idle, pending := 0, failed := false,
    stagingMask := 0#8, shiftUndefined := false, dir := .loading }

/-- `accept` are the answers of `submit_batch`; no load when nothing was submitted. -/
def startAsyncLoad (E : LoadInput) (accept : ℕ → Bool) (mem staging : ℕ → UInt8) : Option Load :=
  let t := submitSlices E accept 0 E.plan.slices (newLoad mem staging)
  if t.pending = 0 then none else some t

/-- The device writes the whole window of a request that succeeds. -/
def landSlice (files : ℕ → ℕ → UInt8) (sl : TensorSliceRead) (buf : Buf) (t : Load) : Load :=
  let bytes := fun i => files sl.shardIdx (sl.fileReadStart + i)
  match buf with
  | .pool a => { t with mem := blit t.mem a sl.fileReadLen bytes }
  | .staging o => { t with staging := blit t.staging o sl.fileReadLen bytes }

def copySlice (E : LoadInput) (sl : TensorSliceRead) (t : Load) : Load :=
  match slotColMem E.geometry E.slot sl.column with
  | none => t
  | some _ =>
      { t with
        mem := blit t.mem (dstAddr E sl) sl.copyByteLen fun i => t.staging (sl.copySrcOffset + i) }

/-- The completion of one slice, up to the count-down. -/
def drainSlice (E : LoadInput) (s : ℕ) (sl : TensorSliceRead) (ok : Bool) (t : Load) : Load :=
  if ok = false then { t with failed := true }
  else if t.failed then t
  else if 32 ≤ s then { t with shiftUndefined := true }
  else if t.stagingMask &&& sliceBit s ≠ 0#8 then copySlice E sl t
  else t

def settle (t : Load) : Load :=
  if t.pending = 0 then { t with dir := if t.failed then .absent else .ready } else t

inductive Action
  | land (s : ℕ) (ok : Bool)
  | drain (s : ℕ)
  deriving DecidableEq, Repr

def step (E : LoadInput) (files : ℕ → ℕ → UInt8) (t : Load) : Action → Option Load
  | .land s ok =>
      match E.plan.slices[s]?, t.reqs s with
      | some sl, .inFlight buf =>
          let t' := if ok then landSlice files sl buf t else t
          some { t' with reqs := Function.update t'.reqs s (.landed ok) }
      | _, _ => none
  | .drain s =>
      match E.plan.slices[s]?, t.reqs s with
      | some sl, .landed ok =>
          let t' := drainSlice E s sl ok t
          some (settle
            { t' with
              reqs := Function.update t'.reqs s .drained
              pending := t'.pending - 1 })
      | _, _ => none

/-- Runs of one load over given file contents, from any memory and any submission outcome. -/
def machine (E : LoadInput) (files : ℕ → ℕ → UInt8) : Machine Load Action where
  init t := ∃ accept mem staging, startAsyncLoad E accept mem staging = some t
  step := step E files

/-- Byte `i` of the payload the plan assigns to a slice. -/
def assigned (files : ℕ → ℕ → UInt8) (sl : TensorSliceRead) (i : ℕ) : UInt8 :=
  files sl.shardIdx (sl.fileReadStart + (sl.copySrcOffset - sl.stagingOffset) + i)

/-- The payload lies within the column slice of the slot. -/
def InColumn (E : LoadInput) (sl : TensorSliceRead) : Prop :=
  ∃ c, E.subpool.cols[sl.column]? = some c ∧ sl.copyDstOffset + sl.copyByteLen ≤ c.stride

/-- Every load that settles READY has all its column slices, whatever the files, the
previous memory, the submissions and the order of completions. -/
def ContentCorrect (E : LoadInput) : Prop :=
  ∀ files t, Reach (machine E files) anyStep t →
    t.shiftUndefined = false ∧
      (t.dir = .ready → ∀ (s : ℕ) (sl : TensorSliceRead), E.plan.slices[s]? = some sl → 0 < sl.copyByteLen →
        InColumn E sl ∧ Holds t.mem (dstAddr E sl) sl.copyByteLen (assigned files sl))

/-- At most 32 slices. No slice that the plan marks direct is without a column; and every non-empty slice fits
its column, has a window of less than 2^32 bytes, and has an index below 8 if it goes through staging. -/
def Loadable (E : LoadInput) : Prop :=
  E.reqs.length ≤ 32 ∧
    ∀ (s : ℕ) (r : SubTensorReq), E.reqs[s]? = some r → useDirect E (sliceOf 0 r) ≠ none ∧
      (0 < r.byteSize → InColumn E (sliceOf 0 r) ∧ span r < 2 ^ 32 ∧ (useDirect E (sliceOf 0 r) = some false → s < 8))

/-- The plan marks the slice direct and the region has no column for it. -/
def Barred (E : LoadInput) (k : ℕ) : Prop := ∃ r, E.reqs[k]? = some r ∧ useDirect E (sliceOf 0 r) = none

/-- The submission stops at a slice without a column, and no slice from index 32 on went through staging
before. -/
def FailsEarly (E : LoadInput) : Prop :=
  ∃ k, Barred E k ∧ ∀ s < k, ∀ r, E.reqs[s]? = some r →
    useDirect E (sliceOf 0 r) ≠ none ∧ (32 ≤ s → useDirect E (sliceOf 0 r) = some true)

theorem plan_slices (E : LoadInput) : E.plan.slices = planSlices 0 E.reqs := by
  unfold LoadInput.plan buildExpertReadPlan
  by_cases hlen : E.reqs.length = 0
  · have hnil : E.reqs = [] := List.eq_nil_of_length_eq_zero hlen
    simp [hnil, planSlices]
  · have hle : E.reqs.length ≤ maxSubTensorsPerExpert := E.count_le
    have hok : ¬ (E.reqs.length = 0 ∨ maxSubTensorsPerExpert < E.reqs.length) := by omega
    rw [if_neg hok]

/-- A slice of the plan is a request at some staging offset. -/
theorem slice_eq {E : LoadInput} {s : ℕ} {sl : TensorSliceRead}
    (h : E.plan.slices[s]? = some sl) :
    ∃ cur r, E.reqs[s]? = some r ∧ sl = sliceOf cur r := by
  rw [plan_slices] at h
  obtain ⟨hlt, rfl⟩ := List.getElem?_eq_some_iff.mp h
  have hlt' : s < E.reqs.length := length_planSlices 0 E.reqs ▸ hlt
  exact ⟨_, E.reqs[s], List.getElem?_eq_getElem hlt', getElem_planSlices 0 E.reqs s hlt hlt'⟩

theorem slice_of_req {E : LoadInput} {s : ℕ} {r : SubTensorReq} (h : E.reqs[s]? = some r) :
    ∃ cur, E.plan.slices[s]? = some (sliceOf cur r) := by
  obtain ⟨hlt, rfl⟩ := List.getElem?_eq_some_iff.mp h
  have hlt' : s < (planSlices 0 E.reqs).length := (length_planSlices 0 E.reqs).symm ▸ hlt
  rw [plan_slices, List.getElem?_eq_getElem hlt']
  exact ⟨_, congrArg some (getElem_planSlices 0 E.reqs s hlt' hlt)⟩

theorem length_slices (E : LoadInput) : E.plan.slices.length = E.reqs.length := by
  rw [plan_slices, length_planSlices]

theorem staging_le {E : LoadInput} {i j : ℕ} {a b : TensorSliceRead} (hij : i < j)
    (ha : E.plan.slices[i]? = some a) (hb : E.plan.slices[j]? = some b) :
    a.stagingOffset + a.fileReadLen ≤ b.stagingOffset := by
  rw [plan_slices] at ha hb
  obtain ⟨hi, rfl⟩ := List.getElem?_eq_some_iff.mp ha
  obtain ⟨hj, rfl⟩ := List.getElem?_eq_some_iff.mp hb
  exact List.pairwise_iff_getElem.mp (staging_apart 0 E.reqs) i j hi hj hij

theorem staging_slices_apart {E : LoadInput} {i j : ℕ} {a b : TensorSliceRead} (hij : i ≠ j)
    (ha : E.plan.slices[i]? = some a) (hb : E.plan.slices[j]? = some b) :
    Apart a.stagingOffset a.fileReadLen b.stagingOffset b.fileReadLen := by
  rcases Nat.lt_or_gt_of_ne hij with h | h
  · exact .inl (staging_le h ha hb)
  · exact .inr (staging_le h hb ha)

theorem mem_branchReqs {col start : ℕ} {ss : List Segment} {r : SubTensorReq}
    (h : r ∈ branchReqs col start ss) :
    r.column = col ∧ start ≤ r.colOff ∧ r.colOff + r.byteSize ≤ start + perExpert ss := by
  induction ss generalizing start with
  | nil => cases h
  | cons s ss ih =>
    have hsum : perExpert (s :: ss) = s.len + perExpert ss := by
      simp only [perExpert, List.map_cons, List.sum_cons]
    rcases List.mem_cons.mp h with rfl | h
    · refine ⟨rfl, Nat.le_refl _, ?_⟩
      simp only [hsum]
      omega
    · obtain ⟨h₁, h₂, h₃⟩ := ih h
      refine ⟨h₁, ?_, ?_⟩
      · omega
      · rw [hsum]
        omega

theorem mem_expertReqs {col : ℕ} {bs : List (List Segment)} {r : SubTensorReq}
    (h : r ∈ expertReqs col bs) :
    ∃ c b, bs[c]? = some b ∧ r.column = col + c ∧ r.colOff + r.byteSize ≤ perExpert b := by
  induction bs generalizing col with
  | nil => cases h
  | cons b bs ih =>
    rcases List.mem_append.mp h with h | h
    · obtain ⟨h₁, _, h₃⟩ := mem_branchReqs h
      exact ⟨0, b, rfl, h₁, by omega⟩
    · obtain ⟨c, b', h₁, h₂, h₃⟩ := ih h
      exact ⟨c + 1, b', h₁, by omega, h₃⟩

/-- Requests are ordered by column, and inside a column by offset. -/
def Before (a b : SubTensorReq) : Prop :=
  a.column < b.column ∨ a.column = b.column ∧ a.colOff + a.byteSize ≤ b.colOff

theorem branchReqs_pairwise (col start : ℕ) (ss : List Segment) :
    (branchReqs col start ss).Pairwise Before := by
  induction ss generalizing start with
  | nil => exact List.Pairwise.nil
  | cons s ss ih =>
    refine List.Pairwise.cons ?_ (ih _)
    intro b hb
    obtain ⟨h₁, h₂, _⟩ := mem_branchReqs hb
    exact .inr ⟨h₁.symm, h₂⟩

theorem expertReqs_pairwise (col : ℕ) (bs : List (List Segment)) :
    (expertReqs col bs).Pairwise Before := by
  induction bs generalizing col with
  | nil => exact List.Pairwise.nil
  | cons b bs ih =>
    rw [expertReqs, List.pairwise_append]
    refine ⟨branchReqs_pairwise _ _ _, ih _, ?_⟩
    intro x hx y hy
    obtain ⟨h₁, _⟩ := mem_branchReqs hx
    obtain ⟨c, _, _, h₂, _⟩ := mem_expertReqs hy
    exact .inl (by omega)

theorem InColumn.slotColMem {E : LoadInput} {sl : TensorSliceRead} (h : InColumn E sl) :
    ∃ c, E.subpool.cols[sl.column]? = some c ∧ sl.copyDstOffset + sl.copyByteLen ≤ c.stride ∧
      slotColMem E.geometry E.slot sl.column = some (colSlice E.subpool c E.slot) := by
  obtain ⟨c, hc, hroom⟩ := h
  refine ⟨c, hc, hroom, ?_⟩
  rw [slotColMem_eq E.owner, hc, Option.map_some]

theorem mem_reqs_of_getElem? {E : LoadInput} {s : ℕ} {r : SubTensorReq}
    (h : E.reqs[s]? = some r) : r ∈ E.reqs := List.mem_of_getElem? h

@[simp] theorem useDirect_sliceOf (E : LoadInput) (cur : ℕ) (r : SubTensorReq) :
    useDirect E (sliceOf cur r) = useDirect E (sliceOf 0 r) := rfl

@[simp] theorem dstAddr_sliceOf (E : LoadInput) (cur : ℕ) (r : SubTensorReq) :
    dstAddr E (sliceOf cur r) = dstAddr E (sliceOf 0 r) := rfl

theorem dstAddr_eq {E : LoadInput} {r : SubTensorReq} {c : Column}
    (h : slotColMem E.geometry E.slot r.column = some (colSlice E.subpool c E.slot)) :
    dstAddr E (sliceOf 0 r) = colSlice E.subpool c E.slot + r.colOff := by
  simp only [dstAddr, sliceOf, h, Option.getD_some]

theorem dst_le {E : LoadInput} {i j : ℕ} {a b : SubTensorReq} (hij : i < j)
    (ha : E.reqs[i]? = some a) (hb : E.reqs[j]? = some b) (hina : InColumn E (sliceOf 0 a))
    (hinb : InColumn E (sliceOf 0 b)) :
    dstAddr E (sliceOf 0 a) + a.byteSize ≤ dstAddr E (sliceOf 0 b) := by
  obtain ⟨ca, hca, hroomA, hmemA⟩ := hina.slotColMem
  obtain ⟨cb, hcb, hroomB, hmemB⟩ := hinb.slotColMem
  simp only [sliceOf] at hca hcb hroomA hroomB hmemA hmemB
  rw [dstAddr_eq hmemA, dstAddr_eq hmemB]
  obtain ⟨hi, rfl⟩ := List.getElem?_eq_some_iff.mp ha
  obtain ⟨hj, rfl⟩ := List.getElem?_eq_some_iff.mp hb
  have hbefore : Before E.reqs[i] E.reqs[j] :=
    List.pairwise_iff_getElem.mp (expertReqs_pairwise 0 E.branches) i j hi hj hij
  rcases hbefore with hlt | ⟨heq, hle⟩
  · obtain ⟨hla, rfl⟩ := List.getElem?_eq_some_iff.mp hca
    obtain ⟨hlb, rfl⟩ := List.getElem?_eq_some_iff.mp hcb
    have happart := colSlice_apart E.columns (owns_of_subpoolOfSlot E.owner) hlt hla hlb
    omega
  · rw [heq, hcb] at hca
    cases hca
    omega

/-- Different slices in their columns have disjoint destinations. -/
theorem dst_apart {E : LoadInput} {i j : ℕ} {a b : SubTensorReq} (hij : i ≠ j)
    (ha : E.reqs[i]? = some a) (hb : E.reqs[j]? = some b) (hina : InColumn E (sliceOf 0 a))
    (hinb : InColumn E (sliceOf 0 b)) :
    Apart (dstAddr E (sliceOf 0 a)) a.byteSize (dstAddr E (sliceOf 0 b)) b.byteSize := by
  rcases Nat.lt_or_gt_of_ne hij with h | h
  · exact .inl (dst_le h ha hb hina hinb)
  · exact .inr (dst_le h hb ha hinb hina)

theorem direct_of_useDirect {E : LoadInput} {sl : TensorSliceRead}
    (h : useDirect E sl = some true) : sl.direct = true := by
  unfold useDirect at h
  split at h
  · assumption
  · cases h

@[simp] theorem assigned_sliceOf (files : ℕ → ℕ → UInt8) (cur : ℕ) (r : SubTensorReq) (i : ℕ) :
    assigned files (sliceOf cur r) i = files r.shardIdx (r.fileOffset + i) := by
  have h := alignedStart_le r
  have h' : alignedStart r + (cur + (r.fileOffset - alignedStart r) - cur) = r.fileOffset := by
    omega
  simp only [assigned, sliceOf, h']

theorem Loadable.inColumn {E : LoadInput} (hE : Loadable E) {s : ℕ} {sl : TensorSliceRead}
    (h : E.plan.slices[s]? = some sl) (hlen : 0 < sl.copyByteLen) : InColumn E sl := by
  obtain ⟨cur, r, hr, rfl⟩ := slice_eq h
  exact ((hE.2 s r hr).2 hlen).1

end ExpertLoad
end StreamMoE
