import StreamMoE.DioEngine
import StreamMoE.ExpertLoad

/-! How much of an expert was read when it is used: one asynchronous load from `start_async_load`
to `drain_completions`, and `read_expert_sync`, over either engine. -/
namespace StreamMoE
namespace FullRead

open ReadPlan ExpertLoad DioEngine TransitionSystem

/-- The shard files that are open and the address of the staging area. -/
structure Files where
  opened : ℕ → Bool
  staging : ℕ

/-- The bytes a read has to bring from the start of the slice's window to reach the end of its
payload. -/
def payloadEnd (sl : TensorSliceRead) : ℕ :=
  if sl.copyByteLen = 0 then 0 else sl.copySrcOffset - sl.stagingOffset + sl.copyByteLen

def Files.address (f : Files) : Buf → ℕ
  | .pool a => a
  | .staging o => f.staging + o

def sliceReq (f : Files) (sl : TensorSliceRead) (buf : Buf) : AioReq :=
  { hasHandle := f.opened sl.shardIdx, fileOffset := sl.fileReadStart, alignedBuf := f.address buf,
    alignedLen := sl.fileReadLen, userData := .load 0, bytesRead := 0, errorCode := 0,
    isCompleted := false }

/-- Where the request of a slice stands; `lost` is counted and will not be reported. -/
inductive Stage
  | idle | lost | flight | landed | drained
  deriving DecidableEq, Repr

/-- `submitting` and `stopped` are inside and behind the loop of `start_async_load`, `waiting` is
after its return. -/
inductive Phase
  | submitting | stopped | waiting
  deriving DecidableEq, Repr

/-- One load: its requests by slice, and what becomes of the directory entry and of the batch that
waits for the expert. -/
structure Load where
  phase : Phase
  next : ℕ
  reqs : ℕ → AioReq
  stage : ℕ → Stage
  pending : ℤ
  failed : Bool
  dir : DirState
  waited : Bool
  batchFailed : Bool

inductive Action (A : Type*)
  | submitSlice (answer : A)
  | leaveLoop
  | returnLoad
  | land (s : ℕ) (result : Result)
  | drain (s : ℕ) (waited : Bool)

/-- The stage of a request after its turn of the submit loop. -/
def stageOf : Fate → Stage
  | .rejected => .idle
  | .settled => .lost
  | .flight => .flight
  | .queued _ => .landed

/-- The request with what its event carries. -/
def storeFate (r : AioReq) : Fate → AioReq
  | .queued (some res) => r.finish res.bytes res.status
  | _ => r

/-- The end of the last completion: READY, or ABSENT and the waiting batch failed. -/
def settle (waited : Bool) (t : Load) : Load :=
  if t.pending = 0 then
    if t.failed then { t with dir := .absent, waited := waited, batchFailed := waited }
    else { t with dir := .ready, waited := waited }
  else t

section machine

variable {A : Type*} (B : Backend A) (E : LoadInput) (f : Files)

def submitSlice (sl : TensorSliceRead) (answer : A) (t : Load) : Load :=
  match useDirect E sl with
  | none => { t with failed := true, phase := .stopped }
  | some direct =>
      let out := B.turn (sliceReq f sl (alignedBuf E sl direct)) answer
      let t := { t with reqs := Function.update t.reqs t.next (storeFate out.1 out.2) }
      if out.2.counted then
        { t with
          stage := Function.update t.stage t.next (stageOf out.2)
          pending := t.pending + 1
          next := t.next + 1 }
      else { t with failed := true, phase := .stopped }

def step (t : Load) : Action A → Option Load
  | .submitSlice answer =>
      match t.phase, E.plan.slices[t.next]? with
      | .submitting, some sl => some (submitSlice B E f sl answer t)
      | _, _ => none
  | .leaveLoop =>
      match t.phase, E.plan.slices[t.next]? with
      | .submitting, none => some { t with phase := .stopped }
      | _, _ => none
  -- without a submitted slice no task is returned, the entry is ABSENT and the batch waits on
  | .returnLoad =>
      if t.phase = .stopped then
        if t.pending = 0 then some { t with phase := .waiting, dir := .absent, waited := true }
        else some { t with phase := .waiting }
      else none
  | .land s result =>
      if t.stage s = .flight then
        some { t with
          stage := Function.update t.stage s .landed
          reqs := Function.update t.reqs s ((t.reqs s).finish result.bytes result.status) }
      else none
  | .drain s waited =>
      if t.phase = .waiting ∧ t.stage s = .landed then
        some (settle waited
          { t with
            stage := Function.update t.stage s .drained
            failed := t.failed || (t.reqs s).errorCode != 0
            pending := t.pending - 1 })
      else none

def newLoad : Load :=
  { phase := .submitting, next := 0, reqs := fun _ => blankReq, stage := fun _ => .idle, pending := 0,
    failed := false, dir := .loading, waited := false, batchFailed := false }

def machine : Machine Load (Action A) where
  init t := t = newLoad
  step := step B E f

end machine

/-- The entry is READY only with every payload read to its end; a load that comes to nothing makes
it ABSENT and fails the batch that waits for it; and a load with nothing left to come is settled. -/
structure ReadInFull (E : LoadInput) (t : Load) : Prop where
  ready : t.dir = .ready → ∀ (s : ℕ) (sl : TensorSliceRead), E.plan.slices[s]? = some sl →
    payloadEnd sl ≤ (t.reqs s).bytesRead
  failed : t.dir = .absent → t.waited = true → t.batchFailed = true
  settled : t.phase = .waiting → (∀ s, t.stage s ≠ .flight ∧ t.stage s ≠ .landed) → t.dir ≠ .loading

/-- One slice of `read_expert_sync`: the answer to its submission, and the result that comes in
time where the system still works on it. -/
structure SyncRead (A : Type*) where
  slice : TensorSliceRead
  answer : A
  late : Option Result

/-- The request at the end of the wait loop, whether it was counted and whether an event of it was
returned. -/
structure SyncOutcome where
  req : AioReq
  counted : Bool
  completed : Bool

section sync

variable {A : Type*} (B : Backend A) (f : Files)

def syncOutcome (x : SyncRead A) : SyncOutcome :=
  let out := B.turn (sliceReq f x.slice (.staging x.slice.stagingOffset)) x.answer
  match out.2, x.late with
  | .rejected, _ => ⟨out.1, false, false⟩
  | .settled, _ => ⟨out.1, true, false⟩
  | .flight, none => ⟨out.1, true, false⟩
  | .flight, some res => ⟨out.1.finish res.bytes res.status, true, true⟩
  | .queued result, _ => ⟨storeFate out.1 (.queued result), true, true⟩

/-- `read_expert_sync` with the engine to itself, up to the copy of the payloads. -/
def readExpertSync (xs : List (SyncRead A)) : Bool :=
  let outs := xs.map (syncOutcome B f)
  -- `num_tensors == 0`
  if xs.length = 0 then false
  -- `submit_batch` returns 0
  else if outs.countP SyncOutcome.counted = 0 then false
  -- `wait_events` returns 0 before all events are in
  else if outs.countP SyncOutcome.completed < xs.length then false
  else outs.all fun o => o.req.errorCode == 0

end sync

/-- A request of the Windows engine that is not settled on the spot, and not short if `ReadFile`
reads it at once. -/
def LongReadFile (r : AioReq) (need : ℕ) (answer : ReadFileAnswer) : Prop :=
  r.hasHandle = true → r.aligned = true → Reported r answer ∧ ∀ n, answer = .succeeds n → need ≤ n

def LongPread (_ : AioReq) (need : ℕ) (answer : PreadAnswer) : Prop :=
  ∀ n, answer = .bytes n → need ≤ n

section guards

variable {A : Type*} (long : AioReq → ℕ → A → Prop) (E : LoadInput) (f : Files)

/-- Every result without an error brings the whole payload, and the load has a slice that was
accepted when it returns. -/
def EachLong (t : Load) : Action A → Prop
  | .submitSlice answer => ∀ sl direct, E.plan.slices[t.next]? = some sl → useDirect E sl = some direct →
      long (sliceReq f sl (alignedBuf E sl direct)) (payloadEnd sl) answer
  | .returnLoad => 0 < t.next
  | .land s result => ∀ sl, E.plan.slices[s]? = some sl → result.status = 0 → payloadEnd sl ≤ result.bytes
  | _ => True

def SyncLong (x : SyncRead A) : Prop :=
  long (sliceReq f x.slice (.staging x.slice.stagingOffset)) (payloadEnd x.slice) x.answer ∧
    ∀ result, x.late = some result → result.status = 0 → payloadEnd x.slice ≤ result.bytes

end guards

/-- What a long answer promises of a turn: an event will report the request, and one that is there
without an error has brought all that is needed. -/
structure LongTurn (need : ℕ) (out : AioReq × Fate) : Prop where
  reported : out.2 ≠ .settled
  enough : stageOf out.2 = .landed → (storeFate out.1 out.2).errorCode = 0 →
    need ≤ (storeFate out.1 out.2).bytesRead

theorem longTurn_win {r : AioReq} {need : ℕ} {answer : ReadFileAnswer}
    (h : LongReadFile r need answer) : LongTurn need (winTurn r answer) := by
  refine ⟨winTurn_settled fun hhandle haligned => (h hhandle haligned).1, fun hlanded herror => ?_⟩
  unfold winTurn at hlanded ⊢
  have hhandle : r.reset.hasHandle = r.hasHandle := rfl
  have haligned : r.reset.aligned = r.aligned := rfl
  dsimp only at hlanded ⊢
  rw [hhandle, haligned] at hlanded ⊢
  split at hlanded
  · cases hlanded
  · rename_i hok
    rw [if_neg hok]
    split at hlanded
    · cases hlanded
    · rename_i hal
      rw [if_neg hal]
      split at hlanded
      · cases hlanded
      · rename_i hlen
        rw [if_neg hlen]
        cases answer with
        | succeeds n => exact (h (by simpa using hok) (by simpa using hal)).2 n rfl
        | fails err =>
          dsimp only at hlanded
          split at hlanded
          · cases hlanded
          · split at hlanded <;> cases hlanded

theorem longTurn_posix {r : AioReq} {need : ℕ} {answer : PreadAnswer} (h : LongPread r need answer) :
    LongTurn need (posixTurn r answer) := by
  refine ⟨posixTurn_settled r answer, fun hlanded herror => ?_⟩
  unfold posixTurn at hlanded ⊢
  dsimp only at hlanded ⊢
  split at hlanded
  · cases hlanded
  · rename_i hok
    rw [if_neg hok]
    cases answer with
    | bytes n => exact h n rfl
    | errno err => cases hlanded

def Stage.isOpen : Stage → Bool
  | .flight | .landed => true
  | .idle | .lost | .drained => false

/-- How many of the first `n` requests are still to be drained. -/
def openCount (stage : ℕ → Stage) : ℕ → ℕ
  | 0 => 0
  | n + 1 => openCount stage n + if (stage n).isOpen then 1 else 0

theorem openCount_congr {stage stage' : ℕ → Stage} {n : ℕ}
    (h : ∀ s < n, (stage s).isOpen = (stage' s).isOpen) : openCount stage n = openCount stage' n := by
  induction n with
  | zero => rfl
  | succ n ih =>
    simp only [openCount]
    rw [ih fun s hs => h s (by omega), h n (by omega)]

theorem openCount_drain {stage : ℕ → Stage} {s n : ℕ} (hs : s < n) (hopen : (stage s).isOpen = true) :
    openCount (Function.update stage s .drained) n + 1 = openCount stage n := by
  induction n with
  | zero => omega
  | succ n ih =>
    simp only [openCount]
    by_cases hlast : s = n
    · subst hlast
      rw [Function.update_self, if_pos hopen]
      have hrest : openCount (Function.update stage s .drained) s = openCount stage s :=
        openCount_congr fun k hk => by rw [Function.update_of_ne (by omega)]
      rw [hrest]
      rfl
    · have hrest := ih (by omega)
      rw [Function.update_of_ne (Ne.symm hlast)]
      omega

theorem openCount_eq_zero {stage : ℕ → Stage} {n : ℕ} :
    openCount stage n = 0 ↔ ∀ s < n, (stage s).isOpen = false := by
  induction n with
  | zero => exact ⟨fun _ s hs => absurd hs (Nat.not_lt_zero s), fun _ => rfl⟩
  | succ n ih =>
    simp only [openCount]
    constructor
    · intro hzero s hs
      have hn : (stage n).isOpen = false := by
        by_contra hopen
        rw [if_pos (by simpa using hopen)] at hzero
        omega
      rcases Nat.lt_succ_iff_lt_or_eq.mp hs with hlt | rfl
      · exact ih.mp (by omega) s hlt
      · exact hn
    · intro hall
      rw [ih.mpr fun s hs => hall s (by omega), hall n (by omega)]
      rfl

section load

variable {A : Type*} {B : Backend A} {E : LoadInput} {f : Files} {t t' : Load}

structure Inv (E : LoadInput) (t : Load) : Prop where
  next_le : t.next ≤ E.plan.slices.length
  ahead : ∀ s, t.next ≤ s → t.stage s = .idle
  behind : ∀ s < t.next, t.stage s ≠ .idle ∧ t.stage s ≠ .lost
  count : t.pending = openCount t.stage t.next
  enough : ∀ (s : ℕ) (sl : TensorSliceRead), E.plan.slices[s]? = some sl →
    t.stage s = .landed ∨ t.stage s = .drained → (t.reqs s).errorCode = 0 →
      payloadEnd sl ≤ (t.reqs s).bytesRead
  clean : t.failed = false → ∀ s, t.stage s = .drained → (t.reqs s).errorCode = 0
  complete : t.phase ≠ .submitting → t.failed = false → t.next = E.plan.slices.length
  undrained : t.phase ≠ .waiting → ∀ s, t.stage s ≠ .drained
  loading : t.phase = .waiting → t.dir = .loading → 0 < t.pending
  settled : t.dir ≠ .loading → t.phase = .waiting ∧ t.pending = 0
  ready : t.dir = .ready → t.failed = false
  absent : t.dir = .absent → t.waited = true → t.batchFailed = true

theorem inv_newLoad (E : LoadInput) : Inv E newLoad where
  next_le := Nat.zero_le _
  ahead _ _ := rfl
  behind _ hs := absurd hs (Nat.not_lt_zero _)
  count := rfl
  enough _ _ _ hstage := by rcases hstage with hstage | hstage <;> cases hstage
  clean _ _ hstage := by cases hstage
  complete hphase := absurd rfl hphase
  undrained _ _ := Stage.noConfusion
  loading hphase := by cases hphase
  settled hdir := absurd rfl hdir
  ready hdir := by cases hdir
  absent hdir := by cases hdir

/-- No request is left when the count is at zero. -/
theorem Inv.drained (h : Inv E t) (hzero : t.pending = 0) {s : ℕ} (hs : s < t.next) :
    t.stage s = .drained := by
  have hcount := h.count
  have hopen := openCount_eq_zero.mp (by omega : openCount t.stage t.next = 0) s hs
  obtain ⟨hidle, hlost⟩ := h.behind s hs
  cases hstage : t.stage s with
  | drained => rfl
  | idle => exact absurd hstage hidle
  | lost => exact absurd hstage hlost
  | flight => rw [hstage] at hopen; cases hopen
  | landed => rw [hstage] at hopen; cases hopen

theorem Inv.readInFull (h : Inv E t) : ReadInFull E t := by
  refine ⟨fun hready s sl hsl => ?_, h.absent, fun hwaiting hnone hloading => ?_⟩
  · have hfailed := h.ready hready
    obtain ⟨hphase, hzero⟩ := h.settled (by rw [hready]; exact DirState.noConfusion)
    have hnext := h.complete (by rw [hphase]; exact Phase.noConfusion) hfailed
    have hlt : s < t.next := by
      rw [hnext]
      exact (List.getElem?_eq_some_iff.mp hsl).1
    have hdrained := h.drained hzero hlt
    exact h.enough s sl hsl (.inr hdrained) (h.clean hfailed s hdrained)
  · have hpos := h.loading hwaiting hloading
    have hcount := h.count
    have hzero : openCount t.stage t.next = 0 := openCount_eq_zero.mpr fun s _ => by
      obtain ⟨hflight, hlanded⟩ := hnone s
      cases hstage : t.stage s with
      | flight => exact absurd hstage hflight
      | landed => exact absurd hstage hlanded
      | _ => rfl
    omega

/-- A slice that is counted becomes the next open request. -/
theorem Inv.submitSlice (h : Inv E t) {sl : TensorSliceRead} {answer : A}
    (hsl : E.plan.slices[t.next]? = some sl) (hphase : t.phase = .submitting)
    (hlong : ∀ direct, useDirect E sl = some direct →
      LongTurn (payloadEnd sl) (B.turn (sliceReq f sl (alignedBuf E sl direct)) answer)) :
    Inv E (submitSlice B E f sl answer t) := by
  have hnot : t.phase ≠ .waiting := by rw [hphase]; exact Phase.noConfusion
  have hundrained := h.undrained hnot
  have hloading : t.dir = .loading := by
    by_contra hne
    exact hnot (h.settled hne).1
  have hlt : t.next < E.plan.slices.length := (List.getElem?_eq_some_iff.mp hsl).1
  -- a load that leaves its loop by a failure keeps what it has
  have hstop : ∀ reqs : ℕ → AioReq, (∀ s, s ≠ t.next → reqs s = t.reqs s) →
      Inv E { t with reqs := reqs, failed := true, phase := .stopped } := by
    intro reqs hreqs
    refine ⟨h.next_le, h.ahead, h.behind, h.count, fun s sl' hsl' hstage => ?_,
      fun hfailed => absurd hfailed Bool.noConfusion, fun _ hfailed => absurd hfailed Bool.noConfusion,
      fun _ => hundrained, fun hwaiting => absurd hwaiting Phase.noConfusion,
      fun hne => absurd hloading hne, fun hready => ?_, h.absent⟩
    · have hne : s ≠ t.next := by
        rintro rfl
        have hidle := h.ahead t.next (Nat.le_refl _)
        replace hstage : t.stage t.next = .landed ∨ t.stage t.next = .drained := hstage
        rw [hidle] at hstage
        rcases hstage with hstage | hstage <;> cases hstage
      show (reqs s).errorCode = 0 → payloadEnd sl' ≤ (reqs s).bytesRead
      rw [hreqs s hne]
      exact h.enough s sl' hsl' hstage
    · replace hready : t.dir = .ready := hready
      rw [hloading] at hready
      cases hready
  unfold FullRead.submitSlice
  split
  · exact hstop t.reqs fun _ _ => rfl
  · rename_i direct hdirect
    have hturn := hlong direct hdirect
    set out := B.turn (sliceReq f sl (alignedBuf E sl direct)) answer with hout
    dsimp only
    split
    · rename_i hcounted
      have hopen : (stageOf out.2).isOpen = true ∧ stageOf out.2 ≠ .idle ∧ stageOf out.2 ≠ .lost ∧
          stageOf out.2 ≠ .drained := by
        have hreported := hturn.reported
        cases hfate : out.2 with
        | rejected => rw [hfate] at hcounted; cases hcounted
        | settled => exact absurd hfate hreported
        | flight => exact ⟨rfl, Stage.noConfusion, Stage.noConfusion, Stage.noConfusion⟩
        | queued result => exact ⟨rfl, Stage.noConfusion, Stage.noConfusion, Stage.noConfusion⟩
      refine ⟨hlt, fun s hs => ?_, fun s hs => ?_, ?_, fun s sl' hsl' hstage => ?_, fun hfailed s hstage => ?_,
        fun hsub => absurd hphase hsub, fun _ s => ?_, fun hwaiting => absurd hwaiting hnot,
        fun hne => absurd hloading hne, fun hready => ?_, h.absent⟩
      · show Function.update t.stage t.next _ s = .idle
        rw [Function.update_of_ne (by simp only at hs; omega)]
        exact h.ahead s (by simp only at hs; omega)
      · show Function.update t.stage t.next _ s ≠ .idle ∧ Function.update t.stage t.next _ s ≠ .lost
        by_cases hlast : s = t.next
        · subst hlast
          rw [Function.update_self]
          exact ⟨hopen.2.1, hopen.2.2.1⟩
        · rw [Function.update_of_ne hlast]
          exact h.behind s (by simp only at hs; omega)
      · show t.pending + 1 = openCount (Function.update t.stage t.next (stageOf out.2)) (t.next + 1)
        have hrest : openCount (Function.update t.stage t.next (stageOf out.2)) t.next =
            openCount t.stage t.next :=
          openCount_congr fun k hk => by rw [Function.update_of_ne (by omega)]
        have hcount := h.count
        simp only [openCount]
        rw [Function.update_self, if_pos hopen.1, hrest]
        omega
      · replace hstage : Function.update t.stage t.next (stageOf out.2) s = .landed ∨
            Function.update t.stage t.next (stageOf out.2) s = .drained := hstage
        show (Function.update t.reqs t.next _ s).errorCode = 0 →
          payloadEnd sl' ≤ (Function.update t.reqs t.next _ s).bytesRead
        by_cases hlast : s = t.next
        · subst hlast
          rw [hsl] at hsl'
          cases hsl'
          rw [Function.update_self] at hstage ⊢
          rcases hstage with hstage | hstage
          · exact hturn.enough hstage
          · exact absurd hstage hopen.2.2.2
        · rw [Function.update_of_ne hlast] at hstage ⊢
          exact h.enough s sl' hsl' hstage
      · replace hstage : Function.update t.stage t.next (stageOf out.2) s = .drained := hstage
        by_cases hlast : s = t.next
        · subst hlast
          rw [Function.update_self] at hstage
          exact absurd hstage hopen.2.2.2
        · rw [Function.update_of_ne hlast] at hstage
          exact absurd hstage (hundrained s)
      · show Function.update t.stage t.next (stageOf out.2) s ≠ .drained
        by_cases hlast : s = t.next
        · subst hlast
          rw [Function.update_self]
          exact hopen.2.2.2
        · rw [Function.update_of_ne hlast]
          exact hundrained s
      · replace hready : t.dir = .ready := hready
        rw [hloading] at hready
        cases hready
    · exact hstop _ fun s hs => Function.update_of_ne hs ..

theorem Inv.land (h : Inv E t) {s : ℕ} {result : Result} (hflight : t.stage s = .flight)
    (hlong : ∀ sl, E.plan.slices[s]? = some sl → result.status = 0 → payloadEnd sl ≤ result.bytes) :
    Inv E { t with
      stage := Function.update t.stage s .landed
      reqs := Function.update t.reqs s ((t.reqs s).finish result.bytes result.status) } := by
  have hlt : s < t.next := by
    by_contra hge
    rw [h.ahead s (by omega)] at hflight
    cases hflight
  refine ⟨h.next_le, fun k hk => ?_, fun k hk => ?_, ?_, fun k sl hsl hstage => ?_, fun hfailed k hstage => ?_,
    h.complete, fun hwaiting k => ?_, h.loading, h.settled, h.ready, h.absent⟩
  · show Function.update t.stage s .landed k = .idle
    rw [Function.update_of_ne (by simp only at hk; omega)]
    exact h.ahead k hk
  · show Function.update t.stage s .landed k ≠ .idle ∧ Function.update t.stage s .landed k ≠ .lost
    by_cases hks : k = s
    · subst hks
      rw [Function.update_self]
      exact ⟨Stage.noConfusion, Stage.noConfusion⟩
    · rw [Function.update_of_ne hks]
      exact h.behind k hk
  · show t.pending = openCount (Function.update t.stage s .landed) t.next
    rw [h.count, openCount_congr fun k _ => ?_]
    by_cases hks : k = s
    · subst hks
      rw [Function.update_self, hflight]
      rfl
    · rw [Function.update_of_ne hks]
  · replace hstage : Function.update t.stage s .landed k = .landed ∨
        Function.update t.stage s .landed k = .drained := hstage
    show (Function.update t.reqs s _ k).errorCode = 0 → payloadEnd sl ≤ (Function.update t.reqs s _ k).bytesRead
    by_cases hks : k = s
    · subst hks
      rw [Function.update_self]
      exact hlong sl hsl
    · rw [Function.update_of_ne hks] at hstage ⊢
      exact h.enough k sl hsl hstage
  · replace hstage : Function.update t.stage s .landed k = .drained := hstage
    have hks : k ≠ s := by
      rintro rfl
      rw [Function.update_self] at hstage
      cases hstage
    rw [Function.update_of_ne hks] at hstage
    show (Function.update t.reqs s _ k).errorCode = 0
    rw [Function.update_of_ne hks]
    exact h.clean hfailed k hstage
  · show Function.update t.stage s .landed k ≠ .drained
    by_cases hks : k = s
    · subst hks
      rw [Function.update_self]
      exact Stage.noConfusion
    · rw [Function.update_of_ne hks]
      exact h.undrained hwaiting k

/-- The books of a load after a completion, before it is settled. -/
structure Drained (E : LoadInput) (t : Load) : Prop where
  next_le : t.next ≤ E.plan.slices.length
  ahead : ∀ s, t.next ≤ s → t.stage s = .idle
  behind : ∀ s < t.next, t.stage s ≠ .idle ∧ t.stage s ≠ .lost
  count : t.pending = openCount t.stage t.next
  enough : ∀ (s : ℕ) (sl : TensorSliceRead), E.plan.slices[s]? = some sl →
    t.stage s = .landed ∨ t.stage s = .drained → (t.reqs s).errorCode = 0 →
      payloadEnd sl ≤ (t.reqs s).bytesRead
  clean : t.failed = false → ∀ s, t.stage s = .drained → (t.reqs s).errorCode = 0
  complete : t.failed = false → t.next = E.plan.slices.length
  waiting : t.phase = .waiting
  loading : t.dir = .loading
  absent : t.dir = .absent → t.waited = true → t.batchFailed = true

theorem Drained.settle (h : Drained E t) (waited : Bool) : Inv E (settle waited t) := by
  have hcomplete : t.phase ≠ .submitting → t.failed = false → t.next = E.plan.slices.length :=
    fun _ => h.complete
  unfold FullRead.settle
  split
  · rename_i hzero
    split
    · rename_i hfailed
      exact ⟨h.next_le, h.ahead, h.behind, h.count, h.enough, h.clean, hcomplete,
        fun hnot => absurd h.waiting hnot, fun _ hdir => absurd hdir DirState.noConfusion,
        fun _ => ⟨h.waiting, hzero⟩, fun hdir => absurd hdir DirState.noConfusion, fun _ hwaited => hwaited⟩
    · rename_i hfailed
      exact ⟨h.next_le, h.ahead, h.behind, h.count, h.enough, h.clean, hcomplete,
        fun hnot => absurd h.waiting hnot, fun _ hdir => absurd hdir DirState.noConfusion,
        fun _ => ⟨h.waiting, hzero⟩, fun _ => by simpa using hfailed, fun hdir => absurd hdir DirState.noConfusion⟩
  · rename_i hpending
    have hcount := h.count
    refine ⟨h.next_le, h.ahead, h.behind, h.count, h.enough, h.clean, hcomplete,
      fun hnot => absurd h.waiting hnot, fun _ _ => by omega, fun hne => absurd h.loading hne, fun hdir => ?_,
      h.absent⟩
    rw [h.loading] at hdir
    cases hdir

theorem Inv.drain (h : Inv E t) {s : ℕ} (hwaiting : t.phase = .waiting) (hlanded : t.stage s = .landed)
    (waited : Bool) :
    Inv E (settle waited { t with
      stage := Function.update t.stage s .drained
      failed := t.failed || (t.reqs s).errorCode != 0
      pending := t.pending - 1 }) := by
  have hlt : s < t.next := by
    by_contra hge
    rw [h.ahead s (by omega)] at hlanded
    cases hlanded
  have hopen : (t.stage s).isOpen = true := by
    rw [hlanded]
    rfl
  have hdrain := openCount_drain hlt hopen
  have hcount := h.count
  have hloading : t.dir = .loading := by
    by_contra hne
    have hzero := (h.settled hne).2
    omega
  have hfailed : ∀ {b : Bool}, (t.failed || b) = false → t.failed = false ∧ b = false := by
    intro b hb
    simpa using hb
  have hstage : ∀ k, Function.update t.stage s .drained k = .landed ∨
      Function.update t.stage s .drained k = .drained → t.stage k = .landed ∨ t.stage k = .drained := by
    intro k hk
    by_cases hks : k = s
    · exact .inl (hks ▸ hlanded)
    · rwa [Function.update_of_ne hks] at hk
  refine Drained.settle (t := { t with
    stage := Function.update t.stage s .drained
    failed := t.failed || (t.reqs s).errorCode != 0
    pending := t.pending - 1 }) ?_ waited
  refine ⟨h.next_le, fun k hk => ?_, fun k hk => ?_, ?_, fun k sl hsl hk => ?_, fun hclean k hk => ?_,
    fun hclean => ?_, hwaiting, hloading, h.absent⟩
  · show Function.update t.stage s .drained k = .idle
    rw [Function.update_of_ne (by simp only at hk; omega)]
    exact h.ahead k hk
  · show Function.update t.stage s .drained k ≠ .idle ∧ Function.update t.stage s .drained k ≠ .lost
    by_cases hks : k = s
    · subst hks
      rw [Function.update_self]
      exact ⟨Stage.noConfusion, Stage.noConfusion⟩
    · rw [Function.update_of_ne hks]
      exact h.behind k hk
  · show t.pending - 1 = openCount (Function.update t.stage s .drained) t.next
    omega
  · exact h.enough k sl hsl (hstage k hk)
  · obtain ⟨hold, hok⟩ := hfailed hclean
    show (t.reqs k).errorCode = 0
    by_cases hks : k = s
    · subst hks
      simpa using hok
    · replace hk : Function.update t.stage s .drained k = .drained := hk
      rw [Function.update_of_ne hks] at hk
      exact h.clean hold k hk
  · exact h.complete (by rw [hwaiting]; exact Phase.noConfusion) (hfailed hclean).1

/-- The answers the guard calls long are. -/
def Sound (B : Backend A) (long : AioReq → ℕ → A → Prop) : Prop :=
  ∀ r need answer, long r need answer → LongTurn need (B.turn r answer)

theorem Inv.step {long : AioReq → ℕ → A → Prop} (hsound : Sound B long) (h : Inv E t) {a : Action A}
    (hguard : EachLong long E f t a) (hstep : step B E f t a = some t') : Inv E t' := by
  cases a with
  | submitSlice answer =>
    simp only [FullRead.step] at hstep
    split at hstep
    · rename_i sl hphase hsl
      cases hstep
      exact h.submitSlice hsl hphase fun direct hdirect => hsound _ _ _ (hguard sl direct hsl hdirect)
    · cases hstep
  | leaveLoop =>
    simp only [FullRead.step] at hstep
    split at hstep
    · rename_i hphase hend
      cases hstep
      have hnot : t.phase ≠ .waiting := by rw [hphase]; exact Phase.noConfusion
      have hlen : t.next = E.plan.slices.length :=
        Nat.le_antisymm h.next_le (List.getElem?_eq_none_iff.mp hend)
      exact ⟨h.next_le, h.ahead, h.behind, h.count, h.enough, h.clean, fun _ _ => hlen,
        fun _ => h.undrained hnot, fun hwaiting => absurd hwaiting Phase.noConfusion,
        fun hdir => absurd (h.settled hdir).1 hnot, h.ready, h.absent⟩
    · cases hstep
  | returnLoad =>
    simp only [FullRead.step] at hstep
    split at hstep
    · rename_i hphase
      have hnot : t.phase ≠ .waiting := by rw [hphase]; exact Phase.noConfusion
      have hcomplete := h.complete (by rw [hphase]; exact Phase.noConfusion)
      have hpos : t.pending ≠ 0 := by
        intro hzero
        exact h.undrained hnot 0 (h.drained hzero hguard)
      have hcount := h.count
      rw [if_neg hpos] at hstep
      cases hstep
      refine ⟨h.next_le, h.ahead, h.behind, h.count, h.enough, h.clean, fun _ => hcomplete,
        fun hwaiting => absurd rfl hwaiting, fun _ _ => by show 0 < t.pending; omega,
        fun hdir => absurd (h.settled hdir).1 hnot, h.ready, h.absent⟩
    · cases hstep
  | land s result =>
    simp only [FullRead.step] at hstep
    split at hstep
    · rename_i hflight
      cases hstep
      exact h.land hflight hguard
    · cases hstep
  | drain s waited =>
    simp only [FullRead.step] at hstep
    split at hstep
    · rename_i hready
      cases hstep
      exact h.drain hready.1 hready.2 waited
    · cases hstep

theorem readInFull_of_eachLong {long : AioReq → ℕ → A → Prop} (hsound : Sound B long)
    (h : Reach (machine B E f) (EachLong long E f) t) : ReadInFull E t := by
  refine Inv.readInFull (h.invariant (I := Inv E) ?_ ?_)
  · intro t hinit
    rw [hinit]
    exact inv_newLoad E
  · exact fun t a t' ht hguard hstep => ht.step hsound hguard hstep

end load

section sync

variable {A : Type*} {B : Backend A} {f : Files}

/-- A slice whose event came without an error was read to the end of its payload. -/
theorem enough_of_completed {long : AioReq → ℕ → A → Prop} (hsound : Sound B long) {x : SyncRead A}
    (hlong : SyncLong long f x) (hcompleted : (syncOutcome B f x).completed = true)
    (herror : (syncOutcome B f x).req.errorCode = 0) :
    payloadEnd x.slice ≤ (syncOutcome B f x).req.bytesRead := by
  obtain ⟨hanswer, hlate⟩ := hlong
  have hturn := hsound _ _ _ hanswer
  unfold syncOutcome at hcompleted herror ⊢
  dsimp only at hcompleted herror ⊢
  have henough := hturn.enough
  set out := B.turn (sliceReq f x.slice (.staging x.slice.stagingOffset)) x.answer with hout
  cases hfate : out.2 with
  | rejected => rw [hfate] at hcompleted; cases hcompleted
  | settled => rw [hfate] at hcompleted; cases hcompleted
  | flight =>
    rw [hfate] at hcompleted herror
    cases hres : x.late with
    | none => rw [hres] at hcompleted; cases hcompleted
    | some res =>
      rw [hres] at herror
      exact hlate res hres herror
  | queued result =>
    rw [hfate] at herror henough
    exact henough rfl herror

/-- All events of the batch came in and none of them carries an error. -/
theorem readExpertSync_true {xs : List (SyncRead A)} (h : readExpertSync B f xs = true) {x : SyncRead A}
    (hx : x ∈ xs) : (syncOutcome B f x).completed = true ∧ (syncOutcome B f x).req.errorCode = 0 := by
  unfold readExpertSync at h
  dsimp only at h
  have hmem : syncOutcome B f x ∈ xs.map (syncOutcome B f) := List.mem_map_of_mem hx
  split at h
  · cases h
  · split at h
    · cases h
    · split at h
      · cases h
      · rename_i hcount
        constructor
        · have hle := List.countP_le_length (p := SyncOutcome.completed) (l := xs.map (syncOutcome B f))
          rw [List.length_map] at hle
          have hall : (xs.map (syncOutcome B f)).countP SyncOutcome.completed =
              (xs.map (syncOutcome B f)).length := by
            rw [List.length_map]
            omega
          exact List.countP_eq_length.mp hall _ hmem
        · simpa using List.all_eq_true.mp h _ hmem

theorem sync_readInFull {long : AioReq → ℕ → A → Prop} (hsound : Sound B long) {xs : List (SyncRead A)}
    (hlong : ∀ x ∈ xs, SyncLong long f x) (h : readExpertSync B f xs = true) :
    ∀ x ∈ xs, payloadEnd x.slice ≤ (syncOutcome B f x).req.bytesRead := by
  intro x hx
  obtain ⟨hcompleted, herror⟩ := readExpertSync_true h hx
  exact enough_of_completed hsound (hlong x hx) hcompleted herror

end sync

theorem sound_win : Sound win LongReadFile := fun _ _ _ h => longTurn_win h

theorem sound_posix : Sound posix LongPread := fun _ _ _ h => longTurn_posix h

/-- On both engines and in both readers, whatever else the system answers: an expert is used only
with all of its payload when no result without an error is short. -/
theorem readInFull_of_long (E : LoadInput) (f : Files) :
    ((∀ t, Reach (machine win E f) (EachLong LongReadFile E f) t → ReadInFull E t) ∧
      (∀ t, Reach (machine posix E f) (EachLong LongPread E f) t → ReadInFull E t)) ∧
    (∀ xs : List (SyncRead ReadFileAnswer), (∀ x ∈ xs, SyncLong LongReadFile f x) →
      readExpertSync win f xs = true → ∀ x ∈ xs, payloadEnd x.slice ≤ (syncOutcome win f x).req.bytesRead) ∧
    ∀ xs : List (SyncRead PreadAnswer), (∀ x ∈ xs, SyncLong LongPread f x) →
      readExpertSync posix f xs = true →
        ∀ x ∈ xs, payloadEnd x.slice ≤ (syncOutcome posix f x).req.bytesRead :=
  ⟨⟨fun _ h => readInFull_of_eachLong sound_win h, fun _ h => readInFull_of_eachLong sound_posix h⟩,
    fun _ hlong h => sync_readInFull sound_win hlong h, fun _ hlong h => sync_readInFull sound_posix hlong h⟩

section strip

/-- One strip of 100 bytes at offset 4096 of its shard. -/
def strip : Segment := { file := 0, off := 4096, len := 100 }

def stripPool : PoolGeometry.Subpool :=
  { pool := 0, group := 0, slotBegin := 0, nSlots := 2, expertSize := 100, base := 8192,
    cols := PoolGeometry.fillCols 2 0 0 [100] }

def oneStrip : LoadInput where
  geometry := { subpools := [stripPool], numSlots := 2 }
  slot := 1
  subpool := stripPool
  strides := [100]
  branches := [[strip]]
  owner := by decide
  columns := rfl
  count_le := by decide

def openFiles : Files := ⟨fun _ => true, 65536⟩

def stripSlice : TensorSliceRead :=
  sliceOf 0 { shardIdx := 0, fileOffset := 4096, byteSize := 100, column := 0, colOff := 0 }

theorem oneStrip_slices : oneStrip.plan.slices = [stripSlice] := by decide

/-- The strip and 5000 bytes of a second shard. -/
def twoStrips : LoadInput where
  geometry := { subpools := [{ stripPool with cols := PoolGeometry.fillCols 2 0 0 [5100] }], numSlots := 2 }
  slot := 1
  subpool := { stripPool with cols := PoolGeometry.fillCols 2 0 0 [5100] }
  strides := [5100]
  branches := [[strip, { file := 1, off := 8192, len := 5000 }]]
  owner := by decide
  columns := rfl
  count_le := by decide

def secondSlice : TensorSliceRead :=
  sliceOf 4096 { shardIdx := 1, fileOffset := 8192, byteSize := 5000, column := 0, colOff := 100 }

theorem twoStrips_slices : twoStrips.plan.slices = [stripSlice, secondSlice] := by decide

/-- Both windows are read whole: the first by a request that is pending, the second at once. On POSIX
`read_expert_sync` reads them, too. -/
theorem readInFull_twoStrips :
    (∃ t, Reach (machine win twoStrips openFiles) (EachLong LongReadFile twoStrips openFiles) t ∧
      t.dir = .ready ∧ ReadInFull twoStrips t) ∧
    readExpertSync posix openFiles [⟨stripSlice, .bytes 4096, none⟩, ⟨secondSlice, .bytes 8192, none⟩] = true ∧
      payloadEnd secondSlice ≤
        (syncOutcome posix openFiles ⟨secondSlice, .bytes 8192, none⟩).req.bytesRead := by
  have hfirst : ∀ sl, twoStrips.plan.slices[0]? = some sl → sl.fileReadLen ≠ 0 ∧ payloadEnd sl ≤ 4096 := by
    rw [twoStrips_slices]
    rintro sl ⟨⟩
    decide
  have hsecond : ∀ sl, twoStrips.plan.slices[1]? = some sl → sl.fileReadLen ≠ 0 ∧ payloadEnd sl ≤ 8192 := by
    rw [twoStrips_slices]
    rintro sl ⟨⟩
    decide
  have hinit : Reach (machine win twoStrips openFiles) (EachLong LongReadFile twoStrips openFiles) newLoad :=
    .init rfl
  have hpending := Reach.step (a := Action.submitSlice (ReadFileAnswer.fails errorIoPending)) hinit
    (fun sl _ hsl _ _ _ => ⟨⟨(hfirst sl hsl).1, by decide⟩, fun n hn => by cases hn⟩) rfl
  have hread := Reach.step (a := Action.submitSlice (ReadFileAnswer.succeeds 8192)) hpending
    (fun sl _ hsl _ _ _ => ⟨⟨(hsecond sl hsl).1, by decide⟩, fun n hn => by cases hn; exact (hsecond sl hsl).2⟩) rfl
  have hleave := Reach.step (a := Action.leaveLoop) hread trivial rfl
  have hreturn := Reach.step (a := Action.returnLoad) hleave Nat.zero_lt_two rfl
  have hland := Reach.step (a := Action.land 0 ⟨4096, 0⟩) hreturn (fun sl hsl _ => (hfirst sl hsl).2) rfl
  have hdrain := Reach.step (a := Action.drain 1 true) hland trivial rfl
  have hready := Reach.step (a := Action.drain 0 true) hdrain trivial rfl
  refine ⟨⟨_, hready, rfl, (readInFull_of_long twoStrips openFiles).1.1 _ hready⟩, rfl, ?_⟩
  refine (readInFull_of_long twoStrips openFiles).2.2
    [⟨stripSlice, .bytes 4096, none⟩, ⟨secondSlice, .bytes 8192, none⟩] ?_ rfl ⟨secondSlice, .bytes 8192, none⟩
    (List.mem_cons_of_mem _ List.mem_cons_self)
  intro x hx
  rcases List.mem_pair.mp hx with rfl | rfl
  · exact ⟨fun n hn => by cases hn; decide, fun _ hlate => by cases hlate⟩
  · exact ⟨fun n hn => by cases hn; decide, fun _ hlate => by cases hlate⟩

/-- The shard ends 50 bytes after the start of the strip: the entry becomes READY, and
`read_expert_sync` returns true. -/
theorem not_readInFull_truncated :
    (∃ t, Reach (machine posix oneStrip openFiles) anyStep t ∧ t.dir = .ready ∧
      (t.reqs 0).bytesRead = 50 ∧ ¬ ReadInFull oneStrip t) ∧
    readExpertSync posix openFiles [⟨stripSlice, .bytes 50, none⟩] = true ∧
      ¬ payloadEnd stripSlice ≤ (syncOutcome posix openFiles ⟨stripSlice, .bytes 50, none⟩).req.bytesRead := by
  have hneed : payloadEnd stripSlice = 100 := by decide
  have hrun : Reach (machine posix oneStrip openFiles) anyStep _ := Reach.run_of_forall
    [.submitSlice (.bytes 50), .leaveLoop, .returnLoad, .drain 0 true] (fun _ _ _ => trivial) (.init rfl) rfl
  refine ⟨⟨_, hrun, rfl, rfl, fun hfull => ?_⟩, rfl, ?_⟩
  · have hle := hfull.ready rfl 0 stripSlice (by rw [oneStrip_slices]; rfl)
    rw [hneed] at hle
    exact absurd hle (by decide)
  · rw [hneed]
    decide

end strip

end FullRead
end StreamMoE
