import Mathlib.Data.Int.Notation
import Mathlib.Data.List.Basic
import Mathlib.Data.List.Perm.Subperm
import Mathlib.Data.List.Nodup
import Mathlib.Logic.Function.Basic
import StreamMoE.ReadPlan
import StreamMoE.TransitionSystem

/-! The submit and wait loops of the two direct-I/O engines, any number of callers of them, and the
loads a scheduler counts down with the events it polls. -/
namespace StreamMoE
namespace DioEngine

open ReadPlan TransitionSystem

/-- `user_data`: an `async_load_t` of the scheduler, or a pointer of another caller. -/
inductive UserData
  | load (t : ℕ)
  | other (p : ℕ)
  deriving DecidableEq, Repr

/-- `aio_req_t`; `hasHandle` says that it names an open file. -/
structure AioReq where
  hasHandle : Bool
  fileOffset : ℕ
  alignedBuf : ℕ
  alignedLen : ℕ
  userData : UserData
  bytesRead : ℕ
  errorCode : ℕ
  isCompleted : Bool
  deriving DecidableEq, Repr

/-- Bytes and status of a read that has come to its end. -/
structure Result where
  bytes : ℕ
  status : ℕ
  deriving DecidableEq, Repr

/-- What one turn of a submit loop makes of a request. `settled` is marked complete on the spot and
counted, `flight` is counted and finishes later, `queued` is counted and its event is in the queue. -/
inductive Fate
  | rejected
  | settled
  | flight
  | queued (result : Option Result)
  deriving DecidableEq, Repr

def AioReq.reset (r : AioReq) : AioReq :=
  { r with isCompleted := false, bytesRead := 0, errorCode := 0 }

def AioReq.finish (r : AioReq) (bytes err : ℕ) : AioReq :=
  { r with isCompleted := true, bytesRead := bytes, errorCode := err }

def errorInvalidHandle : ℕ := 6
def errorHandleEof : ℕ := 38
def errorInvalidParameter : ℕ := 87
def errorIoPending : ℕ := 997
def ebadf : ℕ := 9

/-- `ReadFile` of an overlapped handle: true, or false with `GetLastError`. -/
inductive ReadFileAnswer
  | succeeds (bytes : ℕ)
  | fails (err : ℕ)
  deriving DecidableEq, Repr

/-- `pread`: the bytes read, or -1 with `errno`. -/
inductive PreadAnswer
  | bytes (n : ℕ)
  | errno (err : ℕ)
  deriving DecidableEq, Repr

/-- The three alignments `submit_batch` checks on Windows. -/
def AioReq.aligned (r : AioReq) : Bool :=
  isAligned r.fileOffset && isAligned r.alignedBuf && isAligned r.alignedLen

def winTurn (r : AioReq) (answer : ReadFileAnswer) : AioReq × Fate :=
  let r := r.reset
  if r.hasHandle = false then (r.finish 0 errorInvalidHandle, .rejected)
  else if r.aligned = false then (r.finish 0 errorInvalidParameter, .rejected)
  else if r.alignedLen = 0 then (r.finish 0 0, .settled)
  else
    match answer with
    -- the completion port still receives the entry
    | .succeeds n => (r, .queued (some ⟨n, 0⟩))
    | .fails err =>
        if err = errorIoPending then (r, .flight)
        else if err = errorHandleEof then (r.finish 0 0, .settled)
        else (r.finish 0 err, .rejected)

def posixTurn (r : AioReq) (answer : PreadAnswer) : AioReq × Fate :=
  let r := r.reset
  if r.hasHandle = false then (r.finish 0 ebadf, .rejected)
  else
    match answer with
    | .bytes n => (r.finish n 0, .queued none)
    | .errno err => (r.finish 0 err, .rejected)

theorem winTurn_userData (r : AioReq) (answer : ReadFileAnswer) :
    (winTurn r answer).1.userData = r.userData := by
  unfold winTurn
  dsimp only
  split
  · rfl
  · split
    · rfl
    · split
      · rfl
      · cases answer with
        | succeeds n => rfl
        | fails err =>
          dsimp only
          split
          · rfl
          · split <;> rfl

theorem posixTurn_userData (r : AioReq) (answer : PreadAnswer) :
    (posixTurn r answer).1.userData = r.userData := by
  unfold posixTurn
  dsimp only
  split
  · rfl
  · cases answer <;> rfl

/-- One engine: the turn of its submit loop, the events a turn of its wait loop takes at most, and
whether that loop ends at `min_complete`. -/
structure Backend (A : Type*) where
  turn : AioReq → A → AioReq × Fate
  turn_userData : ∀ (r : AioReq) (answer : A), (turn r answer).1.userData = r.userData
  fetchCap : ℕ → ℕ
  minStops : Bool

def win : Backend ReadFileAnswer where
  turn := winTurn
  turn_userData := winTurn_userData
  fetchCap maxEvents := min maxEvents 256
  minStops := true

def posix : Backend PreadAnswer where
  turn := posixTurn
  turn_userData := posixTurn_userData
  fetchCap _ := 1
  minStops := false

/-- The worker of the scheduler, or any other thread with the engine. -/
inductive Caller
  | worker
  | other (c : ℕ)
  deriving DecidableEq, Repr

/-- Where a caller stands: inside `submit_batch` (with the count it will return and the requests it
has counted), in `start_async_load` of the task `t`, or inside `wait_events`. -/
inductive Call
  | idle
  | submit (todo : List AioReq) (submitted : ℕ) (mine : List ℕ)
  | load (t : ℕ) (todo : List AioReq)
  | wait (maxEvents minComplete total : ℕ)
  deriving DecidableEq, Repr

/-- An engine: its requests in the order of their submission, the reads the system works on and the
queue of events, with a record of what was given to it, counted and returned. -/
structure Engine where
  reqs : ℕ → AioReq
  next : ℕ
  flight : List ℕ
  queue : List (ℕ × Option Result)
  given : ℕ → UserData
  accepted : List ℕ
  settled : List ℕ
  delivered : List ℕ

/-- The engine, its callers, the events in the worker's hands and the tasks of its loads. `drained`
and `taken` record which events went through `drain_completions` and which to other callers. -/
structure State where
  eng : Engine
  calls : Caller → Call
  polled : List ℕ
  pending : ℕ → ℤ
  failed : ℕ → Bool
  inUse : ℕ → Bool
  drained : List ℕ
  taken : List ℕ

inductive Action (A : Type*)
  | submitBatch (c : ℕ) (reqs : List AioReq)
  | turn (c : ℕ) (answer : A)
  | submitReturn (c : ℕ)
  | land (i : ℕ) (result : Result)
  | waitEvents (c : Caller) (maxEvents minComplete : ℕ)
  | fetch (c : Caller) (k : ℕ)
  | waitReturn (c : Caller)
  | startLoad (t : ℕ) (slices : List AioReq)
  | submitSlice (answer : A)
  | loadReturn
  | drain

def Engine.book (i : ℕ) (e : Engine) : Fate → Engine
  | .rejected => e
  | .settled => { e with accepted := i :: e.accepted, settled := i :: e.settled }
  | .flight => { e with accepted := i :: e.accepted, flight := i :: e.flight }
  | .queued result => { e with accepted := i :: e.accepted, queue := e.queue ++ [(i, result)] }

def Fate.counted : Fate → Bool
  | .rejected => false
  | _ => true

section machine

variable {A : Type*} (B : Backend A)

/-- The request after its turn is request `e.next`. -/
def Engine.submit (e : Engine) (r : AioReq) (answer : A) : Engine :=
  Engine.book e.next
    { e with
      reqs := Function.update e.reqs e.next (B.turn r answer).1
      given := Function.update e.given e.next r.userData
      next := e.next + 1 }
    (B.turn r answer).2

/-- `wait_events` stores what the entry carries. -/
def storeResults : List (ℕ × Option Result) → (ℕ → AioReq) → ℕ → AioReq
  | [], reqs => reqs
  | (_, none) :: rest, reqs => storeResults rest reqs
  | (i, some res) :: rest, reqs =>
      storeResults rest (Function.update reqs i ((reqs i).finish res.bytes res.status))

/-- The first `k` events of the queue go to the caller. -/
def Engine.fetch (k : ℕ) (e : Engine) : Engine :=
  { e with
    reqs := storeResults (e.queue.take k) e.reqs
    queue := e.queue.drop k
    delivered := e.delivered ++ (e.queue.take k).map Prod.fst }

def State.setCall (s : State) (c : Caller) (k : Call) : State :=
  { s with calls := Function.update s.calls c k }

/-- Who receives the events of a fetch. -/
def State.receive (s : State) (ids : List ℕ) : Caller → State
  | .worker => { s with polled := s.polled ++ ids }
  | .other _ => { s with taken := s.taken ++ ids }

/-- One slice of `start_async_load`: a batch of one request; the loop ends at the first rejection. -/
def submitSlice (t : ℕ) (r : AioReq) (todo : List AioReq) (answer : A) (s : State) : State :=
  let r := { r with userData := UserData.load t }
  let s' := { s with eng := s.eng.submit B r answer }
  if (B.turn r answer).2.counted then
    { s' with pending := Function.update s.pending t (s.pending t + 1) }.setCall .worker (.load t todo)
  else { s' with failed := Function.update s.failed t true }.setCall .worker (.load t [])

def drainEvent (t i : ℕ) (rest : List ℕ) (s : State) : State :=
  { s with
    polled := rest
    drained := i :: s.drained
    failed := Function.update s.failed t (s.failed t || (s.eng.reqs i).errorCode != 0)
    pending := Function.update s.pending t (s.pending t - 1)
    inUse := Function.update s.inUse t (s.pending t - 1 != 0) }

def UserData.isLoad : UserData → Bool
  | .load _ => true
  | .other _ => false

def step (s : State) : Action A → Option State
  | .submitBatch c reqs =>
      if s.calls (.other c) = .idle ∧ (∀ r ∈ reqs, r.userData.isLoad = false) then
        some (s.setCall (.other c) (.submit reqs 0 []))
      else none
  | .turn c answer =>
      match s.calls (.other c) with
      | .submit (r :: todo) n mine =>
          let s' := { s with eng := s.eng.submit B r answer }
          if (B.turn r answer).2.counted then
            some (s'.setCall (.other c) (.submit todo (n + 1) (s.eng.next :: mine)))
          else some (s'.setCall (.other c) (.submit todo n mine))
      | _ => none
  | .submitReturn c =>
      match s.calls (.other c) with
      | .submit [] _ _ => some (s.setCall (.other c) .idle)
      | _ => none
  | .land i result =>
      if i ∈ s.eng.flight then
        some { s with eng := { s.eng with
          flight := s.eng.flight.erase i, queue := s.eng.queue ++ [(i, some result)] } }
      else none
  | .waitEvents c maxEvents minComplete =>
      if s.calls c = .idle ∧ (c = .worker → s.polled = []) then
        some (s.setCall c (.wait maxEvents minComplete 0))
      else none
  | .fetch c k =>
      match s.calls c with
      | .wait maxEvents minComplete total =>
          if total < maxEvents ∧ 0 < k ∧ k ≤ min (B.fetchCap maxEvents) (maxEvents - total) ∧
              k ≤ s.eng.queue.length then
            let s' := { s with eng := s.eng.fetch k }.receive ((s.eng.queue.take k).map Prod.fst) c
            if B.minStops ∧ minComplete ≤ total + k then some (s'.setCall c .idle)
            else some (s'.setCall c (.wait maxEvents minComplete (total + k)))
          else none
      | _ => none
  -- a time-out on Windows, an empty queue on POSIX, or a full output array
  | .waitReturn c =>
      match s.calls c with
      | .wait maxEvents _ total =>
          if B.minStops ∨ s.eng.queue = [] ∨ maxEvents ≤ total then some (s.setCall c .idle) else none
      | _ => none
  | .startLoad t slices =>
      if s.calls .worker = .idle ∧ s.polled = [] ∧ s.inUse t = false then
        some ({ s with
          inUse := Function.update s.inUse t true
          failed := Function.update s.failed t false
          pending := Function.update s.pending t 0 }.setCall .worker (.load t slices))
      else none
  | .submitSlice answer =>
      match s.calls .worker with
      | .load t (r :: todo) => some (submitSlice B t r todo answer s)
      | _ => none
  | .loadReturn =>
      match s.calls .worker with
      | .load t [] =>
          some ({ s with inUse := Function.update s.inUse t (s.pending t != 0) }.setCall .worker .idle)
      | _ => none
  | .drain =>
      match s.calls .worker, s.polled with
      | .idle, i :: rest =>
          match (s.eng.reqs i).userData with
          | .load t => some (drainEvent t i rest s)
          -- `user_data` is no `async_load_t`
          | .other _ => none
      | _, _ => none

def blankReq : AioReq := ⟨false, 0, 0, 0, .other 0, 0, 0, false⟩

def initState : State where
  eng := { reqs := fun _ => blankReq, next := 0, flight := [], queue := [], given := fun _ => .other 0,
           accepted := [], settled := [], delivered := [] }
  calls _ := .idle
  polled := []
  pending _ := 0
  failed _ := false
  inUse _ := false
  drained := []
  taken := []

def machine : Machine State (Action A) where
  init s := s = initState
  step := step B

end machine

/-- What `submit_batch` counts is in flight, in the queue or was returned by `wait_events`, once and
with its own `user_data`; a load's count is at zero exactly when its requests have been drained, and
it gets there when the engine is empty and nobody else took an event of the load. -/
structure Accounted (s : State) : Prop where
  returns : ∀ (c : ℕ) (todo : List AioReq) (n : ℕ) (mine : List ℕ),
    s.calls (.other c) = .submit todo n mine → mine.length = n ∧ mine.Nodup ∧ mine ⊆ s.eng.accepted
  once : s.eng.accepted.Nodup
  account : s.eng.accepted.Perm (s.eng.delivered ++ (s.eng.queue.map Prod.fst ++ s.eng.flight))
  own : ∀ i ∈ s.eng.delivered, (s.eng.reqs i).userData = s.eng.given i
  pending : ∀ t, s.pending t = 0 ↔ ∀ i ∈ s.eng.accepted, s.eng.given i = .load t → i ∈ s.drained
  settles : s.eng.flight = [] → s.eng.queue = [] → s.polled = [] →
    ∀ t, (∀ i ∈ s.taken, s.eng.given i ≠ .load t) → s.pending t = 0

/-- The request has no zero length and its `ReadFile` does not fail at once at the end of the
file. -/
def Reported (r : AioReq) (answer : ReadFileAnswer) : Prop :=
  r.alignedLen ≠ 0 ∧ answer ≠ .fails errorHandleEof

/-- Each request that passes the checks of `submit_batch` is one the completion port reports. -/
def AllReported (s : State) : Action ReadFileAnswer → Prop
  | .turn c answer => ∀ r todo n mine, s.calls (.other c) = .submit (r :: todo) n mine →
      r.hasHandle = true → r.aligned = true → Reported r answer
  | .submitSlice answer => ∀ t r todo, s.calls .worker = .load t (r :: todo) →
      r.hasHandle = true → r.aligned = true → Reported r answer
  | _ => True

/-- The request passes the checks of `submit_batch`, and its turn counts it without an event. -/
theorem winTurn_settled {r : AioReq} {answer : ReadFileAnswer}
    (hreported : r.hasHandle = true → r.aligned = true → Reported r answer) :
    (winTurn r answer).2 ≠ .settled := by
  unfold winTurn
  have hhandle : r.reset.hasHandle = r.hasHandle := rfl
  have haligned : r.reset.aligned = r.aligned := rfl
  have hlen : r.reset.alignedLen = r.alignedLen := rfl
  dsimp only
  rw [hhandle, haligned, hlen]
  split
  · exact Fate.noConfusion
  · rename_i hok
    split
    · exact Fate.noConfusion
    · rename_i hal
      obtain ⟨hne, heof⟩ := hreported (by simpa using hok) (by simpa using hal)
      rw [if_neg hne]
      cases answer with
      | succeeds n => exact Fate.noConfusion
      | fails err =>
        dsimp only
        split
        · exact Fate.noConfusion
        · rw [if_neg (by rintro rfl; exact heof rfl)]
          exact Fate.noConfusion

theorem posixTurn_settled (r : AioReq) (answer : PreadAnswer) : (posixTurn r answer).2 ≠ .settled := by
  unfold posixTurn
  dsimp only
  split
  · exact Fate.noConfusion
  · cases answer <;> exact Fate.noConfusion

section books

variable {A : Type*} {B : Backend A} {e : Engine} {i : ℕ}

/-- Where request `i` stands in the books, with its multiplicity. -/
def Engine.places (e : Engine) (i : ℕ) : ℕ :=
  e.delivered.count i + (e.queue.map Prod.fst).count i + e.flight.count i + e.settled.count i

structure EngineInv (e : Engine) : Prop where
  once : e.accepted.Nodup
  fresh : ∀ i ∈ e.accepted, i < e.next
  account : ∀ i, e.accepted.count i = e.places i
  own : ∀ i < e.next, (e.reqs i).userData = e.given i

theorem EngineInv.delivered_sub (h : EngineInv e) (hmem : i ∈ e.delivered) : i ∈ e.accepted := by
  have hcount := h.account i
  have hpos : 0 < e.delivered.count i := List.count_pos_iff.mpr hmem
  unfold Engine.places at hcount
  exact List.count_pos_iff.mp (by omega)

theorem book_rejected {f : Fate} (hf : f.counted = false) : Engine.book i e f = e := by
  cases f with
  | rejected => rfl
  | _ => cases hf

/-- A counted request is accepted and stands in one place more. -/
theorem book_counted {f : Fate} (hf : f.counted = true) :
    (Engine.book i e f).accepted = i :: e.accepted ∧
      ∀ j, (Engine.book i e f).places j = e.places j + if i = j then 1 else 0 := by
  cases f with
  | rejected => cases hf
  | settled =>
    refine ⟨rfl, fun j => ?_⟩
    simp only [Engine.book, Engine.places, List.count_cons, beq_iff_eq]
    omega
  | flight =>
    refine ⟨rfl, fun j => ?_⟩
    simp only [Engine.book, Engine.places, List.count_cons, beq_iff_eq]
    omega
  | queued result =>
    refine ⟨rfl, fun j => ?_⟩
    simp only [Engine.book, Engine.places, List.map_append, List.map_cons, List.map_nil,
      List.count_append, List.count_cons, List.count_nil, beq_iff_eq]
    omega

@[simp] theorem book_reqs (f : Fate) : (Engine.book i e f).reqs = e.reqs := by cases f <;> rfl

@[simp] theorem book_given (f : Fate) : (Engine.book i e f).given = e.given := by cases f <;> rfl

@[simp] theorem book_next (f : Fate) : (Engine.book i e f).next = e.next := by cases f <;> rfl

@[simp] theorem book_delivered (f : Fate) : (Engine.book i e f).delivered = e.delivered := by
  cases f <;> rfl

theorem submit_given (e : Engine) (r : AioReq) (answer : A) :
    (e.submit B r answer).given = Function.update e.given e.next r.userData := by
  simp only [Engine.submit, book_given]

theorem submit_delivered (e : Engine) (r : AioReq) (answer : A) :
    (e.submit B r answer).delivered = e.delivered := by
  simp only [Engine.submit, book_delivered]

theorem submit_accepted (e : Engine) (r : AioReq) (answer : A) :
    (e.submit B r answer).accepted =
      if (B.turn r answer).2.counted then e.next :: e.accepted else e.accepted := by
  unfold Engine.submit
  split
  · rename_i hcounted
    rw [(book_counted hcounted).1]
  · rename_i hcounted
    rw [book_rejected (by simpa using hcounted)]

theorem EngineInv.not_fresh (h : EngineInv e) : e.next ∉ e.accepted :=
  fun hmem => Nat.lt_irrefl _ (h.fresh _ hmem)

theorem EngineInv.submit (h : EngineInv e) (r : AioReq) (answer : A) :
    EngineInv (e.submit B r answer) := by
  have hnext : (e.submit B r answer).next = e.next + 1 := by simp only [Engine.submit, book_next]
  have hown : ∀ i < e.next + 1, ((e.submit B r answer).reqs i).userData =
      (e.submit B r answer).given i := by
    intro i hi
    simp only [Engine.submit, book_reqs, book_given]
    by_cases hlast : i = e.next
    · subst hlast
      rw [Function.update_self, Function.update_self]
      exact B.turn_userData r answer
    · rw [Function.update_of_ne hlast, Function.update_of_ne hlast]
      exact h.own i (by omega)
  have hacc := submit_accepted (B := B) e r answer
  by_cases hcounted : (B.turn r answer).2.counted = true
  · rw [if_pos hcounted] at hacc
    refine ⟨?_, ?_, fun j => ?_, hnext ▸ hown⟩
    · rw [hacc]
      exact List.nodup_cons.mpr ⟨h.not_fresh, h.once⟩
    · rw [hacc, hnext]
      intro i hi
      rcases List.mem_cons.mp hi with rfl | hi
      · exact Nat.lt_succ_self _
      · exact Nat.lt_succ_of_lt (h.fresh i hi)
    · have hplaces := (book_counted (i := e.next) (e := { e with
        reqs := Function.update e.reqs e.next (B.turn r answer).1
        given := Function.update e.given e.next r.userData
        next := e.next + 1 }) hcounted).2 j
      have hj := h.account j
      rw [hacc, List.count_cons, hj]
      simp only [beq_iff_eq]
      exact hplaces.symm
  · have hreject : (B.turn r answer).2.counted = false := by simpa using hcounted
    rw [if_neg hcounted] at hacc
    refine ⟨hacc ▸ h.once, ?_, fun j => ?_, hnext ▸ hown⟩
    · rw [hacc, hnext]
      exact fun i hi => Nat.lt_succ_of_lt (h.fresh i hi)
    · rw [hacc, h.account j]
      unfold Engine.submit
      rw [book_rejected hreject]
      rfl

theorem EngineInv.land (h : EngineInv e) (result : Result) (hmem : i ∈ e.flight) :
    EngineInv { e with flight := e.flight.erase i, queue := e.queue ++ [(i, some result)] } := by
  refine ⟨h.once, h.fresh, fun j => ?_, h.own⟩
  have hj := h.account j
  have hpos : 0 < e.flight.count i := List.count_pos_iff.mpr hmem
  simp only [Engine.places, List.map_append, List.map_cons, List.map_nil, List.count_append,
    List.count_cons, List.count_nil, List.count_erase, beq_iff_eq] at hj ⊢
  split
  · rename_i heq
    subst heq
    omega
  · omega

@[simp] theorem finish_userData (r : AioReq) (bytes err : ℕ) :
    (r.finish bytes err).userData = r.userData := rfl

theorem storeResults_userData (events : List (ℕ × Option Result)) (reqs : ℕ → AioReq) (i : ℕ) :
    (storeResults events reqs i).userData = (reqs i).userData := by
  induction events generalizing reqs with
  | nil => rfl
  | cons ev rest ih =>
    obtain ⟨j, result⟩ := ev
    cases result with
    | none => exact ih reqs
    | some res =>
      simp only [storeResults]
      rw [ih]
      by_cases hij : i = j
      · subst hij
        rw [Function.update_self, finish_userData]
      · rw [Function.update_of_ne hij]

theorem EngineInv.fetch (h : EngineInv e) (k : ℕ) : EngineInv (e.fetch k) := by
  refine ⟨h.once, h.fresh, fun j => ?_, fun i hi => ?_⟩
  · have hj := h.account j
    have hsplit : (e.queue.map Prod.fst).count j =
        ((e.queue.take k).map Prod.fst).count j + ((e.queue.drop k).map Prod.fst).count j := by
      rw [← List.count_append, ← List.map_append, List.take_append_drop]
    simp only [Engine.places, Engine.fetch, List.count_append] at hj ⊢
    omega
  · simp only [Engine.fetch]
    rw [storeResults_userData]
    exact h.own i hi

end books

section system

variable {A : Type*} {B : Backend A} {s s' : State} {t i : ℕ}

/-- How many of the requests carry the task as their `user_data`. -/
def ofTask (given : ℕ → UserData) (t : ℕ) (ids : List ℕ) : ℕ :=
  ids.countP fun i => given i = .load t

structure Inv (s : State) : Prop where
  eng : EngineInv s.eng
  returns : ∀ (c : ℕ) (todo : List AioReq) (n : ℕ) (mine : List ℕ),
    s.calls (.other c) = .submit todo n mine → mine.length = n ∧ mine.Nodup ∧ mine ⊆ s.eng.accepted
  foreign : ∀ (c : ℕ) (todo : List AioReq) (n : ℕ) (mine : List ℕ),
    s.calls (.other c) = .submit todo n mine → ∀ r ∈ todo, r.userData.isLoad = false
  dispatched : ∀ i, s.eng.delivered.count i = s.drained.count i + s.polled.count i + s.taken.count i
  counted : ∀ t, s.pending t + ofTask s.eng.given t s.drained = ofTask s.eng.given t s.eng.accepted
  resting : ∀ t, s.inUse t = false → s.pending t = 0
  loading : ∀ (t : ℕ) (todo : List AioReq), s.calls .worker = .load t todo → s.inUse t = true

theorem ofTask_cons (given : ℕ → UserData) (t i : ℕ) (ids : List ℕ) :
    ofTask given t (i :: ids) = ofTask given t ids + if given i = .load t then 1 else 0 := by
  simp only [ofTask, List.countP_cons, decide_eq_true_eq]

/-- A request that comes later changes no count. -/
theorem ofTask_update {given : ℕ → UserData} {ids : List ℕ} {n : ℕ} (h : n ∉ ids) (u : UserData) (t : ℕ) :
    ofTask (Function.update given n u) t ids = ofTask given t ids := by
  unfold ofTask
  refine List.countP_congr fun i hi => ?_
  have hne : i ≠ n := by
    rintro rfl
    exact h hi
  rw [Function.update_of_ne hne]

theorem Inv.drained_sub (h : Inv s) (hmem : i ∈ s.drained) : i ∈ s.eng.accepted := by
  have hi := h.dispatched i
  have hpos : 0 < s.drained.count i := List.count_pos_iff.mpr hmem
  exact h.eng.delivered_sub (List.count_pos_iff.mp (by omega))

theorem Inv.delivered_nodup (h : Inv s) : s.eng.delivered.Nodup := by
  rw [List.nodup_iff_count_le_one]
  intro i
  have hi := h.eng.account i
  have hle := List.nodup_iff_count_le_one.mp h.eng.once i
  unfold Engine.places at hi
  omega

theorem Inv.drained_nodup (h : Inv s) : s.drained.Nodup := by
  rw [List.nodup_iff_count_le_one]
  intro i
  have hi := h.dispatched i
  have hle := List.nodup_iff_count_le_one.mp h.delivered_nodup i
  omega

theorem Inv.next_not_drained (h : Inv s) : s.eng.next ∉ s.drained :=
  fun hmem => h.eng.not_fresh (h.drained_sub hmem)

/-- A turn of a submit loop changes the counts of the request's own task alone. -/
theorem ofTask_submit (h : Inv s) (r : AioReq) (answer : A) (t : ℕ) :
    ofTask (s.eng.submit B r answer).given t s.drained = ofTask s.eng.given t s.drained ∧
      ofTask (s.eng.submit B r answer).given t (s.eng.submit B r answer).accepted =
        ofTask s.eng.given t s.eng.accepted +
          if (B.turn r answer).2.counted ∧ r.userData = .load t then 1 else 0 := by
  rw [submit_given, submit_accepted]
  refine ⟨ofTask_update h.next_not_drained _ t, ?_⟩
  by_cases hcounted : (B.turn r answer).2.counted = true
  · rw [if_pos hcounted, ofTask_cons, ofTask_update h.eng.not_fresh, Function.update_self]
    simp only [hcounted, true_and]
  · rw [if_neg hcounted, ofTask_update h.eng.not_fresh, if_neg fun hboth => hcounted hboth.1]
    rfl

theorem accepted_mono (e : Engine) (r : AioReq) (answer : A) :
    e.accepted ⊆ (e.submit B r answer).accepted := by
  rw [submit_accepted]
  split
  · exact List.subset_cons_self _ _
  · exact List.Subset.refl _

@[simp] theorem setCall_calls_self (s : State) (c : Caller) (k : Call) : (s.setCall c k).calls c = k :=
  Function.update_self ..

theorem setCall_calls_of_ne (s : State) {c d : Caller} (k : Call) (h : d ≠ c) :
    (s.setCall c k).calls d = s.calls d := Function.update_of_ne h ..

/-- The call of a caller that is not inside `submit_batch` changes no book. -/
theorem Inv.setCall (h : Inv s) (c : Caller) {k : Call} (hk : ∀ todo n mine, k ≠ .submit todo n mine)
    (huse : ∀ t todo, k = .load t todo → s.inUse t = true) : Inv (s.setCall c k) := by
  have hcalls : ∀ d todo n mine, (s.setCall c k).calls d = .submit todo n mine →
      s.calls d = .submit todo n mine := by
    intro d todo n mine hd
    by_cases hdc : d = c
    · subst hdc
      rw [setCall_calls_self] at hd
      exact absurd hd (hk todo n mine)
    · rwa [setCall_calls_of_ne s k hdc] at hd
  refine ⟨h.eng, fun c todo n mine hc => h.returns c todo n mine (hcalls _ _ _ _ hc),
    fun c todo n mine hc => h.foreign c todo n mine (hcalls _ _ _ _ hc),
    h.dispatched, h.counted, h.resting, fun t todo hload => ?_⟩
  by_cases hc : Caller.worker = c
  · subst hc
    rw [setCall_calls_self] at hload
    exact huse t todo hload
  · rw [setCall_calls_of_ne s k hc] at hload
    exact h.loading t todo hload

/-- What the books owe to a turn of the submit loop of another caller. -/
theorem Inv.foreignTurn (h : Inv s) {r : AioReq} (answer : A) (hr : r.userData.isLoad = false) :
    Inv { s with eng := s.eng.submit B r answer } := by
  refine ⟨h.eng.submit r answer, ?_, h.foreign, ?_, ?_, h.resting, h.loading⟩
  · intro c todo n mine hc
    obtain ⟨hlen, hnodup, hsub⟩ := h.returns c todo n mine hc
    exact ⟨hlen, hnodup, List.Subset.trans hsub (accepted_mono _ _ _)⟩
  · intro i
    show (s.eng.submit B r answer).delivered.count i = _
    rw [submit_delivered]
    exact h.dispatched i
  · intro t
    obtain ⟨hdrained, haccepted⟩ := ofTask_submit (B := B) h r answer t
    have hne : ¬ ((B.turn r answer).2.counted = true ∧ r.userData = .load t) := by
      rintro ⟨_, hload⟩
      rw [hload] at hr
      cases hr
    show s.pending t + _ = _
    rw [hdrained, haccepted, if_neg hne]
    exact h.counted t

/-- A turn of the caller `c` that reaches its request counts it among its own. -/
theorem Inv.turn (h : Inv s) {c : ℕ} {r : AioReq} {todo : List AioReq} {n : ℕ} {mine : List ℕ}
    (answer : A) (hcall : s.calls (.other c) = .submit (r :: todo) n mine)
    (hstep : step B s (.turn c answer) = some s') : Inv s' := by
  have hr := h.foreign c _ n mine hcall r (List.mem_cons_self ..)
  have hturn := h.foreignTurn (B := B) answer hr
  obtain ⟨hlen, hnodup, hsub⟩ := h.returns c _ n mine hcall
  have htodo : ∀ x ∈ todo, x.userData.isLoad = false := fun x hx =>
    h.foreign c _ n mine hcall x (List.mem_cons_of_mem _ hx)
  simp only [step, hcall] at hstep
  -- the other callers' counts are those of the turn, the caller's own gains the request
  have hown : ∀ {m : ℕ} {own : List ℕ}, own.length = m ∧ own.Nodup ∧
      own ⊆ (s.eng.submit B r answer).accepted →
      Inv (({ s with eng := s.eng.submit B r answer } : State).setCall (.other c) (.submit todo m own)) := by
    intro m own hmine
    refine ⟨hturn.eng, ?_, ?_, hturn.dispatched, hturn.counted, hturn.resting, ?_⟩
    · intro d todo' n' mine' hd
      by_cases hdc : d = c
      · subst hdc
        rw [setCall_calls_self] at hd
        cases hd
        exact hmine
      · rw [setCall_calls_of_ne _ _ (by intro heq; cases heq; exact hdc rfl)] at hd
        exact hturn.returns d todo' n' mine' hd
    · intro d todo' n' mine' hd
      by_cases hdc : d = c
      · subst hdc
        rw [setCall_calls_self] at hd
        cases hd
        exact htodo
      · rw [setCall_calls_of_ne _ _ (by intro heq; cases heq; exact hdc rfl)] at hd
        exact hturn.foreign d todo' n' mine' hd
    · intro t todo' hload
      rw [setCall_calls_of_ne _ _ Caller.noConfusion] at hload
      exact hturn.loading t todo' hload
  split at hstep
  · rename_i hcounted
    cases hstep
    refine hown ⟨by rw [List.length_cons, hlen], ?_, ?_⟩
    · exact List.nodup_cons.mpr ⟨fun hmem => h.eng.not_fresh (hsub hmem), hnodup⟩
    · rw [submit_accepted, if_pos hcounted]
      exact List.cons_subset_cons _ hsub
  · cases hstep
    exact hown ⟨hlen, hnodup, List.Subset.trans hsub (accepted_mono _ _ _)⟩

theorem Inv.submitSlice (h : Inv s) (r : AioReq) (todo : List AioReq) (answer : A)
    (huse : s.inUse t = true) : Inv (submitSlice B t r todo answer s) := by
  have hreturns : ∀ (c : ℕ) (todo : List AioReq) (n : ℕ) (mine : List ℕ),
      s.calls (.other c) = .submit todo n mine → mine.length = n ∧ mine.Nodup ∧
        mine ⊆ (s.eng.submit B { r with userData := UserData.load t } answer).accepted := by
    intro c todo n mine hc
    obtain ⟨hlen, hnodup, hsub⟩ := h.returns c todo n mine hc
    exact ⟨hlen, hnodup, List.Subset.trans hsub (accepted_mono _ _ _)⟩
  have hdispatched : ∀ i, (s.eng.submit B { r with userData := UserData.load t } answer).delivered.count i =
      s.drained.count i + s.polled.count i + s.taken.count i := by
    intro i
    rw [submit_delivered]
    exact h.dispatched i
  have hspec := ofTask_submit (B := B) h { r with userData := UserData.load t } answer
  unfold DioEngine.submitSlice
  dsimp only
  split
  · rename_i hcounted
    have hinv : Inv { s with
        eng := s.eng.submit B { r with userData := UserData.load t } answer
        pending := Function.update s.pending t (s.pending t + 1) } := by
      refine ⟨h.eng.submit _ answer, hreturns, h.foreign, hdispatched, ?_, ?_, h.loading⟩
      · intro t'
        obtain ⟨hdrained, haccepted⟩ := hspec t'
        have hold := h.counted t'
        show Function.update s.pending t (s.pending t + 1) t' + _ = _
        rw [hdrained, haccepted]
        by_cases htt : t' = t
        · subst htt
          rw [Function.update_self, if_pos ⟨hcounted, rfl⟩]
          push_cast
          omega
        · rw [Function.update_of_ne htt, if_neg]
          · exact hold
          · rintro ⟨_, heq⟩
            cases heq
            exact htt rfl
      · intro t' ht'
        have htt : t' ≠ t := by
          rintro rfl
          rw [show s.inUse t' = false from ht'] at huse
          cases huse
        show Function.update s.pending t (s.pending t + 1) t' = 0
        rw [Function.update_of_ne htt]
        exact h.resting t' ht'
    refine hinv.setCall .worker (fun _ _ _ hk => by cases hk) fun t' todo' hk => ?_
    cases hk
    exact huse
  · rename_i hcounted
    have hinv : Inv { s with
        eng := s.eng.submit B { r with userData := UserData.load t } answer
        failed := Function.update s.failed t true } := by
      refine ⟨h.eng.submit _ answer, hreturns, h.foreign, hdispatched, ?_, h.resting, h.loading⟩
      intro t'
      obtain ⟨hdrained, haccepted⟩ := hspec t'
      show s.pending t' + _ = _
      rw [hdrained, haccepted, if_neg fun hboth => hcounted hboth.1]
      exact h.counted t'
    refine hinv.setCall .worker (fun _ _ _ hk => by cases hk) fun t' todo' hk => ?_
    cases hk
    exact huse

/-- A fetch hands its events to one party. -/
theorem Inv.fetch (h : Inv s) (c : Caller) (k : ℕ) :
    Inv (({ s with eng := s.eng.fetch k } : State).receive ((s.eng.queue.take k).map Prod.fst) c) := by
  have hcount : ∀ i, (s.eng.fetch k).delivered.count i =
      s.eng.delivered.count i + ((s.eng.queue.take k).map Prod.fst).count i := fun i =>
    List.count_append
  cases c with
  | worker =>
    refine ⟨h.eng.fetch k, h.returns, h.foreign, fun i => ?_, h.counted, h.resting, h.loading⟩
    have hi := h.dispatched i
    show (s.eng.fetch k).delivered.count i = s.drained.count i + (s.polled ++ _).count i + s.taken.count i
    rw [hcount, List.count_append, hi]
    omega
  | other c =>
    refine ⟨h.eng.fetch k, h.returns, h.foreign, fun i => ?_, h.counted, h.resting, h.loading⟩
    have hi := h.dispatched i
    show (s.eng.fetch k).delivered.count i = s.drained.count i + s.polled.count i + (s.taken ++ _).count i
    rw [hcount, List.count_append, hi]
    omega

/-- An event of the worker's that names a task is one of the requests the task still counts. -/
theorem Inv.drain (h : Inv s) {rest : List ℕ} (hpolled : s.polled = i :: rest)
    (hidle : s.calls .worker = .idle) (hdata : (s.eng.reqs i).userData = .load t) :
    Inv (drainEvent t i rest s) := by
  have hdelivered : i ∈ s.eng.delivered := by
    have hi := h.dispatched i
    have hpos : 0 < s.polled.count i := List.count_pos_iff.mpr (hpolled ▸ List.mem_cons_self ..)
    exact List.count_pos_iff.mp (by omega)
  have hgiven : s.eng.given i = .load t := by
    rw [← h.eng.own i (h.eng.fresh i (h.eng.delivered_sub hdelivered)), hdata]
  refine ⟨h.eng, h.returns, h.foreign, fun j => ?_, fun t' => ?_, fun t' ht' => ?_, fun t' todo hload => ?_⟩
  · have hj := h.dispatched j
    rw [hpolled] at hj
    simp only [drainEvent, List.count_cons] at hj ⊢
    omega
  · have hold := h.counted t'
    simp only [drainEvent]
    rw [ofTask_cons, hgiven]
    by_cases htt : t' = t
    · subst htt
      rw [Function.update_self, if_pos rfl]
      push_cast
      omega
    · rw [Function.update_of_ne htt, if_neg fun heq => by cases heq; exact htt rfl]
      exact hold
  · simp only [drainEvent] at ht' ⊢
    by_cases htt : t' = t
    · subst htt
      rw [Function.update_self] at ht' ⊢
      simpa using ht'
    · rw [Function.update_of_ne htt] at ht' ⊢
      exact h.resting t' ht'
  · rw [show s.calls .worker = .load t' todo from hload] at hidle
    cases hidle

theorem Inv.step (h : Inv s) (a : Action A) (hstep : step B s a = some s') : Inv s' := by
  have hsame : ∀ {k : Call}, (∀ t todo, k ≠ .load t todo) → ∀ t todo, k = .load t todo → s.inUse t = true :=
    fun hk t todo heq => absurd heq (hk t todo)
  cases a with
  | submitBatch c reqs =>
    simp only [DioEngine.step] at hstep
    split at hstep
    · rename_i hguard
      cases hstep
      refine ⟨h.eng, ?_, ?_, h.dispatched, h.counted, h.resting, ?_⟩
      · intro d todo n mine hd
        by_cases hdc : d = c
        · subst hdc
          rw [setCall_calls_self] at hd
          cases hd
          exact ⟨rfl, List.nodup_nil, List.nil_subset _⟩
        · rw [setCall_calls_of_ne _ _ (by intro heq; cases heq; exact hdc rfl)] at hd
          exact h.returns d todo n mine hd
      · intro d todo n mine hd
        by_cases hdc : d = c
        · subst hdc
          rw [setCall_calls_self] at hd
          cases hd
          exact hguard.2
        · rw [setCall_calls_of_ne _ _ (by intro heq; cases heq; exact hdc rfl)] at hd
          exact h.foreign d todo n mine hd
      · intro t todo hload
        rw [setCall_calls_of_ne _ _ Caller.noConfusion] at hload
        exact h.loading t todo hload
    · cases hstep
  | turn c answer =>
    have hcall : ∃ r todo n mine, s.calls (.other c) = .submit (r :: todo) n mine := by
      simp only [DioEngine.step] at hstep
      split at hstep
      · rename_i r todo n mine hcall
        exact ⟨r, todo, n, mine, hcall⟩
      · cases hstep
    obtain ⟨r, todo, n, mine, hcall⟩ := hcall
    exact h.turn answer hcall hstep
  | submitReturn c =>
    simp only [DioEngine.step] at hstep
    split at hstep
    · cases hstep
      exact h.setCall _ (fun _ _ _ hk => by cases hk) (hsame fun _ _ hk => by cases hk)
    · cases hstep
  | land i result =>
    simp only [DioEngine.step] at hstep
    split at hstep
    · rename_i hmem
      cases hstep
      exact ⟨h.eng.land result hmem, h.returns, h.foreign, h.dispatched, h.counted, h.resting, h.loading⟩
    · cases hstep
  | waitEvents c maxEvents minComplete =>
    simp only [DioEngine.step] at hstep
    split at hstep
    · cases hstep
      exact h.setCall _ (fun _ _ _ hk => by cases hk) (hsame fun _ _ hk => by cases hk)
    · cases hstep
  | fetch c k =>
    simp only [DioEngine.step] at hstep
    split at hstep
    · split at hstep
      · have hfetch := h.fetch c k
        split at hstep
        · cases hstep
          exact hfetch.setCall _ (fun _ _ _ hk => by cases hk) fun _ _ hk => by cases hk
        · cases hstep
          exact hfetch.setCall _ (fun _ _ _ hk => by cases hk) fun _ _ hk => by cases hk
      · cases hstep
    · cases hstep
  | waitReturn c =>
    simp only [DioEngine.step] at hstep
    split at hstep
    · split at hstep
      · cases hstep
        exact h.setCall _ (fun _ _ _ hk => by cases hk) (hsame fun _ _ hk => by cases hk)
      · cases hstep
    · cases hstep
  | startLoad t slices =>
    simp only [DioEngine.step] at hstep
    split at hstep
    · rename_i hguard
      cases hstep
      have hzero := h.resting t hguard.2.2
      have hpending : Function.update s.pending t 0 = s.pending := by
        rw [← hzero, Function.update_eq_self]
      have hinv : Inv { s with
          inUse := Function.update s.inUse t true
          failed := Function.update s.failed t false
          pending := Function.update s.pending t 0 } := by
        refine ⟨h.eng, h.returns, h.foreign, h.dispatched, ?_, fun t' ht' => ?_, fun t' todo hload => ?_⟩
        · rw [hpending]
          exact h.counted
        · show Function.update s.pending t 0 t' = 0
          rw [hpending]
          by_cases htt : t' = t
          · rw [htt, hzero]
          · replace ht' : Function.update s.inUse t true t' = false := ht'
            rw [Function.update_of_ne htt] at ht'
            exact h.resting t' ht'
        · rw [show s.calls .worker = .load t' todo from hload] at hguard
          cases hguard.1
      refine hinv.setCall .worker (fun _ _ _ hk => by cases hk) fun t' todo' hk => ?_
      cases hk
      exact Function.update_self ..
    · cases hstep
  | submitSlice answer =>
    simp only [DioEngine.step] at hstep
    split at hstep
    · rename_i t r todo hcall
      cases hstep
      exact h.submitSlice r todo answer (h.loading t _ hcall)
    · cases hstep
  | loadReturn =>
    simp only [DioEngine.step] at hstep
    split at hstep
    · rename_i t hcall
      cases hstep
      refine ⟨h.eng, h.returns, h.foreign, h.dispatched, h.counted, fun t' ht' => ?_, fun t' todo hload => ?_⟩
      · replace ht' : Function.update s.inUse t (s.pending t != 0) t' = false := ht'
        by_cases htt : t' = t
        · subst htt
          rw [Function.update_self] at ht'
          show s.pending t' = 0
          simpa using ht'
        · rw [Function.update_of_ne htt] at ht'
          exact h.resting t' ht'
      · rw [setCall_calls_self] at hload
        cases hload
    · cases hstep
  | drain =>
    simp only [DioEngine.step] at hstep
    split at hstep
    · rename_i hidle hpolled
      split at hstep
      · rename_i t hdata
        cases hstep
        exact h.drain hpolled hidle hdata
      · cases hstep
    · cases hstep

theorem inv_init : Inv initState where
  eng := ⟨List.nodup_nil, fun _ hmem => absurd hmem List.not_mem_nil, fun _ => rfl,
    fun _ hlt => absurd hlt (Nat.not_lt_zero _)⟩
  returns _ _ _ _ hcall := Call.noConfusion hcall
  foreign _ _ _ _ hcall := Call.noConfusion hcall
  dispatched _ := rfl
  counted _ := rfl
  resting _ _ := rfl
  loading _ _ hcall := Call.noConfusion hcall

theorem inv_of_reach {guard : State → Action A → Prop} (h : Reach (machine B) guard s) : Inv s :=
  h.invariant (fun _ hinit => by rw [hinit]; exact inv_init) fun _ a _ hinv _ hstep => hinv.step a hstep

/-- A task's count is at zero exactly when its requests have gone through `drain_completions`. -/
theorem Inv.pending_iff (h : Inv s) (t : ℕ) :
    s.pending t = 0 ↔ ∀ i ∈ s.eng.accepted, s.eng.given i = .load t → i ∈ s.drained := by
  have hcounted := h.counted t
  have hmem : ∀ {ids : List ℕ} {i : ℕ}, i ∈ ids.filter (fun i => s.eng.given i = .load t) ↔
      i ∈ ids ∧ s.eng.given i = .load t := by
    intro ids i
    rw [List.mem_filter, decide_eq_true_eq]
  have hsub : (s.drained.filter (fun i => s.eng.given i = .load t)).Subperm
      (s.eng.accepted.filter (fun i => s.eng.given i = .load t)) := by
    refine List.subperm_of_subset (h.drained_nodup.filter _) fun i hi => ?_
    obtain ⟨hdrained, hgiven⟩ := hmem.mp hi
    exact hmem.mpr ⟨h.drained_sub hdrained, hgiven⟩
  simp only [ofTask, List.countP_eq_length_filter] at hcounted
  constructor
  · intro hzero i hi hgiven
    have hperm := hsub.perm_of_length_le (by omega)
    exact (hmem.mp (hperm.mem_iff.mpr (hmem.mpr ⟨hi, hgiven⟩))).1
  · intro hall
    have hback : (s.eng.accepted.filter (fun i => s.eng.given i = .load t)).Subperm
        (s.drained.filter (fun i => s.eng.given i = .load t)) := by
      refine List.subperm_of_subset (h.eng.once.filter _) fun i hi => ?_
      obtain ⟨haccepted, hgiven⟩ := hmem.mp hi
      exact hmem.mpr ⟨hall i haccepted hgiven, hgiven⟩
    have hle₁ := hsub.length_le
    have hle₂ := hback.length_le
    omega

/-- Nothing is lost while no request was marked complete without an event. -/
theorem Inv.accounted (h : Inv s) (hsettled : s.eng.settled = []) : Accounted s := by
  have haccount : s.eng.accepted.Perm
      (s.eng.delivered ++ (s.eng.queue.map Prod.fst ++ s.eng.flight)) := by
    rw [List.perm_iff_count]
    intro i
    have hi := h.eng.account i
    simp only [Engine.places, hsettled, List.count_nil] at hi
    rw [List.count_append, List.count_append]
    omega
  refine ⟨h.returns, h.eng.once, haccount, fun i hi => ?_, h.pending_iff, ?_⟩
  · exact h.eng.own i (h.eng.fresh i (h.eng.delivered_sub hi))
  · intro hflight hqueue hpolled t htaken
    rw [h.pending_iff]
    intro i hi hgiven
    rw [hflight, hqueue, List.map_nil, List.append_nil, List.append_nil] at haccount
    have hpos : 0 < s.eng.delivered.count i := List.count_pos_iff.mpr (haccount.mem_iff.mp hi)
    have hcount := h.dispatched i
    rw [hpolled, List.count_nil] at hcount
    have hnot : s.taken.count i = 0 := List.count_eq_zero.mpr fun hmem => htaken i hmem hgiven
    exact List.count_pos_iff.mp (by omega)

/-- A request that was counted without an event is never made good. -/
theorem Inv.not_accounted (h : Inv s) (hmem : i ∈ s.eng.settled) : ¬ Accounted s := by
  intro hs
  have hi := h.eng.account i
  have hperm := List.perm_iff_count.mp hs.account i
  have hpos : 0 < s.eng.settled.count i := List.count_pos_iff.mpr hmem
  simp only [Engine.places, List.count_append] at hi hperm
  omega

/-- No turn of a submit loop counts a request without an event. -/
def NoneSettled (B : Backend A) (s : State) : Action A → Prop
  | .turn c answer => ∀ r todo n mine, s.calls (.other c) = .submit (r :: todo) n mine →
      (B.turn r answer).2 ≠ .settled
  | .submitSlice answer => ∀ t r todo, s.calls .worker = .load t (r :: todo) →
      (B.turn { r with userData := UserData.load t } answer).2 ≠ .settled
  | _ => True

theorem submit_settled (e : Engine) (r : AioReq) (answer : A) :
    (e.submit B r answer).settled =
      if (B.turn r answer).2 = .settled then e.next :: e.settled else e.settled := by
  unfold Engine.submit
  cases hfate : (B.turn r answer).2 <;> rfl

/-- A step either counts no request without an event, or the request it submits. -/
theorem settled_step (a : Action A) (hstep : step B s a = some s') :
    (NoneSettled B s a ∧ s'.eng.settled = s.eng.settled) ∨
      (¬ NoneSettled B s a ∧ s'.eng.settled = s.eng.next :: s.eng.settled) := by
  cases a with
  | turn c answer =>
    simp only [step] at hstep
    split at hstep
    · rename_i r todo n mine hcall
      have hsettled : s'.eng.settled = (s.eng.submit B r answer).settled := by
        split at hstep <;> cases hstep <;> rfl
      rw [hsettled, submit_settled]
      by_cases hfate : (B.turn r answer).2 = .settled
      · rw [if_pos hfate]
        exact Or.inr ⟨fun hnone => hnone r todo n mine hcall hfate, rfl⟩
      · rw [if_neg hfate]
        refine Or.inl ⟨fun r' todo' n' mine' hcall' => ?_, rfl⟩
        rw [hcall] at hcall'
        cases hcall'
        exact hfate
    · cases hstep
  | submitSlice answer =>
    simp only [step] at hstep
    split at hstep
    · rename_i t r todo hcall
      have hsettled : s'.eng.settled =
          (s.eng.submit B { r with userData := UserData.load t } answer).settled := by
        cases hstep
        unfold submitSlice
        dsimp only
        split <;> rfl
      rw [hsettled, submit_settled]
      by_cases hfate : (B.turn { r with userData := UserData.load t } answer).2 = .settled
      · rw [if_pos hfate]
        exact Or.inr ⟨fun hnone => hnone t r todo hcall hfate, rfl⟩
      · rw [if_neg hfate]
        refine Or.inl ⟨fun t' r' todo' hcall' => ?_, rfl⟩
        rw [hcall] at hcall'
        cases hcall'
        exact hfate
    · cases hstep
  | fetch c k =>
    refine Or.inl ⟨trivial, ?_⟩
    simp only [step] at hstep
    split at hstep
    · split at hstep
      · split at hstep <;> cases hstep <;> cases c <;> rfl
      · cases hstep
    · cases hstep
  | waitReturn c =>
    refine Or.inl ⟨trivial, ?_⟩
    simp only [step] at hstep
    split at hstep
    · split at hstep <;> cases hstep
      rfl
    · cases hstep
  | drain =>
    refine Or.inl ⟨trivial, ?_⟩
    simp only [step] at hstep
    split at hstep
    · split at hstep <;> cases hstep
      rfl
    · cases hstep
  | submitReturn c | loadReturn =>
    refine Or.inl ⟨trivial, ?_⟩
    simp only [step] at hstep
    split at hstep <;> cases hstep
    rfl
  | submitBatch c reqs | land i result | waitEvents c maxEvents minComplete | startLoad t slices =>
    refine Or.inl ⟨trivial, ?_⟩
    simp only [step] at hstep
    split at hstep <;> cases hstep
    rfl

theorem accounted_of_noneSettled (h : Reach (machine B) (NoneSettled B) s) : Accounted s := by
  refine (inv_of_reach h).accounted ?_
  refine h.invariant (I := fun s => s.eng.settled = []) (fun _ hinit => by rw [hinit]; rfl) ?_
  intro s₀ a s₁ hsettled hguard hstep
  rcases settled_step a hstep with ⟨_, heq⟩ | ⟨hnot, _⟩
  · rw [heq]
    exact hsettled
  · exact absurd hguard hnot

theorem settled_mono {as : List (Action A)} (hrun : run (machine B) as s = some s')
    (hmem : i ∈ s.eng.settled) : i ∈ s'.eng.settled := by
  induction as generalizing s with
  | nil =>
    cases hrun
    exact hmem
  | cons a as ih =>
    obtain ⟨s₁, hstep, hrest⟩ := Option.bind_eq_some_iff.mp hrun
    refine ih hrest ?_
    rcases settled_step a hstep with ⟨_, heq⟩ | ⟨_, heq⟩
    · rw [heq]
      exact hmem
    · rw [heq]
      exact List.mem_cons_of_mem _ hmem

/-- After a step that counts a request without an event the books never add up again. -/
theorem not_accounted_of_settled {s₀ : State} {a : Action A} {as : List (Action A)}
    (h : Reach (machine B) anyStep s₀) (hsettled : ¬ NoneSettled B s₀ a)
    (hstep : step B s₀ a = some s) (hrun : run (machine B) as s = some s') : ¬ Accounted s' := by
  have hreach : Reach (machine B) anyStep s' :=
    Reach.run_of_forall as (fun _ _ _ => trivial) (Reach.step h trivial hstep) hrun
  rcases settled_step a hstep with ⟨hnone, _⟩ | ⟨_, heq⟩
  · exact absurd hnone hsettled
  · refine (inv_of_reach hreach).not_accounted (settled_mono hrun (i := s₀.eng.next) ?_)
    rw [heq]
    exact List.mem_cons_self ..

theorem noneSettled_posix (s : State) (a : Action PreadAnswer) : NoneSettled posix s a := by
  cases a with
  | turn c answer => exact fun r _ _ _ _ => posixTurn_settled r answer
  | submitSlice answer => exact fun _ _ _ _ => posixTurn_settled _ answer
  | _ => trivial

theorem noneSettled_win {a : Action ReadFileAnswer} (h : AllReported s a) : NoneSettled win s a := by
  cases a with
  | turn c answer => exact fun r todo n mine hcall => winTurn_settled (h r todo n mine hcall)
  | submitSlice answer => exact fun t r todo hcall => winTurn_settled (h t r todo hcall)
  | _ => trivial

/-- Every event is accounted for on POSIX, and on Windows in every run in which no request that
passes the checks is empty or fails at once at the end of its file. -/
theorem accounted_of_allReported (s : State) :
    (Reach (machine posix) anyStep s → Accounted s) ∧
      (Reach (machine win) AllReported s → Accounted s) := by
  constructor
  · exact fun h => accounted_of_noneSettled (h.mono fun s a _ => noneSettled_posix s a)
  · exact fun h => accounted_of_noneSettled (h.mono fun _ _ hguard => noneSettled_win hguard)

end system

/-- A slice of `len` bytes at the start of an open file. -/
def sliceReq (len : ℕ) : AioReq := { blankReq with hasHandle := true, alignedLen := len }

/-- An empty read on POSIX. On Windows a load of two slices, one read at once and one pending, and the
read of another caller: the worker drains the events of the load, the caller takes its own. -/
theorem accounted_twoSlices :
    (∃ s, Reach (machine posix) anyStep s ∧ s.eng.accepted = [0] ∧ s.eng.queue = [(0, none)] ∧
      Accounted s) ∧
    ∃ s, Reach (machine win) AllReported s ∧ s.drained = [1, 0] ∧ s.taken = [2] ∧ s.pending 0 = 0 ∧
      Accounted s := by
  have hposix : Reach (machine posix) anyStep _ := Reach.run_of_forall
    [.startLoad 0 [sliceReq 0], .submitSlice (.bytes 0)] (fun _ _ _ => trivial) (.init rfl) rfl
  have hstart : Reach (machine win) AllReported _ :=
    Reach.step (a := Action.startLoad 0 [sliceReq 4096, sliceReq 8192]) (.init rfl) trivial rfl
  have hfirst := Reach.step (a := Action.submitSlice (ReadFileAnswer.succeeds 4096)) hstart (by
    intro t r todo hcall _ _
    cases hcall
    exact ⟨by decide, ReadFileAnswer.noConfusion⟩) rfl
  have hsecond := Reach.step (a := Action.submitSlice (ReadFileAnswer.fails errorIoPending)) hfirst (by
    intro t r todo hcall _ _
    cases hcall
    exact ⟨by decide, by decide⟩) rfl
  have hbatch := Reach.run_of_forall
    [.loadReturn, .land 1 ⟨8192, 0⟩, .waitEvents .worker 64 0, .fetch .worker 2, .submitBatch 0 [sliceReq 4096]]
    (by simp [AllReported]) hsecond rfl
  have hturn := Reach.step (a := Action.turn 0 (ReadFileAnswer.succeeds 4096)) hbatch (by
    intro r todo n mine hcall _ _
    cases hcall
    exact ⟨by decide, ReadFileAnswer.noConfusion⟩) rfl
  have hend := Reach.run_of_forall
    [.submitReturn 0, .waitEvents (.other 0) 1 1, .fetch (.other 0) 1, .drain, .drain] (by simp [AllReported]) hturn rfl
  exact ⟨⟨_, hposix, rfl, rfl, (accounted_of_allReported _).1 hposix⟩, _, hend, rfl, rfl, rfl,
    (accounted_of_allReported _).2 hend⟩

/-- A load of one slice at the end of a truncated file: `ReadFile` fails at once. -/
def eofSlice : List (Action ReadFileAnswer) :=
  [.startLoad 0 [sliceReq 4096], .submitSlice (.fails errorHandleEof), .loadReturn]

/-- The load counts a request no event will ever report. -/
theorem not_accounted_eofSlice :
    ∃ s, Reach (machine win) anyStep s ∧ run (machine win) eofSlice initState = some s ∧
      s.eng.flight = [] ∧ s.eng.queue = [] ∧ s.polled = [] ∧ s.taken = [] ∧ s.pending 0 = 1 ∧
        ¬ Accounted s := by
  refine ⟨_, Reach.run_of_forall eofSlice (fun _ _ _ => trivial) (.init rfl) rfl, rfl, rfl, rfl, rfl, rfl,
    rfl, ?_⟩
  intro h
  have hzero := h.settles rfl rfl rfl 0 fun i hi => absurd hi List.not_mem_nil
  cases hzero

end DioEngine
end StreamMoE
