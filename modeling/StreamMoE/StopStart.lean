import StreamMoE.SchedRuns
import StreamMoE.SoleRuns

/-! `start` and `stop` of a scheduler beside its worker: what a stop does to the moves that are done
and to the completions that arrive while it lasts. -/
namespace StreamMoE
namespace StopStart

open AtomicProg ThreadLoop TransitionSystem SlotWord SchedConfig Sched SchedRuns

variable {C : Config}

def finishMove (C : Config) (m : MoveTask) : Prog Sys Unit := do
  Prog.modify fun s => s.markReady m.dstSlot
  transition m.dstKey .ready (some m.dstSlot)
  activeSettle C m.layer m.expert m.dstSlot
  Prog.modify fun s => s.releaseToEmpty m.srcSlot

def stopMove (m : MoveTask) : Prog Sys Unit := do
  Prog.modify fun s => s.markReady m.dstSlot
  transition m.dstKey .ready (some m.dstSlot)

theorem drainMoves_succ (C : Config) (n : ℕ) :
    drainMoves C (n + 1) = (Prog.getModify Sys.popMove).bind fun s =>
      match s.moveDone with
      | [] => .ret ()
      | m :: _ => (finishMove C m).bind fun _ => drainMoves C n := by
  rw [drainMoves]
  refine congrArg (Prog.bind (Prog.getModify Sys.popMove)) (funext fun s => ?_)
  cases s.moveDone with
  | nil => rfl
  | cons m _ => simp only [finishMove, bind_eq, Prog.bind_assoc]

/-- Where a call of `stop` stands: before the next look at `move_done_`, amid a move, or joining the
move worker. -/
inductive Stopper
  | off
  | looking
  | finishing (p : Prog Sys Unit)
  | joining

/-- The scheduler's worker, its two threads' flags and the call of `stop` under way; `done` as
`worker_loop` got it from the shared engine, a completion as a pair of a ring element and its
outcome; the moves that `stop` took, each with the state it found, and of every load the completions
nobody drained. -/
structure Process where
  worker : SchedRuns.State
  running : Bool
  mover : Bool
  stopper : Stopper
  done : List (ℕ × Bool)
  cut : List (MoveTask × Sys)
  lost : ℕ → ℕ

inductive ProcessAct
  | worker (a : Act)
  | waitEvents (done : List (ℕ × Bool))
  | dispatch
  | stop
  | stopStep
  | start

/-- A step of the move worker's thread. -/
def ofMover : EnvAct → Bool
  | .takeMove | .copyMove | .finishMove => true
  | _ => false

/-- `worker_loop` drains completions one by one before its other calls and looks at `is_running`
before each of them. -/
def allowed (x : Process) : Act → Bool
  | .call (.drainCompletions _) => false
  | .call _ => x.running && x.done.isEmpty
  | .step => true
  | .env a => x.mover || !ofMover a

/-- The engine has these completions: each is of a request that was submitted and not reported. -/
def available (x : Process) (done : List (ℕ × Bool)) : Bool :=
  decide (done.length ≤ 64) && done.all fun d =>
    decide (done.countP (fun d' => d'.1 == d.1) + x.lost d.1 ≤ (x.worker.state.load d.1).pending)

def stopStep (x : Process) : Option Process :=
  match x.stopper with
  | .off => none
  | .looking =>
      match x.worker.state.moveDone with
      | [] => some { x with stopper := .joining }
      | m :: _ =>
          some
            { x with
              worker := { x.worker with state := x.worker.state.popMove }
              stopper := .finishing (stopMove m)
              cut := x.cut ++ [(m, x.worker.state.popMove)] }
  | .finishing (.ret _) => some { x with stopper := .looking }
  | .finishing (.act f k) =>
      (f x.worker.state).map fun t =>
        { x with worker := { x.worker with state := t }, stopper := .finishing (k x.worker.state) }
  | .joining =>
      -- the move worker leaves when it finds nothing submitted
      if x.worker.state.moveSubmit = [] ∧ x.worker.state.moving = none then
        some { x with mover := false, stopper := .off }
      else none

def processStep (C : Config) (x : Process) : ProcessAct → Option Process
  | .worker a =>
      if allowed x a then ((system C).step x.worker a).map fun r => { x with worker := r } else none
  | .waitEvents done =>
      -- the call may be made for another scheduler of the engine
      if x.worker.idle ∧ x.done = [] ∧ available x done = true then some { x with done := done }
      else none
  | .dispatch =>
      match x.done with
      | [] => none
      | d :: done =>
          if x.worker.idle then
            if x.running then
              ((system C).step x.worker (.call (.drainCompletions [d]))).map fun r =>
                { x with worker := r, done := done }
            else some { x with done := done, lost := Function.update x.lost d.1 (x.lost d.1 + 1) }
          else none
  | .stop =>
      match x.stopper with
      | .off => if x.running then some { x with running := false, stopper := .looking } else none
      | _ => none
  | .stopStep => stopStep x
  | .start =>
      match x.stopper with
      | .off => if x.running then none else some { x with running := true, mover := true }
      | _ => none

/-- A scheduler after `init`, not yet started. -/
def fresh (C : Config) : Process :=
  { worker := SchedRuns.start C, running := false, mover := false, stopper := .off, done := [],
    cut := [], lost := fun _ => 0 }

/-- A load whose next report is still to come. -/
def Process.inFlight (x : Process) (idx : ℕ) : Prop :=
  x.lost idx < (x.worker.state.load idx).pending

/-- Every entry and slot that is under way belongs to a load or a move in flight. -/
structure Accounted (x : Process) : Prop where
  loading : ∀ k, (x.worker.state.dir k).state = .loading →
    ∃ idx, x.inFlight idx ∧ (x.worker.state.load idx).key = k
  moving : ∀ k, (x.worker.state.dir k).state = .movingIn ∨ (x.worker.state.dir k).state = .movingOut →
    ∃ m ∈ x.worker.state.moves, m.dstKey = k
  evicting : ∀ i, slotWordState (x.worker.state.word i) = SlotState.evicting.code →
    ∃ m ∈ x.worker.state.moves, m.srcSlot = i
  inFlight : ∀ i, slotWordState (x.worker.state.word i) = SlotState.ioInflight.code →
    (∃ idx, x.inFlight idx ∧ (x.worker.state.load idx).slot = i) ∨
      ∃ m ∈ x.worker.state.moves, m.dstSlot = i

/-- `stop` finds no copy done, `worker_loop` holds no completion while the scheduler does not run, and
of every load a slice is accepted. -/
def Undisturbed (C : Config) (x : Process) : ProcessAct → Prop
  | .stopStep => x.stopper = .looking → x.worker.state.moveDone = []
  | .dispatch => x.running = true
  | .worker (.call (.accept o)) => Starts C o
  | _ => True

section rest

variable {s : Sys} {g : Ghost}

end rest

/-- Of every load a slice is accepted. -/
def Starting (C : Config) (_ : SchedRuns.State) : Act → Prop
  | .call (.accept o) => Starts C o
  | _ => True

theorem Starting.honored {r : SchedRuns.State} {c : Call} (h : Starting C r (.call c)) :
    Honored C ⟨True, False⟩ c := by
  cases c with
  | accept o => exact ⟨fun _ => h, fun hf => hf.elim⟩
  | drainCompletions done => exact fun hf => hf.elim
  | drainMoves n => trivial

theorem Undisturbed.starting {x : Process} {a : Act} (h : Undisturbed C x (.worker a)) :
    Starting C x.worker a := by
  cases a with
  | call c =>
    cases c with
    | accept o => exact h
    | _ => trivial
  | _ => trivial

/-- Stops that found nothing to finish: the worker ran as it does without them. -/
structure Unmoved (C : Config) (x : Process) : Prop where
  worker : Reach (system C) (Starting C) x.worker
  cut : x.cut = []
  lost : ∀ idx, x.lost idx = 0
  stopper : ∀ p, x.stopper ≠ .finishing p

theorem Unmoved.stopStep {x x' : Process} (h : Unmoved C x) (hg : Undisturbed C x .stopStep)
    (hstep : stopStep x = some x') : Unmoved C x' := by
  unfold StopStart.stopStep at hstep
  split at hstep
  · cases hstep
  · rename_i hlooking
    rw [hg hlooking] at hstep
    cases hstep
    exact ⟨h.worker, h.cut, h.lost, fun p hp => by cases hp⟩
  · rename_i hfinishing
    exact absurd hfinishing (h.stopper _)
  · rename_i hfinishing
    exact absurd hfinishing (h.stopper _)
  · split at hstep
    · cases hstep
      exact ⟨h.worker, h.cut, h.lost, fun p hp => by cases hp⟩
    · cases hstep

theorem Unmoved.dispatch {x x' : Process} (h : Unmoved C x) (hg : x.running = true)
    (hstep : processStep C x .dispatch = some x') : Unmoved C x' := by
  simp only [processStep, hg, if_true] at hstep
  split at hstep
  · cases hstep
  · rename_i d _ _
    split at hstep
    · obtain ⟨r, hr, rfl⟩ := Option.map_eq_some_iff.mp hstep
      have hstarting : Starting C x.worker (.call (.drainCompletions [d])) := trivial
      exact ⟨.step h.worker hstarting hr, h.cut, h.lost, h.stopper⟩
    · cases hstep

theorem Unmoved.step {x x' : Process} {a : ProcessAct} (h : Unmoved C x) (hg : Undisturbed C x a)
    (hstep : processStep C x a = some x') : Unmoved C x' := by
  cases a with
  | worker a =>
    simp only [processStep] at hstep
    split at hstep
    · obtain ⟨r, hr, rfl⟩ := Option.map_eq_some_iff.mp hstep
      exact ⟨.step h.worker hg.starting hr, h.cut, h.lost, h.stopper⟩
    · cases hstep
  | waitEvents done =>
    simp only [processStep] at hstep
    split at hstep
    · cases hstep
      exact ⟨h.worker, h.cut, h.lost, h.stopper⟩
    · cases hstep
  | dispatch => exact h.dispatch hg hstep
  | stop =>
    simp only [processStep] at hstep
    split at hstep
    · split at hstep
      · cases hstep
        exact ⟨h.worker, h.cut, h.lost, fun p hp => by cases hp⟩
      · cases hstep
    · cases hstep
  | stopStep => exact h.stopStep hg hstep
  | start =>
    simp only [processStep] at hstep
    split at hstep
    · split at hstep
      · cases hstep
      · cases hstep
        exact ⟨h.worker, h.cut, h.lost, h.stopper⟩
    · cases hstep

section disturbed

/-- A move that `stop` finished its own way, or a completion nobody drained. -/
def Disturbed (C : Config) (x : Process) : Prop :=
  (∃ c ∈ x.cut, (stopMove c.1).alone c.2 ≠ (finishMove C c.1).alone c.2) ∨ ∃ idx, x.lost idx ≠ 0

theorem stopStep_cut {x x' : Process} (h : stopStep x = some x') :
    x.cut ⊆ x'.cut ∧ x'.lost = x.lost := by
  unfold stopStep at h
  split at h
  · cases h
  · split at h
    · cases h
      exact ⟨fun _ hc => hc, rfl⟩
    · cases h
      exact ⟨List.subset_append_left _ _, rfl⟩
  · cases h
    exact ⟨fun _ hc => hc, rfl⟩
  · obtain ⟨t, _, rfl⟩ := Option.map_eq_some_iff.mp h
    exact ⟨fun _ hc => hc, rfl⟩
  · split at h
    · cases h
      exact ⟨fun _ hc => hc, rfl⟩
    · cases h

theorem processStep_records {x x' : Process} {a : ProcessAct} (h : processStep C x a = some x') :
    x.cut ⊆ x'.cut ∧ ∀ idx, x.lost idx ≤ x'.lost idx := by
  cases a with
  | worker a =>
    simp only [processStep] at h
    split at h
    · obtain ⟨r, _, rfl⟩ := Option.map_eq_some_iff.mp h
      exact ⟨fun _ hc => hc, fun _ => Nat.le_refl _⟩
    · cases h
  | waitEvents done =>
    simp only [processStep] at h
    split at h
    · cases h
      exact ⟨fun _ hc => hc, fun _ => Nat.le_refl _⟩
    · cases h
  | dispatch =>
    simp only [processStep] at h
    split at h
    · cases h
    · split at h
      · split at h
        · obtain ⟨r, _, rfl⟩ := Option.map_eq_some_iff.mp h
          exact ⟨fun _ hc => hc, fun _ => Nat.le_refl _⟩
        · cases h
          refine ⟨fun _ hc => hc, fun idx => ?_⟩
          dsimp only [Function.update]
          split
          · rename_i heq
            subst heq
            exact Nat.le_succ _
          · exact Nat.le_refl _
      · cases h
  | stop =>
    simp only [processStep] at h
    split at h
    · split at h
      · cases h
        exact ⟨fun _ hc => hc, fun _ => Nat.le_refl _⟩
      · cases h
    · cases h
  | stopStep =>
    obtain ⟨hcut, hlost⟩ := stopStep_cut h
    exact ⟨hcut, fun idx => Nat.le_of_eq (congrFun hlost idx).symm⟩
  | start =>
    simp only [processStep] at h
    split at h
    · split at h
      · cases h
      · cases h
        exact ⟨fun _ hc => hc, fun _ => Nat.le_refl _⟩
    · cases h

theorem Disturbed.step {x x' : Process} {a : ProcessAct} (h : Disturbed C x)
    (hstep : processStep C x a = some x') : Disturbed C x' := by
  obtain ⟨hcut, hlost⟩ := processStep_records hstep
  rcases h with ⟨c, hc, hne⟩ | ⟨idx, hne⟩
  · exact .inl ⟨c, hcut hc, hne⟩
  · have hle := hlost idx
    exact .inr ⟨idx, by omega⟩

end disturbed

section small

def workerSteps (n : ℕ) : List ProcessAct := List.replicate n (.worker .step)

/-- A completion of the load in ring element 15. -/
def report : List ProcessAct := [.worker (.env (.land 15)), .waitEvents [(15, true)], .dispatch]

/-- The device's expert is demoted while another one is loaded to main memory, and both are under
way. -/
def busy : List ProcessAct :=
  [.start, .worker (.env (.push (request 0))), .worker (.call (.accept smallOracle))] ++ workerSteps 10 ++
    report ++ workerSteps 8 ++
    [.worker (.env (.unpin (.batch (some 0)) 2)), .worker (.env (.push (request 1))),
      .worker (.call (.accept smallOracle))] ++ workerSteps 25 ++ [.worker (.env .takeMove)]

def copied : List ProcessAct := [.worker (.env .copyMove), .worker (.env .finishMove)]

/-- The guard on words whose calls all meet `smallOracle`. -/
def settles (x : Process) : ProcessAct → Bool
  | .stopStep =>
      match x.stopper with
      | .looking => x.worker.state.moveDone = []
      | _ => true
  | .dispatch => x.running
  | _ => true

end small

end StopStart
end StreamMoE
