import Mathlib.Data.Nat.Notation
import StreamMoE.TransitionSystem

/-! The wake-once batch wait: `batch_await_t::wait` of the executing thread against
`active_settle`, `active_fail` and `active_finish` of the scheduler thread.
The futex compares one word (`done`), the wait condition reads two. -/
namespace StreamMoE
namespace BatchWait

open TransitionSystem

/-- The two words of a `batch_await_t` a thread can be woken on. -/
inductive Word
  | done | failed
  deriving DecidableEq, Repr

/-- Where the executing thread stands in `batch_await_t::wait`. `futexWait cur` is the
call of `slot_wait_addr` before the kernel has compared the word with `cur`. -/
inductive ExecPc
  | loadDone
  | loadFailed (cur : ℕ)
  | futexWait (cur : ℕ)
  | asleep
  | returned
  deriving DecidableEq, Repr

/-- Stores and wakes of the scheduler thread on the batch words. -/
inductive Effect
  | bumpDone
  | storeFailed
  | wakeAll (w : Word)
  deriving DecidableEq, Repr

/-- The active request: triaged by `active_register`, waiting for loads, or cleared. -/
inductive Phase
  | registering | active | cleared
  deriving DecidableEq, Repr

/-- `todo` are the effects the scheduler has begun but not yet executed. -/
structure State where
  done : ℕ
  failed : Bool
  target : ℕ
  exec : ExecPc
  nLeft : ℕ
  phase : Phase
  todo : List Effect
  deriving DecidableEq, Repr

inductive Action
  | wait
  | spurious
  | triage
  | registered
  | activeSettle
  | activeFail
  | effect
  deriving DecidableEq, Repr

def waitStep (s : State) : Option State :=
  match s.exec with
  | .loadDone =>
      some { s with exec := if s.done < s.target then .loadFailed s.done else .returned }
  | .loadFailed cur =>
      some { s with exec := if s.failed then .returned else .futexWait cur }
  -- the kernel compares and enqueues in one step
  | .futexWait cur =>
      some { s with exec := if s.done = cur then .asleep else .loadDone }
  | .asleep => none
  | .returned => none

/-- `slot_wake_all`: the executing thread only ever sleeps on `done`. -/
def slotWakeAll (w : Word) (s : State) : State :=
  if w = .done ∧ s.exec = .asleep then { s with exec := .loadDone } else s

def runEffect (e : Effect) (s : State) : State :=
  match e with
  | .bumpDone => { s with done := s.done + 1 }
  | .storeFailed => { s with failed := true }
  | .wakeAll w => slotWakeAll w s

/-- The bump of one settled expert, in `active_register` and in `active_settle`. -/
def settleEffects : List Effect := [.bumpDone, .wakeAll .done]

def activeFinishEffects : List Effect := [.wakeAll .done]

def activeFailEffects : List Effect := [.storeFailed, .wakeAll .failed, .wakeAll .done]

def step (s : State) : Action → Option State
  | .wait => waitStep s
  -- a futex wait may return without a wake
  | .spurious => if s.exec = .asleep then some { s with exec := .loadDone } else none
  | .triage =>
      if s.todo = [] ∧ s.phase = .registering ∧ 0 < s.nLeft then
        some { s with nLeft := s.nLeft - 1, todo := settleEffects }
      else none
  | .registered =>
      if s.todo = [] ∧ s.phase = .registering then
        if s.nLeft = 0 then some { s with phase := .cleared, todo := activeFinishEffects }
        else some { s with phase := .active }
      else none
  | .activeSettle =>
      if s.todo = [] ∧ s.phase = .active ∧ 0 < s.nLeft then
        if s.nLeft = 1 then
          some { s with nLeft := 0, phase := .cleared, todo := settleEffects ++ activeFinishEffects }
        else some { s with nLeft := s.nLeft - 1, todo := settleEffects }
      else none
  | .activeFail =>
      if s.todo = [] ∧ s.phase ≠ .cleared then
        some { s with phase := .cleared, todo := activeFailEffects }
      else none
  | .effect =>
      match s.todo with
      | [] => none
      | e :: rest => some (runEffect e { s with todo := rest })

/-- A request of `target` experts just pushed; the executing thread enters `wait`. -/
def initState (target : ℕ) : State :=
  { done := 0, failed := false, target := target, exec := .loadDone, nLeft := target,
    phase := .registering, todo := [] }

def machine : Machine State Action where
  init s := ∃ target, s = initState target
  step := step

/-- The scheduler has finished all its stores and wakes for the batch. -/
def SchedulerDone (s : State) : Prop := s.phase = .cleared ∧ s.todo = []

/-- The executing thread sleeps although the wait condition is over. -/
def SleepsPastEnd (s : State) : Prop :=
  s.exec = .asleep ∧ (s.failed = true ∨ s.target ≤ s.done)

def NoLostWakeup (s : State) : Prop := ¬ (SleepsPastEnd s ∧ SchedulerDone s)

instance (s : State) : Decidable (SchedulerDone s) := inferInstanceAs (Decidable (_ ∧ _))

instance (s : State) : Decidable (SleepsPastEnd s) := inferInstanceAs (Decidable (_ ∧ (_ ∨ _)))

instance (s : State) : Decidable (NoLostWakeup s) := inferInstanceAs (Decidable (¬ _))

/-- When `active_fail` executes its wake of `done`, the executing thread is not between
its read of `failed` and its entry into the futex queue with `done` unchanged. -/
def FailWakeSeen (s : State) : Action → Prop
  | .effect => s.failed = true → s.todo.head? = some (.wakeAll .done) → s.exec ≠ .futexWait s.done
  | _ => True

instance (s : State) (a : Action) : Decidable (FailWakeSeen s a) :=
  match a with
  | .effect => inferInstanceAs (Decidable (_ → _ → _))
  | .wait | .spurious | .triage | .registered | .activeSettle | .activeFail => isTrue trivial

/-- What holds between the stores of the scheduler and its final wake of `done`:
no sleeper is past the end unless that wake is still to come. -/
structure Inv (s : State) : Prop where
  lastWake : ∀ e, s.todo.getLast? = some e → e = .wakeAll .done
  asleepFailed : s.exec = .asleep → s.failed = true → .wakeAll .done ∈ s.todo
  asleepDone : s.exec = .asleep → s.target ≤ s.done → .wakeAll .done ∈ s.todo
  readBelow : ∀ cur, s.exec = .loadFailed cur ∨ s.exec = .futexWait cur → cur < s.target
  enteringFailed : ∀ cur, s.exec = .futexWait cur → s.failed = true → s.done = cur →
    .wakeAll .done ∈ s.todo

theorem mem_of_getLast?_cons {α : Type*} {a b : α} {l : List α}
    (h : ∀ e, (a :: l).getLast? = some e → e = b) (hl : a ≠ b) :
    b ∈ l ∧ ∀ e, l.getLast? = some e → e = b := by
  cases l with
  | nil => exact absurd (h a rfl) hl
  | cons c l =>
    have hlast : ∀ e, (c :: l).getLast? = some e → e = b := by
      intro e he
      exact h e (by rw [List.getLast?_cons_cons]; exact he)
    have hsome : (c :: l).getLast? = some ((c :: l).getLast (by simp)) :=
      List.getLast?_eq_some_getLast (by simp)
    have hb := hlast _ hsome
    exact ⟨hb ▸ List.getLast_mem (by simp), hlast⟩

theorem getLast?_of_cons {α : Type*} {a b : α} {l : List α}
    (h : ∀ e, (a :: l).getLast? = some e → e = b) : ∀ e, l.getLast? = some e → e = b := by
  intro e he
  cases l with
  | nil => simp at he
  | cons c l => exact h e (by rw [List.getLast?_cons_cons]; exact he)

theorem inv_init (target : ℕ) : Inv (initState target) := by
  constructor <;> simp [initState]

theorem inv_waitStep {s s' : State} (hs : Inv s) (h : waitStep s = some s') : Inv s' := by
  unfold waitStep at h
  cases hpc : s.exec with
  | loadDone =>
    simp only [hpc] at h
    cases h
    by_cases hlt : s.done < s.target
    · exact ⟨hs.lastWake, by simp [hlt], by simp [hlt], by simp [hlt], by simp [hlt]⟩
    · exact ⟨hs.lastWake, by simp [hlt], by simp [hlt], by simp [hlt], by simp [hlt]⟩
  | loadFailed cur =>
    simp only [hpc] at h
    cases h
    have hcur := hs.readBelow cur (.inl hpc)
    by_cases hf : s.failed = true
    · exact ⟨hs.lastWake, by simp [hf], by simp [hf], by simp [hf], by simp [hf]⟩
    · exact ⟨hs.lastWake, by simp [hf], by simp [hf], by simpa [hf] using hcur, by simp [hf]⟩
  | futexWait cur =>
    simp only [hpc] at h
    cases h
    have hcur := hs.readBelow cur (.inr hpc)
    by_cases hd : s.done = cur
    · refine ⟨hs.lastWake, ?_, ?_, by simp [hd], by simp [hd]⟩
      · intro _ hf
        exact hs.enteringFailed cur hpc hf hd
      -- a thread that read `done` below the target cannot fall asleep at the target
      · intro _ htgt
        have htgt' : s.target ≤ s.done := htgt
        omega
    · exact ⟨hs.lastWake, by simp [hd], by simp [hd], by simp [hd], by simp [hd]⟩
  | asleep => simp [hpc] at h
  | returned => simp [hpc] at h

/-- A new batch of effects that ends in the wake of `done` keeps the invariant. -/
theorem inv_begin {s s' : State} (hs : Inv s) (htodo : s.todo = [])
    (hdone : s'.done = s.done) (hfailed : s'.failed = s.failed) (htarget : s'.target = s.target)
    (hexec : s'.exec = s.exec) (hlast : ∀ e, s'.todo.getLast? = some e → e = .wakeAll .done) :
    Inv s' := by
  have hno : .wakeAll .done ∉ s.todo := by simp [htodo]
  constructor
  · exact hlast
  · intro ha hf
    exact absurd (hs.asleepFailed (hexec ▸ ha) (hfailed ▸ hf)) hno
  · intro ha hd
    exact absurd (hs.asleepDone (hexec ▸ ha) (by rw [htarget, hdone] at hd; exact hd)) hno
  · intro cur h
    rw [hexec] at h
    rw [htarget]
    exact hs.readBelow cur h
  · intro cur hpc hf hd
    exact absurd (hs.enteringFailed cur (hexec ▸ hpc) (hfailed ▸ hf) (hdone ▸ hd)) hno

theorem inv_runEffect {s : State} {e : Effect} {rest : List Effect} (hs : Inv s)
    (htodo : s.todo = e :: rest) (hguard : FailWakeSeen s .effect) :
    Inv (runEffect e { s with todo := rest }) := by
  have hlast : ∀ x, (e :: rest).getLast? = some x → x = .wakeAll .done := htodo ▸ hs.lastWake
  cases e with
  | bumpDone =>
    obtain ⟨hmem, hrest⟩ := mem_of_getLast?_cons hlast (by simp)
    exact ⟨hrest, fun _ _ => hmem, fun _ _ => hmem, hs.readBelow, fun _ _ _ _ => hmem⟩
  | storeFailed =>
    obtain ⟨hmem, hrest⟩ := mem_of_getLast?_cons hlast (by simp)
    exact ⟨hrest, fun _ _ => hmem, fun _ _ => hmem, hs.readBelow, fun _ _ _ _ => hmem⟩
  | wakeAll w =>
    cases w with
    | failed =>
      obtain ⟨hmem, hrest⟩ := mem_of_getLast?_cons hlast (by simp)
      have hsame : slotWakeAll .failed { s with todo := rest } = { s with todo := rest } := by
        simp [slotWakeAll]
      rw [runEffect, hsame]
      exact ⟨hrest, fun _ _ => hmem, fun _ _ => hmem, hs.readBelow, fun _ _ _ _ => hmem⟩
    | done =>
      have hrest := getLast?_of_cons hlast
      by_cases ha : s.exec = .asleep
      · simp only [runEffect, slotWakeAll, ha, and_self, if_true]
        exact ⟨hrest, by simp, by simp, by simp, by simp⟩
      · simp only [runEffect, slotWakeAll, ha, and_false, if_false]
        refine ⟨hrest, fun h => absurd h ha, fun h => absurd h ha, hs.readBelow, ?_⟩
        -- the only wake that can come too early is the one the guard excludes
        intro cur hpc hf hd
        have hseen := hguard hf (by rw [htodo]; rfl)
        exact absurd (hd ▸ hpc) hseen

theorem inv_step {s s' : State} {a : Action} (hs : Inv s) (hguard : FailWakeSeen s a)
    (h : step s a = some s') : Inv s' := by
  cases a with
  | wait => exact inv_waitStep hs h
  | spurious =>
    simp only [step] at h
    split at h
    · cases h
      exact ⟨hs.lastWake, by simp, by simp, by simp, by simp⟩
    · cases h
  | triage =>
    simp only [step] at h
    split at h
    · rename_i hg
      cases h
      exact inv_begin hs hg.1 rfl rfl rfl rfl (by simp [settleEffects])
    · cases h
  | registered =>
    simp only [step] at h
    split at h
    · rename_i hg
      split at h
      · cases h
        exact inv_begin hs hg.1 rfl rfl rfl rfl (by simp [activeFinishEffects])
      · cases h
        exact inv_begin hs hg.1 rfl rfl rfl rfl hs.lastWake
    · cases h
  | activeSettle =>
    simp only [step] at h
    split at h
    · rename_i hg
      split at h
      · cases h
        exact inv_begin hs hg.1 rfl rfl rfl rfl (by simp [settleEffects, activeFinishEffects])
      · cases h
        exact inv_begin hs hg.1 rfl rfl rfl rfl (by simp [settleEffects])
    · cases h
  | activeFail =>
    simp only [step] at h
    split at h
    · rename_i hg
      cases h
      exact inv_begin hs hg.1 rfl rfl rfl rfl (by simp [activeFailEffects])
    · cases h
  | effect =>
    simp only [step] at h
    split at h
    · cases h
    · rename_i e rest htodo
      cases h
      exact inv_runEffect hs htodo hguard

theorem inv_reach {s : State} (h : Reach machine FailWakeSeen s) : Inv s := by
  refine h.invariant ?_ ?_
  · rintro s ⟨target, rfl⟩
    exact inv_init target
  · intro s a s' hs hg hstep
    exact inv_step hs hg hstep

theorem noLostWakeup_of_inv {s : State} (hs : Inv s) : NoLostWakeup s := by
  rintro ⟨⟨hasleep, hend⟩, -, htodo⟩
  rcases hend with hf | hd
  · have hmem := hs.asleepFailed hasleep hf
    simp [htodo] at hmem
  · have hmem := hs.asleepDone hasleep hd
    simp [htodo] at hmem

/-- In every run whose failure wakes are seen, no reached state has a lost wakeup. -/
theorem noLostWakeup_of_failWakeSeen {s : State} (h : Reach machine FailWakeSeen s) :
    NoLostWakeup s := noLostWakeup_of_inv (inv_reach h)

/-- A batch of two experts: one settles, the thread goes to sleep and is woken, the other fails. -/
def settleThenFail : List Action :=
  [.registered, .wait, .wait, .wait, .activeSettle, .effect, .effect, .wait, .wait, .wait,
    .activeFail, .effect, .effect, .effect]

def settleThenFailEnd : State :=
  { done := 1, failed := true, target := 2, exec := .loadDone, nLeft := 1, phase := .cleared,
    todo := [] }

theorem noLostWakeup_settleThenFail :
    guardedRun machine FailWakeSeen settleThenFail (initState 2) = some settleThenFailEnd ∧
      NoLostWakeup settleThenFailEnd :=
  ⟨rfl, noLostWakeup_of_failWakeSeen (Reach.guardedRun settleThenFail (.init ⟨2, rfl⟩) rfl)⟩

/-- The window: the thread has read `failed = false`, both wakes of `active_fail` run, then
the kernel finds `done` unchanged. -/
def failInWindow : List Action :=
  [.registered, .wait, .wait, .activeFail, .effect, .effect, .effect, .wait]

theorem lostWakeup_failInWindow :
    ∃ s, Reach machine anyStep s ∧ ¬ NoLostWakeup s := by
  refine ⟨_, Reach.run_of_guard (fun _ _ => trivial) failInWindow
    (.init ⟨1, rfl⟩) rfl, ?_⟩
  decide

/-- `active_fail` is the last thing the scheduler does for a batch: `failed` is only set while
its wakes are to come, and in that order. -/
structure FailInv (s : State) : Prop where
  tail : s.failed = true → s.phase = .cleared ∧ s.todo <:+ activeFailEffects.tail
  storing : .storeFailed ∈ s.todo → s.phase = .cleared ∧ s.todo = activeFailEffects

theorem failInv_waitStep {s s' : State} (hs : FailInv s) (h : waitStep s = some s') :
    FailInv s' := by
  unfold waitStep at h
  split at h <;> cases h <;> exact ⟨hs.tail, hs.storing⟩

/-- A batch that has not failed may begin effects that store nothing in `failed`. -/
theorem failInv_begin {s s' : State} (hs : FailInv s) (hphase : s.phase ≠ .cleared)
    (hfailed : s'.failed = s.failed)
    (hstore : .storeFailed ∈ s'.todo → s'.phase = .cleared ∧ s'.todo = activeFailEffects) :
    FailInv s' := by
  refine ⟨?_, hstore⟩
  intro hf
  exact absurd (hs.tail (hfailed ▸ hf)).1 hphase

theorem failInv_runEffect {s : State} {e : Effect} {rest : List Effect} (hs : FailInv s)
    (htodo : s.todo = e :: rest) : FailInv (runEffect e { s with todo := rest }) := by
  have hrest : .storeFailed ∉ rest := by
    intro hmem
    have hall := (hs.storing (by rw [htodo]; exact List.mem_cons_of_mem _ hmem)).2
    rw [htodo] at hall
    injection hall with _ hrest
    simp [hrest] at hmem
  have htail : s.failed = true → s.phase = .cleared ∧ rest <:+ activeFailEffects.tail := by
    intro hf
    obtain ⟨hphase, hsuf⟩ := hs.tail hf
    exact ⟨hphase, (List.suffix_cons e rest).trans (htodo ▸ hsuf)⟩
  cases e with
  | bumpDone => exact ⟨htail, fun h => absurd h hrest⟩
  | storeFailed =>
    obtain ⟨hphase, hall⟩ := hs.storing (by simp [htodo])
    rw [htodo] at hall
    injection hall with _ hrest'
    exact ⟨fun _ => ⟨hphase, by simp [runEffect, hrest', activeFailEffects]⟩,
      fun h => absurd h hrest⟩
  | wakeAll w =>
    simp only [runEffect, slotWakeAll]
    split
    · exact ⟨htail, fun h => absurd h hrest⟩
    · exact ⟨htail, fun h => absurd h hrest⟩

theorem failInv_step {s s' : State} {a : Action} (hs : FailInv s) (h : step s a = some s') :
    FailInv s' := by
  cases a with
  | wait => exact failInv_waitStep hs h
  | spurious =>
    simp only [step] at h
    split at h
    · cases h; exact ⟨hs.tail, hs.storing⟩
    · cases h
  | triage =>
    simp only [step] at h
    split at h
    · rename_i hg
      cases h
      exact failInv_begin hs (by simp [hg.2.1]) rfl (by simp [settleEffects])
    · cases h
  | registered =>
    simp only [step] at h
    split at h
    · rename_i hg
      split at h
      · cases h
        exact failInv_begin hs (by simp [hg.2]) rfl (by simp [activeFinishEffects])
      · cases h
        exact failInv_begin hs (by simp [hg.2]) rfl (by simp [hg.1])
    · cases h
  | activeSettle =>
    simp only [step] at h
    split at h
    · rename_i hg
      split at h
      · cases h
        exact failInv_begin hs (by simp [hg.2.1]) rfl (by simp [settleEffects, activeFinishEffects])
      · cases h
        exact failInv_begin hs (by simp [hg.2.1]) rfl (by simp [settleEffects])
    · cases h
  | activeFail =>
    simp only [step] at h
    split at h
    · rename_i hg
      cases h
      exact failInv_begin hs hg.2 rfl (fun _ => ⟨rfl, rfl⟩)
    · cases h
  | effect =>
    simp only [step] at h
    split at h
    · cases h
    · rename_i e rest htodo
      cases h
      exact failInv_runEffect hs htodo

theorem failInv_reach {s : State} (h : Reach machine anyStep s) : FailInv s := by
  refine h.invariant ?_ ?_
  · rintro s ⟨target, rfl⟩
    exact ⟨by simp [initState], by simp [initState]⟩
  · intro s a s' hs _ hstep
    exact failInv_step hs hstep

/-- The guard is exact: a reachable wake of `active_fail` that it excludes leads, by the next
step of the executing thread, to a lost wakeup. -/
theorem lostWakeup_of_not_failWakeSeen {s : State} (hs : Reach machine anyStep s)
    (hguard : ¬ FailWakeSeen s .effect) :
    ∃ s', run machine [.effect, .wait] s = some s' ∧ ¬ NoLostWakeup s' := by
  simp only [FailWakeSeen, Classical.not_imp, ne_eq, Classical.not_not] at hguard
  obtain ⟨hfailed, hhead, hexec⟩ := hguard
  obtain ⟨hphase, hsuf⟩ := (failInv_reach hs).tail hfailed
  have htodo : s.todo = [.wakeAll .done] := by
    simp only [activeFailEffects, List.tail_cons, List.suffix_cons_iff, List.suffix_nil] at hsuf
    rcases hsuf with h | h | h
    · simp [h] at hhead
    · exact h
    · simp [h] at hhead
  refine ⟨{ s with exec := .asleep, todo := [] }, ?_, ?_⟩
  · simp [machine, step, htodo, runEffect, slotWakeAll, waitStep, hexec]
  · simp [NoLostWakeup, SleepsPastEnd, SchedulerDone, hfailed, hphase]

end BatchWait
end StreamMoE
