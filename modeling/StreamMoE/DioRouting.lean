import Mathlib.Data.List.Perm.Subperm
import Mathlib.Data.List.Nodup
import Mathlib.Data.List.Range
import Mathlib.Data.List.Count
import Mathlib.Algebra.Group.Int.Defs
import Mathlib.Data.Nat.Notation
import StreamMoE.TransitionSystem

/-! Completion routing on one shared `async_dio_engine`: the scheduler's `worker_loop`
polls it for expert loads while `read_expert_sync` calls wait on it for their own reads.
The engine keeps one queue of completed requests and hands them to whoever asks. -/
namespace StreamMoE
namespace DioRouting

open TransitionSystem

/-- A polling party: the global scheduler thread, or one call of `read_expert_sync`. -/
inductive Party
  | worker
  | sync (call : ℕ)
  deriving DecidableEq, Repr

/-- An `aio_req_t`, named by its submitter. A load's `user_data` is its `async_load_t`,
that of a synchronous read is null. -/
inductive Req
  | load (task slice : ℕ)
  | sync (call index : ℕ)
  deriving DecidableEq, Repr

def Req.owner : Req → Party
  | .load _ _ => .worker
  | .sync c _ => .sync c

/-- The `async_load_t` a request's `user_data` points to. -/
def Req.userData : Req → Option ℕ
  | .load t _ => some t
  | .sync _ _ => none

inductive Phase
  | idle
  | waiting
  | returned (ok : Bool)
  deriving DecidableEq, Repr

/-- The locals of a `read_expert_sync` call that has submitted `numTensors` requests. -/
structure Call where
  numTensors : ℕ
  completed : ℕ
  phase : Phase
  deriving DecidableEq, Repr

/-- `landed` and `taken` are histories: the requests the engine has completed, and which
party took which event. `polled` are the events of the worker's last poll that it has not
dispatched yet. -/
structure State where
  inFlight : List Req
  queue : List (Req × Bool)
  errorCode : Req → Bool
  polled : List Req
  loadStarted : ℕ → Bool
  loadPending : ℕ → ℤ
  calls : ℕ → Call
  badUserData : Bool
  landed : List Req
  taken : List (Party × Req)

inductive Action
  | startLoad (task accepted : ℕ)
  | submitBatch (call numTensors : ℕ) (rejected : List ℕ)
  | land (r : Req) (ok : Bool)
  | workerPoll
  | workerDispatch
  | syncPoll (call : ℕ)
  | syncTimeout (call : ℕ)
  | syncReturn (call : ℕ)
  deriving DecidableEq, Repr

def loadReqs (task n : ℕ) : List Req := (List.range n).map (Req.load task)

def syncReqs (call n : ℕ) (rejected : List ℕ) : List Req :=
  ((List.range n).filter (· ∉ rejected)).map (Req.sync call)

/-- The event at the head of the completion queue goes to the polling party. -/
def take (p : Party) (r : Req) (ok : Bool) (rest : List (Req × Bool)) (s : State) : State :=
  { s with
    queue := rest
    errorCode := Function.update s.errorCode r (!ok)
    taken := (p, r) :: s.taken }

def setCall (c : ℕ) (k : Call) (s : State) : State :=
  { s with calls := Function.update s.calls c k }

/-- `start_async_load` submits slice after slice and stops at the first rejection. -/
def startAsyncLoad (t accepted : ℕ) (s : State) : State :=
  { s with
    inFlight := s.inFlight ++ loadReqs t accepted
    loadStarted := Function.update s.loadStarted t true
    loadPending := Function.update s.loadPending t accepted }

/-- A rejected request keeps its error code and never completes. -/
def submitBatch (c n : ℕ) (rejected : List ℕ) (s : State) : State :=
  let accepted := syncReqs c n rejected
  setCall c
    { numTensors := n, completed := 0,
      phase := if accepted = [] then .returned false else .waiting }
    { s with
      inFlight := s.inFlight ++ accepted
      errorCode := fun r => if r.owner = .sync c then decide (r ∉ accepted) else s.errorCode r }

def step (s : State) : Action → Option State
  | .startLoad t accepted =>
      if s.loadStarted t = false then some (startAsyncLoad t accepted s) else none
  | .submitBatch c n rejected =>
      if (s.calls c).phase = .idle ∧ 0 < n then some (submitBatch c n rejected s) else none
  | .land r ok =>
      if r ∈ s.inFlight then
        some { s with
          inFlight := s.inFlight.erase r
          queue := s.queue ++ [(r, ok)]
          landed := r :: s.landed }
      else none
  | .workerPoll =>
      match s.queue with
      | [] => none
      | (r, ok) :: rest => some { take .worker r ok rest s with polled := s.polled ++ [r] }
  -- `worker_loop` reads `t->sched`, then `drain_completions` counts the slice down
  | .workerDispatch =>
      match s.polled with
      | [] => none
      | r :: rest =>
          match r.userData with
          | none => some { s with polled := rest, badUserData := true }
          | some t =>
              some { s with
                polled := rest
                loadPending := Function.update s.loadPending t (s.loadPending t - 1) }
  | .syncPoll c =>
      match s.queue with
      | [] => none
      | (r, ok) :: rest =>
          if (s.calls c).phase = .waiting ∧ (s.calls c).completed < (s.calls c).numTensors then
            some (setCall c { s.calls c with completed := (s.calls c).completed + 1 }
              (take (.sync c) r ok rest s))
          else none
  | .syncTimeout c =>
      if (s.calls c).phase = .waiting ∧ (s.calls c).completed < (s.calls c).numTensors then
        some (setCall c { s.calls c with phase := .returned false } s)
      else none
  | .syncReturn c =>
      if (s.calls c).phase = .waiting ∧ (s.calls c).completed = (s.calls c).numTensors then
        let ok := (List.range (s.calls c).numTensors).all fun i => !s.errorCode (.sync c i)
        some (setCall c { s.calls c with phase := .returned ok } s)
      else none

def initState : State :=
  { inFlight := [], queue := [], errorCode := fun _ => false, polled := [],
    loadStarted := fun _ => false, loadPending := fun _ => 0,
    calls := fun _ => ⟨0, 0, .idle⟩, badUserData := false, landed := [], taken := [] }

def machine : Machine State Action where
  init s := s = initState
  step := step

/-- The requests of load `t` that the engine or the worker's poll buffer still holds. -/
def outstanding (s : State) (t : ℕ) : ℕ :=
  (s.inFlight ++ s.queue.map Prod.fst ++ s.polled).countP (fun r => r.userData = some t)

def engine (s : State) : List Req := s.inFlight ++ s.queue.map Prod.fst

/-- No other party has a request in the engine. -/
def Alone (p : Party) (s : State) : Prop := ∀ r ∈ engine s, r.owner = p

instance (p : Party) (s : State) : Decidable (Alone p s) :=
  inferInstanceAs (Decidable (∀ r ∈ engine s, r.owner = p))

/-- A party submits requests or takes an event only while no other party has a request in the
engine. -/
def Exclusive (s : State) : Action → Prop
  | .startLoad _ accepted => accepted = 0 ∨ Alone .worker s
  | .submitBatch c n rejected => syncReqs c n rejected = [] ∨ Alone (.sync c) s
  | .workerPoll => Alone .worker s
  | .syncPoll c => Alone (.sync c) s
  | _ => True

instance (s : State) (a : Action) : Decidable (Exclusive s a) := by
  cases a <;> unfold Exclusive <;> infer_instance

/-- The engine completes a request, or the scheduler thread goes on. -/
def Serving (s : State) : Action → Prop
  | .land _ _ | .workerDispatch => True
  | .workerPoll => Exclusive s .workerPoll
  | _ => False

/-- What the engine and the scheduler thread still have to do. -/
def work (s : State) : ℕ := 3 * s.inFlight.length + 2 * s.queue.length + s.polled.length

/-- Every event goes to its submitter, `read_expert_sync` returns true on its own reads only and no
foreign `user_data` is read; in whatever order the engine completes its requests and the scheduler
thread serves them, that comes to an end with every submitted slice of every load counted. -/
structure Routed (s : State) : Prop where
  toOwner : ∀ p r, (p, r) ∈ s.taken → r.owner = p
  syncTrue : ∀ c, (s.calls c).phase = .returned true →
    ∀ i < (s.calls c).numTensors, .sync c i ∈ s.landed
  served : ∀ as s', Meets machine Serving as s → run machine as s = some s' →
    as.length ≤ work s ∧
      ((∀ a, Serving s' a → step s' a = none) → ∀ t, s'.loadPending t = 0)
  userData : s.badUserData = false

/-- A poll finds, at the head of the completion queue, an event of the polling party. -/
def TakesOwn (s : State) : Action → Prop
  | .workerPoll => ∀ e, s.queue.head? = some e → e.1.owner = .worker
  | .syncPoll c => ∀ e, s.queue.head? = some e → e.1.owner = .sync c
  | _ => True

/-- Every request the engine was ever given, wherever it is now. -/
def trail (s : State) : List Req :=
  s.inFlight ++ s.queue.map Prod.fst ++ s.taken.map Prod.snd

/-- The submitter of the request has started, and the request is one of its own. -/
def Known (s : State) : Req → Prop
  | .load t _ => s.loadStarted t = true
  | .sync c i => (s.calls c).phase ≠ .idle ∧ i < (s.calls c).numTensors

def takenBy (p : Party) (s : State) : List Req :=
  (s.taken.filter (fun x => x.1 = p)).map Prod.snd

structure Inv (s : State) : Prop where
  once : (trail s).Nodup
  known : ∀ r ∈ trail s, Known s r
  landed : ∀ r, r ∈ s.queue.map Prod.fst ∨ r ∈ s.taken.map Prod.snd → r ∈ s.landed
  toOwner : ∀ p r, (p, r) ∈ s.taken → r.owner = p
  polledTaken : ∀ r ∈ s.polled, (.worker, r) ∈ s.taken
  syncCounted : ∀ c, (takenBy (.sync c) s).length = (s.calls c).completed
  syncTrue : ∀ c, (s.calls c).phase = .returned true →
    (s.calls c).completed = (s.calls c).numTensors
  loadCounted : ∀ t, s.loadPending t = outstanding s t
  userData : s.badUserData = false

@[simp] theorem userData_load (t i : ℕ) : (Req.load t i).userData = some t := rfl

@[simp] theorem userData_sync (c i : ℕ) : (Req.sync c i).userData = none := rfl

@[simp] theorem owner_load (t i : ℕ) : (Req.load t i).owner = .worker := rfl

@[simp] theorem owner_sync (c i : ℕ) : (Req.sync c i).owner = .sync c := rfl

theorem owner_eq_worker {r : Req} (h : r.owner = .worker) : ∃ t i, r = .load t i := by
  cases r with
  | load t i => exact ⟨t, i, rfl⟩
  | sync c i => cases h

theorem owner_eq_sync {r : Req} {c : ℕ} (h : r.owner = .sync c) : ∃ i, r = .sync c i := by
  cases r with
  | load t i => cases h
  | sync c' i => cases h; exact ⟨i, rfl⟩

theorem loadReqs_nodup (t n : ℕ) : (loadReqs t n).Nodup :=
  List.nodup_range.map (fun _ _ h => by injection h)

theorem syncReqs_nodup (c n : ℕ) (rej : List ℕ) : (syncReqs c n rej).Nodup :=
  (List.nodup_range.filter _).map (fun _ _ h => by injection h)

theorem mem_loadReqs {t n : ℕ} {r : Req} : r ∈ loadReqs t n ↔ ∃ i < n, r = .load t i := by
  simp only [loadReqs, List.mem_map, List.mem_range]
  exact exists_congr fun i => and_congr_right fun _ => eq_comm

theorem mem_syncReqs {c n : ℕ} {rej : List ℕ} {r : Req} :
    r ∈ syncReqs c n rej ↔ ∃ i < n, i ∉ rej ∧ r = .sync c i := by
  simp only [syncReqs, List.mem_map, List.mem_filter, List.mem_range, decide_eq_true_eq, and_assoc]
  exact exists_congr fun i => and_congr_right fun _ => and_congr_right fun _ => eq_comm

theorem countP_loadReqs (t t' n : ℕ) :
    (loadReqs t n).countP (fun r => r.userData = some t') = if t = t' then n else 0 := by
  rw [loadReqs, List.countP_map]
  by_cases h : t = t'
  · subst h
    simp [Function.comp_def]
  · simp [Function.comp_def, h]

theorem countP_syncReqs (c n t : ℕ) (rej : List ℕ) :
    (syncReqs c n rej).countP (fun r => r.userData = some t) = 0 := by
  rw [List.countP_eq_zero]
  intro r hr
  obtain ⟨i, _, _, rfl⟩ := mem_syncReqs.mp hr
  simp

theorem trail_submit (new : List Req) (s : State) :
    (({ s with inFlight := s.inFlight ++ new } : State) |> trail).Perm (new ++ trail s) := by
  simp only [trail, List.append_assoc]
  rw [← List.append_assoc, ← List.append_assoc new]
  exact List.Perm.append_right _ List.perm_append_comm

theorem trail_land {s : State} {r : Req} (ok : Bool) (hr : r ∈ s.inFlight) :
    (s.inFlight.erase r ++ (s.queue ++ [(r, ok)]).map Prod.fst ++ s.taken.map Prod.snd).Perm
      (trail s) := by
  have h₁ : (r :: s.inFlight.erase r).Perm s.inFlight := (List.perm_cons_erase hr).symm
  have h₂ : (s.inFlight.erase r ++ (s.queue.map Prod.fst ++ [r])).Perm
      (s.inFlight ++ s.queue.map Prod.fst) := by
    have h₃ : (s.inFlight.erase r ++ s.queue.map Prod.fst ++ [r]).Perm
        ([r] ++ (s.inFlight.erase r ++ s.queue.map Prod.fst)) := List.perm_append_comm
    rw [← List.append_assoc]
    exact h₃.trans (List.Perm.append_right (s.queue.map Prod.fst) h₁)
  simp only [trail, List.map_append, List.map_cons, List.map_nil]
  exact List.Perm.append_right _ h₂

theorem trail_take {s : State} {p : Party} {r : Req} {ok : Bool} {rest : List (Req × Bool)}
    (hq : s.queue = (r, ok) :: rest) : (trail (take p r ok rest s)).Perm (trail s) := by
  simp only [trail, take, hq, List.map_cons, List.append_assoc]
  refine List.Perm.append_left _ ?_
  exact List.perm_middle

theorem outstanding_eq (s : State) (t : ℕ) :
    outstanding s t = s.inFlight.countP (fun r => r.userData = some t) +
      (s.queue.map Prod.fst).countP (fun r => r.userData = some t) +
      s.polled.countP (fun r => r.userData = some t) := by
  simp only [outstanding, List.countP_append]

/-- What taking an event from the head of the queue changes, whoever takes it. -/
theorem inv_take {s : State} {p : Party} {r : Req} {ok : Bool} {rest : List (Req × Bool)}
    (hs : Inv s) (hq : s.queue = (r, ok) :: rest) (hown : r.owner = p) :
    (trail (take p r ok rest s)).Nodup ∧ (∀ x ∈ trail (take p r ok rest s), Known s x) ∧
      (∀ x, x ∈ rest.map Prod.fst ∨ x ∈ ((p, r) :: s.taken).map Prod.snd → x ∈ s.landed) ∧
      (∀ q x, (q, x) ∈ (p, r) :: s.taken → x.owner = q) := by
  have hperm := trail_take (p := p) hq
  refine ⟨hperm.nodup_iff.mpr hs.once, fun x hx => hs.known x (hperm.mem_iff.mp hx), ?_, ?_⟩
  · intro x hx
    have hx' : x ∈ s.queue.map Prod.fst ∨ x ∈ s.taken.map Prod.snd := by
      rw [hq]
      simp only [List.map_cons, List.mem_cons] at hx ⊢
      tauto
    exact hs.landed x hx'
  · intro q x hx
    rcases List.mem_cons.mp hx with h | h
    · cases h
      exact hown
    · exact hs.toOwner q x h

theorem takenBy_cons (p q : Party) (r : Req) (ok : Bool) (rest : List (Req × Bool)) (s : State) :
    takenBy q (take p r ok rest s) = if p = q then r :: takenBy q s else takenBy q s := by
  by_cases h : p = q
  · simp [takenBy, take, h]
  · simp [takenBy, take, h]

theorem inv_workerPoll {s : State} {r : Req} {ok : Bool} {rest : List (Req × Bool)} (hs : Inv s)
    (hq : s.queue = (r, ok) :: rest) (hown : r.owner = .worker) :
    Inv { take .worker r ok rest s with polled := s.polled ++ [r] } := by
  obtain ⟨honce, hknown, hlanded, htoOwner⟩ := inv_take hs hq hown
  refine ⟨honce, hknown, hlanded, htoOwner, ?_, ?_, hs.syncTrue, ?_, hs.userData⟩
  · intro x hx
    rcases List.mem_append.mp hx with h | h
    · exact List.mem_cons_of_mem _ (hs.polledTaken x h)
    · rw [List.mem_singleton.mp h]
      exact List.mem_cons_self
  · intro c
    have hc := takenBy_cons .worker (.sync c) r ok rest s
    simp only [reduceCtorEq, if_false] at hc
    exact (congrArg List.length hc).trans (hs.syncCounted c)
  · intro t
    have hcount := hs.loadCounted t
    rw [outstanding_eq] at hcount ⊢
    simp only [hq, List.map_cons, List.countP_cons] at hcount
    simp only [take, List.countP_append, List.countP_singleton]
    omega

theorem inv_workerDispatch {s s' : State} (hs : Inv s) (h : step s .workerDispatch = some s') :
    Inv s' := by
  simp only [step] at h
  split at h
  · cases h
  · rename_i r rest hp
    have hmem := hs.polledTaken r (by simp [hp])
    obtain ⟨t, i, rfl⟩ := owner_eq_worker (hs.toOwner _ _ hmem)
    cases h
    refine ⟨hs.once, hs.known, hs.landed, hs.toOwner, ?_, hs.syncCounted, hs.syncTrue, ?_,
      hs.userData⟩
    · intro x hx
      exact hs.polledTaken x (by rw [hp]; exact List.mem_cons_of_mem _ hx)
    · intro t'
      have hcount := hs.loadCounted t'
      rw [outstanding_eq] at hcount ⊢
      simp only [hp, List.countP_cons, userData_load, Option.some.injEq, decide_eq_true_eq] at hcount
      by_cases ht : t' = t
      · subst ht
        simp only [Function.update_self, if_true] at hcount ⊢
        omega
      · have ht' : ¬ t = t' := fun e => ht e.symm
        simp only [Function.update_of_ne ht, if_neg ht'] at hcount ⊢
        omega

theorem inv_land {s : State} {r : Req} (ok : Bool) (hs : Inv s) (hr : r ∈ s.inFlight) :
    Inv { s with
      inFlight := s.inFlight.erase r
      queue := s.queue ++ [(r, ok)]
      landed := r :: s.landed } := by
  have hperm := trail_land ok hr
  refine ⟨hperm.nodup_iff.mpr hs.once, fun x hx => hs.known x (hperm.mem_iff.mp hx), ?_,
    hs.toOwner, hs.polledTaken, hs.syncCounted, hs.syncTrue, ?_, hs.userData⟩
  · intro x hx
    simp only [List.map_append, List.map_cons, List.map_nil, List.mem_append,
      List.mem_singleton] at hx
    rcases hx with (hx | hx) | hx
    · exact List.mem_cons_of_mem _ (hs.landed x (.inl hx))
    · rw [hx]
      exact List.mem_cons_self
    · exact List.mem_cons_of_mem _ (hs.landed x (.inr hx))
  · intro t
    have hcount := hs.loadCounted t
    have herase := (List.perm_cons_erase hr).countP_eq (fun r => decide (r.userData = some t))
    rw [outstanding_eq] at hcount ⊢
    simp only [List.countP_cons] at herase
    simp only [List.map_append, List.map_cons, List.map_nil, List.countP_append,
      List.countP_singleton]
    omega

/-- New requests of a party none of whose requests were ever submitted. -/
theorem nodup_submit {s : State} (s' : State) {new : List Req} (hs : Inv s) (hnew : new.Nodup)
    (hfresh : ∀ r ∈ new, ¬ Known s r) (hin : s'.inFlight = s.inFlight ++ new)
    (hqueue : s'.queue = s.queue) (htaken : s'.taken = s.taken) :
    (trail s').Nodup ∧ ∀ r, r ∈ trail s' ↔ r ∈ new ∨ r ∈ trail s := by
  have hperm : (trail s').Perm (new ++ trail s) := by
    have h := trail_submit new s
    simpa only [trail, hin, hqueue, htaken] using h
  refine ⟨?_, fun r => ?_⟩
  · rw [hperm.nodup_iff, List.nodup_append]
    refine ⟨hnew, hs.once, ?_⟩
    intro a ha b hb hab
    exact hfresh a ha (hs.known a (hab ▸ hb))
  · rw [hperm.mem_iff, List.mem_append]

theorem inv_startAsyncLoad {s : State} {t n : ℕ} (hs : Inv s) (hfresh : s.loadStarted t = false) :
    Inv (startAsyncLoad t n s) := by
  have hnone : ∀ i, ¬ Known s (.load t i) := by
    intro i h
    simp [Known, hfresh] at h
  have hnew : ∀ r ∈ loadReqs t n, ¬ Known s r := by
    intro r hr
    obtain ⟨i, _, rfl⟩ := mem_loadReqs.mp hr
    exact hnone i
  obtain ⟨honce, hmem⟩ :=
    nodup_submit (startAsyncLoad t n s) hs (loadReqs_nodup t n) hnew rfl rfl rfl
  refine ⟨honce, ?_, hs.landed, hs.toOwner, hs.polledTaken, hs.syncCounted, hs.syncTrue, ?_,
    hs.userData⟩
  · intro r hr
    rcases (hmem r).mp hr with h | h
    · obtain ⟨i, _, rfl⟩ := mem_loadReqs.mp h
      simp [Known, startAsyncLoad]
    · have hk := hs.known r h
      cases r with
      | sync c i => exact hk
      | load t' i =>
        by_cases ht : t' = t
        · exact absurd (ht ▸ hk) (hnone i)
        · simpa [Known, startAsyncLoad, Function.update_of_ne ht] using hk
  · intro t'
    have hcount := hs.loadCounted t'
    rw [outstanding_eq] at hcount ⊢
    simp only [startAsyncLoad, List.countP_append, countP_loadReqs]
    by_cases ht : t' = t
    · subst ht
      -- a load that has not started has no request anywhere
      have hzero : outstanding s t' = 0 := by
        rw [outstanding, List.countP_eq_zero]
        intro r hr
        have htrail : r ∈ trail s := by
          simp only [List.mem_append] at hr
          simp only [trail, List.mem_append]
          rcases hr with hr | hr
          · exact .inl hr
          · exact .inr (List.mem_map_of_mem (f := Prod.snd) (hs.polledTaken r hr))
        have hk := hs.known r htrail
        cases r with
        | sync c i => simp
        | load t'' i =>
          intro heq
          have heq' : t'' = t' := by simpa using heq
          exact hnone i (heq' ▸ hk)
      rw [outstanding_eq] at hzero
      simp only [Function.update_self, if_true]
      omega
    · have ht' : ¬ t = t' := fun e => ht e.symm
      simp only [Function.update_of_ne ht, if_neg ht']
      omega

theorem takenBy_idle {s : State} {c : ℕ} (hs : Inv s) (hidle : (s.calls c).phase = .idle) :
    takenBy (.sync c) s = [] := by
  rw [takenBy, List.map_eq_nil_iff, List.filter_eq_nil_iff]
  rintro ⟨p, r⟩ hx hp
  have hp' : p = .sync c := by simpa using hp
  obtain ⟨i, rfl⟩ := owner_eq_sync ((hs.toOwner p r hx).trans hp')
  have hmem : .sync c i ∈ trail s := by
    simp only [trail, List.mem_append]
    exact .inr (List.mem_map_of_mem (f := Prod.snd) hx)
  exact (hs.known _ hmem).1 hidle

theorem inv_submitBatch {s : State} {c n : ℕ} (rej : List ℕ) (hs : Inv s)
    (hidle : (s.calls c).phase = .idle) : Inv (submitBatch c n rej s) := by
  have hnew : ∀ r ∈ syncReqs c n rej, ¬ Known s r := by
    intro r hr
    obtain ⟨i, _, _, rfl⟩ := mem_syncReqs.mp hr
    exact fun hk => hk.1 hidle
  obtain ⟨honce, hmem⟩ :=
    nodup_submit (submitBatch c n rej s) hs (syncReqs_nodup c n rej) hnew rfl rfl rfl
  refine ⟨honce, ?_, hs.landed, hs.toOwner, hs.polledTaken, ?_, ?_, ?_, hs.userData⟩
  · intro r hr
    rcases (hmem r).mp hr with h | h
    · have hne : syncReqs c n rej ≠ [] := List.ne_nil_of_mem h
      obtain ⟨i, hi, _, rfl⟩ := mem_syncReqs.mp h
      simp [Known, submitBatch, setCall, hne, hi]
    · have hk := hs.known r h
      cases r with
      | load t i => exact hk
      | sync c' i =>
        by_cases hc : c' = c
        · exact absurd (hc ▸ hidle) hk.1
        · simpa [Known, submitBatch, setCall, Function.update_of_ne hc] using hk
  · intro c'
    by_cases hc : c' = c
    · subst hc
      simpa [takenBy, submitBatch, setCall] using congrArg List.length (takenBy_idle hs hidle)
    · simpa [takenBy, submitBatch, setCall, Function.update_of_ne hc] using hs.syncCounted c'
  · intro c'
    by_cases hc : c' = c
    · subst hc
      simp only [submitBatch, setCall, Function.update_self]
      split
      · intro hret
        cases hret
      · intro hret
        cases hret
    · simpa [submitBatch, setCall, Function.update_of_ne hc] using hs.syncTrue c'
  · intro t
    have hcount := hs.loadCounted t
    rw [outstanding_eq] at hcount ⊢
    simp only [submitBatch, setCall, List.countP_append, countP_syncReqs]
    omega

/-- A change of one call that keeps what its requests are known by. -/
theorem inv_setCall {s : State} {c : ℕ} {k : Call} (hs : Inv s)
    (hnum : k.numTensors = (s.calls c).numTensors) (hphase : k.phase ≠ .idle)
    (hcompleted : k.completed = (s.calls c).completed)
    (htrue : k.phase = .returned true → k.completed = k.numTensors) : Inv (setCall c k s) := by
  refine ⟨hs.once, ?_, hs.landed, hs.toOwner, hs.polledTaken, ?_, ?_, hs.loadCounted, hs.userData⟩
  · intro r hr
    have hk := hs.known r hr
    cases r with
    | load t i => exact hk
    | sync c' i =>
      by_cases hc : c' = c
      · subst hc
        simpa [Known, setCall, hnum, hphase] using hk.2
      · simpa [Known, setCall, Function.update_of_ne hc] using hk
  · intro c'
    have hcount := hs.syncCounted c'
    by_cases hc : c' = c
    · subst hc
      simpa [takenBy, setCall, hcompleted] using hcount
    · simpa [takenBy, setCall, Function.update_of_ne hc] using hcount
  · intro c'
    by_cases hc : c' = c
    · subst hc
      simpa [setCall] using htrue
    · simpa [setCall, Function.update_of_ne hc] using hs.syncTrue c'

theorem inv_syncPoll {s : State} {c : ℕ} {r : Req} {ok : Bool} {rest : List (Req × Bool)}
    (hs : Inv s) (hq : s.queue = (r, ok) :: rest) (hown : r.owner = .sync c)
    (hphase : (s.calls c).phase = .waiting) :
    Inv (setCall c { s.calls c with completed := (s.calls c).completed + 1 }
      (take (.sync c) r ok rest s)) := by
  obtain ⟨honce, hknown, hlanded, htoOwner⟩ := inv_take hs hq hown
  refine ⟨honce, ?_, hlanded, htoOwner, ?_, ?_, ?_, ?_, hs.userData⟩
  · intro x hx
    have hk := hknown x hx
    cases x with
    | load t i => exact hk
    | sync c' i =>
      by_cases hc : c' = c
      · subst hc
        simpa [Known, setCall, take] using hk
      · simpa [Known, setCall, take, Function.update_of_ne hc] using hk
  · intro x hx
    exact List.mem_cons_of_mem _ (hs.polledTaken x hx)
  · intro c'
    have hcount := hs.syncCounted c'
    have hcons := takenBy_cons (.sync c) (.sync c') r ok rest s
    have hsame : takenBy (.sync c') (setCall c
        { s.calls c with completed := (s.calls c).completed + 1 } (take (.sync c) r ok rest s)) =
        takenBy (.sync c') (take (.sync c) r ok rest s) := rfl
    rw [hsame, hcons]
    by_cases hc : c' = c
    · subst hc
      simp [setCall, hcount]
    · have hc' : ¬ c = c' := fun e => hc e.symm
      simp [setCall, take, Function.update_of_ne hc, hc', hcount]
  · intro c'
    by_cases hc : c' = c
    · subst hc
      simp [setCall, hphase]
    · simpa [setCall, take, Function.update_of_ne hc] using hs.syncTrue c'
  · intro t
    obtain ⟨i, rfl⟩ := owner_eq_sync hown
    have hcount := hs.loadCounted t
    rw [outstanding_eq] at hcount ⊢
    simp only [hq, List.map_cons, List.countP_cons, userData_sync, reduceCtorEq, decide_false,
      Bool.false_eq_true, if_false] at hcount
    simp only [setCall, take]
    omega

theorem inv_step {s s' : State} {a : Action} (hs : Inv s) (hguard : TakesOwn s a)
    (h : step s a = some s') : Inv s' := by
  cases a with
  | startLoad t n =>
    simp only [step] at h
    split at h
    · rename_i hfresh
      cases h
      exact inv_startAsyncLoad hs hfresh
    · cases h
  | submitBatch c n rej =>
    simp only [step] at h
    split at h
    · rename_i hg
      cases h
      exact inv_submitBatch rej hs hg.1
    · cases h
  | land r ok =>
    simp only [step] at h
    split at h
    · rename_i hr
      cases h
      exact inv_land ok hs hr
    · cases h
  | workerPoll =>
    simp only [step] at h
    split at h
    · cases h
    · rename_i r ok rest hq
      cases h
      exact inv_workerPoll hs hq (hguard (r, ok) (by rw [hq]; rfl))
  | workerDispatch => exact inv_workerDispatch hs h
  | syncPoll c =>
    simp only [step] at h
    split at h
    · cases h
    · rename_i r ok rest hq
      split at h
      · rename_i hg
        cases h
        exact inv_syncPoll hs hq (hguard (r, ok) (by rw [hq]; rfl)) hg.1
      · cases h
  | syncTimeout c =>
    simp only [step] at h
    split at h
    · cases h
      exact inv_setCall hs rfl (by simp) rfl (by simp)
    · cases h
  | syncReturn c =>
    simp only [step] at h
    split at h
    · rename_i hg
      cases h
      exact inv_setCall hs rfl (by simp) rfl (fun _ => hg.2)
    · cases h

theorem inv_init : Inv initState := by
  refine ⟨by simp [trail, initState], by simp [trail, initState], by simp [initState],
    by simp [initState], by simp [initState], by simp [takenBy, initState], by simp [initState],
    by simp [initState, outstanding], rfl⟩

theorem takesOwn_of_exclusive {s : State} {a : Action} (h : Exclusive s a) : TakesOwn s a := by
  have hhead : ∀ p, Alone p s → ∀ e, s.queue.head? = some e → e.1.owner = p := by
    intro p hp e he
    exact hp e.1 (List.mem_append_right _ (List.mem_map_of_mem (List.mem_of_head? he)))
  cases a with
  | workerPoll => exact hhead _ h
  | syncPoll c => exact hhead _ h
  | startLoad | submitBatch | land | workerDispatch | syncTimeout | syncReturn => trivial

section exclusive

/-- The requests in the engine after a step: the old ones and those of the party that submits. -/
theorem mem_engine_step {s s' : State} {a : Action} (h : step s a = some s') {r : Req}
    (hr : r ∈ engine s') :
    r ∈ engine s ∨ (∃ t n, a = .startLoad t n ∧ r ∈ loadReqs t n) ∨
      ∃ c n rej, a = .submitBatch c n rej ∧ r ∈ syncReqs c n rej := by
  cases a with
  | startLoad t n =>
    simp only [step] at h
    split at h
    · cases h
      simp only [engine, startAsyncLoad, List.mem_append] at hr ⊢
      rcases hr with (hr | hr) | hr
      · exact .inl (.inl hr)
      · exact .inr (.inl ⟨t, n, rfl, hr⟩)
      · exact .inl (.inr hr)
    · cases h
  | submitBatch c n rej =>
    simp only [step] at h
    split at h
    · cases h
      simp only [engine, submitBatch, setCall, List.mem_append] at hr ⊢
      rcases hr with (hr | hr) | hr
      · exact .inl (.inl hr)
      · exact .inr (.inr ⟨c, n, rej, rfl, hr⟩)
      · exact .inl (.inr hr)
    · cases h
  | land q ok =>
    simp only [step] at h
    split at h
    · rename_i hq
      cases h
      simp only [engine, List.map_append, List.map_cons, List.map_nil, List.mem_append,
        List.mem_singleton] at hr ⊢
      rcases hr with hr | hr | hr
      · exact .inl (.inl (List.mem_of_mem_erase hr))
      · exact .inl (.inr hr)
      · rw [hr]
        exact .inl (.inl hq)
    · cases h
  | workerPoll =>
    simp only [step] at h
    split at h
    · cases h
    · rename_i q ok rest hq
      cases h
      simp only [engine, take, List.mem_append] at hr ⊢
      rw [hq, List.map_cons]
      rcases hr with hr | hr
      · exact .inl (.inl hr)
      · exact .inl (.inr (List.mem_cons_of_mem _ hr))
  | workerDispatch =>
    simp only [step] at h
    split at h
    · cases h
    · split at h <;> cases h <;> exact .inl hr
  | syncPoll c =>
    simp only [step] at h
    split at h
    · cases h
    · rename_i q ok rest hq
      split at h
      · cases h
        simp only [engine, take, setCall, List.mem_append] at hr ⊢
        rw [hq, List.map_cons]
        rcases hr with hr | hr
        · exact .inl (.inl hr)
        · exact .inl (.inr (List.mem_cons_of_mem _ hr))
      · cases h
  | syncTimeout c | syncReturn c =>
    simp only [step] at h
    split at h
    · cases h
      exact .inl hr
    · cases h

/-- The engine belongs to one party at a time. -/
theorem oneParty_step {s s' : State} {a : Action} (hs : ∃ p, Alone p s) (hg : Exclusive s a)
    (h : step s a = some s') : ∃ p, Alone p s' := by
  obtain ⟨p, hp⟩ := hs
  have hold : (∀ t n, a = .startLoad t n → n = 0) →
      (∀ c n rej, a = .submitBatch c n rej → syncReqs c n rej = []) → ∃ p, Alone p s' := by
    intro hload hsync
    refine ⟨p, fun r hr => ?_⟩
    rcases mem_engine_step h hr with hr | ⟨t, n, ha, hr⟩ | ⟨c, n, rej, ha, hr⟩
    · exact hp r hr
    · rw [hload t n ha] at hr
      cases hr
    · rw [hsync c n rej ha] at hr
      cases hr
  cases a with
  | startLoad t n =>
    rcases hg with hzero | halone
    · exact hold (fun _ _ ha => by cases ha; exact hzero) fun _ _ _ ha => by cases ha
    · refine ⟨.worker, fun r hr => ?_⟩
      rcases mem_engine_step h hr with hr | ⟨t', n', _, hr⟩ | ⟨_, _, _, ha, _⟩
      · exact halone r hr
      · obtain ⟨i, _, rfl⟩ := mem_loadReqs.mp hr
        rfl
      · cases ha
  | submitBatch c n rej =>
    rcases hg with hnil | halone
    · exact hold (fun _ _ ha => by cases ha) fun _ _ _ ha => by cases ha; exact hnil
    · refine ⟨.sync c, fun r hr => ?_⟩
      rcases mem_engine_step h hr with hr | ⟨_, _, ha, _⟩ | ⟨c', n', rej', ha, hr⟩
      · exact halone r hr
      · cases ha
      · cases ha
        obtain ⟨i, _, _, rfl⟩ := mem_syncReqs.mp hr
        rfl
  | land | workerPoll | workerDispatch | syncPoll | syncTimeout | syncReturn =>
    exact hold (fun _ _ ha => by cases ha) fun _ _ _ ha => by cases ha

end exclusive

/-- The books are right and the engine belongs to one party. -/
def Owned (s : State) : Prop := Inv s ∧ ∃ p, Alone p s

theorem owned_step {s s' : State} {a : Action} (hs : Owned s) (hg : Exclusive s a)
    (h : step s a = some s') : Owned s' :=
  ⟨inv_step hs.1 (takesOwn_of_exclusive hg) h, oneParty_step hs.2 hg h⟩

theorem owned_reach {s : State} (h : Reach machine Exclusive s) : Owned s := by
  refine h.invariant ?_ fun _ _ _ hs hg hstep => owned_step hs hg hstep
  rintro s rfl
  exact ⟨inv_init, .worker, by simp [Alone, engine, initState]⟩

section served

theorem Serving.exclusive {s : State} {a : Action} (h : Serving s a) : Exclusive s a := by
  cases a with
  | workerPoll => exact h
  | land | workerDispatch => trivial
  | startLoad | submitBatch | syncPoll | syncTimeout | syncReturn => exact h.elim

theorem work_serving {s s' : State} {a : Action} (hg : Serving s a) (h : step s a = some s') :
    work s' < work s := by
  cases a with
  | land r ok =>
    simp only [step] at h
    split at h
    · rename_i hr
      cases h
      have hlen := List.length_erase_of_mem hr
      have hpos := List.length_pos_of_mem hr
      simp only [work, List.length_append, List.length_singleton]
      omega
    · cases h
  | workerPoll =>
    simp only [step] at h
    split at h
    · cases h
    · rename_i r ok rest hq
      cases h
      simp only [work, take, hq, List.length_append, List.length_cons, List.length_nil]
      omega
  | workerDispatch =>
    simp only [step] at h
    split at h
    · cases h
    · rename_i r rest hp
      split at h <;> cases h <;> simp [work, hp]
  | startLoad | submitBatch | syncPoll | syncTimeout | syncReturn => exact hg.elim

/-- The engine's completions and the scheduler thread's steps come to an end. -/
theorem length_le_work (as : List Action) {s s' : State} (hm : Meets machine Serving as s)
    (h : run machine as s = some s') : as.length ≤ work s := by
  induction as generalizing s with
  | nil => exact Nat.zero_le _
  | cons a as ih =>
    obtain ⟨t, ht, hrun⟩ := Option.bind_eq_some_iff.mp h
    have hlt := work_serving hm.1 ht
    have hle := ih (hm.2 t ht) hrun
    rw [List.length_cons]
    omega

/-- Where nothing is left to do, the engine holds no request of a load and every load is counted. -/
theorem counted_of_served {s : State} (hs : Owned s) (hend : ∀ a, Serving s a → step s a = none) (t : ℕ) :
    s.loadPending t = 0 := by
  obtain ⟨hinv, p, hp⟩ := hs
  have hflight : s.inFlight = [] := by
    by_contra hne
    obtain ⟨r, hr⟩ := List.exists_mem_of_ne_nil _ hne
    have hnone := hend (.land r true) trivial
    simp [step, hr] at hnone
  have hpolled : s.polled = [] := by
    cases hlist : s.polled with
    | nil => rfl
    | cons r rest =>
      have hnone := hend .workerDispatch trivial
      cases r <;> simp [step, hlist] at hnone
  have hqueue : (s.queue.map Prod.fst).countP (fun r => r.userData = some t) = 0 := by
    cases hq : s.queue with
    | nil => rfl
    | cons e rest =>
      cases p with
      | worker =>
        have hnone := hend .workerPoll hp
        simp [step, hq] at hnone
      | sync c =>
        rw [List.countP_eq_zero]
        intro r hr
        rw [← hq] at hr
        obtain ⟨i, rfl⟩ := owner_eq_sync (hp r (List.mem_append_right _ hr))
        simp
  have hcount := hinv.loadCounted t
  rw [outstanding_eq, hflight, hpolled, hqueue] at hcount
  exact hcount

theorem served_of_owned {s : State} (hs : Owned s) {as : List Action} {s' : State}
    (hm : Meets machine Serving as s) (h : run machine as s = some s') : Owned s' := by
  induction as generalizing s with
  | nil =>
    cases h
    exact hs
  | cons a as ih =>
    obtain ⟨t, ht, hrun⟩ := Option.bind_eq_some_iff.mp h
    exact ih (owned_step hs hm.1.exclusive ht) (hm.2 t ht) hrun

end served

/-- As many own events as requests were submitted: every request has completed. -/
theorem landed_of_completed {s : State} {c : ℕ} (hs : Inv s)
    (hall : (s.calls c).completed = (s.calls c).numTensors) :
    ∀ i < (s.calls c).numTensors, .sync c i ∈ s.landed := by
  have htaken : (s.taken.map Prod.snd).Nodup := (List.nodup_append.mp hs.once).2.1
  have hnodup : (takenBy (.sync c) s).Nodup :=
    htaken.sublist (List.Sublist.map _ List.filter_sublist)
  have hsub : takenBy (.sync c) s ⊆ (List.range (s.calls c).numTensors).map (Req.sync c) := by
    intro r hr
    obtain ⟨⟨p, x⟩, hx, rfl⟩ := List.mem_map.mp hr
    obtain ⟨hx, hp⟩ := List.mem_filter.mp hx
    have hp' : p = .sync c := by simpa using hp
    obtain ⟨i, rfl⟩ := owner_eq_sync ((hs.toOwner p x hx).trans hp')
    have hmem : Req.sync c i ∈ trail s := by
      simp only [trail, List.mem_append]
      exact .inr (List.mem_map_of_mem (f := Prod.snd) hx)
    exact List.mem_map.mpr ⟨i, List.mem_range.mpr (hs.known _ hmem).2, rfl⟩
  have hperm := (List.subperm_of_subset hnodup hsub).perm_of_length_le (by
    simp [hs.syncCounted c, hall])
  intro i hi
  have hmem : Req.sync c i ∈ takenBy (.sync c) s :=
    hperm.mem_iff.mpr (List.mem_map.mpr ⟨i, List.mem_range.mpr hi, rfl⟩)
  obtain ⟨x, hx, heq⟩ := List.mem_map.mp hmem
  refine hs.landed _ (.inr ?_)
  exact List.mem_map.mpr ⟨x, (List.mem_filter.mp hx).1, heq⟩

theorem routed_of_owned {s : State} (hs : Owned s) : Routed s where
  toOwner := hs.1.toOwner
  syncTrue c hret := landed_of_completed hs.1 (hs.1.syncTrue c hret)
  served as _ hm hrun :=
    ⟨length_le_work as hm hrun, fun hend => counted_of_served (served_of_owned hs hm hrun) hend⟩
  userData := hs.1.userData

/-- In every run in which the parties use the engine one at a time, every reached state is routed. -/
theorem routed_of_exclusive {s : State} (h : Reach machine Exclusive s) : Routed s :=
  routed_of_owned (owned_reach h)

/-- A load of two slices, a read of two tensors behind it, and a load behind the read. -/
def oneAtATime : List Action :=
  [.startLoad 0 2, .land (.load 0 1) true, .workerPoll, .land (.load 0 0) false, .workerPoll,
    .submitBatch 0 2 [], .workerDispatch, .land (.sync 0 1) true, .land (.sync 0 0) true, .syncPoll 0,
    .workerDispatch, .syncPoll 0, .startLoad 1 1, .syncReturn 0, .land (.load 1 0) true]

theorem routed_oneAtATime :
    ∃ s, guardedRun machine Exclusive oneAtATime initState = some s ∧
      (s.calls 0).phase = .returned true ∧ s.loadPending 0 = 0 ∧ s.loadPending 1 = 1 ∧ Routed s :=
  ⟨_, rfl, rfl, rfl, rfl, routed_of_exclusive (Reach.guardedRun oneAtATime (.init rfl) rfl)⟩

/-- The worker polls the event of a synchronous read and reads a null `user_data`. -/
def workerTakesRead : List Action :=
  [.submitBatch 0 1 [], .land (.sync 0 0) true, .workerPoll, .workerDispatch]

/-- A synchronous read takes the event of an expert load and returns true on it. -/
def readTakesLoad : List Action :=
  [.startLoad 0 1, .submitBatch 0 1 [], .land (.load 0 0) true, .syncPoll 0, .syncReturn 0]

theorem not_routed_sharedQueue :
    (∃ s, Reach machine anyStep s ∧ s.badUserData = true ∧ ¬ Routed s) ∧
      ∃ s, Reach machine anyStep s ∧ (s.calls 0).phase = .returned true ∧
        .sync 0 0 ∈ s.inFlight ∧ s.loadPending 0 = 1 ∧ outstanding s 0 = 0 ∧ ¬ Routed s := by
  constructor
  · refine ⟨_, Reach.run_of_guard (fun _ _ => trivial) workerTakesRead (.init rfl) rfl, rfl, ?_⟩
    intro h
    exact absurd h.userData (by decide)
  · refine ⟨_, Reach.run_of_guard (fun _ _ => trivial) readTakesLoad (.init rfl) rfl, rfl, ?_, rfl,
      rfl, ?_⟩
    · decide
    · intro h
      exact absurd (h.toOwner (.sync 0) (.load 0 0) (by decide)) (by decide)

section needed

def pollOf : Party → Action
  | .worker => .workerPoll
  | .sync c => .syncPoll c

def Polling (p : Party) (s : State) : Prop :=
  match p with
  | .worker => True
  | .sync c => (s.calls c).phase = .waiting ∧ (s.calls c).completed < (s.calls c).numTensors

theorem poll_step {p : Party} {s : State} (hp : Polling p s) {e : Req × Bool} {rest : List (Req × Bool)}
    (hq : s.queue = e :: rest) : ∃ t, step s (pollOf p) = some t ∧ (p, e.1) ∈ t.taken := by
  cases p with
  | worker =>
    refine ⟨{ take .worker e.1 e.2 rest s with polled := s.polled ++ [e.1] }, ?_, List.mem_cons_self⟩
    simp only [pollOf, step, hq]
  | sync c =>
    have hp' : (s.calls c).phase = .waiting ∧ (s.calls c).completed < (s.calls c).numTensors := hp
    refine ⟨setCall c { s.calls c with completed := (s.calls c).completed + 1 }
      (take (.sync c) e.1 e.2 rest s), ?_, List.mem_cons_self⟩
    simp only [pollOf, step, hq]
    rw [if_pos hp']

/-- A party that polls while the engine holds only requests of others takes one of theirs as soon as
it has completed. -/
theorem misrouted {p : Party} {s : State} (hp : Polling p s) (hqueue : ∀ e ∈ s.queue, e.1.owner ≠ p) {r : Req}
    (hr : r ∈ engine s) (hown : r.owner ≠ p) : ∃ bs t, run machine bs s = some t ∧ ¬ Routed t := by
  cases hq : s.queue with
  | cons e rest =>
    obtain ⟨t, ht, hmem⟩ := poll_step hp hq
    refine ⟨[pollOf p], t, by simp [machine, ht], fun hrouted => ?_⟩
    exact hqueue e (by rw [hq]; exact List.mem_cons_self) (hrouted.toOwner _ _ hmem)
  | nil =>
    have hflight : r ∈ s.inFlight := by
      rw [engine, hq, List.map_nil, List.append_nil] at hr
      exact hr
    let u : State := { s with
      inFlight := s.inFlight.erase r, queue := s.queue ++ [(r, true)], landed := r :: s.landed }
    have hu : step s (.land r true) = some u := if_pos hflight
    have hpolling : Polling p u := by
      cases p with
      | worker => trivial
      | sync c => exact hp
    have huq : u.queue = [(r, true)] := by
      rw [show u.queue = s.queue ++ [(r, true)] from rfl, hq, List.nil_append]
    obtain ⟨t, ht, hmem⟩ := poll_step hpolling huq
    refine ⟨[.land r true, pollOf p], t, by simp [machine, hu, ht], fun hrouted => ?_⟩
    exact hown (hrouted.toOwner _ _ hmem)

/-- The discipline is needed: behind a step outside it, completions in some order and polls of the
party that made the step lead to a state that is not routed. -/
theorem not_routed_of_not_exclusive {s s' : State} {a : Action} (hs : Reach machine Exclusive s)
    (hg : ¬ Exclusive s a) (h : step s a = some s') : ∃ bs t, run machine bs s' = some t ∧ ¬ Routed t := by
  obtain ⟨_, p, hp⟩ := owned_reach hs
  have hqueue : ∀ e ∈ s.queue, e.1.owner = p :=
    fun e he => hp e.1 (List.mem_append_right _ (List.mem_map_of_mem he))
  have hforeign : ∀ q, ¬ Alone q s → p ≠ q := by
    rintro q hq rfl
    exact hq hp
  cases a with
  | workerPoll =>
    have hne := hforeign _ hg
    simp only [step] at h
    split at h
    · cases h
    · rename_i r ok rest hq
      cases h
      refine ⟨[], _, rfl, fun hrouted => hne ?_⟩
      rw [← hqueue (r, ok) (by rw [hq]; exact List.mem_cons_self)]
      exact hrouted.toOwner .worker r List.mem_cons_self
  | syncPoll c =>
    have hne := hforeign _ hg
    simp only [step] at h
    split at h
    · cases h
    · rename_i r ok rest hq
      split at h
      · cases h
        refine ⟨[], _, rfl, fun hrouted => hne ?_⟩
        rw [← hqueue (r, ok) (by rw [hq]; exact List.mem_cons_self)]
        exact hrouted.toOwner (.sync c) r List.mem_cons_self
      · cases h
  | startLoad t n =>
    obtain ⟨_, halone⟩ := not_or.mp hg
    have hne := hforeign _ halone
    simp only [Alone, not_forall] at halone
    obtain ⟨r, hr, hown⟩ := halone
    simp only [step] at h
    split at h
    · cases h
      refine misrouted (p := .worker) trivial (fun e he => ?_) ?_ hown
      · rw [hqueue e he]
        exact hne
      · simp only [engine, startAsyncLoad, List.mem_append] at hr ⊢
        tauto
    · cases h
  | submitBatch c n rej =>
    obtain ⟨hsome, halone⟩ := not_or.mp hg
    have hne := hforeign _ halone
    simp only [Alone, not_forall] at halone
    obtain ⟨r, hr, hown⟩ := halone
    simp only [step] at h
    split at h
    · rename_i hidle
      cases h
      refine misrouted (p := .sync c) ?_ (fun e he => ?_) ?_ hown
      · simp only [Polling, submitBatch, setCall, Function.update_self, hsome, if_false, true_and]
        exact hidle.2
      · rw [hqueue e he]
        exact hne
      · simp only [engine, submitBatch, setCall, List.mem_append] at hr ⊢
        tauto
    · cases h
  | land | workerDispatch | syncTimeout | syncReturn => exact absurd trivial hg

end needed

end DioRouting
end StreamMoE
