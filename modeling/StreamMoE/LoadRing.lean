import Mathlib.Data.Nat.Pairing
import StreamMoE.DioEngine

/-! The load rings of the schedulers on one engine: their free elements, and the loads in flight. -/
namespace StreamMoE
namespace LoadRing

open DioEngine TransitionSystem

section machine

def element (p idx : ℕ) : ℕ := Nat.pair p idx

def sched (t : ℕ) : ℕ := t.unpair.1

def index (t : ℕ) : ℕ := t.unpair.2

@[simp] theorem sched_element (p idx : ℕ) : sched (element p idx) = p :=
  congrArg Prod.fst (Nat.unpair_pair p idx)

@[simp] theorem index_element (p idx : ℕ) : index (element p idx) = idx :=
  congrArg Prod.snd (Nat.unpair_pair p idx)

@[simp] theorem element_sched_index (t : ℕ) : element (sched t) (index t) = t := Nat.pair_unpair t

/-- The engine with the tasks of its loads, and `load_free_` and `is_running` of every scheduler. -/
structure State where
  dio : DioEngine.State
  free : ℕ → List ℕ
  running : ℕ → Bool

/-- `noColumn` ends `start_async_load` at a slice whose slot has no memory. -/
inductive Action (A : Type*)
  | engine (a : DioEngine.Action A)
  | setRunning (p : ℕ) (b : Bool)
  | startLoad (p : ℕ) (slices : List AioReq)
  | noColumn
  | loadReturn
  | drain

/-- The steps in which no element is taken or given back. -/
def onEngine {A : Type*} : DioEngine.Action A → Bool
  | .startLoad _ _ => false
  | .loadReturn => false
  | .drain => false
  | _ => true

def pushBack (t : ℕ) (free : ℕ → List ℕ) : ℕ → List ℕ :=
  Function.update free (sched t) (free (sched t) ++ [index t])

/-- `if (t->pending == 0)`: the element goes back. -/
def settle (t : ℕ) (s : State) : State :=
  if s.dio.pending t = 0 then
    { s with
      dio := { s.dio with inUse := Function.update s.dio.inUse t false }
      free := pushBack t s.free }
  else s

/-- The head of `start_async_load`, for the element at the back of the free list. -/
def take (p idx : ℕ) (slices : List AioReq) (s : State) : State :=
  { s with
    dio := { s.dio with
      inUse := Function.update s.dio.inUse (element p idx) true
      failed := Function.update s.dio.failed (element p idx) false
      pending := Function.update s.dio.pending (element p idx) 0 }.setCall .worker
        (.load (element p idx) slices)
    free := Function.update s.free p (s.free p).dropLast }

/-- One event of `drain_completions` before the count is tested. -/
def countDown (t i : ℕ) (rest : List ℕ) (s : State) : State :=
  { s with dio := { s.dio with
    polled := rest
    drained := i :: s.dio.drained
    failed := Function.update s.dio.failed t (s.dio.failed t || (s.dio.eng.reqs i).errorCode != 0)
    pending := Function.update s.dio.pending t (s.dio.pending t - 1) } }

section step

variable {A : Type*} (B : Backend A)

def step (s : State) : Action A → Option State
  | .engine a =>
      if onEngine a then (DioEngine.step B s.dio a).map fun d => { s with dio := d } else none
  | .setRunning p b => some { s with running := Function.update s.running p b }
  | .startLoad p slices =>
      if s.dio.calls .worker = .idle ∧ s.dio.polled = [] then
        match (s.free p).getLast? with
        | none => some s
        | some idx => some (take p idx slices s)
      else none
  | .noColumn =>
      match s.dio.calls .worker with
      | .load t (_ :: _) =>
          some { s with dio := { s.dio with
            failed := Function.update s.dio.failed t true }.setCall .worker (.load t []) }
      | _ => none
  | .loadReturn =>
      match s.dio.calls .worker with
      | .load t [] => some (settle t { s with dio := s.dio.setCall .worker .idle })
      | _ => none
  | .drain =>
      match s.dio.calls .worker, s.dio.polled with
      | .idle, i :: rest =>
          match (s.dio.eng.reqs i).userData with
          | .load t =>
              if s.running (sched t) then some (settle t (countDown t i rest s))
              -- the event of a pool that does not run is dropped
              else some { s with dio := { s.dio with polled := rest, taken := s.dio.taken ++ [i] } }
          -- `user_data` is no `async_load_t`
          | .other _ => none
      | _, _ => none

def initState (size : ℕ → ℕ) : State where
  dio := DioEngine.initState
  free p := List.range (size p)
  running _ := false

def machine (size : ℕ → ℕ) : Machine State (Action A) where
  init s := s = initState size
  step := step B

end step

end machine

section accounting

/-- The requests of a task that were submitted and not yet drained. -/
def undrained (d : DioEngine.State) (t : ℕ) : List ℕ :=
  d.eng.accepted.filter fun i => decide (d.eng.given i = .load t ∧ i ∉ d.drained)

/-- Inside `start_async_load`, or with requests under way. -/
def InFlight (d : DioEngine.State) (t : ℕ) : Prop :=
  (∃ todo, d.calls .worker = .load t todo) ∨ undrained d t ≠ []

/-- Every element is in the free list once or in flight. -/
structure Accounted (size : ℕ → ℕ) (s : State) : Prop where
  place : ∀ p idx, idx < size p →
    ((s.free p).count idx = 1 ∧ ¬ InFlight s.dio (element p idx)) ∨
      ((s.free p).count idx = 0 ∧ InFlight s.dio (element p idx))
  pending : ∀ t, s.dio.pending t = (undrained s.dio t).length
  inUse : ∀ p idx, idx < size p → (s.dio.inUse (element p idx) = true ↔ idx ∉ s.free p)

/-- What a step does to the free lists: only a load takes an element, one without requests under way, and an
element goes back at the end of a load that submitted nothing, or with its last request. -/
def Effect {A : Type*} (s s' : State) : Action A → Prop
  | .startLoad p _ =>
      (s.free p = [] ∧ s' = s) ∨
        ∃ idx, s.free p = s'.free p ++ [idx] ∧ undrained s.dio (element p idx) = [] ∧
          ∀ q, q ≠ p → s'.free q = s.free q
  | .loadReturn =>
      ∃ t, s.dio.calls .worker = .load t [] ∧ undrained s'.dio = undrained s.dio ∧
        s'.free = if undrained s.dio t = [] then pushBack t s.free else s.free
  | .drain =>
      ∃ i t rest, s.dio.polled = i :: rest ∧ s.dio.eng.given i = .load t ∧ i ∈ undrained s.dio t ∧
        if s.running (sched t) then
          undrained s'.dio = Function.update (undrained s.dio) t ((undrained s.dio t).erase i) ∧
            s'.free = if undrained s'.dio t = [] then pushBack t s.free else s.free
        else undrained s'.dio = undrained s.dio ∧ s'.free = s.free
  | _ => s'.free = s.free

end accounting

section ring

variable {size : ℕ → ℕ} {free : ℕ → List ℕ} {inUse : ℕ → Bool} {t p idx : ℕ}

/-- A ring that `load_in_use_` describes. -/
structure Ring (size : ℕ → ℕ) (free : ℕ → List ℕ) (inUse : ℕ → Bool) : Prop where
  nodup : ∀ p, (free p).Nodup
  range : ∀ p, ∀ idx ∈ free p, idx < size p
  agree : ∀ t, inUse t = true ↔ index t < size (sched t) ∧ index t ∉ free (sched t)

theorem ring_init : Ring size (fun p => List.range (size p)) fun _ => false where
  nodup _ := List.nodup_range
  range _ _ h := List.mem_range.mp h
  agree t := by simp

theorem eq_element (hp : sched t = p) (hidx : index t = idx) : t = element p idx := by
  rw [← hp, ← hidx, element_sched_index]

theorem Ring.take (h : Ring size free inUse) (hlast : (free p).getLast? = some idx) :
    Ring size (Function.update free p (free p).dropLast) (Function.update inUse (element p idx) true) := by
  obtain ⟨init, hfree⟩ := List.getLast?_eq_some_iff.mp hlast
  have hnodup := h.nodup p
  have hrange := h.range p
  rw [hfree] at hnodup hrange
  rw [hfree, List.dropLast_concat]
  have hfresh : idx ∉ init := fun hmem => (List.nodup_append.mp hnodup).2.2 idx hmem idx (by simp) rfl
  refine ⟨fun q => ?_, fun q i hi => ?_, fun t => ?_⟩
  · by_cases hq : q = p
    · subst hq
      rw [Function.update_self]
      exact (List.nodup_append.mp hnodup).1
    · rw [Function.update_of_ne hq]
      exact h.nodup q
  · by_cases hq : q = p
    · subst hq
      rw [Function.update_self] at hi
      exact hrange i (List.mem_append_left _ hi)
    · rw [Function.update_of_ne hq] at hi
      exact h.range q i hi
  · by_cases ht : t = element p idx
    · subst ht
      simpa [hfresh] using hrange idx (by simp)
    · rw [Function.update_of_ne ht, h.agree t]
      by_cases hp : sched t = p
      · have hidx : index t ≠ idx := fun hidx => ht (eq_element hp hidx)
        rw [hp, Function.update_self, hfree]
        simp [hidx]
      · rw [Function.update_of_ne hp]

theorem Ring.pushBack (h : Ring size free inUse) (huse : inUse t = true) :
    Ring size (pushBack t free) (Function.update inUse t false) := by
  obtain ⟨hlt, hfresh⟩ := (h.agree t).mp huse
  refine ⟨fun q => ?_, fun q i hi => ?_, fun u => ?_⟩
  · by_cases hq : q = sched t
    · subst hq
      rw [LoadRing.pushBack, Function.update_self]
      exact List.nodup_append.mpr ⟨h.nodup _, List.nodup_singleton _, fun a ha b hb hab => by
        rw [List.mem_singleton.mp hb] at hab
        exact hfresh (hab ▸ ha)⟩
    · rw [LoadRing.pushBack, Function.update_of_ne hq]
      exact h.nodup q
  · by_cases hq : q = sched t
    · subst hq
      rw [LoadRing.pushBack, Function.update_self] at hi
      rcases List.mem_append.mp hi with hi | hi
      · exact h.range _ i hi
      · rw [List.mem_singleton.mp hi]
        exact hlt
    · rw [LoadRing.pushBack, Function.update_of_ne hq] at hi
      exact h.range q i hi
  · by_cases hut : u = t
    · subst hut
      simp [LoadRing.pushBack]
    · rw [Function.update_of_ne hut, h.agree u, LoadRing.pushBack]
      by_cases hp : sched u = sched t
      · have hidx : index u ≠ index t := by
          intro hidx
          rw [eq_element hp hidx] at hut
          exact hut (Nat.pair_unpair t)
        rw [hp, Function.update_self]
        simp [hidx]
      · rw [Function.update_of_ne hp]

end ring

section requests

variable {d : DioEngine.State} {t i : ℕ}

theorem mem_undrained : i ∈ undrained d t ↔ i ∈ d.eng.accepted ∧ d.eng.given i = .load t ∧ i ∉ d.drained := by
  simp [undrained]

/-- A task counts its requests that were not drained. -/
theorem pending_eq (h : DioEngine.Inv d) (t : ℕ) : d.pending t = (undrained d t).length := by
  have hdrained : ofTask d.eng.given t d.drained =
      ofTask d.eng.given t (d.eng.accepted.filter fun i => decide (i ∈ d.drained)) := by
    refine List.Perm.countP_eq _ ?_
    refine (List.perm_ext_iff_of_nodup h.drained_nodup (h.eng.once.filter _)).mpr fun i => ?_
    rw [List.mem_filter, decide_eq_true_eq]
    exact ⟨fun hi => ⟨h.drained_sub hi, hi⟩, And.right⟩
  have hrest : (undrained d t).length =
      ofTask d.eng.given t (d.eng.accepted.filter fun i => !decide (i ∈ d.drained)) := by
    rw [ofTask, List.countP_filter, undrained, ← List.countP_eq_length_filter]
    simp
  have hsplit : ofTask d.eng.given t d.eng.accepted =
      ofTask d.eng.given t (d.eng.accepted.filter fun i => decide (i ∈ d.drained)) +
        ofTask d.eng.given t (d.eng.accepted.filter fun i => !decide (i ∈ d.drained)) := by
    have hboth := List.countP_eq_countP_filter_add d.eng.accepted
      (fun i => decide (d.eng.given i = .load t)) fun i => decide (i ∈ d.drained)
    simpa [ofTask] using hboth
  have hcounted := h.counted t
  omega

theorem undrained_nodup (h : DioEngine.Inv d) (t : ℕ) : (undrained d t).Nodup := h.eng.once.filter _

theorem pending_eq_zero (h : DioEngine.Inv d) : d.pending t = 0 ↔ undrained d t = [] := by
  rw [pending_eq h, Int.natCast_eq_zero, List.length_eq_zero_iff]

/-- An event of the worker's belongs to a request that was not drained. -/
theorem mem_undrained_of_polled (h : DioEngine.Inv d) {rest : List ℕ} (hpolled : d.polled = i :: rest)
    (hdata : (d.eng.reqs i).userData = .load t) : d.eng.given i = .load t ∧ i ∈ undrained d t := by
  have hi := h.dispatched i
  rw [hpolled, List.count_cons_self] at hi
  have hdelivered : i ∈ d.eng.delivered := List.count_pos_iff.mp (by omega)
  have hmem := h.eng.delivered_sub hdelivered
  have hgiven : d.eng.given i = .load t := by rw [← h.eng.own i (h.eng.fresh i hmem), hdata]
  have hle := List.nodup_iff_count_le_one.mp h.delivered_nodup i
  exact ⟨hgiven, mem_undrained.mpr ⟨hmem, hgiven, List.count_eq_zero.mp (by omega)⟩⟩

/-- Draining a request takes it from its own task alone. -/
theorem undrained_drain (h : DioEngine.Inv d) (hgiven : d.eng.given i = .load t) {d' : DioEngine.State}
    (heng : d'.eng = d.eng) (hdrained : d'.drained = i :: d.drained) :
    undrained d' = Function.update (undrained d) t ((undrained d t).erase i) := by
  funext u
  by_cases hut : u = t
  · subst hut
    rw [Function.update_self, (undrained_nodup h u).erase_eq_filter, undrained, undrained, List.filter_filter,
      heng, hdrained]
    refine List.filter_congr fun j _ => ?_
    by_cases hji : j = i <;> simp [hji]
  · rw [Function.update_of_ne hut, undrained, undrained, heng, hdrained]
    refine List.filter_congr fun j _ => ?_
    by_cases hj : d.eng.given j = .load u
    · have hne : j ≠ i := by
        rintro rfl
        rw [hgiven] at hj
        cases hj
        exact hut rfl
      simp [hj, hne]
    · simp [hj]

end requests

section invariant

variable {A : Type*} {B : Backend A} {size : ℕ → ℕ} {s s' : State} {d d' : DioEngine.State} {t : ℕ}

/-- Counting requests, or still submitting them. -/
def Busy (d : DioEngine.State) (t : ℕ) : Prop :=
  d.pending t ≠ 0 ∨ ∃ todo, d.calls .worker = .load t todo

theorem busy_iff (h : DioEngine.Inv d) : Busy d t ↔ InFlight d t := by
  rw [Busy, InFlight, Ne, pending_eq_zero h]
  exact or_comm

theorem Busy.inUse (hd : DioEngine.Inv d) (h : Busy d t) : d.inUse t = true := by
  rcases h with hpending | ⟨todo, hload⟩
  · by_contra hfree
    exact hpending (hd.resting t (Bool.not_eq_true _ ▸ hfree))
  · exact hd.loading t todo hload

theorem Busy.setCall {c : Caller} {k : Call} (hpending : d'.pending = d.pending) (hcalls : d'.calls = d.calls)
    (hcall : ∀ t todo, d.calls c ≠ .load t todo) (t : ℕ) (h : Busy d t) : Busy (d'.setCall c k) t := by
  rcases h with hpos | ⟨todo, hload⟩
  · left
    rw [← hpending] at hpos
    exact hpos
  · have hc : Caller.worker ≠ c := by
      rintro rfl
      exact hcall t todo hload
    exact .inr ⟨todo, by rw [setCall_calls_of_ne d' k hc, hcalls, hload]⟩

theorem engine_step {a : DioEngine.Action A} (ha : onEngine a = true)
    (hstep : DioEngine.step B d a = some d') : d'.inUse = d.inUse ∧ ∀ t, Busy d t → Busy d' t := by
  cases a with
  | startLoad t slices | loadReturn | drain => cases ha
  | submitBatch c reqs =>
    simp only [DioEngine.step] at hstep
    split at hstep
    · rename_i hidle
      cases hstep
      exact ⟨rfl, Busy.setCall rfl rfl (by simp [hidle.1])⟩
    · cases hstep
  | turn c answer =>
    simp only [DioEngine.step] at hstep
    split at hstep
    · rename_i hcall
      split at hstep <;> cases hstep
      · exact ⟨rfl, Busy.setCall rfl rfl (by simp [hcall])⟩
      · exact ⟨rfl, Busy.setCall rfl rfl (by simp [hcall])⟩
    · cases hstep
  | submitReturn c =>
    simp only [DioEngine.step] at hstep
    split at hstep
    · rename_i hcall
      cases hstep
      exact ⟨rfl, Busy.setCall rfl rfl (by simp [hcall])⟩
    · cases hstep
  | land i result =>
    simp only [DioEngine.step] at hstep
    split at hstep
    · cases hstep
      exact ⟨rfl, fun t h => h⟩
    · cases hstep
  | waitEvents c maxEvents minComplete =>
    simp only [DioEngine.step] at hstep
    split at hstep
    · rename_i hidle
      cases hstep
      exact ⟨rfl, Busy.setCall rfl rfl (by simp [hidle.1])⟩
    · cases hstep
  | fetch c k =>
    simp only [DioEngine.step] at hstep
    split at hstep
    · rename_i hcall
      have hsame : ∀ e : DioEngine.State, ∀ ids, (e.receive ids c).inUse = e.inUse ∧
          (e.receive ids c).pending = e.pending ∧ (e.receive ids c).calls = e.calls := by
        cases c <;> exact fun _ _ => ⟨rfl, rfl, rfl⟩
      obtain ⟨huse, hpending, hcalls⟩ := hsame { d with eng := d.eng.fetch k } ((d.eng.queue.take k).map Prod.fst)
      split at hstep
      · split at hstep <;> cases hstep
        · exact ⟨huse, Busy.setCall hpending hcalls (by simp [hcall])⟩
        · exact ⟨huse, Busy.setCall hpending hcalls (by simp [hcall])⟩
      · cases hstep
    · cases hstep
  | waitReturn c =>
    simp only [DioEngine.step] at hstep
    split at hstep
    · rename_i hcall
      split at hstep
      · cases hstep
        exact ⟨rfl, Busy.setCall rfl rfl (by simp [hcall])⟩
      · cases hstep
    · cases hstep
  | submitSlice answer =>
    simp only [DioEngine.step] at hstep
    split at hstep
    · rename_i u r todo hcall
      cases hstep
      have hload : ∃ todo', (DioEngine.submitSlice B u r todo answer d).calls .worker = .load u todo' := by
        unfold DioEngine.submitSlice
        dsimp only
        split <;> exact ⟨_, setCall_calls_self ..⟩
      have hother : ∀ t, t ≠ u → (DioEngine.submitSlice B u r todo answer d).pending t = d.pending t := by
        intro t htu
        unfold DioEngine.submitSlice
        dsimp only
        split
        · exact Function.update_of_ne htu ..
        · rfl
      refine ⟨?_, fun t h => ?_⟩
      · unfold DioEngine.submitSlice
        dsimp only
        split <;> rfl
      · by_cases htu : t = u
        · exact .inr (htu ▸ hload)
        · rcases h with hpos | ⟨todo', hsame⟩
          · left
            rwa [hother t htu]
          · rw [hcall] at hsame
            cases hsame
            exact absurd rfl htu
    · cases hstep

structure Inv (size : ℕ → ℕ) (s : State) : Prop where
  dio : DioEngine.Inv s.dio
  ring : Ring size s.free s.dio.inUse
  busy : ∀ t, s.dio.inUse t = true → Busy s.dio t

theorem inv_init : Inv size (initState size) where
  dio := DioEngine.inv_init
  ring := ring_init
  busy _ h := absurd h Bool.false_ne_true

theorem settle_zero (h : s.dio.pending t = 0) : settle t s =
    { s with
      dio := { s.dio with inUse := Function.update s.dio.inUse t false }
      free := pushBack t s.free } := if_pos h

theorem settle_of_ne (h : s.dio.pending t ≠ 0) : settle t s = s := if_neg h

theorem settle_dio (huse : s.dio.inUse t = true) : (settle t s).dio =
    { s.dio with inUse := Function.update s.dio.inUse t (s.dio.pending t != 0) } := by
  by_cases hzero : s.dio.pending t = 0
  · rw [settle_zero hzero, hzero]
    rfl
  · have hsame : Function.update s.dio.inUse t (s.dio.pending t != 0) = s.dio.inUse := by
      rw [Function.update_eq_self_iff, huse]
      simpa using hzero
    rw [settle_of_ne hzero, hsame]

theorem settle_free (t : ℕ) (s : State) :
    (settle t s).free = if s.dio.pending t = 0 then pushBack t s.free else s.free := by
  unfold settle
  split <;> rfl

theorem settle_pending (t : ℕ) (s : State) : (settle t s).dio.pending = s.dio.pending := by
  unfold settle
  split <;> rfl

theorem settle_undrained (t : ℕ) (s : State) : undrained (settle t s).dio = undrained s.dio := by
  unfold settle
  split <;> rfl

/-- The element whose count is tested goes back or goes on counting. -/
theorem Inv.settle (hring : Ring size s.free s.dio.inUse) (huse : s.dio.inUse t = true)
    (hbusy : ∀ u, u ≠ t → s.dio.inUse u = true → Busy s.dio u) (hdio : DioEngine.Inv (settle t s).dio) :
    Inv size (settle t s) := by
  by_cases hzero : s.dio.pending t = 0
  · rw [settle_zero hzero] at hdio ⊢
    refine ⟨hdio, hring.pushBack huse, fun u hu => ?_⟩
    dsimp only at hu
    by_cases hut : u = t
    · rw [hut, Function.update_self] at hu
      cases hu
    · rw [Function.update_of_ne hut] at hu
      exact hbusy u hut hu
  · rw [settle_of_ne hzero] at hdio ⊢
    refine ⟨hdio, hring, fun u hu => ?_⟩
    by_cases hut : u = t
    · rw [hut]
      exact .inl hzero
    · exact hbusy u hut hu

/-- The head of `start_async_load` is that of a load of a task not in use. -/
theorem Inv.take (h : Inv size s) (hidle : s.dio.calls .worker = .idle) (hpolled : s.dio.polled = [])
    {p idx : ℕ} (hlast : (s.free p).getLast? = some idx) (slices : List AioReq) :
    Inv size (take p idx slices s) := by
  have hmem : idx ∈ s.free p := List.mem_of_getLast? hlast
  have hfree : s.dio.inUse (element p idx) = false := by
    rw [← Bool.not_eq_true, h.ring.agree]
    simp [hmem]
  have hstep : DioEngine.step (A := PreadAnswer) posix s.dio (.startLoad (element p idx) slices) =
      some (LoadRing.take p idx slices s).dio := if_pos ⟨hidle, hpolled, hfree⟩
  refine ⟨h.dio.step _ hstep, h.ring.take hlast, fun t ht => ?_⟩
  by_cases hte : t = element p idx
  · right
    exact ⟨slices, by rw [hte]; exact setCall_calls_self ..⟩
  · have hpos : s.dio.pending t ≠ 0 := by
      have ht' : s.dio.inUse t = true := (Function.update_of_ne hte ..).symm.trans ht
      rcases h.busy t ht' with hpos | ⟨todo, hload⟩
      · exact hpos
      · rw [hidle] at hload
        cases hload
    have hsame : (LoadRing.take p idx slices s).dio.pending t = s.dio.pending t := Function.update_of_ne hte ..
    rw [← hsame] at hpos
    exact .inl hpos

/-- The end of `start_async_load`. -/
theorem Inv.loadReturn (h : Inv size s) (hcall : s.dio.calls .worker = .load t []) :
    Inv size (LoadRing.settle t { s with dio := s.dio.setCall .worker .idle }) := by
  have huse := h.dio.loading t [] hcall
  refine Inv.settle h.ring huse (fun u hut hu => ?_) ?_
  · rcases h.busy u hu with hpos | ⟨todo, hload⟩
    · exact .inl hpos
    · rw [hcall] at hload
      cases hload
      exact absurd rfl hut
  · have hstep : DioEngine.step (A := PreadAnswer) posix s.dio .loadReturn =
        some (LoadRing.settle t { s with dio := s.dio.setCall .worker .idle }).dio := by
      rw [settle_dio (s := { s with dio := s.dio.setCall .worker .idle }) huse]
      simp only [DioEngine.step, hcall]
      rfl
    exact h.dio.step _ hstep

/-- An event of a running pool. -/
theorem Inv.drain (h : Inv size s) (hidle : s.dio.calls .worker = .idle) {i : ℕ} {rest : List ℕ}
    (hpolled : s.dio.polled = i :: rest) (hdata : (s.dio.eng.reqs i).userData = .load t) :
    Inv size (LoadRing.settle t (countDown t i rest s)) := by
  obtain ⟨hgiven, hmem⟩ := mem_undrained_of_polled h.dio hpolled hdata
  have hflight : InFlight s.dio t := .inr (List.ne_nil_of_mem hmem)
  have huse : s.dio.inUse t = true := ((busy_iff h.dio).mpr hflight).inUse h.dio
  refine Inv.settle h.ring huse (fun u hut hu => ?_) ?_
  · rcases h.busy u hu with hpos | ⟨todo, hload⟩
    · have hsame : (countDown t i rest s).dio.pending u = s.dio.pending u := Function.update_of_ne hut ..
      rw [← hsame] at hpos
      exact .inl hpos
    · rw [hidle] at hload
      cases hload
  · have hstep : DioEngine.step (A := PreadAnswer) posix s.dio .drain =
        some (LoadRing.settle t (countDown t i rest s)).dio := by
      rw [settle_dio (s := countDown t i rest s) huse]
      simp only [DioEngine.step, hidle, hpolled, hdata]
      simp [countDown, drainEvent]
    exact h.dio.step _ hstep

/-- An event of a pool that does not run. -/
theorem inv_drop (h : DioEngine.Inv d) {i : ℕ} {rest : List ℕ} (hpolled : d.polled = i :: rest) :
    DioEngine.Inv { d with polled := rest, taken := d.taken ++ [i] } := by
  refine ⟨h.eng, h.returns, h.foreign, fun j => ?_, h.counted, h.resting, h.loading⟩
  have hj := h.dispatched j
  rw [hpolled, List.count_cons] at hj
  dsimp only
  rw [List.count_append, List.count_singleton, hj]
  omega

theorem Inv.step (h : Inv size s) (a : Action A) (hstep : step B s a = some s') : Inv size s' := by
  cases a with
  | engine a =>
    simp only [LoadRing.step] at hstep
    split at hstep
    · rename_i ha
      obtain ⟨d, hd, rfl⟩ := Option.map_eq_some_iff.mp hstep
      obtain ⟨huse, hbusy⟩ := engine_step ha hd
      refine ⟨h.dio.step a hd, huse.symm ▸ h.ring, fun t ht => hbusy t (h.busy t ?_)⟩
      rw [← huse]
      exact ht
    · cases hstep
  | setRunning p b =>
    cases hstep
    exact ⟨h.dio, h.ring, h.busy⟩
  | startLoad p slices =>
    simp only [LoadRing.step] at hstep
    split at hstep
    · rename_i hguard
      split at hstep
      · cases hstep
        exact h
      · rename_i hlast
        cases hstep
        exact h.take hguard.1 hguard.2 hlast slices
    · cases hstep
  | noColumn =>
    simp only [LoadRing.step] at hstep
    split at hstep
    · rename_i t r todo hcall
      cases hstep
      have hfailed : DioEngine.Inv { s.dio with failed := Function.update s.dio.failed t true } :=
        ⟨h.dio.eng, h.dio.returns, h.dio.foreign, h.dio.dispatched, h.dio.counted, h.dio.resting, h.dio.loading⟩
      refine ⟨?_, h.ring, fun u hu => ?_⟩
      · refine hfailed.setCall .worker (fun _ _ _ hk => by cases hk) fun u todo' hk => ?_
        cases hk
        exact h.dio.loading t _ hcall
      · rcases h.busy u hu with hpos | ⟨todo', hload⟩
        · exact .inl hpos
        · rw [hcall] at hload
          cases hload
          exact .inr ⟨[], setCall_calls_self ..⟩
    · cases hstep
  | loadReturn =>
    simp only [LoadRing.step] at hstep
    split at hstep
    · rename_i t hcall
      cases hstep
      exact h.loadReturn hcall
    · cases hstep
  | drain =>
    simp only [LoadRing.step] at hstep
    split at hstep
    · rename_i i rest hidle hpolled
      split at hstep
      · rename_i t hdata
        split at hstep
        · cases hstep
          exact h.drain hidle hpolled hdata
        · cases hstep
          exact ⟨inv_drop h.dio hpolled, h.ring, h.busy⟩
      · cases hstep
    · cases hstep

theorem inv_of_reach {guard : State → Action A → Prop} (h : Reach (machine B size) guard s) : Inv size s :=
  h.invariant (fun _ hinit => by rw [hinit]; exact inv_init) fun _ a _ hinv _ hstep => hinv.step a hstep

theorem Inv.accounted (h : Inv size s) : Accounted size s where
  place p idx hlt := by
    have hagree := h.ring.agree (element p idx)
    rw [sched_element, index_element] at hagree
    by_cases hmem : idx ∈ s.free p
    · refine .inl ⟨List.count_eq_one_of_mem (h.ring.nodup p) hmem, fun hflight => ?_⟩
      have huse := ((busy_iff h.dio).mpr hflight).inUse h.dio
      exact (hagree.mp huse).2 hmem
    · exact .inr ⟨List.count_eq_zero.mpr hmem, (busy_iff h.dio).mp (h.busy _ (hagree.mpr ⟨hlt, hmem⟩))⟩
  pending := pending_eq h.dio
  inUse p idx hlt := by
    rw [h.ring.agree, sched_element, index_element]
    exact and_iff_right hlt

theorem Inv.effect (h : Inv size s) (a : Action A) (hstep : LoadRing.step B s a = some s') : Effect s s' a := by
  cases a with
  | engine a =>
    simp only [LoadRing.step] at hstep
    split at hstep
    · obtain ⟨d, _, rfl⟩ := Option.map_eq_some_iff.mp hstep
      rfl
    · cases hstep
  | setRunning p b =>
    cases hstep
    rfl
  | startLoad p slices =>
    simp only [LoadRing.step] at hstep
    split at hstep
    · split at hstep
      · rename_i hnone
        cases hstep
        exact .inl ⟨List.getLast?_eq_none_iff.mp hnone, rfl⟩
      · rename_i idx hlast
        cases hstep
        obtain ⟨init, hfree⟩ := List.getLast?_eq_some_iff.mp hlast
        have hmem : idx ∈ s.free p := List.mem_of_getLast? hlast
        refine .inr ⟨idx, ?_, ?_, fun q hq => Function.update_of_ne hq ..⟩
        · have hpopped : (LoadRing.take p idx slices s).free p = (s.free p).dropLast := Function.update_self ..
          rw [hpopped, hfree, List.dropLast_concat]
        · by_contra hne
          have huse := ((busy_iff h.dio).mpr (.inr hne)).inUse h.dio
          rw [h.ring.agree, sched_element, index_element] at huse
          exact huse.2 hmem
    · cases hstep
  | noColumn =>
    simp only [LoadRing.step] at hstep
    split at hstep
    · cases hstep
      rfl
    · cases hstep
  | loadReturn =>
    simp only [LoadRing.step] at hstep
    split at hstep
    · rename_i t hcall
      cases hstep
      refine ⟨t, hcall, ?_, ?_⟩
      · rw [settle_undrained]
        rfl
      · rw [settle_free]
        simp only [← pending_eq_zero h.dio]
        rfl
    · cases hstep
  | drain =>
    simp only [LoadRing.step] at hstep
    split at hstep
    · rename_i i rest hidle hpolled
      split at hstep
      · rename_i t hdata
        obtain ⟨hgiven, hmem⟩ := mem_undrained_of_polled h.dio hpolled hdata
        refine ⟨i, t, rest, hpolled, hgiven, hmem, ?_⟩
        split at hstep
        · rename_i hrunning
          cases hstep
          rw [if_pos hrunning]
          refine ⟨?_, ?_⟩
          · rw [settle_undrained]
            exact undrained_drain h.dio hgiven rfl rfl
          · have hzero := pending_eq_zero (t := t) (h.drain hidle hpolled hdata).dio
            rw [settle_pending] at hzero
            simp only [settle_free, hzero]
            rfl
        · rename_i hstopped
          cases hstep
          rw [if_neg hstopped]
          exact ⟨rfl, rfl⟩
      · cases hstep
    · cases hstep

/-- In every reachable state the rings are accounted for, and every step takes and gives back elements as it
should, whatever the slices, the answers of the system, the order of the events and the other callers. -/
theorem load_ring_accounted {A : Type*} (B : Backend A) (size : ℕ → ℕ) {s : State}
    (h : Reach (machine B size) anyStep s) :
    Accounted size s ∧ ∀ a s', step B s a = some s' → Effect s s' a :=
  ⟨(inv_of_reach h).accounted, fun a _ hstep => (inv_of_reach h).effect a hstep⟩

/-- A load of two slices on a ring of two elements: the second slice is refused, the first one is read, polled
and drained. -/
def refusedSlice : List (Action PreadAnswer) :=
  [.setRunning 0 true, .startLoad 0 [sliceReq 4096, sliceReq 4096], .engine (.submitSlice (.bytes 4096)),
    .engine (.submitSlice (.errno 5)), .loadReturn, .engine (.waitEvents .worker 64 0),
    .engine (.fetch .worker 1), .engine (.waitReturn .worker)]

/-- The element stays in flight behind `start_async_load` and goes back with its one request. -/
theorem load_ring_accounted_refusedSlice :
    ∃ s s', run (machine posix fun _ => 2) refusedSlice (initState fun _ => 2) = some s ∧
      s.free 0 = [0] ∧ s.dio.pending (element 0 1) = 1 ∧ step posix s .drain = some s' ∧
      s'.free 0 = [0, 1] ∧ Effect s s' (Action.drain (A := PreadAnswer)) ∧ Accounted (fun _ => 2) s' := by
  have hreach : Reach (machine posix fun _ => 2) anyStep _ :=
    Reach.run_of_forall refusedSlice (fun _ _ _ => trivial) (.init rfl) rfl
  have heffect := (load_ring_accounted posix (fun _ => 2) hreach).2 .drain _ rfl
  have hdrained := Reach.step (a := Action.drain) hreach trivial rfl
  exact ⟨_, _, rfl, rfl, rfl, rfl, rfl, heffect, (load_ring_accounted posix (fun _ => 2) hdrained).1⟩

end invariant

end LoadRing
end StreamMoE
