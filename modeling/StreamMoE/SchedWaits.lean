import StreamMoE.SchedRuns
import StreamMoE.ThreadPair

/-! The accesses of the scheduler thread. It may wait for a report of a device, or in the drain loop of
`evict` for the pins of a slot that is EVICTING, and only `drain_moves` takes finished moves. -/
namespace StreamMoE
namespace SchedRuns

open AtomicProg SlotWord SchedConfig PoolGeometry Sched

def Evicting (s : Sys) (i : ℕ) : Prop := slotWordState (s.word i) = SlotState.evicting.code

def StaysEvicting (s t : Sys) : Prop := ∀ i, Evicting s i → Evicting t i

/-- An access that never waits and takes no finished move, the drain loop of a slot that is EVICTING,
or one that takes a report. -/
inductive Access : (Sys → Option Sys) → Sys → Prop
  | plain (f : Sys → Sys) (s) : (∀ t, (f t).moveDone = t.moveDone) → Access (fun t => some (f t)) s
  | drain (i s) : Evicting s i →
      Access (fun t => if slotWordRefcount (t.word i) == 0 then some t else none) s
  | take (idx ok s) : Access (fun t => t.takeEvent idx ok) s

/-- One of these, or the head of `drain_moves`. -/
def AccessOrPop (f : Sys → Option Sys) (s : Sys) : Prop :=
  Access f s ∨ f = fun t => some t.popMove

/-- The program makes no other access. -/
def Plain {α : Type} (p : Prog Sys α) : Prop := MakesOnly StaysEvicting Access p

/-- The access takes a report, or a slot is EVICTING with pins out. -/
def MayWait (f : Sys → Option Sys) (s : Sys) : Prop :=
  (∃ idx ok, f = fun s => s.takeEvent idx ok) ∨
    ∃ i, Evicting s i ∧ slotWordRefcount (s.word i) ≠ 0

theorem AccessOrPop.mayWait {f : Sys → Option Sys} {s : Sys} (h : AccessOrPop f s)
    (hf : f s = none) : MayWait f s := by
  rcases h with h | rfl
  · cases h with
    | plain f => cases hf
    | drain i _ hev => exact .inr ⟨i, hev, by simpa using hf⟩
    | take idx ok => exact .inl ⟨idx, ok, rfl⟩
  · cases hf

theorem Access.moveDone {f : Sys → Option Sys} {s t : Sys} (h : Access f s) (hf : f s = some t) :
    t.moveDone = s.moveDone := by
  cases h with
  | plain f _ hsame =>
    cases hf
    exact hsame s
  | drain i =>
    dsimp only at hf
    split at hf <;> cases hf
    rfl
  | take idx ok =>
    obtain ⟨_, rfl⟩ := takeEvent_eq hf
    rfl

section words

variable {s s' : Sys} {i : ℕ}

theorem reads_evicting (h : Evicting s i) :
    Reads (s.word i) .evicting (slotWordRefcount (s.word i)) (slotWordGeneration (s.word i)) :=
  ⟨h, rfl, rfl⟩

theorem tryPin_none_of_evicting (h : Evicting s i) : SlotWord.tryPin (s.word i) = none := by
  rcases (reads_evicting h).tryPin with ⟨_, _, hready, _⟩ | ⟨hnone, _⟩
  · cases hready
  · exact hnone

theorem tryPin_word_of_evicting (h : Evicting s i) (b : Holder) (j : ℕ) :
    (s.tryPin b j).word i = s.word i := by
  unfold Sys.tryPin
  split
  · rfl
  · rename_i w hw
    have hij : i ≠ j := by
      rintro rfl
      rw [tryPin_none_of_evicting h] at hw
      cases hw
    exact Function.update_of_ne hij ..

theorem evicting_beginEvict (h : ¬ (SlotWord.beginEvict (s.word i)).isNone = true) :
    Evicting (s.beginEvict i) i := by
  have hready : slotWordState (s.word i) = SlotState.ready.code := by
    by_contra hne
    rw [SlotWord.beginEvict, if_neg hne] at h
    exact h rfl
  have hreads : Reads (s.word i) .ready (slotWordRefcount (s.word i))
      (slotWordGeneration (s.word i)) := ⟨hready, rfl, rfl⟩
  obtain ⟨w, hw, hr⟩ := hreads.beginEvict
  simp only [Evicting, Sys.beginEvict, hw, Sys.setWord, Function.update_self]
  exact hr.state

theorem unpin_evicting (h : Evicting s i) (j : ℕ)
    (hword : s'.word = Function.update s.word j (SlotWord.unpin (s.word j))) : Evicting s' i := by
  rw [Evicting, hword]
  by_cases hij : i = j
  · subst hij
    rw [Function.update_self]
    exact (reads_evicting h).unpin.state
  · rw [Function.update_of_ne hij]
    exact h

theorem StaysEvicting.of_word (h : s'.word = s.word) : StaysEvicting s s' := by
  intro i hi
  rw [Evicting, h]
  exact hi

theorem staysEvicting_env {a : EnvAct} (ha : envStep s a = some s') : StaysEvicting s s' := by
  intro i hi
  cases a with
  | tryPin b j =>
    simp only [envStep] at ha
    split at ha
    · cases ha
    · cases ha
      rw [Evicting, tryPin_word_of_evicting hi]
      exact hi
  | unpin b j =>
    simp only [envStep] at ha
    split at ha
    · cases ha
      exact unpin_evicting hi j rfl
    · cases ha
  | strayUnpin j =>
    cases ha
    exact unpin_evicting hi j rfl
  | push _ | land _ | takeMove | copyMove | finishMove =>
    simp only [envStep] at ha
    split at ha <;> cases ha
    exact hi
  | nextToken | touch _ _ _ | resetBatch _ =>
    cases ha
    exact hi

theorem StaysEvicting.relies (h : Relation.ReflTransGen StaysEvicting s s') : StaysEvicting s s' := by
  induction h with
  | refl => exact fun _ hi => hi
  | tail _ hstep ih => exact fun i hi => hstep i (ih i hi)

end words

section programs

variable {C : Config} {o : Oracle} {α : Type}

theorem plain_get {q : Sys → Prog Sys α} (hq : ∀ s, Plain (q s)) : Plain (Prog.get.bind q) :=
  makesOnly_get (fun t => .plain id t fun _ => rfl) hq

theorem plain_modify {f : Sys → Sys} {q : Unit → Prog Sys α}
    (hf : ∀ t, (f t).moveDone = t.moveDone) (hq : Plain (q ())) :
    Plain ((Prog.modify f).bind q) := makesOnly_modify (fun t => .plain f t hf) hq

theorem plain_getModify {f : Sys → Sys} {q : Sys → Prog Sys α}
    (hf : ∀ t, (f t).moveDone = t.moveDone) (hq : ∀ s, Plain (q s)) :
    Plain ((Prog.getModify f).bind q) := makesOnly_getModify (fun t => .plain f t hf) hq

theorem plain_modifyLast {f : Sys → Sys} (hf : ∀ t, (f t).moveDone = t.moveDone) :
    Plain (Prog.modify f) := makesOnly_modifyLast fun t => .plain f t hf

theorem beginEvict_moveDone (s : Sys) (i : ℕ) : (s.beginEvict i).moveDone = s.moveDone := by
  unfold Sys.beginEvict
  split <;> rfl

theorem startLoad_moveDone (accept : ℕ → Bool) (i layer expert : ℕ) (s : Sys) :
    (startLoad C accept i layer expert s).moveDone = s.moveDone := by
  unfold startLoad
  split
  · rfl
  · dsimp only
    split <;> rfl

theorem plain_findEmpty (n i : ℕ) : Plain (findEmpty n i) := by
  induction n generalizing i with
  | zero => exact makesOnly_ret none
  | succ n ih =>
    refine plain_get ?_
    intro s
    split
    · exact makesOnly_ret _
    · exact ih (i + 1)

theorem plain_searchLayer (cur : ℕ) (sp : Subpool) (pool : ℕ) (fresh : Bool) (layer : ℕ)
    (es : List ℕ) (best : Option (Rat × ℕ × ℕ)) :
    Plain (searchLayer o cur sp pool fresh layer es best) := by
  induction es generalizing best with
  | nil => exact makesOnly_ret _
  | cons e es ih =>
    refine plain_get ?_
    intro s
    split
    · exact ih best
    · dsimp only
      split
      · exact ih _
      · exact ih best

theorem plain_searchRing (n cur : ℕ) (sp : Subpool) (pool : ℕ) (fresh : Bool) (layers : List ℕ) :
    Plain (searchRing o n cur sp pool fresh layers) := by
  induction layers with
  | nil => exact makesOnly_ret none
  | cons layer layers ih =>
    refine (plain_searchLayer cur sp pool fresh layer _ none).bind ?_
    intro r
    cases r with
    | none => exact ih
    | some v => exact makesOnly_ret _

theorem plain_findVictim (sp : Subpool) (gidx layer pool : ℕ) :
    Plain (findVictim C o sp gidx layer pool) := by
  refine plain_get ?_
  intro s
  split
  · exact makesOnly_ret none
  · refine (plain_searchRing _ _ sp pool false _).bind ?_
    intro r
    cases r with
    | none => exact plain_searchRing _ _ sp pool true _
    | some v => exact makesOnly_ret _

theorem plain_submitMove (m : MoveTask) : Plain (submitMove C m) := by
  unfold submitMove
  split
  · exact plain_modify (fun _ => rfl) (makesOnly_ret true)
  · exact makesOnly_ret false

variable {reserve : ℕ → ℕ → Prog Sys (Option ℕ)}

theorem plain_demote (hres : ∀ l e, Plain (reserve l e)) (sp : Subpool) (v l e : ℕ) :
    Plain (demote C reserve sp v l e) := by
  unfold demote
  split
  · exact makesOnly_ret false
  · split
    · refine (hres l e).bind ?_
      intro r
      cases r with
      | none => exact makesOnly_ret false
      | some dst =>
        refine (plain_submitMove _).bind ?_
        intro ok
        cases ok with
        | true => exact plain_modify (fun _ => rfl) (makesOnly_ret true)
        | false => exact plain_modify (fun _ => rfl) (plain_modify (fun _ => rfl) (makesOnly_ret false))
    · exact makesOnly_ret false

/-- The slot of the drain loop is EVICTING since the compare-and-swap. -/
theorem plain_evict (hres : ∀ l e, Plain (reserve l e)) (sp : Subpool)
    (layer expert v l e : ℕ) : Plain (evict C reserve sp layer expert v l e) := by
  have hrest : ∀ moved : Bool, Plain
      (if moved then Prog.ret none
      else do
        Prog.modify fun s => s.beginReload v
        transition ⟨layer, expert, sp.pool⟩ .loading (some v)
        Prog.ret (some v)) := by
    intro moved
    cases moved with
    | true => exact makesOnly_ret none
    | false => exact plain_modify (fun _ => rfl) (plain_modify (fun _ => rfl) (makesOnly_ret _))
  intro s
  refine Makes.getModify (fun t => .plain _ t fun u => beginEvict_moveDone u v) ?_
  intro t _
  split
  · exact makesOnly_ret none _
  · rename_i hsome
    have hev : Evicting (t.beginEvict v) v := evicting_beginEvict hsome
    refine Makes.modify (fun t => .plain _ t fun _ => rfl) ?_
    intro t₁ ht₁
    have hev₁ : Evicting t₁ v := StaysEvicting.relies ht₁ v hev
    refine Makes.await ?_ ?_
    · intro t₂ ht₂
      exact .drain v t₂ (StaysEvicting.relies ht₂ v hev₁)
    · dsimp only
      split
      · exact hrest false
      · exact (plain_demote hres sp v l e).bind hrest

theorem plain_allocWith (hres : ∀ l e, Plain (reserve l e)) (layer expert pool : ℕ) :
    Plain (allocWith C o reserve layer expert pool) := by
  unfold allocWith
  split
  · exact makesOnly_ret none
  · split
    · exact makesOnly_ret none
    · refine (plain_findEmpty _ _).bind ?_
      intro r
      cases r with
      | some i => exact plain_modify (fun _ => rfl) (plain_modify (fun _ => rfl) (makesOnly_ret _))
      | none =>
        refine (plain_findVictim _ _ layer pool).bind ?_
        intro v
        cases v with
        | none => exact makesOnly_ret none
        | some v => exact plain_evict hres _ layer expert v.1 v.2.1 v.2.2

theorem plain_allocOrEvict (layer expert pool : ℕ) :
    Plain (allocOrEvict C o layer expert pool) := by
  refine plain_allocWith ?_ layer expert pool
  intro l e
  exact plain_allocWith (fun _ _ => makesOnly_ret none) l e 0

theorem plain_allocFor (gidx layer expert : ℕ) : Plain (allocFor C o gidx layer expert) := by
  unfold allocFor
  split
  · exact plain_allocOrEvict layer expert 0
  · refine (plain_allocOrEvict layer expert _).bind fun slot => ?_
    cases slot with
    | none => exact plain_allocOrEvict layer expert 0
    | some i => exact makesOnly_ret _

theorem plain_startAsyncLoad (i layer expert : ℕ) :
    Plain (startAsyncLoad C o i layer expert) :=
  plain_getModify (startLoad_moveDone _ i layer expert) fun _ => makesOnly_ret _

theorem plain_unpinAll (is : List ℕ) : Plain (unpinAll C is) := by
  induction is with
  | nil => exact makesOnly_ret ()
  | cons i is ih =>
    refine plain_modify ?_ ih
    intro t
    split <;> rfl

theorem plain_activeFail : Plain (activeFail C) := by
  refine plain_get ?_
  intro s
  exact (plain_unpinAll _).bind fun _ =>
    plain_modifyLast fun t => (sameSlots_failBatch t).1.moveDone

theorem plain_activeSettle (layer expert i : ℕ) : Plain (activeSettle C layer expert i) := by
  refine plain_get ?_
  intro s
  split
  · refine plain_getModify (fun t => (sameSlots_settleStep t expert i).moveDone) ?_
    intro t
    split
    · exact plain_activeFail
    · refine plain_modifyLast ?_
      intro u
      have hbump := (sameSlots_bumpBatch u C.topo.nExpert).1.moveDone
      split <;> exact hbump
  · exact makesOnly_ret ()

theorem plain_triage (es : List ℕ) : Plain (triage C es) := by
  induction es with
  | nil => exact makesOnly_ret true
  | cons e es ih =>
    refine plain_get ?_
    intro s
    split
    · split
      · exact ih
      · refine plain_get ?_
        intro t
        split
        · exact ih
        · refine plain_getModify (fun u => (sameSlots_settleStep u e _).moveDone) ?_
          intro u
          split
          · exact ih
          · split
            · exact plain_activeFail.bind fun _ => makesOnly_ret false
            · exact plain_modify (fun v => (sameSlots_bumpBatch v _).1.moveDone) ih
    · exact ih

theorem plain_activeRegister (r : Request) : Plain (activeRegister C r) := by
  refine plain_modify (fun _ => rfl) ((plain_triage _).bind ?_)
  intro ok
  cases ok with
  | true =>
    refine plain_modifyLast ?_
    intro t
    split <;> rfl
  | false => exact makesOnly_ret ()

theorem plain_serveLoop (es : List ℕ) (started noSlot : Bool) :
    Plain (serveLoop C o es started noSlot) := by
  induction es generalizing started noSlot with
  | nil => exact makesOnly_ret _
  | cons e es ih =>
    refine plain_get ?_
    intro s
    split
    · exact ih started noSlot
    · split
      · exact makesOnly_ret _
      · split
        · exact plain_activeFail.bind fun _ => makesOnly_ret none
        · split
          · split
            · exact ih started noSlot
            · exact (plain_activeSettle _ e _).bind fun _ => ih started noSlot
          · split
            · exact ih started noSlot
            · refine (plain_allocFor _ _ e).bind ?_
              intro r
              cases r with
              | none => exact ih started true
              | some i =>
                refine (plain_startAsyncLoad i _ e).bind ?_
                intro idx
                cases idx with
                | none => exact plain_modify (fun _ => rfl) (makesOnly_ret _)
                | some idx => exact ih true noSlot

theorem plain_checkStall (started noSlot : Bool) : Plain (checkStall C o started noSlot) := by
  refine plain_get ?_
  intro s
  split
  · exact plain_modify (fun _ => rfl) (makesOnly_ret _)
  · split
    · exact makesOnly_ret _
    · split
      · exact plain_modify (fun _ => rfl) (makesOnly_ret _)
      · split
        · exact plain_activeFail.bind fun _ => makesOnly_ret true
        · exact makesOnly_ret _

theorem plain_acceptRequests : Plain (acceptRequests C o) := by
  refine plain_get ?_
  intro s
  split
  · refine (plain_serveLoop _ false false).bind ?_
    intro r
    cases r with
    | none => exact makesOnly_ret true
    | some r => exact plain_checkStall r.1 r.2
  · refine plain_getModify (fun _ => rfl) ?_
    intro t
    split
    · exact makesOnly_ret false
    · refine (plain_activeRegister _).bind ?_
      intro _
      exact (plain_serveLoop _ false false).bind fun _ => makesOnly_ret true

theorem plain_finishLoad (t : LoadTask) (failed : Bool) : Plain (finishLoad t failed) := by
  unfold finishLoad
  split <;> exact plain_modify (fun _ => rfl) (plain_modifyLast fun _ => rfl)

theorem plain_reportActive (t : LoadTask) (failed : Bool) :
    Plain (reportActive C t failed) := by
  refine plain_get ?_
  intro s
  split
  · split
    · exact plain_activeFail
    · exact plain_activeSettle _ _ _
  · exact makesOnly_ret ()

theorem plain_drainCompletion (idx : ℕ) (ok : Bool) : Plain (drainCompletion C idx ok) := by
  refine makesOnly_act (fun t => .take idx ok t) ?_
  intro s
  dsimp only
  rw [ret_bind]
  split
  · refine (plain_finishLoad _ _).bind ?_
    intro _
    exact (plain_reportActive _ _).bind fun _ => plain_modifyLast fun _ => rfl
  · exact makesOnly_ret ()

theorem plain_drainCompletions (done : List (ℕ × Bool)) :
    Plain (drainCompletions C done) := by
  induction done with
  | nil => exact makesOnly_ret ()
  | cons d done ih => exact (plain_drainCompletion d.1 d.2).bind fun _ => ih

/-- Every operation of the scheduler thread but `drain_moves`. -/
theorem plain_call {c : Call} (hc : ∀ n, c ≠ .drainMoves n) : Plain (c.prog C) := by
  cases c with
  | accept o => exact plain_acceptRequests.bind fun _ => makesOnly_ret ()
  | drainCompletions done => exact plain_drainCompletions done
  | drainMoves n => exact absurd rfl (hc n)

theorem makes_drainMoves (n : ℕ) : MakesOnly StaysEvicting AccessOrPop (drainMoves C n) := by
  have hplain : ∀ {f : Sys → Sys} {t : Sys}, (∀ u, (f u).moveDone = u.moveDone) →
      AccessOrPop (fun u => some (f u)) t := fun hf => .inl (.plain _ _ hf)
  induction n with
  | zero => exact makesOnly_ret ()
  | succ n ih =>
    refine makesOnly_getModify (fun _ => .inr rfl) ?_
    intro s
    split
    · exact makesOnly_ret ()
    · refine makesOnly_modify (fun _ => hplain fun _ => rfl)
        (makesOnly_modify (fun _ => hplain fun _ => rfl) ?_)
      have hsettle := plain_activeSettle (C := C)
      refine MakesOnly.bind (fun s => (hsettle _ _ _ s).mono fun _ _ h => .inl h) ?_
      intro _
      exact makesOnly_modify (fun _ => hplain fun _ => rfl) ih

/-- Every operation of the scheduler thread. -/
theorem makes_call (c : Call) : MakesOnly StaysEvicting AccessOrPop (c.prog C) := by
  cases c with
  | drainMoves n => exact makes_drainMoves n
  | accept o => exact fun s => (plain_call (C := C) (c := .accept o) (by simp) s).mono fun _ _ h => .inl h
  | drainCompletions done =>
    exact fun s => (plain_call (C := C) (c := .drainCompletions done) (by simp) s).mono
      fun _ _ h => .inl h

end programs

end SchedRuns
end StreamMoE
