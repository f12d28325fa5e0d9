import StreamMoE.SchedRuns
import StreamMoE.SoleRuns

/-! The scheduler enters only experts of the model into the directory, loads and moves. -/
namespace StreamMoE
namespace DirectoryBounds

open AtomicProg ThreadLoop TransitionSystem SchedConfig PoolGeometry Sched SchedRuns

/-- Entries, loads and moves are of the first `n` experts of a layer. -/
structure Bounded (n : ℕ) (s : Sys) : Prop where
  entry : ∀ k, (s.dir k).state ≠ .absent → k.expert < n
  load : ∀ idx, 0 < (s.load idx).pending → (s.load idx).expert < n
  move : ∀ m ∈ s.moves, m.expert < n

section updates

variable {n : ℕ} {s s' : Sys}

theorem Bounded.of_same (h : Bounded n s) (hs : SameSlots s s') : Bounded n s' := by
  refine ⟨?_, ?_, ?_⟩
  · rw [hs.dir]
    exact h.entry
  · rw [hs.load]
    exact h.load
  · rw [hs.moves_eq]
    exact h.move

theorem Bounded.setWord (h : Bounded n s) (i : ℕ) (w : SlotWord.Word) : Bounded n (s.setWord i w) :=
  h.of_same ⟨rfl, rfl, rfl, rfl, rfl, rfl, rfl, rfl⟩

theorem Bounded.setDir (h : Bounded n s) {k : Key} {st : ExpertState} (slot : Option ℕ)
    (hk : st = .absent ∨ k.expert < n) : Bounded n (s.setDir k st slot) := by
  refine ⟨fun k' hk' => ?_, h.load, h.move⟩
  by_cases heq : k' = k
  · subst heq
    simp only [Sys.setDir, Function.update_self] at hk'
    exact hk.resolve_left hk'
  · simp only [Sys.setDir, Function.update_of_ne heq] at hk'
    exact h.entry k' hk'

theorem Bounded.beginEvict (h : Bounded n s) (i : ℕ) : Bounded n (s.beginEvict i) := by
  unfold Sys.beginEvict
  split
  · exact h
  · exact h.setWord _ _

theorem Bounded.pushMove (h : Bounded n s) {m : MoveTask} (hm : m.expert < n) : Bounded n (s.pushMove m) := by
  refine ⟨h.entry, h.load, fun m' hm' => ?_⟩
  rw [pushMove_moves] at hm'
  rcases List.mem_append.mp hm' with hm' | hm'
  · exact h.move m' hm'
  · rwa [List.mem_singleton.mp hm']

theorem Bounded.popMove (h : Bounded n s) : Bounded n s.popMove := by
  refine ⟨h.entry, h.load, fun m hm => h.move m ?_⟩
  rcases List.mem_append.mp hm with hm | hm
  · exact List.mem_append_left _ (List.mem_of_mem_tail hm)
  · exact List.mem_append_right _ hm

theorem Bounded.startLoad (h : Bounded n s) (C : Config) (accept : ℕ → Bool) (i layer : ℕ) {expert : ℕ}
    (he : expert < n) : Bounded n (startLoad C accept i layer expert s) := by
  have hupdate : ∀ (idx : ℕ) (t : LoadTask), t.expert = expert → ∀ idx',
      0 < (Function.update s.load idx t idx').pending → (Function.update s.load idx t idx').expert < n := by
    intro idx t ht idx' hp
    by_cases heq : idx' = idx
    · subst heq
      rw [Function.update_self, ht]
      exact he
    · rw [Function.update_of_ne heq] at hp ⊢
      exact h.load idx' hp
  unfold Sched.startLoad
  split
  · exact h
  · dsimp only
    split
    · exact ⟨h.entry, hupdate _ _ rfl, h.move⟩
    · exact ⟨h.entry, hupdate _ _ rfl, h.move⟩

theorem Bounded.takeEvent (h : Bounded n s) {idx : ℕ} {ok : Bool} (hev : s.takeEvent idx ok = some s') :
    Bounded n s' ∧ (s.load idx).expert < n := by
  obtain ⟨hp, rfl⟩ := takeEvent_eq hev
  refine ⟨⟨h.entry, fun idx' hp' => ?_, h.move⟩, h.load idx hp⟩
  by_cases heq : idx' = idx
  · subst heq
    dsimp only
    rw [Function.update_self]
    exact h.load idx' hp
  · dsimp only at hp' ⊢
    rw [Function.update_of_ne heq] at hp' ⊢
    exact h.load idx' hp'

theorem sameSlots_setActive (s : Sys) (A : Active) : SameSlots s { s with active := A } :=
  ⟨rfl, rfl, rfl, rfl, rfl, rfl, rfl, rfl⟩

theorem Bounded.env (h : Bounded n s) {a : EnvAct} (hstep : envStep s a = some s') : Bounded n s' := by
  have hmoving : ∀ (ms : List MoveTask), (∀ m ∈ ms, m ∈ s.moves) → ∀ m ∈ ms, m.expert < n :=
    fun ms hms m hm => h.move m (hms m hm)
  cases a with
  | tryPin b i =>
    simp only [envStep] at hstep
    split at hstep
    · cases hstep
    · cases hstep
      exact h.of_same (sameSlots_tryPin s b i)
  | unpin b i =>
    simp only [envStep] at hstep
    split at hstep
    · cases hstep
      exact h.of_same ⟨rfl, rfl, rfl, rfl, rfl, rfl, rfl, rfl⟩
    · cases hstep
  | strayUnpin i =>
    cases hstep
    exact h.setWord _ _
  | push r =>
    simp only [envStep] at hstep
    split at hstep
    · cases hstep
      exact h.of_same ⟨rfl, rfl, rfl, rfl, rfl, rfl, rfl, rfl⟩
    · cases hstep
  | land idx =>
    simp only [envStep] at hstep
    split at hstep
    · cases hstep
    · cases hstep
      exact ⟨h.entry, h.load, h.move⟩
  | takeMove =>
    simp only [envStep] at hstep
    split at hstep
    · rename_i m ms hnone hsubmit
      cases hstep
      refine ⟨h.entry, h.load, hmoving _ fun m' hm' => ?_⟩
      simpa [Sys.moves, hnone, hsubmit] using hm'
    · cases hstep
  | copyMove =>
    simp only [envStep] at hstep
    split at hstep
    · rename_i m hm
      cases hstep
      refine ⟨h.entry, h.load, hmoving _ fun m' hm' => ?_⟩
      simpa [Sys.moves, hm] using hm'
    · cases hstep
  | finishMove =>
    simp only [envStep] at hstep
    split at hstep
    · rename_i m hm
      cases hstep
      refine ⟨h.entry, h.load, hmoving _ fun m' hm' => ?_⟩
      simpa [Sys.moves, hm] using hm'
    · cases hstep
  | nextToken | touch _ _ _ | resetBatch _ =>
    cases hstep
    exact h.of_same ⟨rfl, rfl, rfl, rfl, rfl, rfl, rfl, rfl⟩

end updates

section alloc

variable {C : Config} {o : Oracle} {n : ℕ}

/-- A program that enters experts of the model only. -/
abbrev Stays {α : Type} (n : ℕ) (p : Prog Sys α) : Prop := Keeps (Bounded n) p fun _ => True

theorem stays_transition {k : Key} {st : ExpertState} (slot : Option ℕ) (hk : st = .absent ∨ k.expert < n) :
    Stays n (transition k st slot) :=
  Keeps.modifyLast (fun _ hs => hs.setDir slot hk) trivial

theorem stays_findEmpty (m i : ℕ) : Stays n (findEmpty m i) := by
  induction m generalizing i with
  | zero => trivial
  | succ m ih =>
    refine Keeps.get fun s _ => ?_
    split
    · trivial
    · exact ih _

theorem keeps_searchLayer {cur : ℕ} {sp : Subpool} {pool : ℕ} {allowFresh : Bool} {layer : ℕ}
    (es : List ℕ) (hes : ∀ e ∈ es, e < n) {best : Option (Rat × ℕ × ℕ)}
    (hbest : ∀ b, best = some b → b.2.2 < n) :
    Keeps (Bounded n) (searchLayer o cur sp pool allowFresh layer es best)
      fun r => ∀ x, r = some x → x.2 < n := by
  induction es generalizing best with
  | nil =>
    rintro x hx
    obtain ⟨b, hb, rfl⟩ := Option.map_eq_some_iff.mp hx
    exact hbest b hb
  | cons e es ih =>
    have hrest : ∀ e ∈ es, e < n := fun e' he' => hes e' (List.mem_cons_of_mem e he')
    refine Keeps.get fun s _ => ?_
    split
    · exact ih hrest hbest
    · dsimp only
      split
      · refine ih hrest fun b hb => ?_
        cases hb
        exact hes e List.mem_cons_self
      · exact ih hrest hbest

theorem keeps_searchRing {cur : ℕ} {sp : Subpool} {pool : ℕ} {allowFresh : Bool} (layers : List ℕ) :
    Keeps (Bounded n) (searchRing o n cur sp pool allowFresh layers)
      fun r => ∀ x, r = some x → x.2.2 < n := by
  induction layers with
  | nil => exact fun x hx => (nomatch hx)
  | cons layer layers ih =>
    refine Keeps.seq (keeps_searchLayer (List.range n) (fun e he => List.mem_range.mp he)
      fun b hb => (nomatch hb)) fun r hr => ?_
    cases r with
    | none => exact ih
    | some x =>
      rintro y hy
      cases hy
      exact hr x rfl

theorem keeps_findVictim (C : Config) (o : Oracle) {sp : Subpool} {gidx layer pool : ℕ} :
    Keeps (Bounded C.topo.nExpert) (findVictim C o sp gidx layer pool)
      fun r => ∀ x, r = some x → x.2.2 < C.topo.nExpert := by
  refine Keeps.get fun s _ => ?_
  split
  · exact fun x hx => (nomatch hx)
  · refine Keeps.seq (keeps_searchRing _) fun r hr => ?_
    cases r with
    | none => exact keeps_searchRing _
    | some v => exact hr

variable {reserve : ℕ → ℕ → Prog Sys (Option ℕ)}

theorem stays_submitMove {m : MoveTask} (hm : m.expert < n) : Stays n (submitMove C m) := by
  unfold submitMove
  split
  · exact Keeps.modify (fun s hs => hs.pushMove hm) trivial
  · trivial

theorem stays_demote (hreserve : ∀ l e, e < n → Stays n (reserve l e)) {sp : Subpool} {v l e : ℕ}
    (he : e < n) : Stays n (demote C reserve sp v l e) := by
  unfold demote
  split
  · trivial
  · split
    · refine Keeps.seq (hreserve l e he) fun r _ => ?_
      cases r with
      | none => trivial
      | some dst =>
        refine Keeps.seq (stays_submitMove he) fun ok _ => ?_
        split
        · exact Keeps.seq (stays_transition _ (Or.inr he)) fun _ _ => trivial
        · refine Keeps.seq (stays_transition _ (Or.inl rfl)) fun _ _ => ?_
          exact Keeps.modify (fun s hs => hs.setWord _ _) trivial
    · trivial

theorem stays_evict (hreserve : ∀ l e, e < n → Stays n (reserve l e)) {sp : Subpool}
    {layer expert v l e : ℕ} (hexpert : expert < n) (he : e < n) :
    Stays n (evict C reserve sp layer expert v l e) := by
  have htail : ∀ moved : Bool, Stays n (if moved then .ret none else
      (Prog.modify fun s => s.beginReload v).bind fun _ =>
        (transition ⟨layer, expert, sp.pool⟩ .loading (some v)).bind fun _ => .ret (some v)) := by
    intro moved
    split
    · trivial
    · refine Keeps.modify (fun s hs => hs.setWord _ _) ?_
      exact Keeps.seq (stays_transition _ (Or.inr hexpert)) fun _ _ => trivial
  refine Keeps.getModify (fun s hs => hs.beginEvict v) fun s _ => ?_
  split
  · trivial
  · refine Keeps.seq (stays_transition _ (Or.inl rfl)) fun _ _ => ?_
    refine Keeps.await ?_
    dsimp only
    split
    · exact htail false
    · exact Keeps.seq (stays_demote hreserve he) fun moved _ => htail moved

theorem stays_allocWith (hreserve : ∀ l e, e < C.topo.nExpert → Stays C.topo.nExpert (reserve l e))
    {layer expert pool : ℕ} (hexpert : expert < C.topo.nExpert) :
    Stays C.topo.nExpert (allocWith C o reserve layer expert pool) := by
  unfold allocWith
  split
  · trivial
  · split
    · trivial
    · refine Keeps.seq (stays_findEmpty _ _) fun r _ => ?_
      cases r with
      | some i =>
        refine Keeps.seq (stays_transition _ (Or.inr hexpert)) fun _ _ => ?_
        exact Keeps.modify (fun s hs => hs.setWord _ _) trivial
      | none =>
        refine Keeps.seq (keeps_findVictim C o) fun r hr => ?_
        cases r with
        | none => trivial
        | some v => exact stays_evict hreserve hexpert (hr v rfl)

theorem stays_allocOrEvict {layer expert pool : ℕ} (hexpert : expert < C.topo.nExpert) :
    Stays C.topo.nExpert (allocOrEvict C o layer expert pool) := by
  have hram : ∀ l e, e < C.topo.nExpert → Stays C.topo.nExpert (allocRam C o l e) := by
    intro l e he
    refine stays_allocWith ?_ he
    exact fun _ _ _ => trivial
  exact stays_allocWith hram hexpert

theorem stays_allocFor {gidx layer expert : ℕ} (hexpert : expert < C.topo.nExpert) :
    Stays C.topo.nExpert (allocFor C o gidx layer expert) := by
  unfold allocFor
  dsimp only
  split
  · exact stays_allocOrEvict hexpert
  · refine Keeps.seq (stays_allocOrEvict hexpert) fun slot _ => ?_
    cases slot with
    | none => exact stays_allocOrEvict hexpert
    | some i => trivial

theorem stays_startAsyncLoad {i layer expert : ℕ} (hexpert : expert < n) :
    Stays n (startAsyncLoad C o i layer expert) :=
  Keeps.getModify (fun _ hs => hs.startLoad C _ i layer hexpert) fun _ _ => trivial

end alloc

section serve

variable {C : Config} {o : Oracle} {n : ℕ}

theorem stays_unpinAll (is : List ℕ) : Stays n (unpinAll C is) := by
  induction is with
  | nil => trivial
  | cons i is ih =>
    refine Keeps.modify (fun s hs => ?_) ih
    split
    · exact hs.of_same ⟨rfl, rfl, rfl, rfl, rfl, rfl, rfl, rfl⟩
    · exact hs

theorem stays_activeFail : Stays n (activeFail C) := by
  refine Keeps.get fun s _ => Keeps.seq (stays_unpinAll _) fun _ _ => ?_
  exact Keeps.modifyLast (fun s hs => hs.of_same (sameSlots_failBatch s).1) trivial

theorem Bounded.activeFinish {s : Sys} (h : Bounded n s) : Bounded n s.activeFinish :=
  h.of_same ⟨rfl, rfl, rfl, rfl, rfl, rfl, rfl, rfl⟩

theorem stays_activeSettle {layer expert i : ℕ} : Stays n (activeSettle C layer expert i) := by
  refine Keeps.get fun s _ => ?_
  split
  · refine Keeps.getModify (fun s hs => hs.of_same (sameSlots_settleStep s expert i)) fun s _ => ?_
    split
    · exact stays_activeFail
    · refine Keeps.modifyLast (fun s hs => ?_) trivial
      have hbump := hs.of_same (sameSlots_bumpBatch s C.topo.nExpert).1
      split
      · exact hbump.activeFinish
      · exact hbump
  · trivial

theorem stays_triage (es : List ℕ) : Stays n (triage C es) := by
  induction es with
  | nil => trivial
  | cons e es ih =>
    refine Keeps.get fun s _ => ?_
    split
    · split
      · exact ih
      · refine Keeps.get fun s _ => ?_
        split
        · exact ih
        · refine Keeps.getModify (fun s hs => hs.of_same (sameSlots_settleStep s e _)) fun s _ => ?_
          split
          · exact ih
          · split
            · exact Keeps.seq stays_activeFail fun _ _ => trivial
            · exact Keeps.modify (fun s hs => hs.of_same (sameSlots_bumpBatch s C.topo.nExpert).1) ih
    · exact ih

theorem stays_activeRegister (r : Request) : Stays n (activeRegister C r) := by
  refine Keeps.modify (fun s hs => hs.of_same (sameSlots_setActive s _)) ?_
  refine Keeps.seq (stays_triage _) fun ok _ => ?_
  split
  · refine Keeps.modifyLast (fun s hs => ?_) trivial
    split
    · exact hs.activeFinish
    · exact hs
  · trivial

theorem stays_serveLoop (es : List ℕ) (hes : ∀ e ∈ es, e < C.topo.nExpert) (started noSlot : Bool) :
    Stays C.topo.nExpert (serveLoop C o es started noSlot) := by
  induction es generalizing started noSlot with
  | nil => trivial
  | cons e es ih =>
    have he := hes e List.mem_cons_self
    have hrest : ∀ e ∈ es, e < C.topo.nExpert := fun e' he' => hes e' (List.mem_cons_of_mem e he')
    refine Keeps.get fun s _ => ?_
    split
    · exact ih hrest _ _
    · split
      · trivial
      · split
        · exact Keeps.seq stays_activeFail fun _ _ => trivial
        · split
          · dsimp only
            split
            · exact ih hrest _ _
            · exact Keeps.seq stays_activeSettle fun _ _ => ih hrest _ _
          · split
            · exact ih hrest _ _
            · refine Keeps.seq (stays_allocFor he) fun r _ => ?_
              cases r with
              | none => exact ih hrest _ _
              | some i =>
                refine Keeps.seq (stays_startAsyncLoad he) fun r _ => ?_
                cases r with
                | none => exact Keeps.seq (stays_transition _ (Or.inl rfl)) fun _ _ => trivial
                | some idx => exact ih hrest _ _

theorem stays_checkStall {started noSlot : Bool} : Stays n (checkStall C o started noSlot) := by
  have harm : ∀ b, ∀ s : Sys, Bounded n s → Bounded n (s.armStall b) :=
    fun b s hs => hs.of_same (sameSlots_setActive s _)
  refine Keeps.get fun s _ => ?_
  split
  · exact Keeps.modify (harm false) trivial
  · split
    · trivial
    · split
      · exact Keeps.modify (harm true) trivial
      · split
        · exact Keeps.seq stays_activeFail fun _ _ => trivial
        · trivial

theorem stays_acceptRequests (o : Oracle) : Stays C.topo.nExpert (acceptRequests C o) := by
  have hall : ∀ e ∈ List.range C.topo.nExpert, e < C.topo.nExpert := fun e he => List.mem_range.mp he
  refine Keeps.get fun s _ => ?_
  split
  · refine Keeps.seq (stays_serveLoop _ hall _ _) fun r _ => ?_
    cases r with
    | none => trivial
    | some r => exact stays_checkStall
  · refine Keeps.getModify (fun s hs => hs.of_same ⟨rfl, rfl, rfl, rfl, rfl, rfl, rfl, rfl⟩) fun s _ => ?_
    split
    · trivial
    · refine Keeps.seq (stays_activeRegister _) fun _ _ => ?_
      exact Keeps.seq (stays_serveLoop _ hall _ _) fun _ _ => trivial

theorem stays_finishLoad {t : LoadTask} {failed : Bool} (ht : t.expert < n) : Stays n (finishLoad t failed) := by
  unfold finishLoad
  split
  · exact Keeps.modify (fun s hs => hs.setWord _ _) (stays_transition _ (Or.inl rfl))
  · exact Keeps.modify (fun s hs => hs.setWord _ _) (stays_transition _ (Or.inr ht))

theorem stays_reportActive {t : LoadTask} {failed : Bool} : Stays n (reportActive C t failed) := by
  refine Keeps.get fun s _ => ?_
  split
  · split
    · exact stays_activeFail
    · exact stays_activeSettle
  · trivial

theorem stays_drainCompletion (idx : ℕ) (ok : Bool) : Stays n (drainCompletion C idx ok) := by
  intro s hs t ht
  obtain ⟨hbounded, hexpert⟩ := hs.takeEvent ht
  refine ⟨hbounded, ?_⟩
  simp only [ret_bind, bind_eq]
  split
  · refine Keeps.seq (stays_finishLoad hexpert) fun _ _ => ?_
    refine Keeps.seq stays_reportActive fun _ _ => ?_
    exact Keeps.modifyLast (fun s hs => ⟨hs.entry, hs.load, hs.move⟩) trivial
  · trivial

theorem stays_drainCompletions (done : List (ℕ × Bool)) : Stays n (drainCompletions C done) := by
  induction done with
  | nil => trivial
  | cons d done ih => exact Keeps.seq (stays_drainCompletion _ _) fun _ _ => ih

theorem stays_drainMoves (m : ℕ) : Stays n (drainMoves C m) := by
  induction m with
  | zero => trivial
  | succ m ih =>
    refine Keeps.getModify (fun s hs => hs.popMove) fun s hs => ?_
    split
    · trivial
    · rename_i task rest hdone
      have hexpert : task.expert < n := by
        refine hs.move task (List.mem_append_left _ ?_)
        rw [hdone]
        exact List.mem_cons_self
      refine Keeps.modify (fun s hs => hs.setWord _ _) ?_
      refine Keeps.seq (stays_transition _ (Or.inr hexpert)) fun _ _ => ?_
      refine Keeps.seq stays_activeSettle fun _ _ => ?_
      exact Keeps.modify (fun s hs => hs.setWord _ _) ih

end serve

/-- In every state of every run, also amid an operation, the scheduler has entered experts of the model only. -/
theorem bounded_of_reach {C : Config} {guard : State → Act → Prop} {r : State}
    (h : Reach (system C) guard r) : Bounded C.topo.nExpert r.state := by
  have hinit : Bounded C.topo.nExpert (initialSys C) :=
    ⟨fun k hk => absurd rfl hk, fun idx hp => absurd hp (Nat.lt_irrefl 0),
      fun m hm => absurd hm List.not_mem_nil⟩
  refine (@keeps_of_reach _ _ _ (worker C) _ hinit (fun c => ?_) (fun s a s' hs ha => hs.env ha) _ _ h).1
  cases c with
  | accept o => exact Keeps.seq (stays_acceptRequests o) fun _ _ => trivial
  | drainCompletions done => exact stays_drainCompletions done
  | drainMoves m => exact stays_drainMoves m

end DirectoryBounds
end StreamMoE
