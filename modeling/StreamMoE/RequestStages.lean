import StreamMoE.SchedWaits
import StreamMoE.WaitService

/-! How far the one request of an executing thread has come, while nobody else pins: the thread
goes on only when the scheduler has nothing of the request under way. -/
namespace StreamMoE
namespace PinLayer

open AtomicProg SlotWord SchedConfig Sched SchedRuns PinProtection

/-- Steps that take no pin and ask the scheduler for nothing. -/
def Aside : EnvAct → Prop
  | .tryPin _ _ | .push _ | .resetBatch _ => False
  | _ => True

structure SameAsk (s s' : Sys) : Prop where
  requests : s'.requests = s.requests
  batch : s'.batch = s.batch
  active : s'.active = s.active

theorem sameAsk_tryPin (s : Sys) (h : Holder) (i : ℕ) : SameAsk s (s.tryPin h i) := by
  unfold Sys.tryPin
  split <;> exact ⟨rfl, rfl, rfl⟩

theorem sameAsk_aside {s s' : Sys} {a : EnvAct} (ha : Aside a) (hstep : envStep s a = some s') :
    SameAsk s s' := by
  cases a with
  | tryPin _ _ | push _ | resetBatch _ => exact ha.elim
  | unpin _ _ | land _ | takeMove | copyMove | finishMove =>
    simp only [envStep] at hstep
    split at hstep <;> cases hstep
    exact ⟨rfl, rfl, rfl⟩
  | strayUnpin _ | nextToken | touch _ _ _ =>
    cases hstep
    exact ⟨rfl, rfl, rfl⟩

section unpinned

/-- No pin is out on a slot that was found idle, nor on one that is EVICTING. -/
structure Unpinned (x : Sys × Ghost) : Prop where
  idle : ∀ i ∈ x.2.idle, slotWordRefcount (x.1.word i) = 0
  evicting : ∀ i, Evicting x.1 i → slotWordRefcount (x.1.word i) = 0

variable {C : Config} {s s' : Sys} {g g' : Ghost} {i : ℕ}

theorem Unpinned.same (h : Unpinned (s, g)) (hword : s'.word = s.word)
    (hidle : ∀ j ∈ g'.idle, j ∈ g.idle) : Unpinned (s', g') := by
  refine ⟨?_, ?_⟩
  · intro j hj
    dsimp only
    rw [hword]
    exact h.idle j (hidle j hj)
  · intro j hj
    rw [Evicting] at hj
    dsimp only at hj ⊢
    rw [hword] at hj ⊢
    exact h.evicting j hj

theorem Unpinned.setWord {w : Word} (h : Unpinned (s, g))
    (hword : s'.word = Function.update s.word i w) (hidle : ∀ j ∈ g'.idle, j ∈ g.idle)
    (hrc : slotWordRefcount w ≤ slotWordRefcount (s.word i))
    (hst : slotWordState w = SlotState.evicting.code → slotWordRefcount w = 0) :
    Unpinned (s', g') := by
  refine ⟨?_, ?_⟩
  · intro j hj
    have hold := h.idle j (hidle j hj)
    dsimp only at hold ⊢
    rw [hword]
    by_cases hji : j = i
    · subst hji
      rw [Function.update_self]
      omega
    · rw [Function.update_of_ne hji]
      exact hold
  · intro j hj
    rw [Evicting] at hj
    dsimp only at hj ⊢
    rw [hword] at hj ⊢
    by_cases hji : j = i
    · subst hji
      rw [Function.update_self] at hj ⊢
      exact hst hj
    · rw [Function.update_of_ne hji] at hj ⊢
      exact h.evicting j hj

/-- A pin while no slot is known to be idle. -/
theorem Unpinned.pin {b : Holder} (h : Unpinned (s, g)) (hwf : WF C (s, g)) (hidle : g'.idle = [])
    (hword : s'.word = (s.tryPin b i).word) : Unpinned (s', g') := by
  refine ⟨?_, ?_⟩
  · intro j hj
    dsimp only at hj
    rw [hidle] at hj
    cases hj
  · intro j hj
    rw [Evicting] at hj
    dsimp only at hj ⊢
    rw [hword] at hj ⊢
    have hev : Evicting s j := ((hwf.tryPin_word b i).1 j).symm.trans hj
    rw [tryPin_word_of_evicting hev]
    exact h.evicting j hev

theorem Unpinned.unpin (h : Unpinned (s, g)) (hwf : WF C (s, g))
    (hword : s'.word = Function.update s.word i (SlotWord.unpin (s.word i)))
    (hidle : ∀ j ∈ g'.idle, j ∈ g.idle) : Unpinned (s', g') := by
  have hr := (reads_of hwf i).unpin
  refine h.setWord hword hidle (by rw [hr.refcount]; exact Nat.sub_le _ _) ?_
  intro hst
  have hev : Evicting s i := by
    rw [hr.state] at hst
    exact (hwf.state i).trans hst
  have hzero := h.evicting i hev
  dsimp only at hzero
  rw [hr.refcount, hzero]

theorem Unpinned.step {promise : Promise} {x y : Sys × Ghost} (hwf : WF C x) (h : Unpinned x)
    (hstep : Step C promise x y) : Unpinned y := by
  cases hstep with
  | observe s g i k hphase hserve hown hrc =>
    refine ⟨?_, h.evicting⟩
    intro j hj
    rcases List.mem_cons.mp hj with rfl | hj
    · exact hrc
    · exact h.idle j hj
  | reload s g i k hown | recycle s g i l e hown =>
    have hr := (reads_of hwf i).beginReload
    exact h.setWord rfl (fun _ hj => hj) (by rw [hr.refcount]; exact Nat.zero_le _)
      fun _ => hr.refcount
  | release s g i hown =>
    have hr := (reads_of hwf i).releaseToEmpty
    exact h.setWord rfl (fun _ hj => hj) (by rw [hr.refcount]; exact Nat.zero_le _)
      fun _ => hr.refcount
  | markReady s g i k b hown =>
    have hreads := reads_of hwf i
    rw [hown] at hreads
    have hr := hreads.markReady
    refine h.setWord rfl (fun _ hj => hj) (Nat.le_of_eq hr.refcount) ?_
    intro hst
    rw [hr.state] at hst
    cases code_injective hst
  | markFailed s g i k hown =>
    have hr := (reads_of hwf i).markFailed
    refine h.setWord rfl (fun _ hj => hj) (Nat.le_of_eq hr.refcount) ?_
    intro hst
    rw [hr.state] at hst
    cases code_injective hst
  | beginEvict s g i k hphase hserve hown hidle =>
    have hreads := reads_of hwf i
    rw [hown] at hreads
    obtain ⟨w, hw, hr⟩ := hreads.beginEvict
    have heq : s.beginEvict i = s.setWord i w := by simp only [Sys.beginEvict, hw]
    have hzero := h.idle i hidle
    dsimp only at hzero
    rw [heq]
    exact h.setWord rfl (fun _ hj => hj) (Nat.le_of_eq hr.refcount) fun _ => hr.refcount.trans hzero
  | startLoad s g i k accept | startNone s g i k accept =>
    exact h.same (startLoad_same (C := C) accept i k.layer k.expert s).1 fun _ hj => hj
  | event s g idx ok s' hev | arrive s g idx ok s' hev | «break» s g idx ok s' hnot hev =>
    obtain ⟨_, rfl⟩ := takeEvent_eq hev
    exact h.same rfl fun _ hj => hj
  | settle s g i k w => exact h.pin hwf rfl (settleStep_word s k.expert i)
  | bump s g | bumpLast s g | bumpFinish s g =>
    exact h.same (sameSlots_bumpBatch s _).2 fun _ hj => absurd hj List.not_mem_nil
  | failBatch s g => exact h.same (sameSlots_failBatch s).2 fun _ hj => absurd hj List.not_mem_nil
  | unpinOwed s g i rest => exact h.unpin hwf rfl fun _ hj => absurd hj List.not_mem_nil
  | forget s g | finish s g => exact h.same rfl fun _ hj => absurd hj List.not_mem_nil
  | _ => exact h.same rfl fun _ hj => hj

/-- The other threads, as long as nobody pins while a slot is known to be idle. -/
theorem Unpinned.env {a : EnvAct} (h : Unpinned (s, g)) (hwf : WF C (s, g))
    (ha : envStep s a = some s') (hpin : ∀ b i, a = .tryPin b i → g.idle = []) :
    Unpinned (s', g) := by
  cases a with
  | tryPin b i =>
    simp only [envStep] at ha
    split at ha <;> cases ha
    exact h.pin hwf (hpin b i rfl) rfl
  | unpin b i =>
    simp only [envStep] at ha
    split at ha <;> cases ha
    exact h.unpin hwf rfl fun _ hj => hj
  | strayUnpin i =>
    cases ha
    exact h.unpin hwf rfl fun _ hj => hj
  | push _ | land _ | takeMove | copyMove | finishMove =>
    simp only [envStep] at ha
    split at ha <;> cases ha
    exact h.same rfl fun _ hj => hj
  | nextToken | touch _ _ _ | resetBatch _ =>
    cases ha
    exact h.same rfl fun _ hj => hj

/-- A slot stays EVICTING until it is reloaded or released. -/
theorem Step.word_evicting {promise : Promise} {x y : Sys × Ghost} (hwf : WF C x)
    (h : Unpinned x) (hstep : Step C promise x y) {i : ℕ} (hi : Evicting x.1 i) :
    y.1.word i = x.1.word i ∨ y.1.word i = SlotWord.beginReload (x.1.word i) ∨
      y.1.word i = SlotWord.releaseToEmpty (x.1.word i) := by
  -- a word of another slot changes, or this one by `f`
  have hset : ∀ {s : Sys} {j : ℕ} {f : Word → Word}, (i ≠ j ∨ f (s.word j) = s.word j) →
      Function.update s.word j (f (s.word j)) i = s.word i := by
    intro s j f hj
    by_cases hij : i = j
    · subst hij
      rw [Function.update_self]
      exact hj.resolve_left fun hne => hne rfl
    · rw [Function.update_of_ne hij]
  have hown : ∀ {s : Sys} {g : Ghost} {j : ℕ}, WF C (s, g) → Evicting s i →
      (g.own j).state ≠ .evicting → i ≠ j := by
    rintro s g j hw hev hne rfl
    exact hne (code_injective ((hw.state i).symm.trans hev))
  cases hstep with
  | reload s g j k hj =>
    exact .inl (hset (.inl (hown hwf hi (by rw [hj]; simp [Owner.state]))))
  | recycle s g j l e hj =>
    by_cases hij : i = j
    · subst hij
      exact .inr (.inl (Function.update_self ..))
    · exact .inl (Function.update_of_ne hij ..)
  | release s g j hj =>
    by_cases hij : i = j
    · subst hij
      exact .inr (.inr (Function.update_self ..))
    · exact .inl (Function.update_of_ne hij ..)
  | markReady s g j k b hj | markFailed s g j k hj =>
    exact .inl (hset (.inl (hown hwf hi (by rw [hj]; simp [Owner.state]))))
  | beginEvict s g j k hphase hserve hj =>
    have hij := hown hwf hi (by rw [hj]; simp [Owner.state])
    left
    unfold Sys.beginEvict
    split
    · rfl
    · exact Function.update_of_ne hij ..
  | startLoad s g j k accept | startNone s g j k accept =>
    exact .inl (congrFun (startLoad_same (C := C) accept j k.layer k.expert s).1 i)
  | event s g idx ok s' hev | arrive s g idx ok s' hev | «break» s g idx ok s' hnot hev =>
    obtain ⟨_, rfl⟩ := takeEvent_eq hev
    exact .inl rfl
  | settle s g j k w =>
    left
    dsimp only
    rw [settleStep_word]
    exact tryPin_word_of_evicting hi _ j
  | bump s g | bumpLast s g | bumpFinish s g =>
    exact .inl (congrFun (sameSlots_bumpBatch s C.topo.nExpert).2 i)
  | failBatch s g => exact .inl (congrFun (sameSlots_failBatch s).2 i)
  | unpinOwed s g j rest =>
    refine .inl (hset ?_)
    by_cases hij : i = j
    · subst hij
      have hzero := h.evicting i hi
      dsimp only at hzero
      exact .inr (by rw [SlotWord.unpin, if_pos hzero])
    · exact .inl hij
  | _ => exact .inl rfl

end unpinned

section stages

variable {C : Config} {b layer : ℕ} {missing : List ℕ} {s s' : Sys} {g g' : Ghost}

structure InQueue (C : Config) (b layer : ℕ) (missing : List ℕ) (x : Sys × Ghost) : Prop where
  quiet : Quiet C [requestFor b layer missing] x.1 x.2
  batch : x.1.batch b = ⟨0, false⟩

structure Taken (b layer : ℕ) (missing : List ℕ) (x : Sys × Ghost) : Prop where
  requests : x.1.requests = []
  phase : x.2.phase = .popped (requestFor b layer missing)
  idle : x.2.idle = []
  calm : Calm x.2
  batch : x.1.batch b = ⟨0, false⟩

/-- The scheduler works on it: the batch has not failed and counts less than the request asks. -/
structure InWork (b : ℕ) (missing : List ℕ) (x : Sys × Ghost) : Prop where
  requests : x.1.requests = []
  busy : x.2.phase.busy = true
  waiter : x.1.active.batch = some b
  need : ∀ e, x.1.active.stillNeed e = true → e ∈ missing
  left : x.1.active.nLeft = (missing.filter x.1.active.stillNeed).length
  failed : (x.1.batch b).failed = false
  count : (x.1.batch b).done < missing.length
  active : x.2.phase = .active →
    0 < x.1.active.nLeft ∧ (x.1.batch b).done + x.1.active.nLeft ≤ missing.length
  owing : x.2.phase = .owing → (x.1.batch b).done + x.1.active.nLeft < missing.length

def Underway (C : Config) (b layer : ℕ) (missing : List ℕ) (x : Sys × Ghost) : Prop :=
  InQueue C b layer missing x ∨ Taken b layer missing x ∨ InWork b missing x ∨ Quiet C [] x.1 x.2

theorem Quiet.sameAsk {reqs : List Request} (h : Quiet C reqs s g) (hs : SameAsk s s') :
    Quiet C reqs s' g := by
  refine ⟨hs.requests.trans h.requests, h.idle, h.calm, h.owed, ?_⟩
  rw [hs.active]
  exact h.phase

theorem Underway.sameAsk (h : Underway C b layer missing (s, g)) (hs : SameAsk s s') :
    Underway C b layer missing (s', g) := by
  have hbatch : s'.batch b = s.batch b := by rw [hs.batch]
  rcases h with h | h | h | h
  · exact .inl ⟨h.quiet.sameAsk hs, hbatch.trans h.batch⟩
  · exact .inr (.inl ⟨hs.requests.trans h.requests, h.phase, h.idle, h.calm, hbatch.trans h.batch⟩)
  · refine .inr (.inr (.inl ?_))
    obtain ⟨h₁, h₂, h₃, h₄, h₅, h₆, h₇, h₈, h₉⟩ := h
    refine ⟨hs.requests.trans h₁, h₂, ?_, ?_, ?_, ?_, ?_, ?_, ?_⟩ <;> dsimp only <;>
      simp only [hs.active, hbatch]
    exacts [h₃, h₄, h₅, h₆, h₇, h₈, h₉]
  · exact .inr (.inr (.inr (h.sameAsk hs)))

theorem Taken.background (h : Taken b layer missing (s, g))
    (hb : Background C (s, g) (s', g')) : Taken b layer missing (s', g') := by
  have hnot : ¬ Hunting C (s, g) := by
    rintro ⟨hphase, _⟩
    have hpopped := h.phase
    rw [hphase] at hpopped
    cases hpopped
  refine ⟨hb.requests.trans h.requests, hb.phase.trans h.phase, ?_, ?_, ?_⟩
  · refine List.eq_nil_iff_forall_not_mem.mpr ?_
    intro i hi
    rcases hb.idle i hi with hold | ⟨hhunt, _⟩
    · rw [h.idle] at hold
      cases hold
    · exact hnot hhunt
  · exact (hb.calm h.calm).resolve_right hnot
  · exact (congrFun hb.batch b).trans h.batch

theorem InWork.background (h : InWork b missing (s, g)) (hb : Background C (s, g) (s', g')) :
    InWork b missing (s', g') := by
  have hwork := hb.work
  have hphase := hb.phase
  have hbatch : s'.batch b = s.batch b := congrFun hb.batch b
  dsimp only at hwork hphase
  have hwaiter : s'.active.batch = s.active.batch := congrArg Work.batch hwork
  have hneed : s'.active.stillNeed = s.active.stillNeed := congrArg Work.stillNeed hwork
  have hleft : s'.active.nLeft = s.active.nLeft := congrArg Work.nLeft hwork
  obtain ⟨h₁, h₂, h₃, h₄, h₅, h₆, h₇, h₈, h₉⟩ := h
  refine ⟨hb.requests.trans h₁, ?_, ?_, ?_, ?_, ?_, ?_, ?_, ?_⟩ <;> dsimp only <;>
    simp only [hphase, hwaiter, hneed, hleft, hbatch]
  exacts [h₂, h₃, h₄, h₅, h₆, h₇, h₈, h₉]

/-- From the queue to the scheduler's hands. -/
theorem InQueue.service (h : InQueue C b layer missing (s, g))
    (hs : Service C (s, g) (s', g')) : Underway C b layer missing (s', g') := by
  have hno : ∀ {ph : Phase}, g.phase = ph → ph.busy = true → False := by
    rintro ph rfl hb
    have hnot := h.quiet.not_busy
    dsimp only at hnot
    rw [hnot] at hb
    cases hb
  have hqueue := h.quiet.requests
  dsimp only at hqueue
  cases hs with
  | pop _ _ hphase hpresent =>
    refine .inr (.inl ⟨?_, ?_, h.quiet.idle, h.quiet.calm, h.batch⟩)
    · dsimp only
      rw [Sys.popRequest, hqueue]
      rfl
    · dsimp only
      rw [Sys.popPhase, hqueue]
  | register _ _ r hphase =>
    have hp := h.quiet.phase
    dsimp only at hp
    rw [hphase] at hp
    rcases hp with ⟨hp, _⟩ | ⟨hp, _⟩ <;> cases hp
  | finish _ _ hcalm => exact .inl ⟨h.quiet.finish, h.batch⟩
  | settle _ _ i k w _ hphase => exact (hno hphase rfl).elim
  | bump _ _ _ hphase | bumpLast _ _ _ hphase | bumpFinish _ _ _ hphase =>
    exact (hno hphase rfl).elim
  | unpinOwed _ _ i rest _ hb | failBatch _ _ _ hb => exact (hno rfl hb).elim

theorem Taken.service (h : Taken b layer missing (s, g)) (hpos : 0 < missing.length)
    (hs : Service C (s, g) (s', g')) : Underway C b layer missing (s', g') := by
  have hpopped := h.phase
  dsimp only at hpopped
  cases hs with
  | register _ _ r hphase =>
    rw [hpopped] at hphase
    cases hphase
    have hfilter : missing.filter (fun e => decide (e ∈ missing)) = missing :=
      List.filter_eq_self.mpr fun e he => decide_eq_true he
    have hbatch : (s.activeInit (requestFor b layer missing)).batch b = ⟨0, false⟩ := h.batch
    refine .inr (.inr (.inl ⟨h.requests, rfl, rfl, fun e he => of_decide_eq_true he, ?_, ?_, ?_, ?_,
      fun hp => by cases hp⟩))
    · exact (congrArg List.length hfilter).symm
    · dsimp only
      rw [hbatch]
    · dsimp only
      rw [hbatch]
      exact hpos
    · intro _
      dsimp only
      rw [hbatch]
      exact ⟨hpos, by simp [Sys.activeInit, requestFor]⟩
  | pop _ _ hphase | settle _ _ i k w _ hphase | bump _ _ _ hphase | bumpLast _ _ _ hphase
  | bumpFinish _ _ _ hphase =>
    rw [hpopped] at hphase
    cases hphase
  | finish _ _ hcalm hphase =>
    rw [hpopped] at hphase
    rcases hphase with hphase | hphase <;> cases hphase
  | unpinOwed _ _ i rest _ hb | failBatch _ _ _ hb =>
    rw [hpopped] at hb
    cases hb

theorem InWork.settle (h : InWork b missing (s, g)) (hnodup : missing.Nodup) {i : ℕ} {k : Key}
    {w : Word} (hphase : g.phase = .active) (hneed : s.active.stillNeed k.expert = true)
    (hw : SlotWord.tryPin (s.word i) = some w) :
    InWork b missing (s.settleStep k.expert i,
      { g with owed := g.owed ++ [i], idle := [], phase := .owing }) := by
  obtain ⟨hlength, _⟩ := filter_update hnodup (h.need _ hneed) hneed
  have hleft := h.left
  have hactive := h.active hphase
  have hview := settleStep_view (e := k.expert) hw
  have hA : (s.settleStep k.expert i).active = s.active.settled k.expert i :=
    congrArg View.active hview
  have hbatch : (s.settleStep k.expert i).batch = s.batch := by
    simp only [Sys.settleStep, hw, Sys.tryPin, Sys.setWord]
  have hreq : (s.settleStep k.expert i).requests = s.requests := by
    simp only [Sys.settleStep, hw, Sys.tryPin, Sys.setWord]
  dsimp only at hleft hactive
  refine ⟨hreq.trans h.requests, rfl, ?_, ?_, ?_, ?_, ?_, fun hp => (by cases hp), ?_⟩ <;>
    dsimp only
  · rw [hA]
    exact h.waiter
  · intro e he
    rw [hA] at he
    by_cases hek : e = k.expert
    · rw [hek]
      exact h.need _ hneed
    · refine h.need e ?_
      simpa [Active.settled, Function.update_of_ne hek] using he
  · rw [hA]
    simp only [Active.settled]
    omega
  · rw [hbatch]
    exact h.failed
  · rw [hbatch]
    exact h.count
  · intro _
    rw [hbatch, hA]
    simp only [Active.settled]
    omega

/-- The pin is counted and others are to come. -/
theorem InWork.bump (h : InWork b missing (s, g)) (hphase : g.phase = .owing)
    (hall : s.active.allSettled C.topo.nExpert = false) :
    InWork b missing (s.bumpBatch C.topo.nExpert, { g with idle := [], phase := .active }) := by
  have hA : (s.bumpBatch C.topo.nExpert).active = s.active :=
    congrArg View.active (bumpBatch_view s _)
  have hwaiter := h.waiter
  have howing := h.owing hphase
  have hleft := h.left
  dsimp only at hwaiter howing hleft
  have hbatch : (s.bumpBatch C.topo.nExpert).batch b =
      { s.batch b with done := ((s.batch b).done + 1) % 2 ^ 32 } := by
    rw [Sys.bumpBatch]
    simp only [hall, Bool.false_eq_true, if_false, hwaiter, Function.update_self]
  have hreq : (s.bumpBatch C.topo.nExpert).requests = s.requests := by
    rw [Sys.bumpBatch]
    simp only [hall, Bool.false_eq_true, if_false, hwaiter]
  have hpos : 0 < s.active.nLeft := by
    by_contra hzero
    have hnil : missing.filter s.active.stillNeed = [] :=
      List.eq_nil_of_length_eq_zero (by omega)
    have hnone : ∀ e, s.active.stillNeed e = false := by
      intro e
      cases he : s.active.stillNeed e with
      | false => rfl
      | true => exact absurd he (List.filter_eq_nil_iff.mp hnil e (h.need e he))
    have hsettled : s.active.allSettled C.topo.nExpert = true := by
      have hzero' : s.active.nLeft = 0 := by omega
      simp [Active.allSettled, hnone, hzero']
    rw [hall] at hsettled
    cases hsettled
  have hle : ((s.batch b).done + 1) % 2 ^ 32 ≤ (s.batch b).done + 1 := Nat.mod_le _ _
  refine ⟨hreq.trans h.requests, rfl, ?_, ?_, ?_, ?_, ?_, ?_, fun hp => (by cases hp)⟩ <;> dsimp only
  · rw [hA]
    exact h.waiter
  · rw [hA]
    exact h.need
  · rw [hA]
    exact h.left
  · rw [hbatch]
    exact h.failed
  · rw [hbatch]
    dsimp only
    omega
  · intro _
    rw [hbatch, hA]
    dsimp only
    omega

theorem bumpBatch_requests (s : Sys) (n : ℕ) : (s.bumpBatch n).requests = s.requests := by
  unfold Sys.bumpBatch Sys.handOver
  dsimp only
  split <;> split <;> rfl

theorem failBatch_requests (s : Sys) : s.failBatch.requests = s.requests := by
  unfold Sys.failBatch Sys.activeClearState
  split <;> rfl

theorem InWork.service (h : InWork b missing (s, g)) (hnodup : missing.Nodup)
    (hs : Service C (s, g) (s', g')) : Underway C b layer missing (s', g') := by
  have hbusy := h.busy
  dsimp only at hbusy
  cases hs with
  | pop _ _ hphase | register _ _ r hphase =>
    rw [hphase] at hbusy
    cases hbusy
  | settle _ _ i k w _ hphase _ _ hneed _ hw =>
    exact .inr (.inr (.inl (h.settle hnodup hphase hneed hw)))
  | bump _ _ _ hphase _ hall => exact .inr (.inr (.inl (h.bump hphase hall)))
  | bumpLast _ _ hcalm hphase hpresent hall =>
    refine .inr (.inr (.inr ⟨(bumpBatch_requests s _).trans h.requests, rfl, hcalm, rfl,
      .inr ⟨rfl, ?_⟩⟩))
    have hA : (s.bumpBatch C.topo.nExpert).active = s.active :=
      congrArg View.active (bumpBatch_view s _)
    rw [hA]
    exact hall
  | bumpFinish _ _ hcalm =>
    exact .inr (.inr (.inr ⟨(bumpBatch_requests s _).trans h.requests, rfl, hcalm, rfl,
      .inl ⟨rfl, rfl⟩⟩))
  | finish _ _ hcalm hphase hpresent hleft =>
    rcases hphase with hphase | hphase
    · have hpos := (h.active hphase).1
      dsimp only at hpos
      omega
    · rw [hphase] at hbusy
      cases hbusy
  | unpinOwed _ _ i rest =>
    exact .inr (.inr (.inl ⟨h.requests, rfl, h.waiter, h.need, h.left, h.failed, h.count,
      fun hp => (by cases hp), fun hp => (by cases hp)⟩))
  | failBatch _ _ hcalm _ _ howed =>
    exact .inr (.inr (.inr ⟨(failBatch_requests s).trans h.requests, rfl, hcalm, howed,
      .inl ⟨rfl, congrArg (fun v : View => v.active.present) (failBatch_view s)⟩⟩))

theorem Quiet.serve (h : Quiet C [] s g) (hwf : WF C (s, g)) {promise : Promise}
    (hstep : Step C promise (s, g) (s', g')) : Quiet C [] s' g' ∧ s'.batch = s.batch := by
  rcases hstep.background_or_service hwf with hb | hs
  · exact ⟨h.background hb, hb.batch⟩
  · obtain ⟨hq, hbatch, _⟩ := h.service hs
    exact ⟨hq, hbatch⟩

theorem Underway.step (h : Underway C b layer missing (s, g)) (hwf : WF C (s, g))
    (hnodup : missing.Nodup) (hpos : 0 < missing.length) {promise : Promise}
    (hstep : Step C promise (s, g) (s', g')) : Underway C b layer missing (s', g') := by
  rcases h with h | h | h | h
  · rcases hstep.background_or_service hwf with hb | hs
    · exact .inl ⟨h.quiet.background hb, (congrFun hb.batch b).trans h.batch⟩
    · exact h.service hs
  · rcases hstep.background_or_service hwf with hb | hs
    · exact .inr (.inl (h.background hb))
    · exact h.service hpos hs
  · rcases hstep.background_or_service hwf with hb | hs
    · exact .inr (.inr (.inl (h.background hb)))
    · exact h.service hnodup hs
  · exact .inr (.inr (.inr (h.serve hwf hstep).1))

theorem Underway.wakes (h : Underway C b layer missing (s, g)) (hpos : 0 < missing.length)
    (hwake : missing.length ≤ (s.batch b).done ∨ (s.batch b).failed = true) :
    Quiet C [] s g := by
  have hasleep : ∀ {β : Batch}, s.batch b = β → β.done < missing.length → β.failed = false →
      False := by
    rintro β rfl hlt hfailed
    rcases hwake with hle | hfail
    · omega
    · rw [hfailed] at hfail
      cases hfail
  rcases h with h | h | h | h
  · exact (hasleep h.batch hpos rfl).elim
  · exact (hasleep h.batch hpos rfl).elim
  · exact (hasleep rfl h.count h.failed).elim
  · exact h

end stages

end PinLayer
end StreamMoE
