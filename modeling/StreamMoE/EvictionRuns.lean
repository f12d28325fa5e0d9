import StreamMoE.PinRuns
import StreamMoE.RequestStages

/-! One executing thread that pins through `pin_layer` only: whatever the scheduler evicts has no
pin, so that the drain loop of `evict` never waits. -/
namespace StreamMoE
namespace PinRuns

open AtomicProg ThreadLoop TransitionSystem SlotWord SchedConfig Sched SchedRuns PinLayer
open PinProtection

variable {C : Config}

/-- The executing thread beside the scheduler. It pins only while no slot is known to be idle. -/
def waiterContract (C : Config) : Contract Sys Ghost where
  inv x := WF C x ∧ Unpinned x
  rely x y := Step C .nothing x y ∨ (y.2 = x.2 ∧ ∃ a, Aside a ∧ envStep x.1 a = some y.1)
  guar x y := y.2 = x.2 ∧
    (y.1 = x.1 ∨ ∃ a, envStep x.1 a = some y.1 ∧ ∀ h i, a = .tryPin h i → x.2.idle = [])
  rely_inv := by
    rintro ⟨s, g⟩ ⟨s', g'⟩ ⟨hwf, hun⟩ (hstep | ⟨hg, a, ha, hstep⟩)
    · exact ⟨hstep.wf hwf, hun.step hwf hstep⟩
    · dsimp only at hg hstep
      subst hg
      refine ⟨hwf.env hstep, hun.env hwf hstep ?_⟩
      rintro h i rfl
      exact ha.elim
  guar_inv := by
    rintro ⟨s, g⟩ ⟨s', g'⟩ ⟨hwf, hun⟩ ⟨hg, hcases⟩
    dsimp only at hg hcases
    subst hg
    rcases hcases with rfl | ⟨a, hstep, hpin⟩
    · exact ⟨hwf, hun⟩
    · exact ⟨hwf.env hstep, hun.env hwf hstep hpin⟩
  guar_refl _ := ⟨rfl, .inl rfl⟩

def AtQuiet (C : Config) (x : Sys × Ghost) : Prop := Quiet C [] x.1 x.2

theorem stable_quiet : Stable (waiterContract C) (AtQuiet C) := by
  rintro ⟨s, g⟩ ⟨s', g'⟩ ⟨hwf, _⟩ (hstep | ⟨hg, a, ha, hstep⟩) h
  · exact (Quiet.serve h hwf hstep).1
  · dsimp only at hg hstep
    subst hg
    exact Quiet.sameAsk h (sameAsk_aside ha hstep)

section exec

variable {x : Sys × Ghost} {b layer : ℕ}

/-- An access of the executing thread that another thread could make. -/
theorem guar_act {y : Sys × Ghost} {a : EnvAct} {t : Sys} (hq : AtQuiet C y)
    (ha : envStep y.1 a = some t) : (waiterContract C).guar y (t, y.2) :=
  ⟨rfl, .inr ⟨a, ha, fun _ _ _ => hq.idle⟩⟩

theorem quiet_act {y : Sys × Ghost} {t : Sys} (hq : AtQuiet C y) (hs : SameAsk y.1 t) :
    AtQuiet C (t, y.2) := Quiet.sameAsk hq hs

theorem waiter_pinHits (es : List ℕ) {out : List Handle} {missing : List ℕ}
    (hx : (waiterContract C).inv x) (h : AtQuiet C x) (hnodup : (missing ++ es).Nodup) :
    Safe (waiterContract C) (pinHits C b layer es out missing)
      (fun r y => AtQuiet C y ∧ r.2.Nodup) x := by
  induction es generalizing x out missing with
  | nil =>
    refine Safe.ret stable_quiet hx h ?_
    intro y _ hq
    exact ⟨hq, by simpa using hnodup⟩
  | cons e es ih =>
    have hmiss : (missing ++ [e] ++ es).Nodup := by simpa using hnodup
    have hhit : (missing ++ es).Nodup :=
      hnodup.sublist ((List.sublist_cons_self e es).append_left missing)
    refine Safe.bind hx (Safe.mono ?_ (rule_scanPools stable_quiet e (List.range C.nPools) hx h))
    intro r y hy hq
    cases r with
    | none => exact ih hy hq hmiss
    | some ip =>
      obtain ⟨i, pool⟩ := ip
      refine Safe.getModify stable_quiet hy hq ?_
      intro z hz hqz
      have hpin := guar_act (a := .tryPin (.batch (some b)) i) hqz rfl
      have hz' := (waiterContract C).guar_inv z _ hz hpin
      have hqz' := quiet_act hqz (sameAsk_tryPin z.1 (.batch (some b)) i)
      refine ⟨_, hpin, ?_⟩
      split
      · exact ih hz' hqz' hmiss
      · refine Safe.getModify stable_quiet hz' hqz' ?_
        intro t ht hqt
        have htoken := guar_act (a := .nextToken) hqt rfl
        refine ⟨_, htoken, ?_⟩
        refine Safe.modify stable_quiet ((waiterContract C).guar_inv t _ ht htoken)
          (quiet_act hqt ⟨rfl, rfl, rfl⟩) ?_
        intro u hu hqu
        have htouch := guar_act (a := .touch layer e ((t.1.token + 1) % 2 ^ 64)) hqu rfl
        exact ⟨_, htouch, ih ((waiterContract C).guar_inv u _ hu htouch)
          (quiet_act hqu ⟨rfl, rfl, rfl⟩) hhit⟩

theorem quiet_unpin (y : Sys × Ghost) (a : Handle) (_ : (waiterContract C).inv y) (hq : AtQuiet C y) :
    let s := if a.slot < C.geometry.numSlots then y.1.unpin (.batch (some b)) a.slot else y.1
    ∃ g, (waiterContract C).guar y (s, g) ∧ AtQuiet C (s, g) := by
  refine ⟨y.2, ?_, quiet_act hq ?_⟩
  · rcases unpinHandle_env (C := C) b a y.1 with hsame | ⟨c, hc⟩
    · exact ⟨rfl, .inl hsame⟩
    · exact guar_act hq hc
  · split <;> exact ⟨rfl, rfl, rfl⟩

/-- The batch is reset and nothing of it is under way. -/
def AtReset (C : Config) (b : ℕ) (x : Sys × Ghost) : Prop :=
  AtQuiet C x ∧ x.1.batch b = ⟨0, false⟩

theorem stable_reset : Stable (waiterContract C) (AtReset C b) := by
  rintro ⟨s, g⟩ ⟨s', g'⟩ ⟨hwf, _⟩ (hstep | ⟨hg, a, ha, hstep⟩) ⟨hq, hbatch⟩
  · obtain ⟨hq', hsame⟩ := Quiet.serve hq hwf hstep
    exact ⟨hq', (congrFun hsame b).trans hbatch⟩
  · dsimp only at hg hstep
    subst hg
    have hsame := sameAsk_aside ha hstep
    exact ⟨Quiet.sameAsk hq hsame, (congrFun hsame.batch b).trans hbatch⟩

theorem stable_underway {missing : List ℕ} (hnodup : missing.Nodup) (hpos : 0 < missing.length) :
    Stable (waiterContract C) (Underway C b layer missing) := by
  rintro ⟨s, g⟩ ⟨s', g'⟩ ⟨hwf, _⟩ (hstep | ⟨hg, a, ha, hstep⟩) h
  · exact h.step hwf hnodup hpos hstep
  · dsimp only at hg hstep
    subst hg
    exact h.sameAsk (sameAsk_aside ha hstep)

/-- The thread pins, asks, waits and goes on, and returns with nothing under way. -/
theorem waiter_pinLayer (c : PinCall) (hx : (waiterContract C).inv x) (h : AtQuiet C x) :
    Safe (waiterContract C) (c.prog C) (fun _ => AtQuiet C) x := by
  have hret : ∀ (r : PinResult) (y : Sys × Ghost), (waiterContract C).inv y → AtQuiet C y →
      Safe (waiterContract C) (.ret r) (fun _ => AtQuiet C) y :=
    fun r y hy hq => Safe.ret stable_quiet hy hq fun _ _ hz => hz
  unfold PinCall.prog pinLayer
  dsimp only
  split
  · exact hret _ x hx h
  · split
    · exact hret _ x hx h
    · split
      · exact hret _ x hx h
      · have hwant : ([] ++ (List.range C.topo.nExpert).filter c.needed).Nodup :=
          List.nodup_range.filter _
        refine Safe.bind hx (Safe.mono ?_ (waiter_pinHits _ hx h hwant))
        rintro ⟨out, missing⟩ y hy ⟨hq, hnodup⟩
        dsimp only at hnodup ⊢
        split
        · exact hret _ y hy hq
        · rename_i hne
          have hpos : 0 < missing.length := Nat.pos_of_ne_zero hne
          refine Safe.modify stable_quiet hy hq ?_
          intro z hz hqz
          have hreset := guar_act (a := .resetBatch c.batch) hqz rfl
          have hat : AtReset C c.batch (resetBatch c.batch z.1, z.2) :=
            ⟨⟨hqz.requests, hqz.idle, hqz.calm, hqz.owed, hqz.phase⟩, Function.update_self ..⟩
          refine ⟨_, hreset, ?_⟩
          refine Safe.act stable_reset ((waiterContract C).guar_inv z _ hz hreset) hat ?_
          intro t ht ⟨hqt, hbatch⟩ t' hpush
          have hguar : (waiterContract C).guar t (t', t.2) :=
            guar_act (a := .push (requestFor c.batch c.layer missing)) hqt hpush
          have hasked : Underway C c.batch c.layer missing (t', t.2) := by
            unfold push at hpush
            split at hpush
            · cases hpush
              refine .inl ⟨⟨?_, hqt.idle, hqt.calm, hqt.owed, hqt.phase⟩, hbatch⟩
              dsimp only
              rw [hqt.requests]
              rfl
            · cases hpush
          refine ⟨_, hguar, ?_⟩
          refine Safe.await (stable_underway hnodup hpos)
            ((waiterContract C).guar_inv _ _ ht hguar) hasked ?_
          intro u hu hunder hwake
          have hqu : AtQuiet C u := hunder.wakes hpos (by simpa using hwake)
          refine ⟨_, (waiterContract C).guar_refl u, ?_⟩
          refine Safe.get stable_quiet hu hqu ?_
          intro v hv hqv
          split
          · refine Safe.bind hv (Safe.mono ?_ (rule_unpinHandles stable_quiet quiet_unpin out hv hqv))
            intro _ w hw hqw
            exact hret _ w hw hqw
          · exact rule_collect stable_quiet quiet_unpin _ missing hv hqv

end exec

theorem compatible_pair : Compatible (schedContract C .nothing) (waiterContract C) where
  left _ _ _ _ hstep := .single (.inl hstep)
  right := by
    rintro ⟨s, g⟩ ⟨s', g'⟩ _ _ ⟨hg, hcases⟩
    dsimp only at hg hcases
    subst hg
    rcases hcases with rfl | ⟨a, ha, _⟩
    · exact .refl
    · exact .single ⟨rfl, a, ha⟩

/-- The executing thread is the only one that pins, resets its batch and asks, and it does so in
`pin_layer` only. -/
def OneExecutor (_ : Pair) : PairAct → Prop
  | .sched (.env a) => Aside a
  | _ => True

/-- What is left of the latest call. -/
def Pair.exec (x : Pair) : Prog Sys PinResult :=
  match x.call with
  | none => .ret (.pinned 0 [])
  | some (_, p) => p

/-- Scheduler and executing thread in a reachable state. -/
structure Together (C : Config) (x : Pair) (g : Ghost) : Prop where
  both : Both (schedContract C .nothing) (waiterContract C) x.sched.prog x.exec
    (fun _ => At AtRest) (fun _ => AtQuiet C) (x.sched.state, g)
  makes : Makes StaysEvicting AccessOrPop x.sched.prog x.sched.state

theorem initialSys_quiet (C : Config) : AtQuiet C (initialSys C, initialGhost) :=
  ⟨rfl, rfl, fun _ _ h => (by cases h), rfl, .inl ⟨rfl, rfl⟩⟩

theorem initialSys_unpinned (C : Config) : Unpinned (initialSys C, initialGhost) := by
  have hreads : Reads (slotWord SlotState.empty.code 0 0) .empty 0 0 :=
    reads_slotWord .empty (by decide) (by decide)
  exact ⟨fun _ h => (by cases h), fun _ _ => hreads.refcount⟩

theorem Together.init {x : Pair} (h : (pairSystem C).init x) : Together C x initialGhost := by
  obtain ⟨hsched, hcall⟩ := h
  obtain ⟨⟨s, p⟩, call⟩ := x
  cases hsched
  cases hcall
  have hwaiter : (waiterContract C).inv (initialSys C, initialGhost) :=
    ⟨initialSys_wf C, initialSys_unpinned C⟩
  have hinv : (schedContract C .nothing).inv (initialSys C, initialGhost) :=
    ⟨initialSys_wf C, fun _ => initialSys_noFailure C, fun _ => initialSys_noneAbandoned C⟩
  exact ⟨⟨hinv, hwaiter, Safe.ret (stable_at AtRest) hinv (initialSys_atRest C) fun _ _ hy => hy,
    Safe.ret stable_quiet hwaiter (initialSys_quiet C) fun _ _ hy => hy⟩, trivial⟩

theorem Together.step {x x' : Pair} {g : Ghost} {a : PairAct} (h : Together C x g)
    (ha : OneExecutor x a) (hstep : pairStep C x a = some x') : ∃ g', Together C x' g' ∧
      (x'.sched.state = x.sched.state ∨ Step C .nothing (x.sched.state, g) (x'.sched.state, g') ∨
        ∃ e, envStep x.sched.state e = some x'.sched.state) := by
  obtain ⟨⟨s, p⟩, call⟩ := x
  have hboth := h.both
  cases a with
  | sched a =>
    obtain ⟨r, hr, rfl⟩ := Option.map_eq_some_iff.mp hstep
    cases a with
    | call c =>
      cases p with
      | ret u =>
        cases hr
        refine ⟨g, ⟨⟨hboth.invLeft, hboth.invRight, ?_, hboth.right⟩, makes_call c s⟩, .inl rfl⟩
        exact safe_call (honored_nothing c) hboth.invLeft (hboth.left.result hboth.invLeft)
      | act f k => cases hr
    | step =>
      cases p with
      | ret u => cases hr
      | act f k =>
        obtain ⟨t, ht, rfl⟩ := Option.map_eq_some_iff.mp hr
        obtain ⟨g', hguar, hboth'⟩ := hboth.stepLeft compatible_pair ht
        exact ⟨g', ⟨hboth', h.makes.step ht⟩, .inr (.inl hguar)⟩
    | env e =>
      obtain ⟨t, ht, rfl⟩ := Option.map_eq_some_iff.mp hr
      refine ⟨g, ⟨hboth.aside (y := (t, g)) ⟨rfl, e, ht⟩ (.inr ⟨rfl, e, ha, ht⟩), ?_⟩,
        .inr (.inr ⟨e, ht⟩)⟩
      exact h.makes.stable (.single (staysEvicting_env ht))
  | begin c =>
    simp only [pairStep] at hstep
    have hquiet : AtQuiet C (s, g) ∧ x' = ⟨⟨s, p⟩, some (c, c.prog C)⟩ := by
      split at hstep
      · cases hstep
      · rename_i hidle
        refine ⟨?_, (Option.some.inj hstep).symm⟩
        have hright := hboth.right
        cases hcall : call with
        | none =>
          subst hcall
          exact hright.result hboth.invRight
        | some d =>
          subst hcall
          obtain ⟨c', q⟩ := d
          cases q with
          | ret r => exact hright.result hboth.invRight
          | act f k => exact absurd rfl (hidle c' f k)
    obtain ⟨hq, rfl⟩ := hquiet
    exact ⟨g, ⟨⟨hboth.invLeft, hboth.invRight, hboth.left,
      waiter_pinLayer c hboth.invRight hq⟩, h.makes⟩, .inl rfl⟩
  | exec =>
    simp only [pairStep] at hstep
    split at hstep
    · rename_i c f k
      obtain ⟨t, ht, rfl⟩ := Option.map_eq_some_iff.mp hstep
      obtain ⟨g', ⟨hg, hcases⟩, hboth'⟩ := Both.stepRight compatible_pair hboth ht
      refine ⟨g', ⟨hboth', ?_⟩, ?_⟩
      · rcases hcases with hsame | ⟨e, he, _⟩
        · exact h.makes.stable (.single (StaysEvicting.of_word (congrArg Sys.word hsame)))
        · exact h.makes.stable (.single (staysEvicting_env he))
      · rcases hcases with hsame | ⟨e, he, _⟩
        · exact .inl hsame
        · exact .inr (.inr ⟨e, he⟩)
    · cases hstep

theorem together_of_reach {x : Pair} (h : Reach (pairSystem C) OneExecutor x) :
    ∃ g, Together C x g := by
  induction h with
  | init h => exact ⟨initialGhost, .init h⟩
  | step _ ha hstep ih =>
    obtain ⟨g, hg⟩ := ih
    obtain ⟨g', hg', _⟩ := hg.step ha hstep
    exact ⟨g', hg'⟩

/-- Whatever runs between `begin_evict` and the end of an eviction, the slot has no pin, and the only
access the scheduler ever waits at is the report of a device. -/
theorem eviction_never_waits {x : Pair} (h : Reach (pairSystem C) OneExecutor x) :
    (∀ i, Evicting x.sched.state i → slotWordRefcount (x.sched.state.word i) = 0) ∧
    (∀ a x', OneExecutor x a → pairStep C x a = some x' → ∀ i,
      (SlotWord.beginEvict (x.sched.state.word i) = some (x'.sched.state.word i) →
        slotWordRefcount (x.sched.state.word i) = 0) ∧
      (Evicting x.sched.state i → Evicting x'.sched.state i ∨
        x'.sched.state.word i = SlotWord.beginReload (x.sched.state.word i) ∨
        x'.sched.state.word i = SlotWord.releaseToEmpty (x.sched.state.word i))) ∧
    ∀ f k, x.sched.prog = .act f k → f x.sched.state = none →
      ∃ idx ok, f = fun s => s.takeEvent idx ok := by
  obtain ⟨g, hg⟩ := together_of_reach h
  obtain ⟨hwf, hun⟩ := hg.both.invRight
  refine ⟨hun.evicting, ?_, ?_⟩
  · intro a x' ha hstep i
    obtain ⟨g', hg', hcases⟩ := hg.step ha hstep
    refine ⟨?_, ?_⟩
    · intro hbegin
      -- the word keeps its refcount, and the slot is EVICTING now
      have hready : slotWordState (x.sched.state.word i) = SlotState.ready.code := by
        by_contra hne
        rw [SlotWord.beginEvict, if_neg hne] at hbegin
        cases hbegin
      have hreads : Reads (x.sched.state.word i) .ready (slotWordRefcount (x.sched.state.word i))
          (slotWordGeneration (x.sched.state.word i)) := ⟨hready, rfl, rfl⟩
      obtain ⟨w, hw, hr⟩ := hreads.beginEvict
      rw [hbegin] at hw
      cases hw
      have hzero := hg'.both.invRight.2.evicting i hr.state
      exact hr.refcount.symm.trans hzero
    · intro hev
      rcases hcases with hsame | hstep' | ⟨e, he⟩
      · exact .inl (StaysEvicting.of_word (congrArg Sys.word hsame) i hev)
      · rcases Step.word_evicting hwf hun hstep' hev with hword | hword
        · left
          rw [Evicting, hword]
          exact hev
        · exact .inr hword
      · exact .inl (staysEvicting_env he i hev)
  · intro f k hprog hblocked
    have hmakes := hg.makes
    rw [hprog] at hmakes
    rcases hmakes.access.mayWait hblocked with htake | ⟨i, hev, hpins⟩
    · exact htake
    · exact absurd (hun.evicting i hev) hpins

section small

/-- A call loads and pins the expert of one layer. -/
def serveRun (layer : ℕ) : List PairAct :=
  .begin ⟨layer, fun e => e == 0, 1, 0⟩ :: List.replicate 3 .exec ++
    [.sched (.call (.accept smallOracle))]

/-- The expert of the first layer is loaded, pinned and given back; the thread then waits for that of
the second, and the scheduler stands before the drain loop. -/
def evictRun : List PairAct :=
  serveRun 0 ++ List.replicate 10 (.sched .step) ++
    .sched (.env (.land 15)) :: .sched (.call (.drainCompletions [(15, true)])) ::
      (List.replicate 8 (.sched .step) ++ List.replicate 5 .exec ++
        .sched (.env (.unpin (.batch (some 0)) 0)) ::
          (serveRun 1 ++ List.replicate 14 (.sched .step)))

theorem oneExecutor_serveRun {layer : ℕ} {a : PairAct} (ha : a ∈ serveRun layer) (x : Pair) :
    OneExecutor x a := by
  simp only [serveRun, List.cons_append, List.mem_cons, List.mem_append, List.mem_replicate,
    List.not_mem_nil, or_false] at ha
  rcases ha with rfl | ⟨_, rfl⟩ | rfl <;> trivial

theorem oneExecutor_evictRun : ∀ a ∈ evictRun, ∀ x, OneExecutor x a := by
  intro a ha x
  simp only [evictRun, List.mem_cons, List.mem_append, List.mem_replicate] at ha
  rcases ha with (ha | ⟨_, rfl⟩) | rfl | rfl | (⟨_, rfl⟩ | ⟨_, rfl⟩) | rfl | ha | ⟨_, rfl⟩
  · exact oneExecutor_serveRun ha x
  · trivial
  · trivial
  · trivial
  · trivial
  · trivial
  · trivial
  · exact oneExecutor_serveRun ha x
  · trivial

theorem eviction_never_waits_onSecondLayer :
    ∃ x : Pair, x.result = none ∧ Evicting x.sched.state 0 ∧
      slotWordRefcount (x.sched.state.word 0) = 0 ∧
      ∀ f k, x.sched.prog = .act f k → f x.sched.state = none →
        ∃ idx ok, f = fun s => s.takeEvent idx ok := by
  have hrun : (run (pairSystem smallConfig) evictRun ⟨start smallConfig, none⟩).any
      (fun x => x.result.isNone && decide (slotWordState (x.sched.state.word 0) =
        SlotState.evicting.code)) = true := by
    decide +kernel
  cases hx : run (pairSystem smallConfig) evictRun ⟨start smallConfig, none⟩ with
  | none =>
    rw [hx] at hrun
    cases hrun
  | some x =>
    rw [hx] at hrun
    simp only [Option.any_some, Bool.and_eq_true, Option.isNone_iff_eq_none,
      decide_eq_true_eq] at hrun
    have hinit : (pairSystem smallConfig).init ⟨start smallConfig, none⟩ := ⟨rfl, rfl⟩
    have hreach : Reach (pairSystem smallConfig) OneExecutor x :=
      Reach.run_of_forall _ oneExecutor_evictRun (.init hinit) hx
    obtain ⟨hzero, _, hwaits⟩ := eviction_never_waits hreach
    exact ⟨x, hrun.1, hrun.2, hzero 0 hrun.2, hwaits⟩

end small

end PinRuns
end StreamMoE
