import StreamMoE.PinOutcome
import StreamMoE.PinRuns

/-! Runs of the scheduler, one executing thread and other threads: whatever the order of their steps, a
call of `pin_layer` takes one pin for every needed expert or leaves no refcount changed. -/
namespace StreamMoE
namespace PinLayer

open AtomicProg ThreadLoop TransitionSystem SlotWord SchedConfig Sched SchedRuns PinProtection
open PinRuns (PinCall)

/-- The scheduler, the latest call of the executing thread, and what the two have added to and taken
from the refcounts since that call began. -/
structure Party where
  sched : SchedRuns.State
  call : Option (PinCall × Prog Sys PinResult)
  tally : Tally

/-- Steps of the scheduler thread, of the executing thread, and of the others. -/
inductive PartyAct
  | call (o : Call)
  | step
  | begin (c : PinCall)
  | exec
  | release (b i : ℕ)
  | other (a : EnvAct)

def underway : Option (PinCall × Prog Sys PinResult) → Bool
  | some (_, .act _ _) => true
  | _ => false

/-- A call begins with an empty tally, and handles are given back between calls. -/
def partyStep (C : Config) (x : Party) : PartyAct → Option Party
  | .call o => ((system C).step x.sched (.call o)).map fun r => { x with sched := r }
  | .step =>
      ((system C).step x.sched .step).map fun r =>
        { x with sched := r, tally := x.tally.add x.sched.state r.state }
  | .begin c =>
      if underway x.call then none
      else some { x with call := some (c, c.prog C), tally := .zero }
  | .exec =>
      match x.call with
      | some (c, .act f k) =>
          (f x.sched.state).map fun t =>
            { sched := { x.sched with state := t }, call := some (c, k x.sched.state),
              tally := x.tally.add x.sched.state t }
      | _ => none
  | .release b i =>
      if underway x.call then none
      else
        (envStep x.sched.state (.unpin (.batch (some b)) i)).map fun t =>
          { x with sched := { x.sched with state := t }, call := none }
  | .other a =>
      (envStep x.sched.state a).map fun t => { x with sched := { x.sched with state := t } }

def partySystem (C : Config) : Machine Party PartyAct :=
  { init := fun x => (system C).init x.sched ∧ x.call = none, step := partyStep C }

/-- One thread calls `pin_layer`. The others pin for themselves and give back what they pinned. -/
def OneThread (_ : Party) : PartyAct → Prop
  | .other a => OtherAct a
  | _ => True

def PinCall.wanted (C : Config) (c : PinCall) : List ℕ := (List.range C.topo.nExpert).filter c.needed

/-- What a call leaves behind, for the pins its batch had before. -/
def Outcome (C : Config) (c : PinCall) (r : PinResult) (x : World) : Prop :=
  ∃ L, Delivered C c.batch c.layer (PinCall.wanted C c) L r x ∨ Withdrawn C c.batch L r x

variable {C : Config} {x x' : Party} {g : Ghost}

/-- Nothing of a request is under way, and pins are on resident slots. -/
def Resting (C : Config) (y : World) : Prop := Quiet C [] y.1 y.2.1 ∧ AllBound y

theorem stable_resting : Stable (execContract C) (Resting C) := by
  rintro ⟨s, g, t⟩ ⟨s', g', t'⟩ hinv hrely ⟨hq, hbound⟩
  refine ⟨?_, stable_allBound _ _ hinv hrely hbound⟩
  rcases hrely with ⟨hstep, _⟩ | ⟨hg, a, ha, hstep⟩
  · exact (hq.step hinv.1 hinv.2 hstep).1
  · cases hg
    exact hq.beside (beside_of_other (b := 0) ha hstep)

theorem Outcome.resting {c : PinCall} {r : PinResult} {y : World} (h : Outcome C c r y) : Resting C y := by
  rcases h with ⟨L, ⟨out, _, _, _, β, h⟩ | ⟨why, _, _, β, τ, _, h⟩⟩ <;> exact ⟨h.still.quiet, h.bound⟩

/-- Both threads in a reachable state, and the tally as ghost data of the executing one. -/
structure Together (C : Config) (x : Party) (g : Ghost) : Prop where
  schedInv : (schedContract C .nothing).inv (x.sched.state, g)
  execInv : (execContract C).inv (x.sched.state, g, x.tally)
  sched : Safe (schedContract C .nothing) x.sched.prog (fun _ => At AtRest) (x.sched.state, g)
  exec : ∀ c p, x.call = some (c, p) → Safe (execContract C) p (Outcome C c) (x.sched.state, g, x.tally)
  idle : x.call = none → Resting C (x.sched.state, g, x.tally)

theorem Together.resting (h : Together C x g) (hcall : underway x.call = false) :
    Resting C (x.sched.state, g, x.tally) := by
  cases hx : x.call with
  | none => exact h.idle hx
  | some cp =>
    obtain ⟨c, p⟩ := cp
    cases p with
    | ret r => exact ((h.exec c (.ret r) hx).result h.execInv).resting
    | act f k =>
      rw [hx] at hcall
      cases hcall

theorem Together.init (h : (partySystem C).init x) : Together C x initialGhost := by
  obtain ⟨hsched, hcall⟩ := h
  obtain ⟨⟨s, p⟩, call, tally⟩ := x
  cases hsched
  cases hcall
  have hinv : (schedContract C .nothing).inv (initialSys C, initialGhost) :=
    ⟨initialSys_wf C, fun _ => initialSys_noFailure C, fun _ => initialSys_noneAbandoned C⟩
  refine ⟨hinv, ⟨initialSys_wf C, initialSys_pinsOk C⟩, ?_, fun c p hc => (by cases hc), fun _ => ⟨?_, ?_⟩⟩
  · exact Safe.ret (stable_at AtRest) hinv (initialSys_atRest C) fun _ _ hy => hy
  · exact ⟨rfl, rfl, fun _ _ h => (by cases h), rfl, .inl ⟨rfl, rfl⟩⟩
  · exact fun b p hp => absurd hp List.not_mem_nil

theorem safe_begin {y : World} (c : PinCall) (hy : (execContract C).inv y) (h : Resting C y) :
    Safe (execContract C) (c.prog C) (Outcome C c) (y.1, y.2.1, .zero) := by
  have hheld : Held C c.batch (mine c.batch y.1) (y.1.batch c.batch) .zero nothing (y.1, y.2.1, .zero) :=
    ⟨⟨h.1, h.2 c.batch, .refl _, rfl, rfl, fun _ _ hn => False.elim hn⟩, h.2⟩
  refine Safe.mono ?_ (held_pinLayer hy hheld)
  exact fun r z _ hr => ⟨_, hr⟩

/-- A step that the executing thread may rely on, and that leaves the scheduler's program as it was. -/
theorem Together.beside {s : Sys} {t : Tally} (h : Together C x g)
    (hsched : (schedContract C .nothing).rely (x.sched.state, g) (s, g))
    (hexec : (execContract C).rely (x.sched.state, g, x.tally) (s, g, t)) :
    Together C { x with sched := { x.sched with state := s }, tally := t } g :=
  ⟨(schedContract C .nothing).rely_inv _ _ h.schedInv hsched, (execContract C).rely_inv _ _ h.execInv hexec,
    h.sched.stable (.single hsched), fun c p hc => (h.exec c p hc).stable (.single hexec),
    fun hc => stable_resting _ _ h.execInv hexec (h.idle hc)⟩

theorem Together.step {a : PartyAct} (h : Together C x g) (ha : OneThread x a)
    (hstep : partyStep C x a = some x') : ∃ g', Together C x' g' := by
  obtain ⟨⟨s, p⟩, call, tally⟩ := x
  cases a with
  | call o =>
    obtain ⟨r, hr, rfl⟩ := Option.map_eq_some_iff.mp hstep
    cases p with
    | ret u =>
      cases hr
      refine ⟨g, h.schedInv, h.execInv, ?_, h.exec, h.idle⟩
      exact safe_call (honored_nothing o) h.schedInv (h.sched.result h.schedInv)
    | act f k => cases hr
  | step =>
    obtain ⟨r, hr, rfl⟩ := Option.map_eq_some_iff.mp hstep
    cases p with
    | ret u => cases hr
    | act f k =>
      obtain ⟨t, ht, rfl⟩ := Option.map_eq_some_iff.mp hr
      obtain ⟨g', hguar, hk⟩ := h.sched.step h.schedInv ht
      have hrely : (execContract C).rely (s, g, tally) (t, g', tally.add s t) := .inl ⟨hguar, rfl⟩
      exact ⟨g', (schedContract C .nothing).guar_inv _ _ h.schedInv hguar,
        (execContract C).rely_inv _ _ h.execInv hrely, hk,
        fun c p hc => (h.exec c p hc).stable (.single hrely),
        fun hc => stable_resting _ _ h.execInv hrely (h.idle hc)⟩
  | begin c =>
    simp only [partyStep] at hstep
    split at hstep
    · cases hstep
    · rename_i hidle
      cases hstep
      have hrest := h.resting (by simpa using hidle)
      refine ⟨g, h.schedInv, h.execInv, h.sched, ?_, fun hc => by cases hc⟩
      intro c' p' hc
      cases hc
      exact safe_begin c h.execInv hrest
  | exec =>
    simp only [partyStep] at hstep
    split at hstep
    · rename_i c f k
      obtain ⟨t, ht, rfl⟩ := Option.map_eq_some_iff.mp hstep
      obtain ⟨⟨g', t'⟩, ⟨hg, hcases⟩, hk⟩ := (h.exec c _ rfl).step h.execInv ht
      have hg' : g' = g := congrArg Prod.fst hg
      have ht' : t' = tally.add s t := congrArg Prod.snd hg
      subst hg' ht'
      have hrely : (schedContract C .nothing).relies (s, g') (t, g') := by
        rcases hcases with hsame | ⟨a, _, ha⟩
        · dsimp only at hsame
          rw [hsame]
          exact .refl
        · exact .single ⟨rfl, a, ha⟩
      refine ⟨g', (schedContract C .nothing).relies_inv hrely h.schedInv,
        (execContract C).guar_inv _ _ h.execInv ⟨rfl, hcases⟩, h.sched.stable hrely, ?_,
        fun hc => by cases hc⟩
      intro c' p' hc
      cases hc
      exact hk
    · cases hstep
  | release b i =>
    simp only [partyStep] at hstep
    split at hstep
    · cases hstep
    · rename_i hidle
      obtain ⟨t, ht, rfl⟩ := Option.map_eq_some_iff.mp hstep
      obtain ⟨hq, hbound⟩ := h.resting (by simpa using hidle)
      have hrely : (schedContract C .nothing).rely (s, g) (t, g) := ⟨rfl, _, ht⟩
      have hinv := exec_inv (a := .unpin (.batch (some b)) i) h.execInv ⟨b, rfl⟩ ht
      have hpins : ∀ p ∈ t.pins, p ∈ s.pins := by
        simp only [envStep] at ht
        split at ht
        · cases ht
          exact fun p hp => List.mem_of_mem_eraseP hp
        · cases ht
      refine ⟨g, (schedContract C .nothing).rely_inv _ _ h.schedInv hrely, hinv,
        h.sched.stable (.single hrely), fun c p hc => (by cases hc), fun _ => ⟨?_, ?_⟩⟩
      · exact hq.sameAsk (sameAsk_aside (a := .unpin (.batch (some b)) i) trivial ht)
      · exact fun b' => (hbound b').of_pins hpins rfl fun _ hi => hi
  | other a =>
    obtain ⟨t, ht, rfl⟩ := Option.map_eq_some_iff.mp hstep
    exact ⟨g, h.beside ⟨rfl, a, ht⟩ (.inr ⟨rfl, a, ha, ht⟩)⟩

theorem together_of_reach (h : Reach (partySystem C) OneThread x) : ∃ g, Together C x g := by
  induction h with
  | init h => exact ⟨initialGhost, .init h⟩
  | step _ ha hstep ih =>
    obtain ⟨g, hg⟩ := ih
    exact hg.step ha hstep

section outcome

variable {b layer : ℕ} {L : List Pin} {β : Batch} {τ : Tally} {R : ℕ → Key → Prop} {y : World}
  {out : List Handle} {a : Handle}

/-- A handle whose pin is out names the slot that holds its expert. -/
structure Valid (s : Sys) (layer : ℕ) (a : Handle) : Prop where
  layerEq : a.layer = layer
  ready : slotWordState (s.word a.slot) = SlotState.ready.code
  gen : slotWordGeneration (s.word a.slot) = a.gen
  content : s.content a.slot = some (layer, a.expert)
  dir : s.dir a.key = ⟨.ready, some a.slot⟩

theorem Held.resident (h : Held C b (L ++ out.map (Handle.pin b)) β τ R y) (hy : (execContract C).inv y)
    (ha : a ∈ out) (hplaced : Placed C layer a) : y.2.1.own a.slot = .resident a.key := by
  have hmine := h.still.mine.mem_iff.mpr (List.mem_append_right L (List.mem_map_of_mem ha))
  obtain ⟨k, hk, _, hc⟩ := h.still.bound _ (List.mem_filter.mp hmine).1 (.inr rfl)
  have hregion := hy.1.region a.slot k .ready
    (by dsimp only [Handle.pin] at hk ⊢; rw [hk]; rfl)
  have hpool : k.pool = a.pool := by
    obtain ⟨sp, hsp, hpool, _⟩ := hregion
    obtain ⟨sp', hsp', hpool', _⟩ := hplaced.2
    rw [hsp] at hsp'
    cases hsp'
    exact hpool.symm.trans hpool'
  obtain ⟨l, e, p⟩ := k
  cases hc
  cases hpool
  exact hk

theorem Held.valid (h : Held C b (L ++ out.map (Handle.pin b)) β τ R y) (hy : (execContract C).inv y)
    (ha : a ∈ out) (hplaced : Placed C layer a) : Valid y.1 layer a := by
  have hown := h.resident hy ha hplaced
  have hmine := h.still.mine.mem_iff.mpr (List.mem_append_right L (List.mem_map_of_mem ha))
  obtain ⟨hgen, hcontent⟩ := hy.2.held _ (List.mem_filter.mp hmine).1
  refine ⟨hplaced.1, ?_, hgen.symm, ?_, dir_of_resident hy hown⟩
  · have hstate := hy.1.state a.slot
    dsimp only at hstate
    rw [hstate, hown]
    rfl
  · rw [← hplaced.1]
    exact hcontent.symm

/-- Handles of distinct experts have distinct slots. -/
theorem Held.slots_nodup (h : Held C b (L ++ out.map (Handle.pin b)) β τ R y)
    (hy : (execContract C).inv y) (hplaced : ∀ a ∈ out, Placed C layer a)
    (hnodup : (out.map Handle.expert).Nodup) : (out.map Handle.slot).Nodup := by
  refine List.pairwise_map.mpr ((List.pairwise_map.mp hnodup).imp_of_mem ?_)
  intro a c ha hc hne hslot
  have hown := h.resident hy ha (hplaced a ha)
  have hown' := h.resident hy hc (hplaced c hc)
  rw [hslot, hown'] at hown
  exact hne (congrArg (Key.expert) (Owner.resident.inj hown)).symm

theorem countP_pins (b : ℕ) (out : List Handle) (i : ℕ) :
    (out.map (Handle.pin b)).countP (·.slot == i) = (out.map Handle.slot).count i := by
  rw [List.countP_map, List.count, List.countP_map]
  rfl

end outcome

/-- A call that has returned, and none of whose handles is given back yet, has taken one pin for each
needed expert and hands out the slots that hold them; or it returned -1 and every pin that was taken for
it is given back. The slot of an expert that was pinned for it is always found again. -/
theorem pinLayer_allOrNothing (h : Reach (partySystem C) OneThread x) {c : PinCall} {r : PinResult}
    (hr : x.call = some (c, .ret r)) :
    (∃ out, r = .pinned (PinCall.wanted C c).length out ∧
      (out.map Handle.expert).Perm (PinCall.wanted C c) ∧ (out.map Handle.slot).Nodup ∧
      (∀ a ∈ out, Valid x.sched.state c.layer a) ∧
      ∀ i, x.tally.given i = 0 ∧ x.tally.taken i = if i ∈ out.map Handle.slot then 1 else 0) ∨
    ∃ why, r = .failed why ∧ why ≠ .notFound ∧ ∀ i, x.tally.taken i = x.tally.given i := by
  obtain ⟨g, hg⟩ := together_of_reach h
  obtain ⟨L, ⟨out, rfl, hperm, hplaced, β, hheld⟩ | ⟨why, rfl, hwhy, β, τ, hτ, hheld⟩⟩ :=
    (hg.exec c (.ret r) hr).result hg.execInv
  · have hnodup : (out.map Handle.slot).Nodup :=
      hheld.slots_nodup hg.execInv hplaced (hperm.nodup_iff.mpr (List.nodup_range.filter _))
    have htally : x.tally = tallyOf (out.map (Handle.pin c.batch)) := hheld.still.tally
    refine .inl ⟨out, rfl, hperm, hnodup, fun a ha => hheld.valid hg.execInv ha (hplaced a ha), ?_⟩
    intro i
    rw [htally]
    refine ⟨rfl, ?_⟩
    rw [tallyOf]
    dsimp only
    rw [countP_pins]
    split
    · exact List.count_eq_one_of_mem hnodup ‹_›
    · exact List.count_eq_zero_of_not_mem ‹_›
  · have htally : x.tally = τ := hheld.still.tally
    rw [htally]
    exact .inr ⟨why, rfl, hwhy, hτ⟩

section small

def returned : Option (PinCall × Prog Sys PinResult) → Option PinResult
  | some (_, .ret r) => some r
  | _ => none

theorem call_of_returned {call : Option (PinCall × Prog Sys PinResult)} {r : PinResult}
    (h : returned call = some r) : ∃ c, call = some (c, .ret r) := by
  cases call with
  | none => cases h
  | some cp =>
    obtain ⟨c, p⟩ := cp
    cases p with
    | ret r' =>
      cases h
      exact ⟨c, rfl⟩
    | act f k => cases h

def twoExperts : Topology where
  nLayer := 1
  nExpert := 2
  groups := [{ layers := [0], expertSize := 1, totalBytes := 2, strides := [1] }]
  numTensors _ _ := 1

def twoSlots : Config := (SchedConfig.init twoExperts 2 (fun g => if g = 0 then 2 else 0) 1 0 []).get (by decide)

/-- The scheduler takes the request and drains the load that it starts. -/
def serve (n : ℕ) : List PartyAct :=
  .call (.accept smallOracle) :: (List.replicate n .step ++
    .other (.land 15) :: .call (.drainCompletions [(15, true)]) :: (List.replicate 8 .step ++ List.replicate 5 .exec))

/-- A call for one expert, whose handle is given back, and one for both: the first expert is resident by then, the
other is loaded. -/
def hitAndMissRun : List PartyAct :=
  .begin ⟨0, fun e => e == 0, 2, 0⟩ :: List.replicate 3 .exec ++ serve 12 ++
    .release 0 0 :: .begin ⟨0, fun _ => true, 2, 0⟩ :: List.replicate 8 .exec ++ serve 13

theorem oneThread_hitAndMissRun : ∀ a ∈ hitAndMissRun, ∀ x, OneThread x a := by
  have hall : hitAndMissRun.all (fun a => match a with
      | .other (.land _) => true
      | .other _ => false
      | _ => true) = true := by decide
  intro a ha x
  have hone := List.all_eq_true.mp hall a ha
  cases a with
  | other e =>
    cases e with
    | land i => trivial
    | _ => cases hone
  | _ => trivial

theorem pinLayer_allOrNothing_hitAndMiss :
    ∃ x : Party, returned x.call = some (.pinned 2 [⟨0, 1, 0, 0, 0⟩, ⟨1, 1, 0, 1, 0⟩]) ∧
      Valid x.sched.state 0 ⟨0, 1, 0, 0, 0⟩ ∧ Valid x.sched.state 0 ⟨1, 1, 0, 1, 0⟩ ∧
      ∀ i, x.tally.given i = 0 ∧ x.tally.taken i = if i ∈ [0, 1] then 1 else 0 := by
  have hrun : (run (partySystem twoSlots) hitAndMissRun ⟨start twoSlots, none, .zero⟩).any
      (fun x => decide (returned x.call = some (.pinned 2 [⟨0, 1, 0, 0, 0⟩, ⟨1, 1, 0, 1, 0⟩])) &&
        x.call.any fun cp => cp.1.layer == 0) = true := by
    decide +kernel
  cases hx : run (partySystem twoSlots) hitAndMissRun ⟨start twoSlots, none, .zero⟩ with
  | none =>
    rw [hx] at hrun
    cases hrun
  | some x =>
    rw [hx] at hrun
    simp only [Option.any_some, Bool.and_eq_true, decide_eq_true_eq] at hrun
    have hinit : (partySystem twoSlots).init ⟨start twoSlots, none, .zero⟩ := ⟨rfl, rfl⟩
    have hreach : Reach (partySystem twoSlots) OneThread x :=
      Reach.run_of_forall _ oneThread_hitAndMissRun (.init hinit) hx
    obtain ⟨c, hc⟩ := call_of_returned hrun.1
    have hlayer : c.layer = 0 := by simpa [hc] using hrun.2
    rcases pinLayer_allOrNothing hreach hc with ⟨out, hout, _, _, hvalid, htally⟩ | ⟨why, hwhy, _⟩
    · obtain ⟨_, rfl⟩ := PinResult.pinned.inj hout
      rw [hlayer] at hvalid
      exact ⟨x, hrun.1, hvalid _ List.mem_cons_self, hvalid _ (List.mem_cons_of_mem _ List.mem_cons_self), htally⟩
    · cases hwhy

end small

end PinLayer
end StreamMoE
