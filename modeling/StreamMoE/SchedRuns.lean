import Mathlib.Data.List.Nodup
import StreamMoE.SchedSafe
import StreamMoE.ThreadLoop

/-! Whole runs of the scheduler thread beside pinning threads, move worker and devices, and what
directory, slots and loads look like in every state they reach. -/
namespace StreamMoE
namespace SchedRuns

open AtomicProg ThreadLoop TransitionSystem SlotWord SchedConfig Sched

/-- The operations `worker_loop` calls. -/
inductive Call
  | accept (o : Oracle)
  | drainCompletions (done : List (ℕ × Bool))
  | drainMoves (n : ℕ)

def Call.prog (C : Config) : Call → Prog Sys Unit
  | .accept o => (acceptRequests C o).bind fun _ => .ret ()
  | .drainCompletions done => Sched.drainCompletions C done
  | .drainMoves n => Sched.drainMoves C n

abbrev State := Running Sys

abbrev Act := Label Call EnvAct

/-- The scheduler after `init`. -/
def worker (C : Config) : Loop Sys Call EnvAct :=
  { start := initialSys C, op := Call.prog C, env := envStep }

abbrev system (C : Config) : Machine State Act := (worker C).machine

/-- Every slice of every load is accepted and no completion reports an error. -/
def FaultFree (C : Config) (_ : State) : Act → Prop
  | .call (.accept o) => Accepts C o
  | .call (.drainCompletions done) => ∀ d ∈ done, d.2 = true
  | _ => True

variable {C : Config}

/-- What an operation meets fits the promise. -/
def Honored (C : Config) (promise : Promise) : Call → Prop
  | .accept o => Honors C promise o
  | .drainCompletions done => promise.sound → ∀ d ∈ done, d.2 = true
  | .drainMoves _ => True

theorem honored_nothing (c : Call) : Honored C .nothing c := by
  cases c with
  | accept o => exact ⟨fun h => h.elim, fun h => h.elim⟩
  | drainCompletions done => exact fun h => h.elim
  | drainMoves n => trivial

theorem FaultFree.honored {r : State} {c : Call} (h : FaultFree C r (.call c)) (promise : Promise) :
    Honored C promise c := by
  cases c with
  | accept o => exact Accepts.honors h
  | drainCompletions done => exact fun _ => h
  | drainMoves n => trivial

theorem initialSys_wf (C : Config) : WF C (initialSys C, initialGhost) := by
  have hreads : Reads (slotWord SlotState.empty.code 0 0) .empty 0 0 :=
    reads_slotWord .empty (by decide) (by decide)
  refine ⟨⟨fun _ => hreads.state, fun _ _ => hreads.refcount, ?_, ?_⟩, ⟨?_, ?_, ?_⟩,
    ⟨?_, ?_, ?_, List.nodup_range⟩, ⟨List.nodup_nil, List.nodup_nil, ?_, ?_, ?_, ?_, ?_⟩, ?_⟩
  · intro i c hc
    cases hc
  · intro i k st hk
    cases hk
  · intro k i st
    constructor <;> intro h <;> cases h
  · intro k _
    rfl
  · intro i j k k' st st' hk
    cases hk
  · intro idx hp
    exact absurd hp (Nat.lt_irrefl 0)
  · intro i k idx hk
    cases hk
  · intro idx _
    exact ⟨rfl, rfl⟩
  · intro m hm
    cases hm
  · intro i l e hown
    cases hown
  · intro i k b hown
    cases hown
  · intro m hm
    cases hm
  · intro m hm
    cases hm
  · intro i hi
    cases hi

theorem initialSys_noFailure (C : Config) : NoFailure (initialSys C, initialGhost) :=
  ⟨fun _ => rfl, fun _ hp => absurd hp (Nat.lt_irrefl 0)⟩

theorem initialSys_noneAbandoned (C : Config) : NoneAbandoned (initialSys C, initialGhost) := by
  intro i h
  cases h

theorem initialSys_atRest (C : Config) : At AtRest (initialSys C, initialGhost) := by
  refine ⟨?_, rfl, fun _ => rfl, rfl⟩
  intro i
  refine ⟨?_, fun _ => rfl⟩
  intro a ha
  cases ha

theorem safe_call {promise : Promise} {r : State} {c : Call} {g : Ghost}
    (hfault : Honored C promise c)
    (hx : (schedContract C promise).inv (r.state, g)) (h : At AtRest (r.state, g)) :
    Safe (schedContract C promise) (c.prog C) (fun _ => At AtRest) (r.state, g) := by
  cases c with
  | accept o =>
    refine Safe.bind hx (Safe.mono ?_ (safe_acceptRequests hfault hx h))
    exact fun _ y hy hφ => Safe.ret (stable_at AtRest) hy hφ fun _ _ hz => hz
  | drainCompletions done => exact safe_drainCompletions done hfault hx h
  | drainMoves n => exact safe_drainMoves n hx h

/-- Every reachable state, between two operations or amid one, is well formed, and without
faults no slot is lost. -/
theorem kept_of_reach (promise : Promise) {guard : State → Act → Prop} {J : Sys × Ghost → Prop}
    (hfault : ∀ r c, guard r (.call c) → Honored C promise c) (hJ₀ : J (initialSys C, initialGhost))
    (hstep : ∀ x y, (schedContract C promise).inv x → J x → Step C promise x y → J y)
    (henv : ∀ (r : State) a s' g, guard r (.env a) → (schedContract C promise).inv (r.state, g) →
      J (r.state, g) → envStep r.state a = some s' → J (s', g))
    {r : State} (h : Reach (system C) guard r) : Kept (schedContract C promise) (At AtRest) J r := by
  have hinit : (schedContract C promise).inv (initialSys C, initialGhost) :=
    ⟨initialSys_wf C, fun _ => initialSys_noFailure C, fun _ => initialSys_noneAbandoned C⟩
  refine Kept.reach (L := worker C) (stable_at AtRest) hinit (initialSys_atRest C) hJ₀ ?_ ?_ hstep
    henv h
  · intro r c g hg hx hrest
    exact safe_call (hfault r c hg) hx hrest
  · intro s a s' g ha
    exact ⟨rfl, a, ha⟩

theorem wf_of_reach {guard : State → Act → Prop} {r : State} (h : Reach (system C) guard r) :
    ∃ g, WF C (r.state, g) := by
  obtain ⟨g, hinv, _⟩ := kept_of_reach .nothing (J := fun _ => True)
    (fun _ c _ => honored_nothing c) trivial (fun _ _ _ _ _ => trivial) (fun _ _ _ _ _ _ _ _ => trivial) h
  exact ⟨g, hinv.1⟩

theorem atRest_of_reach {guard : State → Act → Prop} {r : State} (h : Reach (system C) guard r)
    (hidle : r.idle) : ∃ g, WF C (r.state, g) ∧ At AtRest (r.state, g) := by
  obtain ⟨g, hinv, _, hrest⟩ := (kept_of_reach .nothing (J := fun _ => True)
    (fun _ c _ => honored_nothing c) trivial (fun _ _ _ _ _ => trivial) (fun _ _ _ _ _ _ _ _ => trivial)
    h).idle hidle
  exact ⟨g, hinv.1, hrest⟩

section ring

def RingBounded (C : Config) (x : Sys × Ghost) : Prop :=
  (∀ idx ∈ x.1.loadFree, idx < C.maxInFlight) ∧ ∀ idx, x.1.loadInUse idx = true → idx < C.maxInFlight

theorem RingBounded.step {promise : Promise} {x y : Sys × Ghost} (h : RingBounded C x)
    (hstep : Step C promise x y) : RingBounded C y := by
  have hsame : ∀ {s s' : Sys} {g g' : Ghost}, RingBounded C (s, g) → SameSlots s s' →
      RingBounded C (s', g') := by
    intro s s' g g' hb hs
    rw [RingBounded, hs.loadFree, hs.loadInUse]
    exact hb
  cases hstep with
  | startLoad s g i k accept idx hown hidx hpos =>
    simp only [RingBounded, Sched.startLoad, hidx, if_neg hpos]
    refine ⟨fun j hj => h.1 j ((List.dropLast_sublist _).subset hj), ?_⟩
    intro j hj
    by_cases hji : j = idx
    · rw [hji]
      exact h.1 idx (List.mem_of_getLast? hidx)
    · rw [Function.update_of_ne hji] at hj
      exact h.2 j hj
  | startNone s g i k accept hown hnone =>
    unfold Sched.startLoad
    split
    · exact h
    · rename_i idx hidx
      have hzero : (submitSlices accept (C.topo.numTensors k.layer k.expert) 0).1 = 0 := by
        rcases hnone with hnil | hzero
        · rw [hnil] at hidx
          cases hidx
        · exact hzero
      simp only [hzero, if_true]
      exact h
  | freeTask s g idx huse =>
    refine ⟨?_, ?_⟩
    · intro j hj
      rcases List.mem_append.mp hj with hj | hj
      · exact h.1 j hj
      · rw [List.mem_singleton.mp hj]
        exact h.2 idx huse
    · intro j hj
      by_cases hji : j = idx
      · rw [hji]
        exact h.2 idx huse
      · simp only [Sys.freeTask, Function.update_of_ne hji] at hj
        exact h.2 j hj
  | event s g idx ok s' hev | arrive s g idx ok s' hev | «break» s g idx ok s' hnot hev =>
    obtain ⟨_, rfl⟩ := takeEvent_eq hev
    exact h
  | settle s g i k w => exact hsame h (sameSlots_settleStep s k.expert i)
  | bump s g => exact hsame h (sameSlots_bumpBatch s _).1
  | bumpLast s g => exact hsame h (sameSlots_bumpBatch s _).1
  | bumpFinish s g =>
    have hb := (sameSlots_bumpBatch s C.topo.nExpert).1
    exact hsame h ⟨hb.dir, hb.content, hb.loadFree, hb.loadInUse, hb.load, hb.moveSubmit, hb.moving,
      hb.moveDone⟩
  | failBatch s g => exact hsame h (sameSlots_failBatch s).1
  | beginEvict s g i k =>
    unfold Sys.beginEvict
    split <;> exact h
  | _ => exact h

theorem RingBounded.env {s s' : Sys} {g : Ghost} {a : EnvAct} (h : RingBounded C (s, g))
    (ha : envStep s a = some s') : RingBounded C (s', g) := by
  have hview := envStep_view ha
  have hfree : s'.loadFree = s.loadFree := congrArg View.loadFree hview
  have huse : s'.loadInUse = s.loadInUse := congrArg View.loadInUse hview
  rw [RingBounded, hfree, huse]
  exact h

theorem initialSys_ringBounded (C : Config) : RingBounded C (initialSys C, initialGhost) :=
  ⟨fun _ hidx => List.mem_range.mp hidx, fun _ huse => by cases huse⟩

end ring

section entries

variable {s : Sys} {g : Ghost}

theorem claim_of_entry (h : WF C (s, g)) {k : Key} (hk : (s.dir k).state ≠ .absent) :
    ∃ i, (s.dir k).slot = some i ∧ (g.own i).claim = some (k, (s.dir k).state) := by
  cases hslot : (s.dir k).slot with
  | none =>
    have habsent := h.dir.unnamed k hslot
    dsimp only at habsent
    rw [habsent] at hk
    exact absurd rfl hk
  | some i =>
    have hentry : s.dir k = ⟨(s.dir k).state, some i⟩ := by rw [← hslot]
    exact ⟨i, rfl, (h.dir.named k i _).mp hentry⟩

/-- An expert's entries that are not ABSENT are one entry, and its slot is theirs alone. -/
theorem entry_unique (h : WF C (s, g)) {k k' : Key} (hk : (s.dir k).state ≠ .absent)
    (hk' : (s.dir k').state ≠ .absent) (hl : k.layer = k'.layer) (he : k.expert = k'.expert) :
    k = k' := by
  obtain ⟨i, _, hi⟩ := claim_of_entry h hk
  obtain ⟨j, _, hj⟩ := claim_of_entry h hk'
  have hij := h.dir.single i j k k' _ _ hi hj hl he
  subst hij
  rw [hi] at hj
  exact congrArg Prod.fst (Option.some.inj hj)

theorem resident_of_ready (h : WF C (s, g)) (hrest : At AtRest (s, g)) {i : ℕ}
    (hi : slotWordState (s.word i) = SlotState.ready.code) : ∃ k, g.own i = .resident k := by
  have hst := h.state i
  dsimp only at hst
  rw [hi] at hst
  have hready := code_injective hst
  have hsettled := (hrest.1 i).2 rfl
  change (g.own i).settled = true at hsettled
  cases hown : g.own i with
  | resident k => exact ⟨k, rfl⟩
  | landed k b =>
    rw [hown] at hsettled
    cases hsettled
  | _ =>
    rw [hown] at hready
    cases hready

theorem resident_of_claim (hrest : At AtRest (s, g)) {i : ℕ} {k : Key}
    (hi : (g.own i).claim = some (k, .ready)) : g.own i = .resident k := by
  have hsettled := (hrest.1 i).2 rfl
  change (g.own i).settled = true at hsettled
  rcases Owner.of_claim_ready hi with hr | hr
  · exact hr
  · rw [hr] at hsettled
    cases hsettled

end entries

section small

/-- Two layers of one expert that share one slot. -/
def smallTopology : Topology :=
  { nLayer := 2, nExpert := 1, numTensors := fun _ _ => 1
    groups := [{ layers := [0, 1], expertSize := 1, totalBytes := 2, strides := [1] }] }

def smallConfig : Config := (SchedConfig.init smallTopology 1 (fun _ => 0) 1 0 []).get (by decide)

def smallOracle : Oracle := { score := fun _ _ _ => 0, accept := fun _ _ _ => true, expired := false }

def request (layer : ℕ) : Request :=
  { layer := layer, nLoadTarget := 1, batch := some 0, needed := fun e => e == 0 }

/-- A request is served and its load reports `ok`. -/
def loadRun (ok : Bool) : List Act :=
  .env (.push (request 0)) :: .call (.accept smallOracle) :: List.replicate 10 .step ++
    .env (.land 15) :: .call (.drainCompletions [(15, ok)]) ::
      List.replicate (if ok then 8 else 7) .step

def start (C : Config) : State := ⟨initialSys C, .ret ()⟩

theorem exists_run (as : List Act) (p : State → Bool)
    (h : ((run (system smallConfig) as (start smallConfig)).any p) = true) :
    ∃ r, run (system smallConfig) as (start smallConfig) = some r ∧ p r = true := by
  cases hr : run (system smallConfig) as (start smallConfig) with
  | none =>
    rw [hr] at h
    cases h
  | some r =>
    rw [hr] at h
    exact ⟨r, rfl, h⟩

theorem reach_loadRun {guard : State → Act → Prop} {ok : Bool} {r : State}
    (hg : ∀ a ∈ loadRun ok, ∀ s, guard s a)
    (h : run (system smallConfig) (loadRun ok) (start smallConfig) = some r) :
    Reach (system smallConfig) guard r := Reach.run_of_forall _ hg (.init rfl) h

theorem faultFree_loadRun : ∀ a ∈ loadRun true, ∀ s, FaultFree smallConfig s a := by
  intro a ha s
  simp only [loadRun, List.cons_append, List.mem_cons, List.mem_append, List.mem_replicate] at ha
  rcases ha with rfl | rfl | ⟨_, rfl⟩ | rfl | rfl | ⟨_, rfl⟩
  · trivial
  · exact ⟨fun _ _ _ => rfl, fun _ _ => Nat.one_ne_zero⟩
  · trivial
  · trivial
  · intro d hd
    rw [List.mem_singleton.mp hd]
  · trivial

end small

/-- Between two operations, READY entries name READY slots of their pool and group, no two entries
name one slot, and every READY slot is named by one READY entry. -/
theorem directory_consistent {r : State} (h : Reach (system C) anyStep r) (hidle : r.idle) :
    (∀ k, (r.state.dir k).state = .ready → ∃ i, (r.state.dir k).slot = some i ∧
      slotWordState (r.state.word i) = SlotState.ready.code ∧ InRegion C i k.pool k.layer) ∧
    (∀ k k' i, (r.state.dir k).state ≠ .absent → (r.state.dir k').state ≠ .absent →
      (r.state.dir k).slot = some i → (r.state.dir k').slot = some i → k = k') ∧
    ∀ i, slotWordState (r.state.word i) = SlotState.ready.code →
      ∃! k, r.state.dir k = ⟨.ready, some i⟩ := by
  obtain ⟨g, hwf, hrest⟩ := atRest_of_reach h hidle
  refine ⟨?_, ?_, ?_⟩
  · intro k hk
    obtain ⟨i, hslot, hclaim⟩ := claim_of_entry hwf (k := k) (by simp [hk])
    rw [hk] at hclaim
    have hown := resident_of_claim hrest hclaim
    have hst := hwf.state i
    dsimp only at hst
    rw [hown] at hst
    exact ⟨i, hslot, hst, hwf.region i k _ hclaim⟩
  · intro k k' i hk hk' hi hi'
    obtain ⟨j, hj, hclaim⟩ := claim_of_entry hwf hk
    obtain ⟨j', hj', hclaim'⟩ := claim_of_entry hwf hk'
    rw [hi] at hj
    rw [hi'] at hj'
    cases hj
    cases hj'
    rw [hclaim] at hclaim'
    exact congrArg Prod.fst (Option.some.inj hclaim')
  · intro i hi
    obtain ⟨k, hown⟩ := resident_of_ready hwf hrest hi
    have hclaim : (g.own i).claim = some (k, .ready) := by
      rw [hown]
      rfl
    refine ⟨k, (hwf.dir.named k i _).mpr hclaim, ?_⟩
    intro k' hk'
    have hclaim' := (hwf.dir.named k' i _).mp hk'
    dsimp only at hclaim'
    rw [hclaim] at hclaim'
    exact (congrArg Prod.fst (Option.some.inj hclaim')).symm

theorem directory_consistent_afterLoad :
    ∃ r : State, r.state.dir ⟨0, 0, 0⟩ = ⟨.ready, some 0⟩ ∧ InRegion smallConfig 0 0 0 ∧
      ∃! k, r.state.dir k = ⟨.ready, some 0⟩ := by
  obtain ⟨r, hr, hp⟩ := exists_run (loadRun true)
    (fun r => decide (r.idle ∧ r.state.dir ⟨0, 0, 0⟩ = ⟨.ready, some 0⟩)) (by decide +kernel)
  obtain ⟨hidle, hentry⟩ := of_decide_eq_true hp
  have hreach : Reach (system smallConfig) anyStep r := reach_loadRun (fun _ _ _ => trivial) hr
  obtain ⟨hready, _, hslot⟩ := directory_consistent hreach hidle
  obtain ⟨i, hi, hword, hregion⟩ := hready ⟨0, 0, 0⟩ (by rw [hentry])
  rw [hentry] at hi
  cases hi
  exact ⟨r, hentry, hregion, hslot 0 hword⟩

/-- In every reachable state an expert is in one pool at most; an expert that a load or a move
brings in is in no READY entry and no other load or move is for it. -/
theorem single_residency {r : State} (h : Reach (system C) anyStep r) :
    (∀ l e p p', (r.state.dir ⟨l, e, p⟩).state ≠ .absent → (r.state.dir ⟨l, e, p'⟩).state ≠ .absent →
      p = p') ∧
    (∀ idx idx', 0 < (r.state.load idx).pending → 0 < (r.state.load idx').pending →
      (r.state.load idx).layer = (r.state.load idx').layer →
      (r.state.load idx).expert = (r.state.load idx').expert → idx = idx') ∧
    (∀ m ∈ r.state.moves, ∀ m' ∈ r.state.moves, m.layer = m'.layer → m.expert = m'.expert → m = m') ∧
    ∀ idx, 0 < (r.state.load idx).pending →
      r.state.dir (r.state.load idx).key = ⟨.loading, some (r.state.load idx).slot⟩ ∧
      ∀ m ∈ r.state.moves, ¬ (m.layer = (r.state.load idx).layer ∧
        m.expert = (r.state.load idx).expert) := by
  obtain ⟨g, hwf⟩ := wf_of_reach h
  have hload : ∀ idx, 0 < (r.state.load idx).pending →
      g.own (r.state.load idx).slot = .loading (r.state.load idx).key idx :=
    fun idx hp => (hwf.ring.loading idx hp).1
  have hclaim : ∀ idx, 0 < (r.state.load idx).pending →
      (g.own (r.state.load idx).slot).claim = some ((r.state.load idx).key, .loading) := by
    intro idx hp
    rw [hload idx hp]
    rfl
  refine ⟨?_, ?_, ?_, ?_⟩
  · intro l e p p' hp hp'
    exact congrArg Key.pool (entry_unique hwf hp hp' rfl rfl)
  · intro idx idx' hp hp' hl he
    have hslot := hwf.dir.single _ _ _ _ _ _ (hclaim idx hp) (hclaim idx' hp') hl he
    have hown := hload idx hp
    rw [hslot, hload idx' hp'] at hown
    injection hown with _ heq
    exact heq.symm
  · intro m hm m' hm' hl he
    obtain ⟨_, b, hb⟩ := hwf.moves.tasks m hm
    obtain ⟨_, b', hb'⟩ := hwf.moves.tasks m' hm'
    have hslot : m.dstSlot = m'.dstSlot := by
      refine hwf.dir.single _ _ m.dstKey m'.dstKey b.state b'.state ?_ ?_ hl he
      · rw [hb]
        rfl
      · rw [hb']
        rfl
    exact List.inj_on_of_nodup_map hwf.moves.dsts hm hm' hslot
  · intro idx hp
    refine ⟨(hwf.dir.named _ _ _).mpr (hclaim idx hp), ?_⟩
    rintro m hm ⟨hl, he⟩
    obtain ⟨_, b, hb⟩ := hwf.moves.tasks m hm
    have hclaim' : (g.own m.dstSlot).claim = some (m.dstKey, b.state) := by
      rw [hb]
      rfl
    have hslot := hwf.dir.single _ _ _ _ _ _ hclaim' (hclaim idx hp) hl he
    rw [hslot, hload idx hp] at hb
    cases hb

theorem single_residency_afterLoad :
    ∃ r : State, r.state.dir ⟨0, 0, 0⟩ = ⟨.ready, some 0⟩ ∧
      ∀ p, (r.state.dir ⟨0, 0, p⟩).state ≠ .absent → p = 0 := by
  obtain ⟨r, hr, hp⟩ := exists_run (loadRun true)
    (fun r => decide (r.state.dir ⟨0, 0, 0⟩ = ⟨.ready, some 0⟩)) (by decide +kernel)
  have hentry := of_decide_eq_true hp
  have hreach : Reach (system smallConfig) anyStep r := reach_loadRun (fun _ _ _ => trivial) hr
  refine ⟨r, hentry, ?_⟩
  intro p hp
  exact (single_residency hreach).1 0 0 p 0 hp (by simp [hentry])

/-- Without faults, between two operations with no load and no move in flight, every slot is
EMPTY, or READY and named by a READY entry. -/
theorem no_slot_leaked {r : State} (h : Reach (system C) (FaultFree C) r) (hidle : r.idle)
    (hload : ∀ idx < C.maxInFlight, (r.state.load idx).pending = 0) (hmove : r.state.moves = []) (i : ℕ) :
    slotWordState (r.state.word i) = SlotState.empty.code ∨
      (slotWordState (r.state.word i) = SlotState.ready.code ∧
        ∃ k, r.state.dir k = ⟨.ready, some i⟩) := by
  obtain ⟨g, hinv, hring, hrest⟩ := (kept_of_reach .faultFree (J := RingBounded C)
    (fun _ _ hg => FaultFree.honored hg _) (initialSys_ringBounded C) (fun _ _ _ hJ hstep => hJ.step hstep)
    (fun _ _ _ _ _ _ hJ ha => hJ.env ha) h).idle hidle
  have hwf := hinv.1
  have hkept := (hinv.2.1 trivial).kept i
  have hstarted := hinv.2.2 trivial i
  have hst := hwf.state i
  have hsettled := (hrest.1 i).2 rfl
  change (g.own i).settled = true at hsettled
  dsimp only at hkept hst
  rw [hst]
  cases hown : g.own i with
  | free => exact .inl rfl
  | resident k =>
    refine .inr ⟨rfl, k, (hwf.dir.named k i _).mpr ?_⟩
    dsimp only
    rw [hown]
    rfl
  | loading k idx =>
    have hp := (hwf.ring.task i k idx hown).1
    have hlt := hring.2 idx (hwf.ring.loading idx hp).2
    dsimp only at hp
    rw [hload idx hlt] at hp
    exact absurd hp (Nat.lt_irrefl 0)
  | source l e =>
    obtain ⟨m, hm, _⟩ := hwf.moves.src i l e hown
    dsimp only at hm
    rw [hmove] at hm
    cases hm
  | target k b =>
    obtain ⟨m, hm, _⟩ := hwf.moves.dst i k b hown
    dsimp only at hm
    rw [hmove] at hm
    cases hm
  | failed =>
    rw [hown] at hkept
    cases hkept
  | abandoned => exact absurd hown hstarted
  | _ =>
    rw [hown] at hsettled
    cases hsettled

theorem no_slot_leaked_afterLoad :
    ∃ r : State, r.idle ∧ (slotWordState (r.state.word 0) = SlotState.empty.code ∨
      (slotWordState (r.state.word 0) = SlotState.ready.code ∧
        ∃ k, r.state.dir k = ⟨.ready, some 0⟩)) := by
  obtain ⟨r, hr, hp⟩ := exists_run (loadRun true)
    (fun r => decide (r.idle ∧ r.state.moves = [] ∧
      ∀ idx < smallConfig.maxInFlight, (r.state.load idx).pending = 0)) (by decide +kernel)
  obtain ⟨hidle, hmove, hload⟩ := of_decide_eq_true hp
  exact ⟨r, hidle, no_slot_leaked (reach_loadRun faultFree_loadRun hr) hidle hload hmove 0⟩

/-- One failed load takes the only slot out of use. -/
theorem slot_leaked_afterFailedLoad :
    ¬ ∀ r, Reach (system smallConfig) anyStep r → r.idle →
      (∀ idx < smallConfig.maxInFlight, (r.state.load idx).pending = 0) → r.state.moves = [] →
      ∀ i < smallConfig.geometry.numSlots, slotWordState (r.state.word i) = SlotState.empty.code ∨
        (slotWordState (r.state.word i) = SlotState.ready.code ∧
          ∃ k, r.state.dir k = ⟨.ready, some i⟩) := by
  intro hclaim
  obtain ⟨r, hr, hp⟩ := exists_run (loadRun false)
    (fun r => decide ((r.idle ∧ r.state.moves = [] ∧
      slotWordState (r.state.word 0) = SlotState.failed.code) ∧
      0 < smallConfig.geometry.numSlots ∧
      ∀ idx < smallConfig.maxInFlight, (r.state.load idx).pending = 0)) (by decide +kernel)
  obtain ⟨⟨hidle, hmove, hfailed⟩, hslots, hload⟩ := of_decide_eq_true hp
  have hreach : Reach (system smallConfig) anyStep r := reach_loadRun (fun _ _ _ => trivial) hr
  rcases hclaim r hreach hidle hload hmove 0 hslots with h | ⟨h, _⟩ <;> rw [hfailed] at h <;>
    exact absurd h (by decide)

end SchedRuns
end StreamMoE
