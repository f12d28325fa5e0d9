import StreamMoE.DirectoryBounds
import StreamMoE.VictimPolicy

/-! Which of the slots that a group has in a pool `alloc_or_evict` gets to see: it searches the first region
of the pool and the group, and a missing expert is offered the first device region of its group only. -/
namespace StreamMoE
namespace WholePool

open AtomicProg TransitionSystem SlotWord SchedConfig PoolGeometry Sched SchedRuns VictimPolicy
open DirectoryBounds

variable {C : Config} {o : Oracle} {s : Sys}

/-- Some region of the pool and the group has a slot that is free, or READY without a pin. -/
def HasRoom (C : Config) (s : Sys) (pool group : ℕ) : Prop :=
  ∃ sp ∈ C.geometry.subpools, sp.pool = pool ∧ sp.group = group ∧ ∃ i, sp.owns i = true ∧
    (slotWordState (s.word i) = SlotState.empty.code ∨
      slotWordState (s.word i) = SlotState.ready.code ∧ slotWordRefcount (s.word i) = 0)

/-- The move of a demoted expert has been submitted. -/
def Demoted (s s' : Sys) : Prop := ∃ m, s'.moveSubmit = s.moveSubmit ++ [m]

/-- The allocations that use the whole pool: no slot and no demotion, only if there is no room. -/
structure UsesPool (C : Config) (s : Sys) : Prop where
  alloc : ∀ (o : Oracle) (layer expert pool gidx : ℕ), groupOf C layer = some gidx →
    ∃ slot s', (allocOrEvict C o layer expert pool).alone s = some (slot, s') ∧
      (slot = none → Demoted s s' ∨ ¬ HasRoom C s pool gidx)
  miss : ∀ (o : Oracle) (layer expert gidx : ℕ), groupOf C layer = some gidx →
    ∃ slot s', (allocFor C o gidx layer expert).alone s = some (slot, s') ∧
      (slot = none → Demoted s s' ∨ ∀ pool, ¬ HasRoom C s pool gidx)

section alone

/-- The search has seen nothing: there is no region, or no free slot and no idle expert in the first one. -/
def Refused (C : Config) (s : Sys) (pool gidx : ℕ) : Prop :=
  ∀ sp, regionOf C pool gidx = some sp →
    (∀ i, sp.owns i = true → slotWordState (s.word i) ≠ SlotState.empty.code) ∧
    ∀ g, C.topo.groups[gidx]? = some g →
      ∀ l ∈ g.layers, ∀ e < C.topo.nExpert, ∀ i, ¬ Idle s sp pool l e i

variable {reserve : ℕ → ℕ → Prog Sys (Option ℕ)}

theorem transition_alone (k : Key) (st : ExpertState) (slot : Option ℕ) (t : Sys) :
    (transition k st slot).alone t = some ((), t.setDir k st slot) := rfl

/-- A reservation that runs to its end and queues no move. -/
def Reserves (reserve : ℕ → ℕ → Prog Sys (Option ℕ)) : Prop :=
  ∀ l e t, ∃ slot t', (reserve l e).alone t = some (slot, t') ∧ t'.moveSubmit = t.moveSubmit

theorem submitMove_alone (m : MoveTask) (t : Sys) :
    ∃ t', (submitMove C m).alone t = some (moveCols C m.srcSlot m.dstSlot, t') ∧
      (moveCols C m.srcSlot m.dstSlot = true → t'.moveSubmit = t.moveSubmit ++ [m]) := by
  unfold submitMove
  by_cases hcols : moveCols C m.srcSlot m.dstSlot = true
  · rw [if_pos hcols, hcols]
    exact ⟨t.pushMove m, rfl, fun _ => rfl⟩
  · rw [if_neg hcols, Bool.eq_false_iff.mpr hcols]
    exact ⟨t, rfl, fun h => (nomatch h)⟩

theorem demote_alone (hreserve : Reserves reserve) (sp : Subpool) (v l e : ℕ) (t : Sys) :
    ∃ moved t', (demote C reserve sp v l e).alone t = some (moved, t') ∧ (moved = true → Demoted t t') := by
  unfold demote
  split
  · exact ⟨false, t, rfl, fun h => (nomatch h)⟩
  · split
    · obtain ⟨slot, t₁, h₁, hsame⟩ := hreserve l e t
      rw [bind_eq, alone_bind_of h₁]
      cases slot with
      | none => exact ⟨false, t₁, rfl, fun h => (nomatch h)⟩
      | some dst =>
        obtain ⟨t₂, h₂, hpush⟩ := @submitMove_alone C
          { layer := l, expert := e, srcPool := sp.pool, srcSlot := v, dstPool := 0, dstSlot := dst } t₁
        dsimp only
        rw [bind_eq, alone_bind_of h₂]
        split
        · rename_i hok
          have hmoves := hpush hok
          rw [hsame] at hmoves
          exact ⟨true, _, rfl, fun _ => ⟨_, hmoves⟩⟩
        · exact ⟨false, _, rfl, fun h => (nomatch h)⟩
    · exact ⟨false, t, rfl, fun h => (nomatch h)⟩

/-- An idle victim is evicted at once; without a slot only when its demotion was submitted. -/
theorem evict_alone (hreserve : Reserves reserve) {sp : Subpool} (layer expert : ℕ) {v l e : ℕ}
    (hready : slotWordState (s.word v) = SlotState.ready.code) (hzero : slotWordRefcount (s.word v) = 0) :
    ∃ slot s', (evict C reserve sp layer expert v l e).alone s = some (slot, s') ∧
      (sp.pool = 0 → slot ≠ none ∧ s'.moveSubmit = s.moveSubmit) ∧ (slot = none → Demoted s s') := by
  have hreads : Reads (s.word v) .ready 0 (slotWordGeneration (s.word v)) := ⟨hready, hzero, rfl⟩
  obtain ⟨w, hw, hevicting⟩ := hreads.beginEvict
  have hevict : s.beginEvict v = s.setWord v w := by
    rw [Sys.beginEvict, hw]
  have hsome : ¬ (SlotWord.beginEvict (s.word v)).isNone = true := by
    rw [hw]
    exact Bool.false_ne_true
  have hdrained : (slotWordRefcount (((s.setWord v w).setDir ⟨l, e, sp.pool⟩ .absent none).word v) == 0) =
      true := by
    rw [beq_iff_eq]
    show slotWordRefcount (Function.update s.word v w v) = 0
    rw [Function.update_self]
    exact hevicting.refcount
  rw [evict, bind_eq, alone_bind_of (alone_getModify _ s), if_neg hsome, hevict]
  rw [bind_eq, alone_bind_of (transition_alone _ _ _ _), bind_eq,
    alone_bind_of (@alone_await _ (fun s : Sys => slotWordRefcount (s.word v) == 0) _ hdrained)]
  dsimp only
  by_cases hpool : sp.pool = 0
  · rw [if_pos hpool]
    have hslot := Option.some_ne_none v
    exact ⟨some v, _, rfl, fun _ => ⟨hslot, rfl⟩, fun h => absurd h hslot⟩
  · rw [if_neg hpool]
    obtain ⟨moved, t, ht, hdemoted⟩ := @demote_alone C _ hreserve sp v l e
      ((s.setWord v w).setDir ⟨l, e, sp.pool⟩ .absent none)
    rw [bind_eq, alone_bind_of ht]
    cases moved with
    | true => exact ⟨none, t, rfl, fun h => absurd h hpool, fun _ => hdemoted rfl⟩
    | false => exact ⟨some v, _, rfl, fun h => absurd h hpool, fun h => absurd h (Option.some_ne_none v)⟩

/-- An allocation by itself: a slot, a demotion, or a search that has seen nothing and changed nothing. -/
theorem allocWith_alone {layer expert pool gidx : ℕ} (hgroup : groupOf C layer = some gidx)
    (hreserve : pool ≠ 0 → Reserves reserve) :
    ∃ slot s', (allocWith C o reserve layer expert pool).alone s = some (slot, s') ∧
      (pool = 0 → s'.moveSubmit = s.moveSubmit) ∧
      (slot = none → Demoted s s' ∨ s' = s ∧ Refused C s pool gidx) := by
  unfold allocWith
  rw [hgroup]
  dsimp only
  cases hsp : regionOf C pool gidx with
  | none =>
    refine ⟨none, s, rfl, fun _ => rfl, fun _ => Or.inr ⟨rfl, fun sp h => ?_⟩⟩
    rw [hsp] at h
    cases h
  | some sp =>
    have hpool : sp.pool = pool := (regionOf_spec C hsp).2.1
    obtain ⟨r, hr, _, hnone⟩ := findEmpty_alone s sp.nSlots sp.slotBegin
    dsimp only
    rw [bind_eq, alone_bind_of hr]
    cases hri : r with
    | some i => exact ⟨some i, _, rfl, fun _ => rfl, fun h => (nomatch h)⟩
    | none =>
      obtain ⟨g, hg, hlayer⟩ := groupOf_spec hgroup
      obtain ⟨ring, v, _, hv, hpolicy, hidle⟩ := @findVictim_alone C o s sp pool gidx layer g hg hlayer
      dsimp only
      rw [bind_eq, alone_bind_of hv]
      cases hvi : v with
      | none =>
        refine ⟨none, s, rfl, fun _ => rfl, fun _ => Or.inr ⟨rfl, fun sp' hsp' => ?_⟩⟩
        cases hsp.symm.trans hsp'
        refine ⟨fun i hown => ?_, fun g' hg' => ?_⟩
        · simp only [Subpool.owns, decide_eq_true_eq] at hown
          exact hnone hri i hown.1 hown.2
        · cases hg.symm.trans hg'
          exact hidle hvi
      | some x =>
        obtain ⟨i, l, e⟩ := x
        obtain ⟨_, _, hready, hzero⟩ := (hpolicy i l e hvi).candidate.2.1
        by_cases hzeroPool : pool = 0
        · have hnothing : Reserves fun _ _ => Prog.ret none := fun _ _ t => ⟨none, t, rfl, rfl⟩
          have hsame : evict C reserve sp layer expert i l e =
              evict C (fun _ _ => Prog.ret none) sp layer expert i l e := by
            simp only [evict, hpool.trans hzeroPool, if_true]
          obtain ⟨slot, s', hrun, hslot, _⟩ := @evict_alone C s _ hnothing sp layer expert i l e hready hzero
          obtain ⟨hne, hmoves⟩ := hslot (hpool.trans hzeroPool)
          dsimp only
          rw [hsame]
          exact ⟨slot, s', hrun, fun _ => hmoves, fun h => absurd h hne⟩
        · obtain ⟨slot, s', hrun, _, hdemoted⟩ :=
            @evict_alone C s _ (hreserve hzeroPool) sp layer expert i l e hready hzero
          exact ⟨slot, s', hrun, fun h => absurd h hzeroPool, fun h => Or.inl (hdemoted h)⟩

end alone

section room

/-- Every pool has one region of a group at most, and every group one device at most. -/
structure OneRegion (C : Config) : Prop where
  region : ∀ x ∈ C.geometry.subpools, ∀ y ∈ C.geometry.subpools, x.pool = y.pool → x.group = y.group → x = y
  device : ∀ x ∈ C.geometry.subpools, ∀ y ∈ C.geometry.subpools, x.pool ≠ 0 → y.pool ≠ 0 →
    x.group = y.group → x.pool = y.pool

/-- Every READY slot has its entry in the directory: no load or move is amid the stores that publish it. -/
def Published (s : Sys) : Prop :=
  ∀ i, slotWordState (s.word i) = SlotState.ready.code → ∃ k, s.dir k = ⟨.ready, some i⟩

/-- Between two operations everything is published. -/
theorem published_of_idle {guard : State → Act → Prop} {r : State} (h : Reach (system C) guard r)
    (hidle : r.idle) : Published r.state := by
  obtain ⟨g, hwf, hrest⟩ := atRest_of_reach h hidle
  intro i hi
  obtain ⟨k, hown⟩ := resident_of_ready hwf hrest hi
  refine ⟨k, (hwf.dir.named k i _).mpr ?_⟩
  dsimp only
  rw [hown]
  rfl

/-- What the search has not seen in the one region is not there. -/
theorem not_hasRoom {gh : Ghost} (hwf : WF C (s, gh)) (hbounded : Bounded C.topo.nExpert s)
    (hone : OneRegion C) (hpublished : Published s) {pool gidx : ℕ} (h : Refused C s pool gidx) :
    ¬ HasRoom C s pool gidx := by
  rintro ⟨sp, hmem, hpool, hgidx, i, hown, hroom⟩
  have hsp : regionOf C pool gidx = some sp := by
    cases hregion : regionOf C pool gidx with
    | none =>
      have hnone := List.find?_eq_none.mp hregion sp hmem
      simp [hpool, hgidx] at hnone
    | some sp' =>
      obtain ⟨hmem', hpool', hgroup'⟩ := regionOf_spec C hregion
      rw [hone.region sp' hmem' sp hmem (hpool'.trans hpool.symm) (hgroup'.trans hgidx.symm)]
  obtain ⟨hfull, hidle⟩ := h sp hsp
  rcases hroom with hempty | ⟨hready, hzero⟩
  · exact hfull i hown hempty
  · obtain ⟨k, hk⟩ := hpublished i hready
    obtain ⟨sp', howner, hkpool, hkgroup⟩ := hwf.region i k _ ((hwf.dir.named k i _).mp hk)
    rw [C.owner sp hmem i hown] at howner
    cases howner
    rw [hgidx] at hkgroup
    obtain ⟨g, hg, hlayer⟩ := groupOf_spec hkgroup
    have hexpert : k.expert < C.topo.nExpert := hbounded.entry k (by rw [hk]; exact ExpertState.noConfusion)
    refine hidle g hg k.layer hlayer k.expert hexpert i ⟨?_, hown, hready, hzero⟩
    have hkey : (⟨k.layer, k.expert, pool⟩ : Key) = k := by rw [← hpool, hkpool]
    rw [Sys.find, hkey, hk, if_pos rfl]

theorem allocRam_reserves (C : Config) (o : Oracle) : Reserves (allocRam C o) := by
  intro l e t
  cases hgroup : groupOf C l with
  | none =>
    refine ⟨none, t, ?_, rfl⟩
    rw [allocRam, allocWith, hgroup]
    rfl
  | some gidx =>
    obtain ⟨slot, t', hrun, hsame, _⟩ := @allocWith_alone C o t (fun _ _ => .ret none) l e 0 gidx hgroup
      fun h => absurd rfl h
    exact ⟨slot, t', hrun, hsame rfl⟩

/-- A missing expert is offered the first device region of its group and then main memory. -/
theorem allocFor_alone (C : Config) (o : Oracle) (s : Sys) {layer gidx : ℕ} (expert : ℕ)
    (hgroup : groupOf C layer = some gidx) :
    ∃ slot s', (allocFor C o gidx layer expert).alone s = some (slot, s') ∧
      (slot = none → Demoted s s' ∨
        Refused C s 0 gidx ∧ ∀ dsp, vramSubpool C gidx = some dsp → Refused C s dsp.pool gidx) := by
  have hram : ∀ t, ∃ slot t', (allocOrEvict C o layer expert 0).alone t = some (slot, t') ∧
      t'.moveSubmit = t.moveSubmit ∧ (slot = none → Demoted t t' ∨ t' = t ∧ Refused C t 0 gidx) := by
    intro t
    obtain ⟨slot, t', hrun, hsame, hend⟩ := @allocWith_alone C o t (allocRam C o) layer expert 0 gidx
      hgroup fun h => absurd rfl h
    exact ⟨slot, t', hrun, hsame rfl, hend⟩
  unfold allocFor
  cases hdevice : vramSubpool C gidx with
  | none =>
    obtain ⟨slot, s', hrun, _, hend⟩ := hram s
    refine ⟨slot, s', hrun, fun hnone => (hend hnone).imp_right fun h => ⟨h.2, fun dsp hdsp => ?_⟩⟩
    cases hdsp
  | some dsp =>
    obtain ⟨slot, s₁, hrun, _, hend⟩ := @allocWith_alone C o s (allocRam C o) layer expert dsp.pool
      gidx hgroup fun _ => allocRam_reserves C o
    have hfirst : (allocOrEvict C o layer expert dsp.pool).alone s = some (slot, s₁) := hrun
    dsimp only
    rw [bind_eq, alone_bind_of hfirst]
    cases hslot : slot with
    | some i => exact ⟨some i, s₁, rfl, fun h => (nomatch h)⟩
    | none =>
      obtain ⟨slot', s₂, hrun', hmoves, hend'⟩ := hram s₁
      refine ⟨slot', s₂, hrun', fun hnone => ?_⟩
      rcases hend hslot with ⟨m, hm⟩ | ⟨rfl, hrefused⟩
      · exact Or.inl ⟨m, hmoves.trans hm⟩
      · refine (hend' hnone).imp_right fun h => ⟨h.2, fun dsp' hdsp' => ?_⟩
        cases hdsp'
        exact hrefused

/-- In every run of a scheduler whose pools have one region of each group and whose groups have one device,
every state in which all that is READY is published uses the whole pool. -/
theorem alloc_uses_pool {C : Config} (hone : OneRegion C) {guard : State → Act → Prop} {r : State}
    (h : Reach (system C) guard r) (hpublished : Published r.state) : UsesPool C r.state := by
  obtain ⟨gh, hwf⟩ := wf_of_reach h
  have hbounded := bounded_of_reach h
  have hroom : ∀ {pool gidx : ℕ}, Refused C r.state pool gidx → ¬ HasRoom C r.state pool gidx :=
    fun hrefused => not_hasRoom hwf hbounded hone hpublished hrefused
  refine ⟨fun o layer expert pool gidx hgroup => ?_, fun o layer expert gidx hgroup => ?_⟩
  · obtain ⟨slot, s', hrun, _, hend⟩ := @allocWith_alone C o r.state (allocRam C o) layer expert pool gidx
      hgroup fun _ => allocRam_reserves C o
    exact ⟨slot, s', hrun, fun hnone => (hend hnone).imp_right fun hrefused => hroom hrefused.2⟩
  · obtain ⟨slot, s', hrun, hend⟩ := allocFor_alone C o r.state expert hgroup
    refine ⟨slot, s', hrun, fun hnone => (hend hnone).imp_right fun ⟨hram, hdevice⟩ pool hhas => ?_⟩
    by_cases hpool : pool = 0
    · subst hpool
      exact hroom hram hhas
    · obtain ⟨sp, hmem, hsp, hgidx, _⟩ := id hhas
      cases hfind : vramSubpool C gidx with
      | none =>
        have hnot := List.find?_eq_none.mp hfind sp hmem
        simp [hsp, hgidx, hpool] at hnot
      | some dsp =>
        have hdsp := List.find?_some hfind
        simp only [Bool.and_eq_true, bne_iff_ne, beq_iff_eq] at hdsp
        have hsame : sp.pool = dsp.pool :=
          hone.device sp hmem dsp (List.mem_of_find?_eq_some hfind) (hsp ▸ hpool) hdsp.1
            (hgidx.trans hdsp.2.symm)
        rw [← hsp, hsame] at hhas
        exact hroom (hdevice dsp hfind) hhas

end room

section segments

/-- Two layers of one expert with a slot in main memory and the given device regions. -/
def withDevice (regs : List VRegion) : Config :=
  (SchedConfig.init smallTopology 1 (fun _ => 0) 1 0 regs).get (by
    rw [SchedConfig.init, dif_neg (by decide), if_neg (by decide), if_neg (by decide)]
    rfl)

/-- A request for layer 0 comes in and its load is started. -/
def startRun : List Act := .env (.push (request 0)) :: .call (.accept smallOracle) :: List.replicate 10 .step

theorem exists_started (regs : List VRegion) (p : State → Bool)
    (h : ((run (system (withDevice regs)) startRun (start (withDevice regs))).any p) = true) :
    ∃ r, Reach (system (withDevice regs)) anyStep r ∧ p r = true := by
  cases hr : run (system (withDevice regs)) startRun (start (withDevice regs)) with
  | none =>
    rw [hr] at h
    cases h
  | some r =>
    rw [hr] at h
    exact ⟨r, Reach.run_of_forall _ (fun _ _ _ => trivial) (.init rfl) hr, h⟩

/-- With one device region, while its slot is being loaded. -/
theorem alloc_uses_pool_oneSegment :
    ∃ r : State, Reach (system (withDevice [⟨1, 0, 100, 1⟩])) anyStep r ∧
      slotWordState (r.state.word 1) = SlotState.ioInflight.code ∧
      UsesPool (withDevice [⟨1, 0, 100, 1⟩]) r.state := by
  obtain ⟨r, hreach, hp⟩ := exists_started [⟨1, 0, 100, 1⟩]
    (fun r => decide (r.idle ∧ slotWordState (r.state.word 1) = SlotState.ioInflight.code))
    (by decide +kernel)
  obtain ⟨hidle, hword⟩ := of_decide_eq_true hp
  have hone : OneRegion (withDevice [⟨1, 0, 100, 1⟩]) := ⟨by decide +kernel, by decide +kernel⟩
  exact ⟨r, hreach, hword, alloc_uses_pool hone hreach (published_of_idle hreach hidle)⟩

/-- Device memory in two segments: the slot of the first is being loaded, the one of the second is free, and
an expert that asks for the pool is turned away. -/
theorem not_alloc_uses_pool :
    ¬ ∀ (C : Config) (r : State), Reach (system C) anyStep r → r.idle → UsesPool C r.state := by
  intro h
  obtain ⟨r, hreach, hp⟩ := exists_started [⟨1, 0, 100, 1⟩, ⟨1, 0, 200, 1⟩]
    (fun r => decide (r.idle ∧ slotWordState (r.state.word 2) = SlotState.empty.code) &&
      ((allocOrEvict (withDevice [⟨1, 0, 100, 1⟩, ⟨1, 0, 200, 1⟩]) smallOracle 1 0 1).alone r.state).any
        fun x => x.1.isNone && x.2.moveSubmit.isEmpty)
    (by decide +kernel)
  rw [Bool.and_eq_true, decide_eq_true_eq, Option.any_eq_true] at hp
  obtain ⟨⟨hidle, hempty⟩, ⟨slot, s'⟩, hrun, hres⟩ := hp
  obtain ⟨slot', s'', hrun', hend⟩ := (h _ r hreach hidle).alloc smallOracle 1 0 1 0 (by decide +kernel)
  cases hrun.symm.trans hrun'
  rw [Bool.and_eq_true, Option.isNone_iff_eq_none, List.isEmpty_iff] at hres
  rcases hend hres.1 with ⟨m, hm⟩ | hroom
  · dsimp only at hres
    rw [hres.2] at hm
    simp at hm
  · refine hroom ⟨⟨1, 0, 2, 1, 1, 200, [⟨0, 0, 1⟩]⟩, ?_, rfl, rfl, 2, by decide, Or.inl hempty⟩
    decide +kernel

end segments

end WholePool
end StreamMoE
