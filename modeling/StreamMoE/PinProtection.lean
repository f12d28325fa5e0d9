import Mathlib.Data.List.Count
import StreamMoE.SchedRuns

/-! Pins: the refcount of a slot is the number of pins that are out on it, and what a pin saw of
its slot stays so until it is given back. -/
namespace StreamMoE
namespace PinProtection

open AtomicProg ThreadLoop TransitionSystem SlotWord SchedConfig Sched SchedRuns

/-- Refcounts count the pins, each pin knows its slot's generation and bytes, and the scheduler's
pins are those it owes. -/
structure PinsOk (x : Sys × Ghost) : Prop where
  count : ∀ i, slotWordRefcount (x.1.word i) = x.1.pins.countP (·.slot == i)
  held : ∀ p ∈ x.1.pins, p.gen = slotWordGeneration (x.1.word p.slot) ∧
    p.content = x.1.content p.slot
  owed : ∀ i, x.1.pins.countP (fun p => p.holder == .scheduler && p.slot == i) = x.2.owed.count i

section parts

variable {C : Config} {s s' : Sys} {g g' : Ghost} {i : ℕ} {w : Word}

/-- A pinned slot is counted. -/
theorem PinsOk.refcount_pos (h : PinsOk (s, g)) {p : Pin} (hp : p ∈ s.pins) :
    0 < slotWordRefcount (s.word p.slot) := by
  rw [h.count]
  exact List.countP_pos_iff.mpr ⟨p, hp, by simp⟩

/-- A step that takes and gives back no pin, and changes only what is not pinned. -/
theorem PinsOk.frame (h : PinsOk (s, g)) (hpins : s'.pins = s.pins) (howed : g'.owed = g.owed)
    (hrc : ∀ j, slotWordRefcount (s'.word j) = slotWordRefcount (s.word j))
    (hslot : ∀ j, 0 < slotWordRefcount (s.word j) →
      slotWordGeneration (s'.word j) = slotWordGeneration (s.word j) ∧
        s'.content j = s.content j) : PinsOk (s', g') := by
  refine ⟨?_, ?_, ?_⟩
  · intro i
    dsimp only
    rw [hrc, hpins]
    exact h.count i
  · intro p hp
    dsimp only at hp ⊢
    rw [hpins] at hp
    obtain ⟨hgen, hcontent⟩ := hslot p.slot (h.refcount_pos hp)
    rw [hgen, hcontent]
    exact h.held p hp
  · intro i
    dsimp only
    rw [hpins, howed]
    exact h.owed i

/-- A step that leaves words, bytes and pins alone. -/
theorem PinsOk.same (h : PinsOk (s, g)) (hpins : s'.pins = s.pins) (howed : g'.owed = g.owed)
    (hword : s'.word = s.word) (hcontent : s'.content = s.content) : PinsOk (s', g') := by
  refine h.frame hpins howed ?_ ?_ <;> intro j
  · rw [hword]
  · rw [hword, hcontent]
    exact fun _ => ⟨rfl, rfl⟩

/-- A slot's word changes outside its refcount. -/
theorem PinsOk.setWord (h : PinsOk (s, g)) (howed : g'.owed = g.owed)
    (hrc : slotWordRefcount w = slotWordRefcount (s.word i))
    (hgen : 0 < slotWordRefcount (s.word i) →
      slotWordGeneration w = slotWordGeneration (s.word i)) : PinsOk (s.setWord i w, g') := by
  have hword : ∀ j, (s.setWord i w).word j = if j = i then w else s.word j := by
    intro j
    simp [Sys.setWord, Function.update_apply]
  refine h.frame rfl howed ?_ ?_
  · intro j
    rw [hword]
    split
    · rename_i hj
      rw [hj, hrc]
    · rfl
  · intro j hpos
    rw [hword]
    split
    · rename_i hj
      subst hj
      exact ⟨hgen hpos, rfl⟩
    · exact ⟨rfl, rfl⟩

/-- A word that is not pinned before and after. -/
theorem PinsOk.setFree (h : PinsOk (s, g)) (hwf : WF C (s, g)) (howed : g'.owed = g.owed)
    (hi : (g.own i).pinnable = false) (hrc : slotWordRefcount w = 0) : PinsOk (s.setWord i w, g') := by
  have hzero := hwf.unpinned i hi
  dsimp only at hzero
  refine h.setWord howed (hrc.trans hzero.symm) ?_
  intro hpos
  rw [hzero] at hpos
  exact absurd hpos (Nat.lt_irrefl 0)

/-- Bytes of a slot that is not pinned change. -/
theorem PinsOk.setContent (h : PinsOk (s, g)) (hwf : WF C (s, g)) (hpins : s'.pins = s.pins)
    (howed : g'.owed = g.owed) (hword : s'.word = s.word) (hi : (g.own i).pinnable = false)
    (hcontent : ∀ j, j ≠ i → s'.content j = s.content j) : PinsOk (s', g') := by
  refine h.frame hpins howed ?_ ?_ <;> intro j
  · rw [hword]
  · intro hpos
    have hj : j ≠ i := by
      intro e
      rw [e, hwf.unpinned i hi] at hpos
      exact absurd hpos (Nat.lt_irrefl 0)
    rw [hword]
    exact ⟨rfl, hcontent j hj⟩

theorem PinsOk.pin (h : PinsOk (s, g)) (hwf : WF C (s, g)) {b : Holder}
    (hw : SlotWord.tryPin (s.word i) = some w)
    (hpins : s'.pins = ⟨b, i, slotWordGeneration w, s.content i⟩ :: s.pins)
    (hword : s'.word = Function.update s.word i w) (hcontent : s'.content = s.content)
    (howed : ∀ j, (if b = .scheduler ∧ i = j then 1 else 0) + g.owed.count j = g'.owed.count j) :
    PinsOk (s', g') := by
  obtain ⟨hrc, hgen⟩ : slotWordRefcount w = slotWordRefcount (s.word i) + 1 ∧
      slotWordGeneration w = slotWordGeneration (s.word i) := by
    rcases (reads_of hwf i).tryPin with ⟨w', hw', _, hr⟩ | ⟨hnone, _⟩
    · rw [hw] at hw'
      cases hw'
      exact ⟨hr.refcount, hr.generation⟩
    · rw [hw] at hnone
      cases hnone
  refine ⟨?_, ?_, ?_⟩
  · intro j
    dsimp only
    rw [hpins, hword, List.countP_cons]
    by_cases hj : j = i
    · subst hj
      rw [Function.update_self, hrc, h.count]
      simp
    · have hne : (i == j) = false := by simpa using fun e => hj e.symm
      rw [Function.update_of_ne hj, h.count]
      simp [hne]
  · intro p hp
    dsimp only at hp ⊢
    rw [hpins] at hp
    rw [hword, hcontent]
    rcases List.mem_cons.mp hp with rfl | hp
    · dsimp only
      rw [Function.update_self]
      exact ⟨rfl, rfl⟩
    · have hold := h.held p hp
      dsimp only at hold
      by_cases hj : p.slot = i
      · rw [hj] at hold ⊢
        rw [Function.update_self, hgen]
        exact hold
      · rw [Function.update_of_ne hj]
        exact hold
  · intro j
    have hold := h.owed j
    dsimp only at hold ⊢
    rw [hpins, List.countP_cons, hold, ← howed j, Nat.add_comm]
    by_cases hb : b = .scheduler <;> by_cases hj : i = j <;> simp [hb, hj]

/-- The holder of a pin gives it back. -/
theorem PinsOk.unpin (h : PinsOk (s, g)) (hwf : WF C (s, g)) {b : Holder}
    (hmem : s.pins.any (fun r => r.holder == b && r.slot == i) = true)
    (howed : ∀ j, g.owed.count j = (if b = .scheduler ∧ i = j then 1 else 0) + g'.owed.count j) :
    PinsOk (s.unpin b i, g') := by
  obtain ⟨r, hr, hmatch⟩ := List.any_eq_true.mp hmem
  obtain ⟨a, l₁, l₂, _, ha, hl, herase⟩ :=
    List.exists_of_eraseP (p := fun r : Pin => r.holder == b && r.slot == i) hr hmatch
  have hpins : (s.unpin b i).pins = l₁ ++ l₂ := herase
  simp only [Bool.and_eq_true, beq_iff_eq] at ha
  obtain ⟨hholder, hslot⟩ := ha
  have hcount : ∀ q : Pin → Bool, s.pins.countP q =
      (if q a = true then 1 else 0) + (l₁ ++ l₂).countP q := by
    intro q
    rw [hl, List.countP_append, List.countP_cons, List.countP_append]
    omega
  have hword : ∀ j, (s.unpin b i).word j = if j = i then SlotWord.unpin (s.word i) else s.word j := by
    intro j
    simp [Sys.unpin, Sys.setWord, Function.update_apply]
  have hreads := (reads_of hwf i).unpin
  refine ⟨?_, ?_, ?_⟩
  · intro j
    have hold := h.count j
    dsimp only at hold ⊢
    rw [hcount] at hold
    rw [hpins, hword]
    by_cases hj : j = i
    · subst hj
      rw [if_pos rfl, hreads.refcount]
      simp only [hslot, beq_self_eq_true, if_true] at hold
      omega
    · have hne : (a.slot == j) = false := by simpa [hslot] using fun e => hj e.symm
      rw [if_neg hj]
      simp only [hne, Bool.false_eq_true, if_false] at hold
      omega
  · intro p hp
    have hp' : p ∈ s.pins := by
      dsimp only at hp
      rw [hpins] at hp
      rw [hl]
      rcases List.mem_append.mp hp with hp | hp
      · exact List.mem_append_left _ hp
      · exact List.mem_append_right _ (List.mem_cons_of_mem a hp)
    have hold := h.held p hp'
    dsimp only at hold ⊢
    rw [hword]
    by_cases hj : p.slot = i
    · rw [if_pos hj, hreads.generation]
      rw [hj] at hold ⊢
      exact hold
    · rw [if_neg hj]
      exact hold
  · intro j
    have hold := h.owed j
    dsimp only at hold ⊢
    rw [hcount, howed j] at hold
    rw [hpins]
    by_cases hb : b = .scheduler <;> by_cases hj : i = j <;>
      simp [hholder, hslot, hb, hj] at hold ⊢ <;> omega

theorem PinsOk.handOver (h : PinsOk (s, g)) (hpins : s'.pins = s.handOver.pins)
    (howed : g'.owed = []) (hword : s'.word = s.word) (hcontent : s'.content = s.content) :
    PinsOk (s', g') := by
  refine ⟨?_, ?_, ?_⟩
  · intro i
    dsimp only
    rw [hpins, hword, h.count i, Sys.handOver, List.countP_map]
    congr 1
    funext r
    by_cases hr : r.holder = .scheduler <;> simp [hr]
  · intro p hp
    dsimp only at hp ⊢
    rw [hpins, Sys.handOver] at hp
    obtain ⟨r, hr, rfl⟩ := List.mem_map.mp hp
    have hold := h.held r hr
    rw [hword, hcontent]
    by_cases hb : r.holder = .scheduler <;> simpa [hb] using hold
  · intro i
    dsimp only
    rw [hpins, howed, Sys.handOver, List.countP_map, List.count_nil, List.countP_eq_zero]
    intro r _
    by_cases hr : r.holder = .scheduler <;> simp [hr]

theorem PinsOk.bumpBatch (h : PinsOk (s, g)) {n : ℕ} (hall : s.active.allSettled n = false)
    (howed : g'.owed = g.owed) : PinsOk (s.bumpBatch n, g') := by
  refine h.same ?_ howed (sameSlots_bumpBatch s n).2 (sameSlots_bumpBatch s n).1.content
  rw [Sys.bumpBatch]
  simp only [hall, Bool.false_eq_true, if_false]
  split <;> rfl

theorem bumpBatch_pins {n : ℕ} (hall : s.active.allSettled n = true) :
    (s.bumpBatch n).pins = s.handOver.pins := by
  rw [Sys.bumpBatch]
  simp only [hall, if_true]
  split <;> rfl

theorem handOver_bumpBatch (s : Sys) (n : ℕ) :
    (s.bumpBatch n).handOver.pins = s.handOver.pins := by
  have hactive : (s.bumpBatch n).active = s.active := congrArg View.active (bumpBatch_view s n)
  rw [Sys.handOver, Sys.handOver, hactive]
  cases hall : s.active.allSettled n with
  | false =>
    have hpins : (s.bumpBatch n).pins = s.pins := by
      rw [Sys.bumpBatch]
      simp only [hall, Bool.false_eq_true, if_false]
      split <;> rfl
    rw [hpins]
  | true =>
    rw [bumpBatch_pins hall, Sys.handOver, List.map_map]
    dsimp only
    congr 1
    funext r
    by_cases hr : r.holder = .scheduler <;> simp [hr]

theorem startLoad_same (accept : ℕ → Bool) (i layer expert : ℕ) (s : Sys) :
    (startLoad C accept i layer expert s).word = s.word ∧
      (startLoad C accept i layer expert s).content = s.content ∧
      (startLoad C accept i layer expert s).pins = s.pins := by
  unfold Sched.startLoad
  split
  · exact ⟨rfl, rfl, rfl⟩
  · dsimp only
    split <;> exact ⟨rfl, rfl, rfl⟩

theorem Step.pinsOk {promise : Promise} {x y : Sys × Ghost} (hwf : WF C x) (hstep : Step C promise x y)
    (h : PinsOk x) : PinsOk y := by
  cases hstep with
  | reload s g i k hown =>
    exact h.setFree hwf rfl (by rw [hown]; rfl) (reads_of hwf i).beginReload.refcount
  | recycle s g i l e hown =>
    exact h.setFree hwf rfl (by rw [hown]; rfl) (reads_of hwf i).beginReload.refcount
  | markReady s g i k b hown =>
    have hreads := reads_of hwf i
    have hzero := hwf.unpinned i (by dsimp only; rw [hown]; rfl)
    dsimp only at hzero
    rw [hown] at hreads
    exact h.setFree hwf rfl (by rw [hown]; rfl) (hreads.markReady.refcount.trans hzero)
  | markFailed s g i k hown =>
    have hzero := hwf.unpinned i (by dsimp only; rw [hown]; rfl)
    exact h.setFree hwf rfl (by rw [hown]; rfl) ((reads_of hwf i).markFailed.refcount.trans hzero)
  | release s g i hown =>
    refine h.setFree hwf rfl ?_ (reads_of hwf i).releaseToEmpty.refcount
    rcases hown with hown | ⟨l, e, hown⟩ <;> rw [hown] <;> rfl
  | beginEvict s g i k hphase hserve hown hidle =>
    have hreads := reads_of hwf i
    rw [hown] at hreads
    obtain ⟨w, hw, hr⟩ := hreads.beginEvict
    have heq : s.beginEvict i = s.setWord i w := by simp only [Sys.beginEvict, hw]
    rw [heq]
    exact h.setWord rfl hr.refcount fun _ => hr.generation
  | startLoad s g i k accept | startNone s g i k accept =>
    obtain ⟨hw, hc, hp⟩ := startLoad_same (C := C) accept i k.layer k.expert s
    exact h.same hp rfl hw hc
  | event s g idx ok s' hev | arrive s g idx ok s' hev | «break» s g idx ok s' hnot hev =>
    obtain ⟨hpos, rfl⟩ := takeEvent_eq hev
    have hown := (hwf.ring.loading idx hpos).1
    dsimp only at hown
    refine h.setContent (i := (s.load idx).slot) hwf rfl rfl rfl (by rw [hown]; rfl) ?_
    intro j hj
    dsimp only
    split
    · rw [Function.update_of_ne hj]
    · rfl
  | settle s g i k w hcalm hphase hpresent hlayer hneed hown hpin =>
    refine h.pin hwf (b := .scheduler) hpin ?_ ?_ ?_ ?_
    · simp only [Sys.settleStep, hpin, Sys.tryPin]
    · simp only [Sys.settleStep, hpin, Sys.tryPin, Sys.setWord]
    · exact (sameSlots_settleStep s k.expert i).content
    · intro j
      dsimp only
      rw [List.count_append, List.count_singleton, Nat.add_comm]
      simp
  | bump s g hcalm hphase hpresent hall => exact h.bumpBatch hall rfl
  | bumpLast s g hcalm hphase hpresent hall =>
    exact h.handOver (bumpBatch_pins hall) rfl (sameSlots_bumpBatch s _).2
      (sameSlots_bumpBatch s _).1.content
  | bumpFinish s g =>
    exact h.handOver (handOver_bumpBatch s _) rfl (sameSlots_bumpBatch s _).2
      (sameSlots_bumpBatch s _).1.content
  | finish s g => exact h.handOver rfl rfl rfl rfl
  | unpinOwed s g i rest hcalm hbusy howed =>
    refine h.unpin hwf ?_ ?_
    · have hcount := h.owed i
      dsimp only at hcount
      rw [howed, List.count_cons_self] at hcount
      have hpos : 0 < s.pins.countP (fun p => p.holder == .scheduler && p.slot == i) := by omega
      obtain ⟨r, hr, hmatch⟩ := List.countP_pos_iff.mp hpos
      exact List.any_eq_true.mpr ⟨r, hr, hmatch⟩
    · intro j
      dsimp only
      rw [howed, List.count_cons, Nat.add_comm]
      simp
  | failBatch s g =>
    refine h.same ?_ rfl (sameSlots_failBatch s).2 (sameSlots_failBatch s).1.content
    unfold Sys.failBatch Sys.activeClearState
    split <;> rfl
  | _ => exact h.same rfl rfl rfl rfl

/-- Steps of other threads that give back only pins that are theirs. -/
theorem PinsOk.env (hwf : WF C (s, g)) (h : PinsOk (s, g)) {a : EnvAct}
    (hmatched : ∀ i, a ≠ .strayUnpin i) (ha : envStep s a = some s') : PinsOk (s', g) := by
  cases a with
  | tryPin b i =>
    simp only [envStep] at ha
    split at ha
    · cases ha
    · rename_i hb
      cases ha
      cases hw : SlotWord.tryPin (s.word i) with
      | none =>
        have hsame : s.tryPin b i = s := by simp only [Sys.tryPin, hw]
        rw [hsame]
        exact h
      | some w =>
        refine h.pin hwf (b := b) hw ?_ ?_ ?_ ?_
        · simp only [Sys.tryPin, hw]
        · simp only [Sys.tryPin, hw, Sys.setWord]
        · exact (sameSlots_tryPin s b i).content
        · intro j
          simp [hb]
  | unpin b i =>
    simp only [envStep] at ha
    split at ha
    · rename_i hcond
      cases ha
      refine h.unpin hwf hcond.2 ?_
      intro j
      simp [hcond.1]
    · cases ha
  | strayUnpin i => exact absurd rfl (hmatched i)
  | push r =>
    simp only [envStep] at ha
    split at ha
    · cases ha
      exact h.same rfl rfl rfl rfl
    · cases ha
  | land idx =>
    simp only [envStep] at ha
    split at ha
    · cases ha
    · rename_i hp
      cases ha
      have hown := (hwf.ring.loading idx (Nat.pos_of_ne_zero hp)).1
      dsimp only at hown
      refine h.setContent (i := (s.load idx).slot) hwf rfl rfl rfl (by rw [hown]; rfl) ?_
      intro j hj
      exact Function.update_of_ne hj ..
  | takeMove =>
    simp only [envStep] at ha
    split at ha
    · cases ha
      exact h.same rfl rfl rfl rfl
    · cases ha
  | copyMove =>
    simp only [envStep] at ha
    split at ha
    · rename_i m hmoving
      cases ha
      have hmem : m ∈ s.moves := by simp [Sys.moves, hmoving]
      obtain ⟨_, b, hdst⟩ := hwf.moves.tasks m hmem
      dsimp only at hdst
      refine h.setContent (i := m.dstSlot) hwf rfl rfl rfl (by rw [hdst]; rfl) ?_
      intro j hj
      exact Function.update_of_ne hj ..
    · cases ha
  | finishMove =>
    simp only [envStep] at ha
    split at ha
    · cases ha
      exact h.same rfl rfl rfl rfl
    · cases ha
  | nextToken | touch _ _ _ | resetBatch _ =>
    cases ha
    exact h.same rfl rfl rfl rfl

/-- A slot with a pin holds an expert's bytes and is not on its way to another expert. -/
theorem PinsOk.owner (hwf : WF C (s, g)) (h : PinsOk (s, g)) {p : Pin} (hp : p ∈ s.pins) :
    (g.own p.slot).pinnable = true := by
  by_contra hnot
  have hzero := hwf.unpinned p.slot (by simpa using hnot)
  have hpos := h.refcount_pos hp
  dsimp only at hzero
  omega

end parts

theorem initialSys_pinsOk (C : Config) : PinsOk (initialSys C, initialGhost) := by
  have hreads : Reads (slotWord SlotState.empty.code 0 0) .empty 0 0 :=
    reads_slotWord .empty (by decide) (by decide)
  refine ⟨fun i => hreads.refcount, ?_, fun i => rfl⟩
  intro p hp
  cases hp

/-- Every unpin gives back a pin that its holder took. -/
def MatchedUnpins (_ : State) (a : Act) : Prop := ∀ i, a ≠ .env (.strayUnpin i)

variable {C : Config}

theorem pinsOk_of_reach {guard : State → Act → Prop} (hg : ∀ r a, guard r a → MatchedUnpins r a)
    {r : State} (h : Reach (system C) guard r) :
    ∃ g, WF C (r.state, g) ∧ PinsOk (r.state, g) := by
  obtain ⟨g, hinv, hpins, _⟩ := kept_of_reach .nothing (J := PinsOk) (fun _ c _ => honored_nothing c)
    (initialSys_pinsOk C) (fun _ _ hinv hJ hstep => Step.pinsOk hinv.1 hstep hJ)
    (fun r a _ _ ha hinv hJ hstep =>
      hJ.env hinv.1 (fun i hi => hg r (.env a) ha i (congrArg Label.env hi)) hstep) h
  exact ⟨g, hinv.1, hpins⟩

/-- In every reachable state, also amid an operation, each pin that is out is counted, its slot
still has the generation and the bytes the pin found, is READY or EVICTING, is the target or the
source of no load and no move, and is named by no entry of another expert. -/
theorem pin_protected {r : State} (h : Reach (system C) MatchedUnpins r) :
    (∀ i, slotWordRefcount (r.state.word i) = r.state.pins.countP (·.slot == i)) ∧
    ∀ p ∈ r.state.pins,
      slotWordGeneration (r.state.word p.slot) = p.gen ∧
      (slotWordState (r.state.word p.slot) = SlotState.ready.code ∨
        slotWordState (r.state.word p.slot) = SlotState.evicting.code) ∧
      (∃ l e, p.content = some (l, e) ∧ r.state.content p.slot = some (l, e) ∧
        ∀ k st, r.state.dir k = ⟨st, some p.slot⟩ → k.layer = l ∧ k.expert = e) ∧
      (∀ idx, 0 < (r.state.load idx).pending → (r.state.load idx).slot ≠ p.slot) ∧
      ∀ m ∈ r.state.moves, m.srcSlot ≠ p.slot ∧ m.dstSlot ≠ p.slot := by
  obtain ⟨g, hwf, hpins⟩ := pinsOk_of_reach (fun _ _ ha => ha) h
  refine ⟨hpins.count, ?_⟩
  intro p hp
  have hown := PinsOk.owner hwf hpins hp
  obtain ⟨hgen, hcontent⟩ := hpins.held p hp
  dsimp only at hgen hcontent
  have hstate := hwf.state p.slot
  dsimp only at hstate
  refine ⟨hgen.symm, ?_, ?_, ?_, ?_⟩
  · rw [hstate]
    revert hown
    cases g.own p.slot <;> intro hown <;> first | exact .inl rfl | exact .inr rfl | cases hown
  · obtain ⟨c, hc⟩ : ∃ c, (g.own p.slot).holds = some c := by
      revert hown
      cases g.own p.slot <;> intro hown <;> first | exact ⟨_, rfl⟩ | cases hown
    have hbytes := hwf.content p.slot c hc
    dsimp only at hbytes
    refine ⟨c.1, c.2, hcontent.trans hbytes, hbytes, ?_⟩
    intro k st hk
    have hclaim := (hwf.dir.named k p.slot st).mp hk
    revert hown hc hclaim
    cases g.own p.slot <;> intro hown hc hclaim <;> cases hown <;> cases hc <;>
      first | exact ⟨rfl, rfl⟩ | (cases hclaim; exact ⟨rfl, rfl⟩) | cases hclaim
  · intro idx hpos hslot
    have hload := (hwf.ring.loading idx hpos).1
    dsimp only at hload
    rw [hslot] at hload
    rw [hload] at hown
    cases hown
  · intro m hm
    obtain ⟨hsrc, b, hdst⟩ := hwf.moves.tasks m hm
    dsimp only at hsrc hdst
    constructor <;> intro hslot
    · rw [hslot] at hsrc
      rw [hsrc] at hown
      cases hown
    · rw [hslot] at hdst
      rw [hdst] at hown
      cases hown

theorem matchedUnpins_loadRun : ∀ a ∈ loadRun true, ∀ s, MatchedUnpins s a := by
  intro a ha s i
  simp only [loadRun, List.cons_append, List.mem_cons, List.mem_append, List.mem_replicate] at ha
  rcases ha with rfl | rfl | ⟨_, rfl⟩ | rfl | rfl | ⟨_, rfl⟩ <;> simp

theorem pin_protected_afterLoad :
    ∃ r : State, ∃ p ∈ r.state.pins, slotWordGeneration (r.state.word p.slot) = p.gen ∧
      ∀ m ∈ r.state.moves, m.srcSlot ≠ p.slot ∧ m.dstSlot ≠ p.slot := by
  obtain ⟨r, hr, hp⟩ := exists_run (loadRun true)
    (fun r => decide (⟨.batch (some 0), 0, 1, some (0, 0)⟩ ∈ r.state.pins)) (by decide +kernel)
  have hmem := of_decide_eq_true hp
  obtain ⟨_, hprotected⟩ := pin_protected (reach_loadRun matchedUnpins_loadRun hr)
  obtain ⟨hgen, _, _, _, hmoves⟩ := hprotected _ hmem
  exact ⟨r, _, hmem, hgen, hmoves⟩

end PinProtection
end StreamMoE
