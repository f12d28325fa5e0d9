import StreamMoE.SlotLifecycle

/-! The atomic steps of the scheduler thread as transitions of the owners, the steps of the
other threads, and the invariant they keep. -/
namespace StreamMoE
namespace Sched

open SlotWord SchedConfig

/-- The active request still needs an expert. -/
def Serving (C : Config) (s : Sys) : Prop :=
  s.active.present = true ∧ ∃ e < C.topo.nExpert, s.active.stillNeed e = true

/-- No eviction is under way. -/
def Calm (g : Ghost) : Prop := ∀ i k, g.own i ≠ .evicting k

def absentEverywhere (s : Sys) (k : Key) : Prop :=
  ∀ p, (s.dir ⟨k.layer, k.expert, p⟩).state = .absent

def Sys.popPhase (s : Sys) : Phase :=
  match s.requests with
  | [] => .idle
  | r :: _ => .popped r

/-- What the devices promise: every load that is started has a slice accepted; no slice is refused
and no report is an error. -/
structure Promise where
  starts : Prop
  sound : Prop

def Promise.nothing : Promise := ⟨False, False⟩

def Promise.faultFree : Promise := ⟨True, True⟩

/-- One atomic step of the scheduler thread. -/
inductive Step (C : Config) (promise : Promise) : Sys × Ghost → Sys × Ghost → Prop
  | stutter (x) : Step C promise x x
  | forget (s g) : Step C promise (s, g) (s, { g with idle := [] })
  | observe (s g i k) : g.phase = .active → Serving C s → g.own i = .resident k →
      slotWordRefcount (s.word i) = 0 → Step C promise (s, g) (s, { g with idle := i :: g.idle })
  | arm (s g b) : Step C promise (s, g) (s.armStall b, g)
  | pop (s g) : g.phase = .idle → s.active.present = false →
      Step C promise (s, g) (s.popRequest, { g with phase := s.popPhase })
  | register (s g r) : g.phase = .popped r → s.active.present = false → g.owed = [] →
      Step C promise (s, g) (s.activeInit r, { g with phase := .active })
  | reserve (s g i k) : g.own i = .free → absentEverywhere s k → HomeRegion C i k.pool k.layer →
      Step C promise (s, g) (s.setDir k .loading (some i), g.setOwn i (.reserving k))
  | reload (s g i k) : g.own i = .reserving k →
      Step C promise (s, g) (s.beginReload i, g.setOwn i (.reserved k))
  | startLoad (s g i k accept idx) : g.own i = .reserved k → s.loadFree.getLast? = some idx →
      (submitSlices accept (C.topo.numTensors k.layer k.expert) 0).1 ≠ 0 →
      (promise.sound → (submitSlices accept (C.topo.numTensors k.layer k.expert) 0).2 = false) →
      Step C promise (s, g) (startLoad C accept i k.layer k.expert s, g.setOwn i (.loading k idx))
  | startNone (s g i k accept) : g.own i = .reserved k →
      (s.loadFree = [] ∨ (submitSlices accept (C.topo.numTensors k.layer k.expert) 0).1 = 0) →
      Step C promise (s, g) (startLoad C accept i k.layer k.expert s, g)
  | abandon (s g i k) : ¬ promise.starts → g.own i = .reserved k →
      Step C promise (s, g) (s.setDir k .absent none, g.setOwn i .abandoned)
  | event (s g idx ok s') : s.takeEvent idx ok = some s' → (s.load idx).pending ≠ 1 →
      (promise.sound → ok = true) → Step C promise (s, g) (s', g)
  | arrive (s g idx ok s') : s.takeEvent idx ok = some s' → (s.load idx).pending = 1 →
      ((s.load idx).failed || !ok) = false →
      Step C promise (s, g) (s', g.setOwn (s.load idx).slot (.arrived (s.load idx).key .loading))
  | break (s g idx ok s') : ¬ promise.sound → s.takeEvent idx ok = some s' →
      (s.load idx).pending = 1 → ((s.load idx).failed || !ok) = true →
      Step C promise (s, g) (s', g.setOwn (s.load idx).slot (.broken (s.load idx).key))
  | markReady (s g i k b) : g.own i = .arrived k b →
      Step C promise (s, g) (s.markReady i, g.setOwn i (.landed k b))
  | settleDir (s g i k b) : g.own i = .landed k b →
      Step C promise (s, g) (s.setDir k .ready (some i), g.setOwn i (.resident k))
  | markFailed (s g i k) : g.own i = .broken k →
      Step C promise (s, g) (s.markFailed i, g.setOwn i (.failing k))
  | fail (s g i k) : g.own i = .failing k →
      Step C promise (s, g) (s.setDir k .absent none, g.setOwn i .failed)
  | freeTask (s g idx) : s.loadInUse idx = true → (s.load idx).pending = 0 →
      Step C promise (s, g) (s.freeTask idx, g)
  | settle (s g i k w) : Calm g → g.phase = .active → s.active.present = true →
      s.active.layer = k.layer → s.active.stillNeed k.expert = true → g.own i = .resident k →
      SlotWord.tryPin (s.word i) = some w →
      Step C promise (s, g) (s.settleStep k.expert i,
        { g with owed := g.owed ++ [i], idle := [], phase := .owing })
  | bump (s g) : Calm g → g.phase = .owing → s.active.present = true →
      s.active.allSettled C.topo.nExpert = false →
      Step C promise (s, g) (s.bumpBatch C.topo.nExpert, { g with idle := [], phase := .active })
  | bumpLast (s g) : Calm g → g.phase = .owing → s.active.present = true →
      s.active.allSettled C.topo.nExpert = true →
      Step C promise (s, g) (s.bumpBatch C.topo.nExpert,
        { g with owed := [], idle := [], phase := .handed })
  | bumpFinish (s g) : Calm g → g.phase = .owing → s.active.present = true → s.active.nLeft = 0 →
      Step C promise (s, g) ((s.bumpBatch C.topo.nExpert).activeFinish,
        { g with owed := [], idle := [], phase := .idle })
  | finish (s g) : Calm g → (g.phase = .active ∨ g.phase = .handed) → s.active.present = true →
      s.active.nLeft = 0 →
      Step C promise (s, g) (s.activeFinish, { g with owed := [], idle := [], phase := .idle })
  | unpinOwed (s g i rest) : Calm g → g.phase.busy = true → g.owed = i :: rest →
      Step C promise (s, g) (s.unpin .scheduler i,
        { g with owed := rest, idle := [], phase := .failing })
  | failBatch (s g) : Calm g → g.phase.busy = true → s.active.present = true → g.owed = [] →
      Step C promise (s, g) (s.failBatch, { g with idle := [], phase := .idle })
  | beginEvict (s g i k) : g.phase = .active → Serving C s → g.own i = .resident k → i ∈ g.idle →
      Step C promise (s, g) (s.beginEvict i, g.setOwn i (.evicting k))
  | clear (s g i k) : g.own i = .evicting k →
      Step C promise (s, g) (s.setDir k .absent none, g.setOwn i (.vacating k.layer k.expert))
  | drain (s g i l e) : g.own i = .vacating l e → slotWordRefcount (s.word i) = 0 →
      Step C promise (s, g) (s, g.setOwn i (.drained l e))
  | recycle (s g i l e) : g.own i = .drained l e →
      Step C promise (s, g) (s.beginReload i, g.setOwn i .unclaimed)
  | claim (s g i k) : g.own i = .unclaimed → absentEverywhere s k → HomeRegion C i k.pool k.layer →
      Step C promise (s, g) (s.setDir k .loading (some i), g.setOwn i (.reserved k))
  | submitMove (s g m) : g.own m.srcSlot = .drained m.layer m.expert →
      g.own m.dstSlot = .reserved m.dstKey →
      Step C promise (s, g) (s.pushMove m, (g.setOwn m.srcSlot (.source m.layer m.expert)).setOwn m.dstSlot
        (.target m.dstKey .loading))
  | moveIn (s g i k) : g.own i = .target k .loading →
      Step C promise (s, g) (s.setDir k .movingIn (some i), g.setOwn i (.target k .movingIn))
  | unreserve (s g i k) : g.own i = .reserved k →
      Step C promise (s, g) (s.setDir k .absent none, g.setOwn i .unclaimed)
  | release (s g i) : (g.own i = .unclaimed ∨ ∃ l e, g.own i = .drained l e) →
      Step C promise (s, g) (s.releaseToEmpty i, g.setOwn i .free)
  | popMove (s g m rest b) : s.moveDone = m :: rest → g.own m.dstSlot = .target m.dstKey b →
      Step C promise (s, g) (s.popMove, (g.setOwn m.srcSlot (.drained m.layer m.expert)).setOwn m.dstSlot
        (.arrived m.dstKey b))

/-- Slot `i` gets a word and the directory changes. -/
def Sys.put (s : Sys) (i : ℕ) (w : Word) (dir : Key → DirEntry) : Sys :=
  { s with word := Function.update s.word i w, dir := dir }

theorem Sys.setDir_eq_put (s : Sys) (i : ℕ) (k : Key) (st : ExpertState) (slot : Option ℕ) :
    s.setDir k st slot = s.put i (s.word i) (Function.update s.dir k ⟨st, slot⟩) := by
  simp [Sys.setDir, Sys.put]

theorem Sys.setWord_eq_put (s : Sys) (i : ℕ) (w : Word) : s.setWord i w = s.put i w s.dir := rfl

section put

variable {C : Config} {s : Sys} {g : Ghost} {i : ℕ} {a : Owner} {k : Key} {w : Word}

/-- A step that touches one slot outside the load ring and the move queues. -/
theorem WF.put (h : WF C (s, g)) {dir : Key → DirEntry} (hst : slotWordState w = a.state.code)
    (hrc : a.pinnable = false → slotWordRefcount w = 0)
    (hcontent : ∀ c, a.holds = some c → (g.own i).holds = some c)
    (hregion : ∀ k st, a.claim = some (k, st) → InRegion C i k.pool k.layer)
    (hdir : DirOk dir (Function.update g.own i a))
    (hring : (g.own i).isLoading = false ∧ a.isLoading = false)
    (hmove : (g.own i).inMove = false ∧ a.inMove = false) :
    WF C (s.put i w dir, g.setOwn i a) := by
  refine ⟨?_, hdir, h.ring.update hring.1 hring.2, h.moves.update hmove.1 hmove.2, h.owed⟩
  exact h.toSlotsOk.update hst hrc (fun c hc => h.content i c (hcontent c hc)) (fun _ _ => rfl)
    hregion

/-- The word of a slot changes and its entry does not. -/
theorem WF.putWord (h : WF C (s, g)) (hst : slotWordState w = a.state.code)
    (hrc : a.pinnable = false → slotWordRefcount w = 0)
    (hcontent : ∀ c, a.holds = some c → (g.own i).holds = some c)
    (hclaim : a.claim = (g.own i).claim)
    (hring : (g.own i).isLoading = false ∧ a.isLoading = false)
    (hmove : (g.own i).inMove = false ∧ a.inMove = false) :
    WF C (s.setWord i w, g.setOwn i a) := by
  rw [Sys.setWord_eq_put]
  refine h.put hst hrc hcontent ?_ (h.dir.update_of_claim_eq hclaim) hring hmove
  intro k st hk
  exact h.region i k st (hclaim ▸ hk)

/-- The entry of a slot changes and its word does not. -/
theorem WF.putDir (h : WF C (s, g)) {st : ExpertState} {slot : Option ℕ}
    (hst : a.state = (g.own i).state) (hpin : a.pinnable = (g.own i).pinnable)
    (hcontent : ∀ c, a.holds = some c → (g.own i).holds = some c)
    (hregion : ∀ k st, a.claim = some (k, st) → InRegion C i k.pool k.layer)
    (hdir : DirOk (Function.update s.dir k ⟨st, slot⟩) (Function.update g.own i a))
    (hring : (g.own i).isLoading = false ∧ a.isLoading = false)
    (hmove : (g.own i).inMove = false ∧ a.inMove = false) :
    WF C (s.setDir k st slot, g.setOwn i a) := by
  rw [Sys.setDir_eq_put s i]
  refine h.put ?_ ?_ hcontent hregion hdir hring hmove
  · rw [hst]
    exact h.state i
  · intro hp
    exact h.unpinned i (hpin ▸ hp)

theorem reads_of (h : WF C (s, g)) (i : ℕ) :
    Reads (s.word i) (g.own i).state (slotWordRefcount (s.word i))
      (slotWordGeneration (s.word i)) :=
  ⟨h.state i, rfl, rfl⟩

end put

/-- Steps that leave slots, directory, loads and moves alone. -/
structure SameSlots (s s' : Sys) : Prop where
  dir : s'.dir = s.dir
  content : s'.content = s.content
  loadFree : s'.loadFree = s.loadFree
  loadInUse : s'.loadInUse = s.loadInUse
  load : s'.load = s.load
  moveSubmit : s'.moveSubmit = s.moveSubmit
  moving : s'.moving = s.moving
  moveDone : s'.moveDone = s.moveDone

theorem SameSlots.refl (s : Sys) : SameSlots s s := ⟨rfl, rfl, rfl, rfl, rfl, rfl, rfl, rfl⟩

section frame

variable {C : Config} {s s' : Sys} {g g' : Ghost}

theorem SameSlots.moves_eq (hs : SameSlots s s') : s'.moves = s.moves := by
  rw [Sys.moves, Sys.moves, hs.moveDone, hs.moving, hs.moveSubmit]

theorem SameSlots.copied_eq (hs : SameSlots s s') : s'.copied = s.copied := by
  rw [Sys.copied, Sys.copied, hs.moveDone, hs.moving]

/-- Only refcounts of slots that may be pinned change. -/
theorem WF.of_words (h : WF C (s, g)) (hs : SameSlots s s') (hown : g'.own = g.own)
    (hstate : ∀ i, slotWordState (s'.word i) = slotWordState (s.word i))
    (hrc : ∀ i, (g.own i).pinnable = false → slotWordRefcount (s'.word i) = 0)
    (howed : ∀ i ∈ g'.owed, i < C.geometry.numSlots) : WF C (s', g') := by
  have hmoves := h.moves
  have hring := h.ring
  have hdir := h.dir
  have hcontent := h.content
  have hregion := h.region
  dsimp only at hmoves hring hdir hcontent hregion
  rw [← hown] at hmoves hring hdir hcontent hregion
  rw [← hs.moves_eq, ← hs.copied_eq, ← hs.content] at hmoves
  rw [← hs.load, ← hs.loadInUse, ← hs.loadFree] at hring
  rw [← hs.dir] at hdir
  rw [← hs.content] at hcontent
  refine ⟨⟨?_, ?_, hcontent, hregion⟩, hdir, hring, hmoves, howed⟩
  · intro i
    dsimp only
    rw [hown, hstate]
    exact h.state i
  · intro i
    dsimp only
    rw [hown]
    exact hrc i

theorem WF.of_same (h : WF C (s, g)) (hs : SameSlots s s') (hword : s'.word = s.word)
    (hown : g'.own = g.own) (howed : ∀ i ∈ g'.owed, i < C.geometry.numSlots) : WF C (s', g') := by
  refine h.of_words hs hown ?_ ?_ howed
  · intro i
    rw [hword]
  · intro i hi
    rw [hword]
    exact h.unpinned i hi

theorem sameSlots_tryPin (s : Sys) (b : Holder) (i : ℕ) : SameSlots s (s.tryPin b i) := by
  unfold Sys.tryPin
  split <;> exact ⟨rfl, rfl, rfl, rfl, rfl, rfl, rfl, rfl⟩

/-- A pin leaves every state as it is and counts on a pinnable slot only. -/
theorem WF.tryPin_word (h : WF C (s, g)) (b : Holder) (i : ℕ) :
    (∀ j, slotWordState ((s.tryPin b i).word j) = slotWordState (s.word j)) ∧
      ∀ j, (g.own j).pinnable = false → slotWordRefcount ((s.tryPin b i).word j) = 0 := by
  rcases (reads_of h i).tryPin with ⟨w, hw, hready, hr⟩ | ⟨hw, _⟩
  · have hword : (s.tryPin b i).word = Function.update s.word i w := by
      simp only [Sys.tryPin, hw]
      rfl
    have hpin : (g.own i).pinnable = true := by
      revert hready
      cases g.own i <;> intro hready <;> first | rfl | cases hready
    rw [hword]
    constructor
    · intro j
      by_cases hj : j = i
      · subst hj
        rw [Function.update_self, hr.state, h.state j]
        dsimp only
        rw [hready]
      · rw [Function.update_of_ne hj]
    · intro j hjp
      by_cases hj : j = i
      · subst hj
        rw [hpin] at hjp
        cases hjp
      · rw [Function.update_of_ne hj]
        exact h.unpinned j hjp
  · have hsame : s.tryPin b i = s := by simp only [Sys.tryPin, hw]
    rw [hsame]
    exact ⟨fun _ => rfl, h.unpinned⟩

theorem WF.unpin_word (h : WF C (s, g)) (i : ℕ) (s' : Sys)
    (hword : s'.word = Function.update s.word i (SlotWord.unpin (s.word i))) :
    (∀ j, slotWordState (s'.word j) = slotWordState (s.word j)) ∧
      ∀ j, (g.own j).pinnable = false → slotWordRefcount (s'.word j) = 0 := by
  have hr := (reads_of h i).unpin
  rw [hword]
  constructor
  · intro j
    by_cases hj : j = i
    · subst hj
      rw [Function.update_self, hr.state, h.state j]
    · rw [Function.update_of_ne hj]
  · intro j hjp
    by_cases hj : j = i
    · subst hj
      rw [Function.update_self, hr.refcount, h.unpinned j hjp]
    · rw [Function.update_of_ne hj]
      exact h.unpinned j hjp

theorem WF.tryPin (h : WF C (s, g)) (b : Holder) (i : ℕ) : WF C (s.tryPin b i, g) := by
  obtain ⟨h₁, h₂⟩ := h.tryPin_word b i
  exact h.of_words (sameSlots_tryPin s b i) rfl h₁ h₂ h.owed

theorem WF.unpin (h : WF C (s, g)) (b : Holder) (i : ℕ) : WF C (s.unpin b i, g) := by
  obtain ⟨h₁, h₂⟩ := h.unpin_word i (s.unpin b i) rfl
  exact h.of_words ⟨rfl, rfl, rfl, rfl, rfl, rfl, rfl, rfl⟩ rfl h₁ h₂ h.owed

theorem sameSlots_settleStep (s : Sys) (e i : ℕ) : SameSlots s (s.settleStep e i) := by
  unfold Sys.settleStep
  split
  · exact SameSlots.refl s
  · have hs := sameSlots_tryPin s .scheduler i
    exact ⟨hs.dir, hs.content, hs.loadFree, hs.loadInUse, hs.load, hs.moveSubmit, hs.moving,
      hs.moveDone⟩

theorem settleStep_word (s : Sys) (e i : ℕ) :
    (s.settleStep e i).word = (s.tryPin .scheduler i).word := by
  unfold Sys.settleStep
  split
  · rename_i hnone
    simp only [Sys.tryPin, hnone]
  · rfl

theorem sameSlots_bumpBatch (s : Sys) (n : ℕ) :
    SameSlots s (s.bumpBatch n) ∧ (s.bumpBatch n).word = s.word := by
  unfold Sys.bumpBatch Sys.handOver
  dsimp only
  split <;> split <;> exact ⟨⟨rfl, rfl, rfl, rfl, rfl, rfl, rfl, rfl⟩, rfl⟩

theorem sameSlots_failBatch (s : Sys) : SameSlots s s.failBatch ∧ s.failBatch.word = s.word := by
  unfold Sys.failBatch Sys.activeClearState
  split <;> exact ⟨⟨rfl, rfl, rfl, rfl, rfl, rfl, rfl, rfl⟩, rfl⟩

end frame

section ring

variable {C : Config} {s : Sys} {g : Ghost}

theorem takeEvent_eq {idx : ℕ} {ok : Bool} {s' : Sys} (h : s.takeEvent idx ok = some s') :
    0 < (s.load idx).pending ∧
    s' = { s with
      load := Function.update s.load idx
        { s.load idx with
          pending := (s.load idx).pending - 1, failed := (s.load idx).failed || !ok }
      content := if (s.load idx).pending = 1 ∧ ((s.load idx).failed || !ok) = false then
        Function.update s.content (s.load idx).slot (some ((s.load idx).layer, (s.load idx).expert))
        else s.content } := by
  simp only [Sys.takeEvent] at h
  split at h
  · cases h
  · rename_i hp
    cases h
    exact ⟨Nat.pos_of_ne_zero hp, rfl⟩

/-- A load with requests in flight is not one of the free elements. -/
theorem RingOk.ne_of_free {load : ℕ → LoadTask} {inUse : ℕ → Bool} {free : List ℕ}
    {own : ℕ → Owner} (h : RingOk load inUse free own) {idx j : ℕ} (hp : 0 < (load idx).pending)
    (hj : j ∈ free) : j ≠ idx := by
  intro e
  subst e
  have hzero := (h.free j hj).1
  omega

/-- A report that is not the last one. -/
theorem RingOk.countDown {load : ℕ → LoadTask} {inUse : ℕ → Bool} {free : List ℕ}
    {own : ℕ → Owner} (h : RingOk load inUse free own) {idx : ℕ} {failed : Bool}
    (hp : 1 < (load idx).pending) :
    RingOk (Function.update load idx
      { load idx with pending := (load idx).pending - 1, failed := failed }) inUse free own := by
  have hkey : ∀ j, (Function.update load idx { load idx with
      pending := (load idx).pending - 1, failed := failed } j).slot = (load j).slot ∧
      (Function.update load idx { load idx with
        pending := (load idx).pending - 1, failed := failed } j).key = (load j).key ∧
      (0 < (Function.update load idx { load idx with
        pending := (load idx).pending - 1, failed := failed } j).pending ↔
          0 < (load j).pending) := by
    intro j
    by_cases hj : j = idx
    · subst hj
      rw [Function.update_self]
      refine ⟨rfl, rfl, ?_⟩
      dsimp only
      omega
    · rw [Function.update_of_ne hj]
      exact ⟨rfl, rfl, Iff.rfl⟩
  refine ⟨?_, ?_, ?_, h.nodup⟩
  · intro j hj
    obtain ⟨h₁, h₂, h₃⟩ := hkey j
    rw [h₁, h₂]
    exact h.loading j (h₃.mp hj)
  · intro i k j hj
    obtain ⟨h₁, h₂, h₃⟩ := hkey j
    rw [h₁, h₂, h₃]
    exact h.task i k j hj
  · intro j hj
    rw [Function.update_of_ne (h.ne_of_free (by omega) hj)]
    exact h.free j hj

/-- The last report takes the load's slot out of the ring. -/
theorem RingOk.settle {load : ℕ → LoadTask} {inUse : ℕ → Bool} {free : List ℕ}
    {own : ℕ → Owner} (h : RingOk load inUse free own) {idx : ℕ} {t : LoadTask} {a : Owner}
    (hp : 0 < (load idx).pending) (ht : t.pending = 0) (ha : a.isLoading = false) :
    RingOk (Function.update load idx t) inUse free (Function.update own (load idx).slot a) := by
  have hown := (h.loading idx hp).1
  refine ⟨?_, ?_, ?_, h.nodup⟩
  · intro j hj
    by_cases hji : j = idx
    · subst hji
      rw [Function.update_self, ht] at hj
      omega
    · rw [Function.update_of_ne hji] at hj ⊢
      obtain ⟨h₁, h₂⟩ := h.loading j hj
      have hslot : (load j).slot ≠ (load idx).slot := by
        intro e
        rw [e, hown] at h₁
        injection h₁ with _ hidx
        exact hji hidx.symm
      rw [Function.update_of_ne hslot]
      exact ⟨h₁, h₂⟩
  · intro i k j hj
    have hi : i ≠ (load idx).slot := by
      intro e
      subst e
      rw [Function.update_self] at hj
      rw [hj] at ha
      cases ha
    rw [Function.update_of_ne hi] at hj
    obtain ⟨h₁, h₂, h₃⟩ := h.task i k j hj
    have hji : j ≠ idx := by
      intro e
      subst e
      exact hi h₂.symm
    rw [Function.update_of_ne hji]
    exact ⟨h₁, h₂, h₃⟩
  · intro j hj
    rw [Function.update_of_ne (h.ne_of_free hp hj)]
    exact h.free j hj

/-- A free element is overwritten and stays free. -/
theorem RingOk.overwrite {load : ℕ → LoadTask} {inUse : ℕ → Bool} {free : List ℕ}
    {own : ℕ → Owner} (h : RingOk load inUse free own) {idx : ℕ} {t : LoadTask} (hidx : idx ∈ free)
    (ht : t.pending = 0) : RingOk (Function.update load idx t) inUse free own := by
  have hzero := (h.free idx hidx).1
  refine ⟨?_, ?_, ?_, h.nodup⟩
  · intro j hj
    by_cases hji : j = idx
    · subst hji
      rw [Function.update_self, ht] at hj
      omega
    · rw [Function.update_of_ne hji] at hj ⊢
      exact h.loading j hj
  · intro i k j hj
    have hold := h.task i k j hj
    have hji : j ≠ idx := by
      intro e
      subst e
      omega
    rw [Function.update_of_ne hji]
    exact hold
  · intro j hj
    by_cases hji : j = idx
    · subst hji
      rw [Function.update_self]
      exact ⟨ht, (h.free j hj).2⟩
    · rw [Function.update_of_ne hji]
      exact h.free j hj

/-- The last free element becomes a load of slot `i`. -/
theorem RingOk.start {load : ℕ → LoadTask} {inUse : ℕ → Bool} {free : List ℕ}
    {own : ℕ → Owner} (h : RingOk load inUse free own) {idx i : ℕ} {t : LoadTask}
    (hidx : free.getLast? = some idx) (hp : 0 < t.pending) (hslot : t.slot = i)
    (hi : (own i).isLoading = false) :
    RingOk (Function.update load idx t) (Function.update inUse idx true) free.dropLast
      (Function.update own i (.loading t.key idx)) := by
  have hmem := List.mem_of_getLast? hidx
  have hzero := (h.free idx hmem).1
  have hnodup := h.nodup
  rw [← List.dropLast_append_getLast? idx hidx, List.nodup_append] at hnodup
  refine ⟨?_, ?_, ?_, hnodup.1⟩
  · intro j hj
    by_cases hji : j = idx
    · subst hji
      rw [Function.update_self, Function.update_self, hslot, Function.update_self]
      exact ⟨rfl, rfl⟩
    · rw [Function.update_of_ne hji] at hj
      obtain ⟨h₁, h₂⟩ := h.loading j hj
      have hne : (load j).slot ≠ i := by
        intro e
        rw [e] at h₁
        rw [h₁] at hi
        cases hi
      rw [Function.update_of_ne hji, Function.update_of_ne hji, Function.update_of_ne hne]
      exact ⟨h₁, h₂⟩
  · intro j k idx' hj
    by_cases hji : j = i
    · subst hji
      rw [Function.update_self] at hj
      cases hj
      rw [Function.update_self]
      exact ⟨hp, hslot, rfl⟩
    · rw [Function.update_of_ne hji] at hj
      have hold := h.task j k idx' hj
      have hne : idx' ≠ idx := by
        intro e
        subst e
        omega
      rw [Function.update_of_ne hne]
      exact hold
  · intro j hj
    have hne : j ≠ idx := hnodup.2.2 j hj idx (List.mem_singleton_self idx)
    rw [Function.update_of_ne hne, Function.update_of_ne hne]
    exact h.free j (List.mem_of_mem_take (List.dropLast_eq_take ▸ hj))

theorem RingOk.release {load : ℕ → LoadTask} {inUse : ℕ → Bool} {free : List ℕ}
    {own : ℕ → Owner} (h : RingOk load inUse free own) {idx : ℕ} (huse : inUse idx = true)
    (hp : (load idx).pending = 0) :
    RingOk load (Function.update inUse idx false) (free ++ [idx]) own := by
  have hne : ∀ j ∈ free, j ≠ idx := by
    intro j hj e
    have hunused := (h.free j hj).2
    rw [e, huse] at hunused
    cases hunused
  refine ⟨?_, h.task, ?_, ?_⟩
  · intro j hj
    have hji : j ≠ idx := by
      intro e
      subst e
      omega
    rw [Function.update_of_ne hji]
    exact h.loading j hj
  · intro j hj
    rcases List.mem_append.mp hj with hj | hj
    · rw [Function.update_of_ne (hne j hj)]
      exact h.free j hj
    · rw [List.mem_singleton] at hj
      subst hj
      exact ⟨hp, Function.update_self ..⟩
  · refine List.nodup_append.mpr ⟨h.nodup, by simp, ?_⟩
    intro j hj j' hj'
    rw [List.mem_singleton] at hj'
    subst hj'
    exact hne j hj

theorem WF.event (h : WF C (s, g)) {idx : ℕ} {ok : Bool} {s' : Sys}
    (hev : s.takeEvent idx ok = some s') (hp : (s.load idx).pending ≠ 1) : WF C (s', g) := by
  obtain ⟨hpos, rfl⟩ := takeEvent_eq hev
  have hcontent : ¬ ((s.load idx).pending = 1 ∧ ((s.load idx).failed || !ok) = false) :=
    fun hc => hp hc.1
  have hgt : 1 < (s.load idx).pending := by omega
  simp only [if_neg hcontent]
  exact ⟨h.toSlotsOk, h.dir, h.ring.countDown hgt, h.moves, h.owed⟩

/-- The last report of a load: the slot leaves the load ring as `a`. -/
theorem WF.lastEvent (h : WF C (s, g)) {idx : ℕ} {ok : Bool} {s' : Sys} {a : Owner}
    (hev : s.takeEvent idx ok = some s') (hp : (s.load idx).pending = 1)
    (hst : a.state = .ioInflight)
    (hholds : ∀ c, a.holds = some c → ((s.load idx).failed || !ok) = false ∧
      c = ((s.load idx).layer, (s.load idx).expert))
    (hclaim : a.claim = some ((s.load idx).key, .loading)) (hload : a.isLoading = false)
    (hmove : a.inMove = false) : WF C (s', g.setOwn (s.load idx).slot a) := by
  obtain ⟨hpos, rfl⟩ := takeEvent_eq hev
  have hown := (h.ring.loading idx hpos).1
  dsimp only at hown
  have hold : (g.own (s.load idx).slot).claim = some ((s.load idx).key, .loading) := by
    rw [hown]
    rfl
  have hstate := h.state (s.load idx).slot
  dsimp only at hstate
  rw [hown] at hstate
  have hother : ∀ j, j ≠ (s.load idx).slot →
      (if (s.load idx).pending = 1 ∧ ((s.load idx).failed || !ok) = false then
        Function.update s.content (s.load idx).slot
          (some ((s.load idx).layer, (s.load idx).expert)) else s.content) j = s.content j := by
    intro j hj
    split
    · rw [Function.update_of_ne hj]
    · rfl
  refine ⟨?_, h.dir.update_of_claim_eq (hclaim.trans hold.symm),
    h.ring.settle hpos (by simp [hp]) hload, ?_, h.owed⟩
  · have hslots := h.toSlotsOk.update (w := s.word (s.load idx).slot) (a := a)
      (by rw [hst]; exact hstate)
      (fun _ => h.unpinned _ (by dsimp only; rw [hown]; rfl)) ?_ hother ?_
    · rwa [Function.update_eq_self] at hslots
    · intro c hc
      obtain ⟨hok, rfl⟩ := hholds c hc
      rw [if_pos ⟨hp, hok⟩, Function.update_self]
    · intro k st hk
      rw [hclaim] at hk
      cases hk
      exact h.region _ _ _ hold
  · have hm := h.moves.update (a := a) (i := (s.load idx).slot) (by dsimp only; rw [hown]; rfl) hmove
    refine ⟨hm.srcs, hm.dsts, hm.tasks, hm.src, hm.dst, hm.sub, ?_⟩
    intro m hm'
    have hne : m.dstSlot ≠ (s.load idx).slot := by
      intro e
      obtain ⟨_, b, hb⟩ := h.moves.tasks m (h.moves.sub m hm')
      dsimp only at hb
      rw [e, hown] at hb
      cases hb
    dsimp only
    rw [hother _ hne]
    exact h.moves.copied m hm'

theorem WF.freeTask (h : WF C (s, g)) {idx : ℕ} (huse : s.loadInUse idx = true)
    (hp : (s.load idx).pending = 0) : WF C (s.freeTask idx, g) :=
  ⟨h.toSlotsOk, h.dir, h.ring.release huse hp, h.moves, h.owed⟩

/-- A load that was refused leaves its free element as it was found. -/
theorem WF.startNone (h : WF C (s, g)) {accept : ℕ → Bool} {i layer expert : ℕ}
    (hnone : s.loadFree = [] ∨
      (submitSlices accept (C.topo.numTensors layer expert) 0).1 = 0) :
    WF C (startLoad C accept i layer expert s, g) := by
  unfold startLoad
  split
  · exact h
  · rename_i idx hidx
    have hmem := List.mem_of_getLast? hidx
    have hzero : (submitSlices accept (C.topo.numTensors layer expert) 0).1 = 0 := by
      rcases hnone with hnil | hzero
      · rw [hnil] at hmem
        exact absurd hmem List.not_mem_nil
      · exact hzero
    simp only [hzero, if_true]
    exact ⟨h.toSlotsOk, h.dir, h.ring.overwrite hmem rfl, h.moves, h.owed⟩

theorem pool_of_region {k : Key} {i : ℕ} (h : InRegion C i k.pool k.layer) :
    ((PoolGeometry.subpoolOfSlot C.geometry i).map PoolGeometry.Subpool.pool).getD 0 = k.pool := by
  obtain ⟨sp, hsp, hpool, _⟩ := h
  rw [hsp]
  exact hpool

theorem slot_lt_of_region {pool layer i : ℕ} (h : InRegion C i pool layer) :
    i < C.geometry.numSlots := by
  obtain ⟨sp, hsp, _⟩ := h
  unfold PoolGeometry.subpoolOfSlot at hsp
  split at hsp
  · assumption
  · cases hsp

theorem WF.startLoad (h : WF C (s, g)) {accept : ℕ → Bool} {i idx : ℕ} {k : Key}
    (hown : g.own i = .reserved k) (hidx : s.loadFree.getLast? = some idx)
    (hpos : (submitSlices accept (C.topo.numTensors k.layer k.expert) 0).1 ≠ 0) :
    WF C (Sched.startLoad C accept i k.layer k.expert s, g.setOwn i (.loading k idx)) := by
  have hclaim : (g.own i).claim = some (k, .loading) := by rw [hown]; rfl
  have hregion := h.region i k .loading hclaim
  have hstate := h.state i
  dsimp only at hstate
  rw [hown] at hstate
  have hrc := h.unpinned i (by dsimp only; rw [hown]; rfl)
  simp only [Sched.startLoad, hidx, if_neg hpos, pool_of_region hregion]
  refine ⟨?_, h.dir.update_of_claim_eq hclaim.symm, ?_,
    h.moves.update (by dsimp only; rw [hown]; rfl) rfl, h.owed⟩
  · have hslots : SlotsOk C (Function.update s.word i (s.word i)) s.content
        (Function.update g.own i (.loading k idx)) := by
      refine h.toSlotsOk.update hstate (fun _ => hrc) ?_ (fun _ _ => rfl) ?_
      · intro c hc
        cases hc
      · intro k' st hk
        cases hk
        exact hregion
    rwa [Function.update_eq_self] at hslots
  · exact h.ring.start (t := ⟨k.layer, k.expert, k.pool, i, _, _⟩) hidx (Nat.pos_of_ne_zero hpos)
      rfl (by dsimp only; rw [hown]; rfl)

end ring

section moves

variable {C : Config} {s : Sys} {g : Ghost}

theorem pushMove_moves (s : Sys) (m : MoveTask) : (s.pushMove m).moves = s.moves ++ [m] := by
  simp [Sys.moves, Sys.pushMove]

theorem WF.submitMove (h : WF C (s, g)) {m : MoveTask}
    (hsrc : g.own m.srcSlot = .drained m.layer m.expert)
    (hdst : g.own m.dstSlot = .reserved m.dstKey) :
    WF C (s.pushMove m, (g.setOwn m.srcSlot (.source m.layer m.expert)).setOwn m.dstSlot
      (.target m.dstKey .loading)) := by
  have hne : m.dstSlot ≠ m.srcSlot := by
    intro e
    rw [e, hsrc] at hdst
    cases hdst
  have hdst' : Function.update g.own m.srcSlot (.source m.layer m.expert) m.dstSlot =
      .reserved m.dstKey := by rw [Function.update_of_ne hne, hdst]
  have hclaim : (g.own m.dstSlot).claim = some (m.dstKey, .loading) := by rw [hdst]; rfl
  have hslots₁ : SlotsOk C s.word s.content
      (Function.update g.own m.srcSlot (.source m.layer m.expert)) := by
    refine h.toSlotsOk.relabel ?_ ?_ ?_ ?_
    · rw [hsrc]
      rfl
    · intro _
      rw [hsrc]
      rfl
    · intro c hc
      rw [hsrc]
      exact hc
    · intro k st hk
      cases hk
  have hslots₂ : SlotsOk C s.word s.content
      (Function.update (Function.update g.own m.srcSlot (.source m.layer m.expert)) m.dstSlot
        (.target m.dstKey .loading)) := by
    refine hslots₁.relabel ?_ ?_ ?_ ?_
    · rw [hdst']
      rfl
    · intro _
      rw [hdst']
      rfl
    · intro c hc
      cases hc
    · intro k st hk
      cases hk
      exact h.region _ _ _ hclaim
  have hdir : DirOk s.dir (Function.update (Function.update g.own m.srcSlot
      (.source m.layer m.expert)) m.dstSlot (.target m.dstKey .loading)) := by
    apply (h.dir.update_of_claim_eq (a := .source m.layer m.expert) _).update_of_claim_eq
    · rw [hdst']
      rfl
    · dsimp only
      rw [hsrc]
      rfl
  have hring := (h.ring.update (i := m.srcSlot) (a := .source m.layer m.expert)
    (by dsimp only; rw [hsrc]; rfl) rfl).update (i := m.dstSlot) (a := .target m.dstKey .loading)
    (by dsimp only; rw [hdst']; rfl) rfl
  have hmoves := h.moves.push hsrc hdst
  dsimp only at hmoves
  rw [← pushMove_moves] at hmoves
  exact ⟨hslots₂, hdir, hring, hmoves, h.owed⟩

theorem WF.popMove (h : WF C (s, g)) {m : MoveTask} {rest : List MoveTask} {b : Inbound}
    (hdone : s.moveDone = m :: rest) (hdst : g.own m.dstSlot = .target m.dstKey b) :
    WF C (s.popMove, (g.setOwn m.srcSlot (.drained m.layer m.expert)).setOwn m.dstSlot
      (.arrived m.dstKey b)) := by
  have hm := h.moves
  have hmoves : s.moves = m :: s.popMove.moves := by
    simp [Sys.moves, Sys.popMove, hdone]
  have hcopied : s.copied = m :: s.popMove.copied := by
    simp [Sys.copied, Sys.popMove, hdone]
  dsimp only at hm
  rw [hmoves, hcopied] at hm
  have hsrc := (hm.tasks m List.mem_cons_self).1
  have hcontent := hm.copied m List.mem_cons_self
  have hsub : ∀ m' ∈ s.popMove.copied, m' ∈ s.popMove.moves := by
    intro m' hm'
    have hmem := hm.sub m' (List.mem_cons_of_mem m hm')
    rcases List.mem_cons.mp hmem with rfl | hmem
    · -- a task occurs once in the queues
      have hnot := (List.nodup_cons.mp hm.srcs).1
      simp only [Sys.copied, Sys.popMove, hdone, List.tail_cons, List.mem_append] at hm'
      rcases hm' with hm' | hm'
      · exact List.mem_append_left _ (by simpa [Sys.popMove, hdone] using hm')
      · apply List.mem_append_right
        apply List.mem_append_left
        revert hm'
        have hmoving : s.popMove.moving = s.moving := rfl
        rw [hmoving]
        cases s.moving with
        | none => exact id
        | some x =>
          obtain ⟨m'', c⟩ := x
          cases c <;> simp [Option.filter]
    · exact hmem
  have hne : m.dstSlot ≠ m.srcSlot := by
    intro e
    rw [e, hsrc] at hdst
    cases hdst
  have hdst' : Function.update g.own m.srcSlot (.drained m.layer m.expert) m.dstSlot =
      .target m.dstKey b := by rw [Function.update_of_ne hne, hdst]
  have hclaim : (g.own m.dstSlot).claim = some (m.dstKey, b.state) := by rw [hdst]; rfl
  have hslots₁ : SlotsOk C s.word s.content
      (Function.update g.own m.srcSlot (.drained m.layer m.expert)) := by
    refine h.toSlotsOk.relabel ?_ ?_ ?_ ?_
    · rw [hsrc]
      rfl
    · intro _
      rw [hsrc]
      rfl
    · intro c hc
      rw [hsrc]
      exact hc
    · intro k st hk
      cases hk
  have hslots₂ : SlotsOk C s.word s.content
      (Function.update (Function.update g.own m.srcSlot (.drained m.layer m.expert)) m.dstSlot
        (.arrived m.dstKey b)) := by
    have hword : Function.update s.word m.dstSlot (s.word m.dstSlot) = s.word :=
      Function.update_eq_self _ _
    rw [← hword]
    have hstate := h.state m.dstSlot
    have hrc := h.unpinned m.dstSlot (by dsimp only; rw [hdst]; rfl)
    dsimp only at hstate
    rw [hdst] at hstate
    refine hslots₁.update hstate (fun _ => hrc) ?_ (fun _ _ => rfl) ?_
    · intro c hc
      cases hc
      exact hcontent
    · intro k st hk
      cases hk
      exact h.region _ _ _ hclaim
  have hdir : DirOk s.dir (Function.update (Function.update g.own m.srcSlot
      (.drained m.layer m.expert)) m.dstSlot (.arrived m.dstKey b)) := by
    apply (h.dir.update_of_claim_eq (a := .drained m.layer m.expert) _).update_of_claim_eq
    · rw [hdst']
      rfl
    · dsimp only
      rw [hsrc]
      rfl
  have hring := (h.ring.update (i := m.srcSlot) (a := .drained m.layer m.expert)
    (by dsimp only; rw [hsrc]; rfl) rfl).update (i := m.dstSlot) (a := .arrived m.dstKey b)
    (by dsimp only; rw [hdst']; rfl) rfl
  exact ⟨hslots₂, hdir, hring, hm.pop hsub m.dstKey b, h.owed⟩

end moves

/-- The control-plane invariant is kept by every step of the scheduler thread. -/
theorem Step.wf {C : Config} {promise : Promise} {x y : Sys × Ghost} (hstep : Step C promise x y)
    (h : WF C x) : WF C y := by
  cases hstep with
  | stutter => exact h
  | forget s g => exact h.of_same (SameSlots.refl s) rfl rfl h.owed
  | observe s g i k => exact h.of_same (SameSlots.refl s) rfl rfl h.owed
  | arm s g b => exact h.of_same ⟨rfl, rfl, rfl, rfl, rfl, rfl, rfl, rfl⟩ rfl rfl h.owed
  | pop s g => exact h.of_same ⟨rfl, rfl, rfl, rfl, rfl, rfl, rfl, rfl⟩ rfl rfl h.owed
  | register s g r => exact h.of_same ⟨rfl, rfl, rfl, rfl, rfl, rfl, rfl, rfl⟩ rfl rfl h.owed
  | reserve s g i k hown habs hreg =>
    refine h.putDir (by rw [hown]; rfl) (by rw [hown]; rfl) ?_ ?_ ?_ ⟨by rw [hown]; rfl, rfl⟩
      ⟨by rw [hown]; rfl, rfl⟩
    · intro c hc
      cases hc
    · intro k' st hk
      cases hk
      exact hreg.inRegion
    · exact h.dir.claim (by dsimp only; rw [hown]; rfl) rfl habs
  | reload s g i k hown =>
    have hr := (reads_of h i).beginReload
    refine h.putWord hr.state (fun _ => hr.refcount) ?_ (by rw [hown]; rfl) ⟨by rw [hown]; rfl, rfl⟩
      ⟨by rw [hown]; rfl, rfl⟩
    intro c hc
    cases hc
  | startLoad s g i k accept idx hown hidx hpos _ => exact h.startLoad hown hidx hpos
  | startNone s g i k accept hown hnone => exact h.startNone hnone
  | abandon s g i k _ hown =>
    have hclaim : (g.own i).claim = some (k, .loading) := by rw [hown]; rfl
    refine h.putDir (by rw [hown]; rfl) (by rw [hown]; rfl) ?_ ?_ (h.dir.unclaim hclaim rfl)
      ⟨by rw [hown]; rfl, rfl⟩ ⟨by rw [hown]; rfl, rfl⟩
    · intro c hc
      cases hc
    · intro k' st hk
      cases hk
  | event s g idx ok s' hev hp _ => exact h.event hev hp
  | arrive s g idx ok s' hev hp hok =>
    refine h.lastEvent hev hp rfl ?_ rfl rfl rfl
    intro c hc
    cases hc
    exact ⟨hok, rfl⟩
  | «break» s g idx ok s' _ hev hp hfail =>
    refine h.lastEvent hev hp rfl ?_ rfl rfl rfl
    intro c hc
    cases hc
  | markReady s g i k b hown =>
    have hreads := reads_of h i
    rw [hown] at hreads
    have hr := hreads.markReady
    refine h.putWord hr.state (fun hp => by cases hp) ?_ (by rw [hown]; rfl)
      ⟨by rw [hown]; rfl, rfl⟩ ⟨by rw [hown]; rfl, rfl⟩
    intro c hc
    rw [hown]
    exact hc
  | settleDir s g i k b hown =>
    have hclaim : (g.own i).claim = some (k, b.state) := by rw [hown]; rfl
    refine h.putDir (by rw [hown]; rfl) (by rw [hown]; rfl) ?_ ?_ (h.dir.restate hclaim rfl)
      ⟨by rw [hown]; rfl, rfl⟩ ⟨by rw [hown]; rfl, rfl⟩
    · intro c hc
      rw [hown]
      exact hc
    · intro k' st hk
      cases hk
      exact h.region _ _ _ hclaim
  | markFailed s g i k hown =>
    have hr := (reads_of h i).markFailed
    have hrc := h.unpinned i (by dsimp only; rw [hown]; rfl)
    refine h.putWord hr.state (fun _ => hr.refcount.trans hrc) ?_ (by rw [hown]; rfl)
      ⟨by rw [hown]; rfl, rfl⟩ ⟨by rw [hown]; rfl, rfl⟩
    intro c hc
    cases hc
  | fail s g i k hown =>
    have hclaim : (g.own i).claim = some (k, .loading) := by rw [hown]; rfl
    refine h.putDir (by rw [hown]; rfl) (by rw [hown]; rfl) ?_ ?_ (h.dir.unclaim hclaim rfl)
      ⟨by rw [hown]; rfl, rfl⟩ ⟨by rw [hown]; rfl, rfl⟩
    · intro c hc
      cases hc
    · intro k' st hk
      cases hk
  | freeTask s g idx huse hp => exact h.freeTask huse hp
  | settle s g i k w hcalm hphase hpresent hlayer hneed hown hpin =>
    obtain ⟨h₁, h₂⟩ := h.tryPin_word .scheduler i
    rw [← settleStep_word s k.expert i] at h₁ h₂
    refine h.of_words (sameSlots_settleStep s k.expert i) rfl h₁ h₂ ?_
    intro j hj
    rcases List.mem_append.mp hj with hj | hj
    · exact h.owed j hj
    · rw [List.mem_singleton] at hj
      rw [hj]
      have hclaim : (g.own i).claim = some (k, .ready) := by rw [hown]; rfl
      exact slot_lt_of_region (h.region i k _ hclaim)
  | bump s g =>
    obtain ⟨hs, hw⟩ := sameSlots_bumpBatch s C.topo.nExpert
    exact h.of_same hs hw rfl h.owed
  | bumpLast s g =>
    obtain ⟨hs, hw⟩ := sameSlots_bumpBatch s C.topo.nExpert
    refine h.of_same hs hw rfl ?_
    intro j hj
    exact absurd hj List.not_mem_nil
  | bumpFinish s g =>
    obtain ⟨hs, hw⟩ := sameSlots_bumpBatch s C.topo.nExpert
    refine h.of_same ⟨hs.dir, hs.content, hs.loadFree, hs.loadInUse, hs.load, hs.moveSubmit,
      hs.moving, hs.moveDone⟩ hw rfl ?_
    intro j hj
    exact absurd hj List.not_mem_nil
  | finish s g =>
    refine h.of_same ⟨rfl, rfl, rfl, rfl, rfl, rfl, rfl, rfl⟩ rfl rfl ?_
    intro j hj
    exact absurd hj List.not_mem_nil
  | unpinOwed s g i rest hcalm hbusy howed =>
    obtain ⟨h₁, h₂⟩ := h.unpin_word i (s.unpin .scheduler i) rfl
    refine h.of_words ⟨rfl, rfl, rfl, rfl, rfl, rfl, rfl, rfl⟩ rfl h₁ h₂ ?_
    intro j hj
    exact h.owed j (by dsimp only; rw [howed]; exact List.mem_cons_of_mem i hj)
  | failBatch s g =>
    obtain ⟨hs, hw⟩ := sameSlots_failBatch s
    exact h.of_same hs hw rfl h.owed
  | beginEvict s g i k hphase hserve hown hidle =>
    have hreads := reads_of h i
    rw [hown] at hreads
    obtain ⟨w, hw, hr⟩ := hreads.beginEvict
    have heq : s.beginEvict i = s.setWord i w := by simp only [Sys.beginEvict, hw]
    rw [heq]
    refine h.putWord hr.state (fun hp => by cases hp) ?_ (by rw [hown]; rfl)
      ⟨by rw [hown]; rfl, rfl⟩ ⟨by rw [hown]; rfl, rfl⟩
    intro c hc
    rw [hown]
    exact hc
  | clear s g i k hown =>
    have hclaim : (g.own i).claim = some (k, .ready) := by rw [hown]; rfl
    refine h.putDir (by rw [hown]; rfl) (by rw [hown]; rfl) ?_ ?_ (h.dir.unclaim hclaim rfl)
      ⟨by rw [hown]; rfl, rfl⟩ ⟨by rw [hown]; rfl, rfl⟩
    · intro c hc
      rw [hown]
      exact hc
    · intro k' st hk
      cases hk
  | drain s g i l e hown hrc =>
    have hst := h.state i
    dsimp only at hst
    rw [hown] at hst
    have hput := h.putWord (w := s.word i) (a := .drained l e) hst (fun _ => hrc)
      (fun c hc => by rw [hown]; exact hc) (by rw [hown]; rfl) ⟨by rw [hown]; rfl, rfl⟩
      ⟨by rw [hown]; rfl, rfl⟩
    have hsame : s.setWord i (s.word i) = s := by simp [Sys.setWord]
    rwa [hsame] at hput
  | recycle s g i l e hown =>
    have hr := (reads_of h i).beginReload
    refine h.putWord hr.state (fun _ => hr.refcount) ?_ (by rw [hown]; rfl)
      ⟨by rw [hown]; rfl, rfl⟩ ⟨by rw [hown]; rfl, rfl⟩
    intro c hc
    cases hc
  | claim s g i k hown habs hreg =>
    refine h.putDir (by rw [hown]; rfl) (by rw [hown]; rfl) ?_ ?_ ?_ ⟨by rw [hown]; rfl, rfl⟩
      ⟨by rw [hown]; rfl, rfl⟩
    · intro c hc
      cases hc
    · intro k' st hk
      cases hk
      exact hreg.inRegion
    · exact h.dir.claim (by dsimp only; rw [hown]; rfl) rfl habs
  | submitMove s g m hsrc hdst => exact h.submitMove hsrc hdst
  | moveIn s g i k hown =>
    have hclaim : (g.own i).claim = some (k, .loading) := by rw [hown]; rfl
    refine ⟨?_, h.dir.restate hclaim rfl, h.ring.update (by dsimp only; rw [hown]; rfl) rfl,
      h.moves.retarget hown, h.owed⟩
    refine h.toSlotsOk.relabel (by dsimp only; rw [hown]; rfl) (fun _ => by dsimp only; rw [hown]; rfl)
      ?_ ?_
    · intro c hc
      cases hc
    · intro k' st hk
      cases hk
      exact h.region _ _ _ hclaim
  | unreserve s g i k hown =>
    have hclaim : (g.own i).claim = some (k, .loading) := by rw [hown]; rfl
    refine h.putDir (by rw [hown]; rfl) (by rw [hown]; rfl) ?_ ?_ (h.dir.unclaim hclaim rfl)
      ⟨by rw [hown]; rfl, rfl⟩ ⟨by rw [hown]; rfl, rfl⟩
    · intro c hc
      cases hc
    · intro k' st hk
      cases hk
  | release s g i hown =>
    have hr := (reads_of h i).releaseToEmpty
    rcases hown with hown | ⟨l, e, hown⟩ <;>
      exact h.putWord hr.state (fun _ => hr.refcount) (fun c hc => by cases hc) (by rw [hown]; rfl)
        ⟨by rw [hown]; rfl, rfl⟩ ⟨by rw [hown]; rfl, rfl⟩
  | popMove s g m rest b hdone hdst => exact h.popMove hdone hdst

end Sched
end StreamMoE
