import StreamMoE.SchedState

/-! The life of a slot. Every slot has an owner, its place in the protocol of reservation,
load, residency, eviction and move; slot words, directory, load ring and move queues follow
from the owners. -/
namespace StreamMoE
namespace Sched

open SlotWord SchedConfig

/-- How an expert reaches a slot. -/
inductive Inbound
  | loading | movingIn
  deriving DecidableEq, Repr

def Inbound.state : Inbound → ExpertState
  | .loading => .loading
  | .movingIn => .movingIn

inductive Owner
  | free
  | reserving (k : Key)
  | reserved (k : Key)
  | loading (k : Key) (idx : ℕ)
  | arrived (k : Key) (b : Inbound)
  | landed (k : Key) (b : Inbound)
  | resident (k : Key)
  | broken (k : Key)
  | failing (k : Key)
  | failed
  | abandoned
  | evicting (k : Key)
  | vacating (layer expert : ℕ)
  | drained (layer expert : ℕ)
  | source (layer expert : ℕ)
  | target (k : Key) (b : Inbound)
  | unclaimed
  deriving DecidableEq, Repr

namespace Owner

/-- The directory entry that names the slot. -/
def claim : Owner → Option (Key × ExpertState)
  | .reserving k | .reserved k | .loading k _ | .broken k | .failing k => some (k, .loading)
  | .arrived k b | .landed k b | .target k b => some (k, b.state)
  | .resident k | .evicting k => some (k, .ready)
  | _ => none

def state : Owner → SlotState
  | .free | .reserving _ => .empty
  | .landed _ _ | .resident _ => .ready
  | .failing _ | .failed => .failed
  | .evicting _ | .vacating _ _ | .drained _ _ | .source _ _ => .evicting
  | _ => .ioInflight

def pinnable : Owner → Bool
  | .landed _ _ | .resident _ | .evicting _ | .vacating _ _ => true
  | _ => false

def holds : Owner → Option (ℕ × ℕ)
  | .arrived k _ | .landed k _ | .resident k | .evicting k => some (k.layer, k.expert)
  | .vacating l e | .drained l e | .source l e => some (l, e)
  | _ => none

def isLoading : Owner → Bool
  | .loading _ _ => true
  | _ => false

def inMove : Owner → Bool
  | .source _ _ | .target _ _ => true
  | _ => false

theorem claim_ne_absent {a : Owner} {k : Key} {st : ExpertState} (h : a.claim = some (k, st)) :
    st ≠ .absent := by
  intro hst
  subst hst
  cases a with
  | arrived k b | landed k b | target k b => cases b <;> cases h
  | _ => cases h

theorem of_claim_ready {a : Owner} {k : Key} (h : a.claim = some (k, .ready)) :
    a = .resident k ∨ a = .evicting k := by
  cases a with
  | resident k' =>
    cases h
    exact .inl rfl
  | evicting k' =>
    cases h
    exact .inr rfl
  | arrived k' b | landed k' b | target k' b => cases b <;> cases h
  | _ => cases h

end Owner

/-- How far the request the scheduler works on has come: none, one taken from the queue, one
that is served, one with a pin not yet counted, one whose pins are being released, one whose
pins belong to the thread that waits. -/
inductive Phase
  | idle
  | popped (r : Request)
  | active
  | owing
  | failing
  | handed

/-- The pins of the request are still the scheduler's to release. -/
def Phase.busy : Phase → Bool
  | .active | .owing | .failing => true
  | _ => false

/-- Ghost data: the owners, the slots whose pin for the active request is not yet released or
handed over, the slots whose refcount this operation has read as zero, and the phase. -/
structure Ghost where
  own : ℕ → Owner
  owed : List ℕ
  idle : List ℕ
  phase : Phase

def Ghost.setOwn (g : Ghost) (i : ℕ) (a : Owner) : Ghost :=
  { g with own := Function.update g.own i a }

@[simp] theorem Ghost.setOwn_self (g : Ghost) (i : ℕ) (a : Owner) : (g.setOwn i a).own i = a :=
  Function.update_self ..

theorem Ghost.setOwn_of_ne (g : Ghost) {i j : ℕ} (a : Owner) (h : j ≠ i) :
    (g.setOwn i a).own j = g.own j := Function.update_of_ne h ..

def initialGhost : Ghost := { own := fun _ => .free, owed := [], idle := [], phase := .idle }

/-- The directory names exactly the claimed slots, and an expert claims one slot at most. -/
structure DirOk (dir : Key → DirEntry) (own : ℕ → Owner) : Prop where
  named : ∀ k i st, dir k = ⟨st, some i⟩ ↔ (own i).claim = some (k, st)
  unnamed : ∀ k, (dir k).slot = none → dir k = absentEntry
  single : ∀ i j k k' st st', (own i).claim = some (k, st) → (own j).claim = some (k', st') →
    k.layer = k'.layer → k.expert = k'.expert → i = j

/-- What a slot's word and bytes say fits its owner. -/
structure SlotsOk (C : Config) (word : ℕ → Word) (content : ℕ → Option (ℕ × ℕ))
    (own : ℕ → Owner) : Prop where
  state : ∀ i, slotWordState (word i) = (own i).state.code
  unpinned : ∀ i, (own i).pinnable = false → slotWordRefcount (word i) = 0
  content : ∀ i c, (own i).holds = some c → content i = some c
  region : ∀ i k st, (own i).claim = some (k, st) → InRegion C i k.pool k.layer

/-- Loads with requests in flight and slots that wait for a load correspond. -/
structure RingOk (load : ℕ → LoadTask) (inUse : ℕ → Bool) (idxs : List ℕ) (own : ℕ → Owner) :
    Prop where
  loading : ∀ idx, 0 < (load idx).pending →
    own (load idx).slot = .loading (load idx).key idx ∧ inUse idx = true
  task : ∀ i k idx, own i = .loading k idx →
    0 < (load idx).pending ∧ (load idx).slot = i ∧ (load idx).key = k
  free : ∀ idx ∈ idxs, (load idx).pending = 0 ∧ inUse idx = false
  nodup : idxs.Nodup

def Sys.copied (s : Sys) : List MoveTask :=
  s.moveDone ++ ((s.moving.filter Prod.snd).map Prod.fst).toList

structure MovesOk (moves copied : List MoveTask) (content : ℕ → Option (ℕ × ℕ))
    (own : ℕ → Owner) : Prop where
  srcs : (moves.map MoveTask.srcSlot).Nodup
  dsts : (moves.map MoveTask.dstSlot).Nodup
  tasks : ∀ m ∈ moves, own m.srcSlot = .source m.layer m.expert ∧
    ∃ b, own m.dstSlot = .target m.dstKey b
  src : ∀ i l e, own i = .source l e → ∃ m ∈ moves, m.srcSlot = i
  dst : ∀ i k b, own i = .target k b → ∃ m ∈ moves, m.dstSlot = i
  sub : ∀ m ∈ copied, m ∈ moves
  copied : ∀ m ∈ copied, content m.dstSlot = some (m.layer, m.expert)

/-- The invariant of the control plane, at every atomic step. -/
structure WF (C : Config) (x : Sys × Ghost) : Prop extends
    SlotsOk C x.1.word x.1.content x.2.own where
  dir : DirOk x.1.dir x.2.own
  ring : RingOk x.1.load x.1.loadInUse x.1.loadFree x.2.own
  moves : MovesOk x.1.moves x.1.copied x.1.content x.2.own
  owed : ∀ i ∈ x.2.owed, i < C.geometry.numSlots

section parts

variable {C : Config} {own : ℕ → Owner} {i : ℕ} {a : Owner}

theorem SlotsOk.update {word : ℕ → Word} {content content' : ℕ → Option (ℕ × ℕ)} {w : Word}
    (h : SlotsOk C word content own) (hst : slotWordState w = a.state.code)
    (hrc : a.pinnable = false → slotWordRefcount w = 0)
    (hcontent : ∀ c, a.holds = some c → content' i = some c)
    (hother : ∀ j, j ≠ i → content' j = content j)
    (hregion : ∀ k st, a.claim = some (k, st) → InRegion C i k.pool k.layer) :
    SlotsOk C (Function.update word i w) content' (Function.update own i a) := by
  refine ⟨?_, ?_, ?_, ?_⟩ <;> intro j <;> by_cases hj : j = i
  · subst hj
    simpa only [Function.update_self] using hst
  · simpa only [Function.update_of_ne hj] using h.state j
  · subst hj
    simpa only [Function.update_self] using hrc
  · simpa only [Function.update_of_ne hj] using h.unpinned j
  · subst hj
    simpa only [Function.update_self] using hcontent
  · rw [Function.update_of_ne hj, hother j hj]
    exact h.content j
  · subst hj
    simpa only [Function.update_self] using hregion
  · simpa only [Function.update_of_ne hj] using h.region j

/-- The word stays and the owner changes. -/
theorem SlotsOk.relabel {word : ℕ → Word} {content : ℕ → Option (ℕ × ℕ)}
    (h : SlotsOk C word content own) (hst : a.state = (own i).state)
    (hpin : a.pinnable = false → (own i).pinnable = false)
    (hholds : ∀ c, a.holds = some c → (own i).holds = some c)
    (hregion : ∀ k st, a.claim = some (k, st) → InRegion C i k.pool k.layer) :
    SlotsOk C word content (Function.update own i a) := by
  have hword : Function.update word i (word i) = word := Function.update_eq_self i word
  rw [← hword]
  refine h.update ?_ ?_ (fun c hc => h.content i c (hholds c hc)) (fun _ _ => rfl) hregion
  · rw [hst]
    exact h.state i
  · intro hp
    exact h.unpinned i (hpin hp)

theorem RingOk.update {load : ℕ → LoadTask} {inUse : ℕ → Bool} {free : List ℕ}
    (h : RingOk load inUse free own) (hi : (own i).isLoading = false) (ha : a.isLoading = false) :
    RingOk load inUse free (Function.update own i a) := by
  refine ⟨?_, ?_, h.free, h.nodup⟩
  · intro idx hp
    obtain ⟨h₁, h₂⟩ := h.loading idx hp
    have hne : (load idx).slot ≠ i := by
      intro e
      rw [e] at h₁
      rw [h₁] at hi
      cases hi
    rw [Function.update_of_ne hne]
    exact ⟨h₁, h₂⟩
  · intro j k idx hj
    by_cases hji : j = i
    · subst hji
      rw [Function.update_self] at hj
      rw [hj] at ha
      cases ha
    · rw [Function.update_of_ne hji] at hj
      exact h.task j k idx hj

theorem MovesOk.update {moves copied : List MoveTask} {content : ℕ → Option (ℕ × ℕ)}
    (h : MovesOk moves copied content own) (hi : (own i).inMove = false) (ha : a.inMove = false) :
    MovesOk moves copied content (Function.update own i a) := by
  have hne : ∀ j, (own j).inMove = true → j ≠ i := by
    intro j hj e
    rw [e, hi] at hj
    cases hj
  have hold : ∀ j, (Function.update own i a j).inMove = true →
      Function.update own i a j = own j := by
    intro j hj
    by_cases hji : j = i
    · subst hji
      rw [Function.update_self, ha] at hj
      cases hj
    · rw [Function.update_of_ne hji]
  refine ⟨h.srcs, h.dsts, ?_, ?_, ?_, h.sub, h.copied⟩
  · intro m hm
    obtain ⟨h₁, b, h₂⟩ := h.tasks m hm
    rw [Function.update_of_ne (hne _ (by rw [h₁]; rfl)),
      Function.update_of_ne (hne _ (by rw [h₂]; rfl))]
    exact ⟨h₁, b, h₂⟩
  · intro j l e hj
    rw [hold j (by rw [hj]; rfl)] at hj
    exact h.src j l e hj
  · intro j k b hj
    rw [hold j (by rw [hj]; rfl)] at hj
    exact h.dst j k b hj

/-- A move is queued between a drained slot and a reserved one. -/
theorem MovesOk.push {moves copied : List MoveTask} {content : ℕ → Option (ℕ × ℕ)}
    (h : MovesOk moves copied content own) {m : MoveTask}
    (hsrc : own m.srcSlot = .drained m.layer m.expert) (hdst : own m.dstSlot = .reserved m.dstKey) :
    MovesOk (moves ++ [m]) copied content
      (Function.update (Function.update own m.srcSlot (.source m.layer m.expert)) m.dstSlot
        (.target m.dstKey .loading)) := by
  have hne : m.srcSlot ≠ m.dstSlot := by
    intro e
    rw [e, hdst] at hsrc
    cases hsrc
  have hother : ∀ j, own j ≠ .drained m.layer m.expert → own j ≠ .reserved m.dstKey →
      Function.update (Function.update own m.srcSlot (.source m.layer m.expert)) m.dstSlot
        (.target m.dstKey .loading) j = own j := by
    intro j h₁ h₂
    have hjs : j ≠ m.srcSlot := fun e => h₁ (e ▸ hsrc)
    have hjd : j ≠ m.dstSlot := fun e => h₂ (e ▸ hdst)
    rw [Function.update_of_ne hjd, Function.update_of_ne hjs]
  have hsrcOld : ∀ m' ∈ moves, m'.srcSlot ≠ m.srcSlot := by
    intro m' hm' e
    have hown := (h.tasks m' hm').1
    rw [e, hsrc] at hown
    cases hown
  have hdstOld : ∀ m' ∈ moves, m'.dstSlot ≠ m.dstSlot := by
    intro m' hm' e
    obtain ⟨_, b, hown⟩ := h.tasks m' hm'
    rw [e, hdst] at hown
    cases hown
  refine ⟨?_, ?_, ?_, ?_, ?_, ?_, h.copied⟩
  · rw [List.map_append, List.nodup_append]
    refine ⟨h.srcs, by simp, ?_⟩
    intro x hx y hy e
    obtain ⟨m', hm', rfl⟩ := List.mem_map.mp hx
    rw [List.map_singleton, List.mem_singleton] at hy
    exact hsrcOld m' hm' (e.trans hy)
  · rw [List.map_append, List.nodup_append]
    refine ⟨h.dsts, by simp, ?_⟩
    intro x hx y hy e
    obtain ⟨m', hm', rfl⟩ := List.mem_map.mp hx
    rw [List.map_singleton, List.mem_singleton] at hy
    exact hdstOld m' hm' (e.trans hy)
  · intro m' hm'
    rcases List.mem_append.mp hm' with hm' | hm'
    · obtain ⟨h₁, b, h₂⟩ := h.tasks m' hm'
      rw [hother _ (by rw [h₁]; simp) (by rw [h₁]; simp),
        hother _ (by rw [h₂]; simp) (by rw [h₂]; simp)]
      exact ⟨h₁, b, h₂⟩
    · rw [List.mem_singleton] at hm'
      subst hm'
      rw [Function.update_of_ne hne, Function.update_self, Function.update_self]
      exact ⟨rfl, .loading, rfl⟩
  · intro j l e hj
    by_cases hjs : j = m.srcSlot
    · exact ⟨m, List.mem_append_right _ (List.mem_singleton_self m), hjs.symm⟩
    · have hold : own j = .source l e := by
        by_cases hjd : j = m.dstSlot
        · rw [hjd, Function.update_self] at hj
          cases hj
        · rwa [Function.update_of_ne hjd, Function.update_of_ne hjs] at hj
      obtain ⟨m', hm', he⟩ := h.src j l e hold
      exact ⟨m', List.mem_append_left _ hm', he⟩
  · intro j k b hj
    by_cases hjd : j = m.dstSlot
    · exact ⟨m, List.mem_append_right _ (List.mem_singleton_self m), hjd.symm⟩
    · have hold : own j = .target k b := by
        rw [Function.update_of_ne hjd] at hj
        by_cases hjs : j = m.srcSlot
        · rw [hjs, Function.update_self] at hj
          cases hj
        · rwa [Function.update_of_ne hjs] at hj
      obtain ⟨m', hm', he⟩ := h.dst j k b hold
      exact ⟨m', List.mem_append_left _ hm', he⟩
  · intro m' hm'
    exact List.mem_append_left _ (h.sub m' hm')

/-- The first move leaves the queues. -/
theorem MovesOk.pop {m : MoveTask} {moves copied : List MoveTask} {content : ℕ → Option (ℕ × ℕ)}
    (h : MovesOk (m :: moves) (m :: copied) content own)
    (hsub : ∀ m' ∈ copied, m' ∈ moves) (k : Key) (b : Inbound) :
    MovesOk moves copied content
      (Function.update (Function.update own m.srcSlot (.drained m.layer m.expert)) m.dstSlot
        (.arrived k b)) := by
  obtain ⟨hsrc, b₀, hdst⟩ := h.tasks m List.mem_cons_self
  obtain ⟨hsrcs, hsrcsNodup⟩ := List.nodup_cons.mp h.srcs
  obtain ⟨hdsts, hdstsNodup⟩ := List.nodup_cons.mp h.dsts
  have hsrcNe : ∀ m' ∈ moves, m'.srcSlot ≠ m.srcSlot :=
    fun m' hm' e => hsrcs (e ▸ List.mem_map_of_mem hm')
  have hdstNe : ∀ m' ∈ moves, m'.dstSlot ≠ m.dstSlot :=
    fun m' hm' e => hdsts (e ▸ List.mem_map_of_mem hm')
  have hcross : ∀ m' ∈ m :: moves, ∀ m'' ∈ m :: moves, m'.srcSlot ≠ m''.dstSlot := by
    intro m' hm' m'' hm'' e
    have h₁ := (h.tasks m' hm').1
    obtain ⟨_, b', h₂⟩ := h.tasks m'' hm''
    rw [e, h₂] at h₁
    cases h₁
  refine ⟨hsrcsNodup, hdstsNodup, ?_, ?_, ?_, hsub, ?_⟩
  · intro m' hm'
    have hm₁ := List.mem_cons_of_mem m hm'
    obtain ⟨h₁, b', h₂⟩ := h.tasks m' hm₁
    rw [Function.update_of_ne (hcross m' hm₁ m List.mem_cons_self),
      Function.update_of_ne (hsrcNe m' hm'), Function.update_of_ne (hdstNe m' hm'),
      Function.update_of_ne (hcross m List.mem_cons_self m' hm₁).symm]
    exact ⟨h₁, b', h₂⟩
  · intro j l e hj
    have hjd : j ≠ m.dstSlot := by
      intro e'
      rw [e', Function.update_self] at hj
      cases hj
    have hjs : j ≠ m.srcSlot := by
      intro e'
      rw [Function.update_of_ne hjd, e', Function.update_self] at hj
      cases hj
    rw [Function.update_of_ne hjd, Function.update_of_ne hjs] at hj
    obtain ⟨m', hm', he⟩ := h.src j l e hj
    rcases List.mem_cons.mp hm' with rfl | hm'
    · exact absurd he.symm hjs
    · exact ⟨m', hm', he⟩
  · intro j k' b' hj
    have hjd : j ≠ m.dstSlot := by
      intro e'
      rw [e', Function.update_self] at hj
      cases hj
    have hjs : j ≠ m.srcSlot := by
      intro e'
      rw [Function.update_of_ne hjd, e', Function.update_self] at hj
      cases hj
    rw [Function.update_of_ne hjd, Function.update_of_ne hjs] at hj
    obtain ⟨m', hm', he⟩ := h.dst j k' b' hj
    rcases List.mem_cons.mp hm' with rfl | hm'
    · exact absurd he.symm hjd
    · exact ⟨m', hm', he⟩
  · intro m' hm'
    exact h.copied m' (List.mem_cons_of_mem m hm')

/-- A target stays a target. -/
theorem MovesOk.retarget {moves copied : List MoveTask} {content : ℕ → Option (ℕ × ℕ)}
    (h : MovesOk moves copied content own) {k : Key} {b b' : Inbound} (hi : own i = .target k b) :
    MovesOk moves copied content (Function.update own i (.target k b')) := by
  refine ⟨h.srcs, h.dsts, ?_, ?_, ?_, h.sub, h.copied⟩
  · intro m hm
    obtain ⟨h₁, b₁, h₂⟩ := h.tasks m hm
    have hs : m.srcSlot ≠ i := by
      intro e
      rw [e, hi] at h₁
      cases h₁
    rw [Function.update_of_ne hs]
    refine ⟨h₁, ?_⟩
    by_cases hd : m.dstSlot = i
    · rw [hd, hi] at h₂
      cases h₂
      exact ⟨b', by rw [hd, Function.update_self]⟩
    · exact ⟨b₁, by rw [Function.update_of_ne hd, h₂]⟩
  · intro j l e hj
    have hji : j ≠ i := by
      intro e'
      rw [e', Function.update_self] at hj
      cases hj
    rw [Function.update_of_ne hji] at hj
    exact h.src j l e hj
  · intro j k' b₁ hj
    by_cases hji : j = i
    · exact h.dst j k b (hji ▸ hi)
    · rw [Function.update_of_ne hji] at hj
      exact h.dst j k' b₁ hj

end parts

section dir

variable {dir : Key → DirEntry} {own : ℕ → Owner}

theorem DirOk.congr {own' : ℕ → Owner} (h : DirOk dir own)
    (heq : ∀ i, (own' i).claim = (own i).claim) : DirOk dir own' := by
  refine ⟨?_, h.unnamed, ?_⟩
  · intro k i st
    rw [heq i]
    exact h.named k i st
  · intro i j k k' st st' hi hj
    rw [heq] at hi hj
    exact h.single i j k k' st st' hi hj

theorem DirOk.update_of_claim_eq (h : DirOk dir own) {i : ℕ} {a : Owner}
    (ha : a.claim = (own i).claim) : DirOk dir (Function.update own i a) := by
  apply h.congr
  intro j
  by_cases hj : j = i
  · subst hj
    rw [Function.update_self, ha]
  · rw [Function.update_of_ne hj]

theorem DirOk.state_eq (h : DirOk dir own) {i : ℕ} {k : Key} {st : ExpertState}
    (hi : (own i).claim = some (k, st)) : (dir k).state = st := by
  rw [(h.named k i st).mpr hi]

/-- A claimed entry changes its state. -/
theorem DirOk.restate (h : DirOk dir own) {i : ℕ} {k : Key} {st st' : ExpertState} {a : Owner}
    (hi : (own i).claim = some (k, st)) (ha : a.claim = some (k, st')) :
    DirOk (Function.update dir k ⟨st', some i⟩) (Function.update own i a) := by
  have hk := (h.named k i st).mpr hi
  -- every owner keeps its key
  have hclaim : ∀ j k₁ st₁, (Function.update own i a j).claim = some (k₁, st₁) →
      ∃ st₂, (own j).claim = some (k₁, st₂) := by
    intro j k₁ st₁ hj
    by_cases hji : j = i
    · subst hji
      rw [Function.update_self, ha] at hj
      cases hj
      exact ⟨st, hi⟩
    · rw [Function.update_of_ne hji] at hj
      exact ⟨st₁, hj⟩
  refine ⟨?_, ?_, ?_⟩
  · intro k₁ j st₁
    by_cases hk₁ : k₁ = k
    · subst hk₁
      rw [Function.update_self]
      constructor
      · intro heq
        cases heq
        rw [Function.update_self, ha]
      · intro hj
        obtain ⟨st₂, hj₂⟩ := hclaim j k₁ st₁ hj
        have hji := h.single j i k₁ k₁ st₂ st hj₂ hi rfl rfl
        subst hji
        rw [Function.update_self, ha] at hj
        cases hj
        rfl
    · rw [Function.update_of_ne hk₁, h.named]
      by_cases hji : j = i
      · subst hji
        rw [Function.update_self, hi, ha]
        have hk₂ : ¬ k = k₁ := fun e => hk₁ e.symm
        simp [hk₂]
      · rw [Function.update_of_ne hji]
  · intro k₁ hk₁
    by_cases hkk : k₁ = k
    · subst hkk
      rw [Function.update_self] at hk₁
      cases hk₁
    · rw [Function.update_of_ne hkk] at hk₁ ⊢
      exact h.unnamed k₁ hk₁
  · intro j j' k₁ k₂ st₁ st₂ hj hj' hl he
    obtain ⟨_, hj₂⟩ := hclaim j k₁ st₁ hj
    obtain ⟨_, hj₂'⟩ := hclaim j' k₂ st₂ hj'
    exact h.single j j' k₁ k₂ _ _ hj₂ hj₂' hl he

theorem DirOk.claim (h : DirOk dir own) {i : ℕ} {k : Key} {st : ExpertState} {a : Owner}
    (hi : (own i).claim = none) (ha : a.claim = some (k, st))
    (hk : ∀ p, (dir ⟨k.layer, k.expert, p⟩).state = .absent) :
    DirOk (Function.update dir k ⟨st, some i⟩) (Function.update own i a) := by
  have hfree : ∀ j k₁ st₁, (own j).claim = some (k₁, st₁) → k₁.layer = k.layer →
      k₁.expert = k.expert → False := by
    intro j k₁ st₁ hj hl he
    have hst := h.state_eq hj
    have habs := hk k₁.pool
    rw [← hl, ← he, hst] at habs
    exact Owner.claim_ne_absent hj habs
  refine ⟨?_, ?_, ?_⟩
  · intro k₁ j st₁
    by_cases hk₁ : k₁ = k
    · subst hk₁
      rw [Function.update_self]
      constructor
      · intro heq
        cases heq
        rw [Function.update_self, ha]
      · intro hj
        by_cases hji : j = i
        · subst hji
          rw [Function.update_self, ha] at hj
          cases hj
          rfl
        · rw [Function.update_of_ne hji] at hj
          exact absurd (hfree j k₁ st₁ hj rfl rfl) id
    · rw [Function.update_of_ne hk₁, h.named]
      by_cases hji : j = i
      · subst hji
        rw [Function.update_self, hi, ha]
        have hk₂ : ¬ k = k₁ := fun e => hk₁ e.symm
        simp [hk₂]
      · rw [Function.update_of_ne hji]
  · intro k₁ hk₁
    by_cases hkk : k₁ = k
    · subst hkk
      rw [Function.update_self] at hk₁
      cases hk₁
    · rw [Function.update_of_ne hkk] at hk₁ ⊢
      exact h.unnamed k₁ hk₁
  · intro j j' k₁ k₂ st₁ st₂ hj hj' hl he
    by_cases hji : j = i
    · by_cases hji' : j' = i
      · rw [hji, hji']
      · subst hji
        rw [Function.update_self, ha] at hj
        cases hj
        rw [Function.update_of_ne hji'] at hj'
        exact absurd (hfree j' k₂ st₂ hj' hl.symm he.symm) id
    · rw [Function.update_of_ne hji] at hj
      by_cases hji' : j' = i
      · subst hji'
        rw [Function.update_self, ha] at hj'
        cases hj'
        exact absurd (hfree j k₁ st₁ hj hl he) id
      · rw [Function.update_of_ne hji'] at hj'
        exact h.single j j' k₁ k₂ st₁ st₂ hj hj' hl he

theorem DirOk.unclaim (h : DirOk dir own) {i : ℕ} {k : Key} {st : ExpertState} {a : Owner}
    (hi : (own i).claim = some (k, st)) (ha : a.claim = none) :
    DirOk (Function.update dir k ⟨.absent, none⟩) (Function.update own i a) := by
  have hclaim : ∀ j c, (Function.update own i a j).claim = some c → j ≠ i ∧ (own j).claim = some c := by
    intro j c hj
    by_cases hji : j = i
    · subst hji
      rw [Function.update_self, ha] at hj
      cases hj
    · rw [Function.update_of_ne hji] at hj
      exact ⟨hji, hj⟩
  refine ⟨?_, ?_, ?_⟩
  · intro k₁ j st₁
    by_cases hk₁ : k₁ = k
    · subst hk₁
      rw [Function.update_self]
      constructor
      · intro heq
        cases heq
      · intro hj
        obtain ⟨hji, hj'⟩ := hclaim j _ hj
        exact absurd (h.single j i k₁ k₁ _ _ hj' hi rfl rfl) hji
    · rw [Function.update_of_ne hk₁, h.named]
      by_cases hji : j = i
      · subst hji
        rw [Function.update_self, hi, ha]
        have hk₂ : ¬ k = k₁ := fun e => hk₁ e.symm
        simp [hk₂]
      · rw [Function.update_of_ne hji]
  · intro k₁ hk₁
    by_cases hkk : k₁ = k
    · subst hkk
      rw [Function.update_self]
      rfl
    · rw [Function.update_of_ne hkk] at hk₁ ⊢
      exact h.unnamed k₁ hk₁
  · intro j j' k₁ k₂ st₁ st₂ hj hj' hl he
    exact h.single j j' k₁ k₂ st₁ st₂ (hclaim j _ hj).2 (hclaim j' _ hj').2 hl he

end dir

end Sched
end StreamMoE
