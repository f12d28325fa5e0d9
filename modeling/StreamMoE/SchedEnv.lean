import StreamMoE.AtomicProg
import StreamMoE.SchedSteps

/-! The threads beside the scheduler: pinning threads, the move worker and the devices that
fill slots. The scheduler's contract with them. -/
namespace StreamMoE
namespace Sched

open AtomicProg SlotWord SchedConfig

/-- A step of another thread. A stray unpin is one that no pin precedes. -/
inductive EnvAct
  | tryPin (h : Holder) (i : ℕ)
  | unpin (h : Holder) (i : ℕ)
  | strayUnpin (i : ℕ)
  | push (r : Request)
  | land (idx : ℕ)
  | takeMove
  | copyMove
  | finishMove
  | nextToken
  | touch (layer expert token : ℕ)
  | resetBatch (b : ℕ)

def requestCapacity : ℕ := 4096

def envStep (s : Sys) : EnvAct → Option Sys
  | .tryPin h i => if h = .scheduler then none else some (s.tryPin h i)
  | .unpin h i =>
      if h ≠ .scheduler ∧ s.pins.any (fun r => r.holder == h && r.slot == i) = true then
        some (s.unpin h i)
      else none
  | .strayUnpin i => some (s.setWord i (SlotWord.unpin (s.word i)))
  | .push r =>
      if s.requests.length < requestCapacity then some { s with requests := s.requests ++ [r] }
      else none
  | .land idx =>
      if (s.load idx).pending = 0 then none
      else some { s with content := Function.update s.content (s.load idx).slot none }
  | .takeMove =>
      match s.moving, s.moveSubmit with
      | none, m :: ms => some { s with moving := some (m, false), moveSubmit := ms }
      | _, _ => none
  | .copyMove =>
      match s.moving with
      | some (m, false) =>
          some
            { s with
              moving := some (m, true)
              content := Function.update s.content m.dstSlot (s.content m.srcSlot) }
      | _ => none
  | .finishMove =>
      match s.moving with
      | some (m, true) => some { s with moving := none, moveDone := s.moveDone ++ [m] }
      | _ => none
  | .nextToken => some { s with token := (s.token + 1) % 2 ^ 64 }
  | .touch layer expert token =>
      some
        { s with
          lastUsed := Function.update s.lastUsed layer
            (Function.update (s.lastUsed layer) expert token) }
  | .resetBatch b => some { s with batch := Function.update s.batch b ⟨0, false⟩ }

/-- What only the scheduler thread writes. -/
structure View where
  dir : Key → DirEntry
  loadFree : List ℕ
  loadInUse : ℕ → Bool
  load : ℕ → LoadTask
  active : Active

def Sys.view (s : Sys) : View := ⟨s.dir, s.loadFree, s.loadInUse, s.load, s.active⟩

theorem tryPin_view (s : Sys) (h : Holder) (i : ℕ) : (s.tryPin h i).view = s.view := by
  unfold Sys.tryPin
  split <;> rfl

theorem envStep_view {s s' : Sys} {a : EnvAct} (h : envStep s a = some s') : s'.view = s.view := by
  cases a with
  | tryPin b i =>
    simp only [envStep] at h
    split at h
    · cases h
    · cases h
      exact tryPin_view s b i
  | unpin b i =>
    simp only [envStep] at h
    split at h
    · cases h; rfl
    · cases h
  | push r =>
    simp only [envStep] at h
    split at h
    · cases h; rfl
    · cases h
  | land idx =>
    simp only [envStep] at h
    split at h
    · cases h
    · cases h; rfl
  | takeMove =>
    simp only [envStep] at h
    split at h
    · cases h; rfl
    · cases h
  | copyMove =>
    simp only [envStep] at h
    split at h
    · cases h; rfl
    · cases h
  | finishMove =>
    simp only [envStep] at h
    split at h
    · cases h; rfl
    · cases h
  | _ => cases h; rfl

section wf

variable {C : Config} {s : Sys} {g : Ghost}

theorem WF.land (h : WF C (s, g)) {idx : ℕ} (hp : 0 < (s.load idx).pending) :
    WF C ({ s with content := Function.update s.content (s.load idx).slot none }, g) := by
  have hown := (h.ring.loading idx hp).1
  dsimp only at hown
  refine ⟨⟨h.state, h.unpinned, ?_, h.region⟩, h.dir, h.ring, ?_, h.owed⟩
  · intro i c hc
    have hi : i ≠ (s.load idx).slot := by
      intro e
      dsimp only at hc
      rw [e, hown] at hc
      cases hc
    dsimp only
    rw [Function.update_of_ne hi]
    exact h.content i c hc
  · have hm := h.moves
    refine ⟨hm.srcs, hm.dsts, hm.tasks, hm.src, hm.dst, hm.sub, ?_⟩
    intro m hm'
    have hne : m.dstSlot ≠ (s.load idx).slot := by
      intro e
      obtain ⟨_, b, hb⟩ := hm.tasks m (hm.sub m hm')
      dsimp only at hb
      rw [e, hown] at hb
      cases hb
    dsimp only
    rw [Function.update_of_ne hne]
    exact hm.copied m hm'

theorem WF.takeMove (h : WF C (s, g)) {m : MoveTask} {ms : List MoveTask} (hmoving : s.moving = none)
    (hsubmit : s.moveSubmit = m :: ms) :
    WF C ({ s with moving := some (m, false), moveSubmit := ms }, g) := by
  have hmoves : Sys.moves { s with moving := some (m, false), moveSubmit := ms } = s.moves := by
    simp [Sys.moves, hmoving, hsubmit]
  have hcopied : Sys.copied { s with moving := some (m, false), moveSubmit := ms } = s.copied := by
    simp [Sys.copied, hmoving, Option.filter]
  have hm := h.moves
  dsimp only at hm
  rw [← hmoves, ← hcopied] at hm
  exact ⟨h.toSlotsOk, h.dir, h.ring, hm, h.owed⟩

theorem WF.copyMove (h : WF C (s, g)) {m : MoveTask} (hmoving : s.moving = some (m, false)) :
    WF C ({ s with
      moving := some (m, true)
      content := Function.update s.content m.dstSlot (s.content m.srcSlot) }, g) := by
  have hm := h.moves
  have hmoves : Sys.moves { s with
      moving := some (m, true)
      content := Function.update s.content m.dstSlot (s.content m.srcSlot) } = s.moves := by
    simp [Sys.moves, hmoving]
  have hold : s.copied = s.moveDone := by simp [Sys.copied, hmoving, Option.filter]
  have hmem : m ∈ s.moves := by simp [Sys.moves, hmoving]
  obtain ⟨hsrc, b, hdst⟩ := hm.tasks m hmem
  have hbytes := h.content m.srcSlot (m.layer, m.expert) (by rw [hsrc]; rfl)
  have hnodup : ∀ m' ∈ s.moveDone, m'.dstSlot ≠ m.dstSlot := by
    intro m' hm' e
    have hdsts := hm.dsts
    dsimp only at hdsts
    simp only [Sys.moves, hmoving, Option.map_some, Option.toList_some, List.map_append,
      List.map_cons, List.singleton_append] at hdsts
    exact (List.nodup_append.mp hdsts).2.2 _ (List.mem_map_of_mem hm') _ List.mem_cons_self e
  refine ⟨⟨h.state, h.unpinned, ?_, h.region⟩, h.dir, h.ring, ?_, h.owed⟩
  · intro i c hc
    have hi : i ≠ m.dstSlot := by
      intro e
      rw [e, hdst] at hc
      cases hc
    dsimp only
    rw [Function.update_of_ne hi]
    exact h.content i c hc
  · have hm' := hm
    dsimp only at hm'
    rw [← hmoves] at hm'
    refine ⟨hm'.srcs, hm'.dsts, hm'.tasks, hm'.src, hm'.dst, ?_, ?_⟩
    · intro m' hin
      simp only [Sys.copied, Option.filter, if_true, Option.map_some, Option.toList_some,
        List.mem_append, List.mem_singleton] at hin
      dsimp only
      rw [hmoves]
      rcases hin with hin | rfl
      · exact hm.sub m' (by dsimp only; rw [hold]; exact hin)
      · exact hmem
    · intro m' hin
      simp only [Sys.copied, Option.filter, if_true, Option.map_some, Option.toList_some,
        List.mem_append, List.mem_singleton] at hin
      rcases hin with hin | rfl
      · dsimp only
        rw [Function.update_of_ne (hnodup m' hin)]
        exact hm.copied m' (by dsimp only; rw [hold]; exact hin)
      · dsimp only
        rw [Function.update_self]
        exact hbytes

theorem WF.finishMove (h : WF C (s, g)) {m : MoveTask} (hmoving : s.moving = some (m, true)) :
    WF C ({ s with moving := none, moveDone := s.moveDone ++ [m] }, g) := by
  have hmoves : Sys.moves { s with moving := none, moveDone := s.moveDone ++ [m] } = s.moves := by
    simp [Sys.moves, hmoving]
  have hcopied : Sys.copied { s with moving := none, moveDone := s.moveDone ++ [m] } = s.copied := by
    simp [Sys.copied, hmoving, Option.filter]
  have hm := h.moves
  dsimp only at hm
  rw [← hmoves, ← hcopied] at hm
  exact ⟨h.toSlotsOk, h.dir, h.ring, hm, h.owed⟩

/-- The other threads keep the control-plane invariant. -/
theorem WF.env (h : WF C (s, g)) {s' : Sys} {a : EnvAct} (ha : envStep s a = some s') :
    WF C (s', g) := by
  cases a with
  | tryPin b i =>
    simp only [envStep] at ha
    split at ha
    · cases ha
    · cases ha
      exact h.tryPin b i
  | unpin b i =>
    simp only [envStep] at ha
    split at ha
    · cases ha
      exact h.unpin b i
    · cases ha
  | strayUnpin i =>
    cases ha
    obtain ⟨h₁, h₂⟩ := h.unpin_word i (s.setWord i (SlotWord.unpin (s.word i))) rfl
    exact h.of_words ⟨rfl, rfl, rfl, rfl, rfl, rfl, rfl, rfl⟩ rfl h₁ h₂ h.owed
  | push r =>
    simp only [envStep] at ha
    split at ha
    · cases ha
      exact h.of_same ⟨rfl, rfl, rfl, rfl, rfl, rfl, rfl, rfl⟩ rfl rfl h.owed
    · cases ha
  | land idx =>
    simp only [envStep] at ha
    split at ha
    · cases ha
    · rename_i hp
      cases ha
      exact h.land (Nat.pos_of_ne_zero hp)
  | takeMove =>
    simp only [envStep] at ha
    split at ha
    · rename_i m ms hmoving hsubmit
      cases ha
      exact h.takeMove hmoving hsubmit
    · cases ha
  | copyMove =>
    simp only [envStep] at ha
    split at ha
    · rename_i m hmoving
      cases ha
      exact h.copyMove hmoving
    · cases ha
  | finishMove =>
    simp only [envStep] at ha
    split at ha
    · rename_i m hmoving
      cases ha
      exact h.finishMove hmoving
    · cases ha
  | nextToken | touch _ _ _ | resetBatch _ =>
    cases ha
    exact h.of_same ⟨rfl, rfl, rfl, rfl, rfl, rfl, rfl, rfl⟩ rfl rfl h.owed

end wf

/-- A slot that a failed load took out of use, or is about to. -/
def Owner.spoilt : Owner → Bool
  | .broken _ | .failing _ | .failed => true
  | _ => false

structure NoFailure (x : Sys × Ghost) : Prop where
  kept : ∀ i, (x.2.own i).spoilt = false
  unfailed : ∀ idx, 0 < (x.1.load idx).pending → (x.1.load idx).failed = false

/-- No slot was reserved for a load that did not start. -/
def NoneAbandoned (x : Sys × Ghost) : Prop := ∀ i, x.2.own i ≠ .abandoned

theorem NoFailure.setOwn {s s' : Sys} {g : Ghost} {i : ℕ} {a : Owner} (h : NoFailure (s, g))
    (ha : a.spoilt = false) (hload : s'.load = s.load) : NoFailure (s', g.setOwn i a) := by
  refine ⟨?_, ?_⟩
  · intro j
    by_cases hj : j = i
    · subst hj
      simpa using ha
    · simpa [Ghost.setOwn_of_ne _ _ hj] using h.kept j
  · intro idx
    dsimp only
    rw [hload]
    exact h.unfailed idx

theorem NoFailure.same {s s' : Sys} {g g' : Ghost} (h : NoFailure (s, g)) (hown : g'.own = g.own)
    (hload : s'.load = s.load) : NoFailure (s', g') := by
  refine ⟨?_, ?_⟩
  · intro j
    dsimp only
    rw [hown]
    exact h.kept j
  · intro idx
    dsimp only
    rw [hload]
    exact h.unfailed idx

theorem NoFailure.env {s s' : Sys} {g : Ghost} {a : EnvAct} (h : NoFailure (s, g))
    (ha : envStep s a = some s') : NoFailure (s', g) := by
  refine h.same rfl ?_
  have hview := envStep_view ha
  exact congrArg View.load hview

theorem NoneAbandoned.setOwn {s s' : Sys} {g : Ghost} {i : ℕ} {a : Owner} (h : NoneAbandoned (s, g))
    (ha : a ≠ .abandoned) : NoneAbandoned (s', g.setOwn i a) := by
  intro j
  by_cases hj : j = i
  · subst hj
    simpa using ha
  · simpa [Ghost.setOwn_of_ne _ _ hj] using h j

theorem Step.noneAbandoned {C : Config} {promise : Promise} (hl : promise.starts) {x y : Sys × Ghost}
    (hstep : Step C promise x y) (h : NoneAbandoned x) : NoneAbandoned y := by
  cases hstep with
  | abandon s g i k hnot => exact absurd hl hnot
  | submitMove s g m =>
    have hsrc : NoneAbandoned (s, g.setOwn m.srcSlot (.source m.layer m.expert)) :=
      h.setOwn (by simp)
    exact hsrc.setOwn (by simp)
  | popMove s g m =>
    have hsrc : NoneAbandoned (s, g.setOwn m.srcSlot (.drained m.layer m.expert)) :=
      h.setOwn (by simp)
    exact hsrc.setOwn (by simp)
  | stutter | forget | observe | arm | pop | register | startNone | event | freeTask | settle | bump
  | bumpLast | bumpFinish | finish | unpinOwed | failBatch => exact h
  | _ => exact h.setOwn (by simp)

theorem Step.noFailure {C : Config} {promise : Promise} (hl : promise.sound) {x y : Sys × Ghost}
    (hstep : Step C promise x y) (h : NoFailure x) : NoFailure y := by
  cases hstep with
  | stutter => exact h
  | startLoad s g i k accept idx hown hidx hpos hok =>
    refine ⟨(h.setOwn rfl rfl).kept, ?_⟩
    intro j
    dsimp only
    simp only [Sched.startLoad, hidx, if_neg hpos]
    by_cases hj : j = idx
    · subst hj
      rw [Function.update_self]
      intro _
      exact hok hl
    · rw [Function.update_of_ne hj]
      exact h.unfailed j
  | startNone s g i k accept hown hnone =>
    refine ⟨h.kept, ?_⟩
    intro j
    dsimp only
    unfold Sched.startLoad
    split
    · exact h.unfailed j
    · rename_i idx hidx
      have hzero : (submitSlices accept (C.topo.numTensors k.layer k.expert) 0).1 = 0 := by
        rcases hnone with hnil | hzero
        · rw [hnil] at hidx
          cases hidx
        · exact hzero
      simp only [hzero, if_true]
      by_cases hj : j = idx
      · subst hj
        rw [Function.update_self]
        intro hp
        exact absurd hp (Nat.lt_irrefl 0)
      · rw [Function.update_of_ne hj]
        exact h.unfailed j
  | «break» s g idx ok s' hnot => exact absurd hl hnot
  | event s g idx ok s' hev hp hok =>
    obtain ⟨hpos, rfl⟩ := takeEvent_eq hev
    refine ⟨h.kept, ?_⟩
    intro j
    dsimp only
    by_cases hj : j = idx
    · subst hj
      rw [Function.update_self]
      intro _
      have hsound := h.unfailed j hpos
      dsimp only at hsound ⊢
      rw [hsound, hok hl]
      rfl
    · rw [Function.update_of_ne hj]
      exact h.unfailed j
  | arrive s g idx ok s' hev hp hok =>
    obtain ⟨hpos, rfl⟩ := takeEvent_eq hev
    refine ⟨(h.setOwn rfl rfl).kept, ?_⟩
    intro j
    dsimp only
    by_cases hj : j = idx
    · subst hj
      rw [Function.update_self]
      intro _
      exact hok
    · rw [Function.update_of_ne hj]
      exact h.unfailed j
  | markFailed s g i k hown =>
    have hkept := h.kept i
    dsimp only at hkept
    rw [hown] at hkept
    cases hkept
  | fail s g i k hown =>
    have hkept := h.kept i
    dsimp only at hkept
    rw [hown] at hkept
    cases hkept
  | settle s g i k w => exact h.same rfl (sameSlots_settleStep s k.expert i).load
  | bump s g => exact h.same rfl (sameSlots_bumpBatch s _).1.load
  | bumpLast s g => exact h.same rfl (sameSlots_bumpBatch s _).1.load
  | bumpFinish s g => exact h.same rfl (sameSlots_bumpBatch s _).1.load
  | failBatch s g => exact h.same rfl (sameSlots_failBatch s).1.load
  | beginEvict s g i k =>
    refine h.setOwn rfl ?_
    unfold Sys.beginEvict
    split <;> rfl
  | submitMove s g m hsrc hdst => exact (h.setOwn rfl rfl).setOwn rfl rfl
  | popMove s g m rest b hdone hdst => exact (h.setOwn rfl rfl).setOwn rfl rfl
  | forget | observe | arm | pop | register | freeTask | finish | unpinOwed => exact h.same rfl rfl
  | _ => exact h.setOwn rfl rfl

/-- The scheduler thread among pinning threads, move worker and devices. -/
def schedContract (C : Config) (promise : Promise) : Contract Sys Ghost where
  inv x := WF C x ∧ (promise.sound → NoFailure x) ∧ (promise.starts → NoneAbandoned x)
  rely x y := y.2 = x.2 ∧ ∃ a, envStep x.1 a = some y.1
  guar := Step C promise
  rely_inv := by
    rintro ⟨s, g⟩ ⟨s', g'⟩ ⟨hwf, hsound, hstarts⟩ ⟨hg, a, ha⟩
    dsimp only at hg ha
    subst hg
    exact ⟨hwf.env ha, fun hl => (hsound hl).env ha, hstarts⟩
  guar_inv := by
    intro x y hx hstep
    exact ⟨hstep.wf hx.1, fun hl => hstep.noFailure hl (hx.2.1 hl),
      fun hl => hstep.noneAbandoned hl (hx.2.2 hl)⟩
  guar_refl := Step.stutter

/-- An assertion about ghost data and what only the scheduler writes is stable. -/
theorem stable_view {C : Config} {promise : Promise} (ψ : View → Ghost → Prop) :
    Stable (schedContract C promise) fun x => ψ x.1.view x.2 := by
  rintro ⟨s, g⟩ ⟨s', g'⟩ _ ⟨hg, a, ha⟩ h
  dsimp only at hg ha h ⊢
  subst hg
  rw [envStep_view ha]
  exact h

end Sched
end StreamMoE
