import StreamMoE.SchedWaits

/-! Where the scheduler thread stands in `drain_moves`, and what its steps do to the move queues. -/
namespace StreamMoE
namespace SchedRuns

open AtomicProg ThreadLoop TransitionSystem SlotWord SchedConfig Sched

section points

variable (C : Config) (m : MoveTask) (n : ℕ)

/-- The settling of the active request and the release of the source are left to do. -/
def afterEntry : Prog Sys Unit := do
  activeSettle C m.layer m.expert m.dstSlot
  Prog.modify fun s => s.releaseToEmpty m.srcSlot
  drainMoves C n

/-- The entry of the expert is to become READY. -/
def enterMove : Prog Sys Unit := do
  transition m.dstKey .ready (some m.dstSlot)
  afterEntry C m n

def landMove : Prog Sys Unit := do
  Prog.modify fun s => s.markReady m.dstSlot
  enterMove C m n

theorem drainMoves_succ : drainMoves C (n + 1) =
    (Prog.getModify Sys.popMove).bind fun s =>
      match s.moveDone with
      | [] => .ret ()
      | m :: _ => landMove C m n := rfl

end points

/-- Outside `drain_moves` or in the settling it calls, at its head, or at one of its steps. -/
inductive Standing (C : Config) : Prog Sys Unit → Sys → Prop
  | plain (p s) : Makes StaysEvicting Access p s → Standing C p s
  | head (n s) : Standing C (drainMoves C n) s
  | land (m n s) : Standing C (landMove C m n) s
  | enter (m n s) : Standing C (enterMove C m n) s
  | settle (p : Prog Sys Unit) (m : MoveTask) (n s) : Makes StaysEvicting Access p s →
      Standing C (p.bind fun _ => (Prog.modify fun t => t.releaseToEmpty m.srcSlot).bind
        fun _ => drainMoves C n) s

variable {C : Config}

theorem standing_call (c : Call) (s : Sys) : Standing C (c.prog C) s := by
  cases c with
  | drainMoves n => exact .head n s
  | accept o => exact .plain _ s (plain_call (C := C) (c := .accept o) (by simp) s)
  | drainCompletions done =>
    exact .plain _ s (plain_call (C := C) (c := .drainCompletions done) (by simp) s)

theorem Standing.stable {p : Prog Sys Unit} {s t : Sys} (h : Standing C p s)
    (hst : StaysEvicting s t) : Standing C p t := by
  cases h with
  | plain _ _ hp => exact .plain _ t (hp.stable (.single hst))
  | head n => exact .head n t
  | land m n => exact .land m n t
  | enter m n => exact .enter m n t
  | settle p m n _ hp => exact .settle p m n t (hp.stable (.single hst))

/-- Finished moves leave the queue one at a time, at the head of `drain_moves`. -/
theorem Standing.step {f : Sys → Option Sys} {k : Sys → Prog Sys Unit} {s t : Sys}
    (h : Standing C (.act f k) s) (hf : f s = some t) : Standing C (k s) t ∧
      (t.moveDone = s.moveDone ∨
        ∃ m n, s.moveDone = m :: t.moveDone ∧ k s = landMove C m n) := by
  generalize hp : Prog.act f k = p at h
  cases h with
  | plain _ _ hplain =>
    subst hp
    exact ⟨.plain _ t (hplain.step hf), .inl (hplain.access.moveDone hf)⟩
  | head n =>
    cases n with
    | zero => cases hp
    | succ n =>
      rw [drainMoves_succ] at hp
      cases hp
      cases hf
      dsimp only
      rw [ret_bind]
      cases hdone : s.moveDone with
      | nil =>
        refine ⟨.plain _ _ trivial, .inl ?_⟩
        rw [Sys.popMove, hdone]
        rfl
      | cons m rest =>
        refine ⟨.land m n _, .inr ⟨m, n, ?_, rfl⟩⟩
        rw [Sys.popMove, hdone]
        rfl
  | land m n =>
    cases hp
    cases hf
    exact ⟨.enter m n _, .inl rfl⟩
  | enter m n =>
    cases hp
    cases hf
    exact ⟨.settle _ m n _ (plain_activeSettle _ _ _ _), .inl rfl⟩
  | settle p m n _ hplain =>
    cases p with
    | ret u =>
      cases hp
      cases hf
      exact ⟨.head n _, .inl rfl⟩
    | act f' k' =>
      cases hp
      exact ⟨.settle _ m n t (hplain.step hf), .inl (hplain.access.moveDone hf)⟩

section queues

/-- What a step of the scheduler does to the queues: nothing, one more move to do, or the first
finished move taken. -/
theorem Step.queues {promise : Promise} {x y : Sys × Ghost} (hstep : Step C promise x y) :
    y.1.moving = x.1.moving ∧
      ((y.1.moveDone = x.1.moveDone ∧ ∃ l, y.1.moveSubmit = x.1.moveSubmit ++ l) ∨
      ∃ m b, x.1.moveDone = m :: y.1.moveDone ∧ y.1.moveSubmit = x.1.moveSubmit ∧
        y.2 = (x.2.setOwn m.srcSlot (.drained m.layer m.expert)).setOwn m.dstSlot
          (.arrived m.dstKey b)) := by
  have hsame : ∀ {s s' : Sys}, SameSlots s s' → s'.moving = s.moving ∧ s'.moveDone = s.moveDone ∧
      ∃ l, s'.moveSubmit = s.moveSubmit ++ l :=
    fun h => ⟨h.moving, h.moveDone, [], by rw [h.moveSubmit, List.append_nil]⟩
  have hnil : ∀ {l : List MoveTask}, ∃ l', l = l ++ l' := ⟨[], (List.append_nil _).symm⟩
  cases hstep with
  | startLoad s g i k accept | startNone s g i k accept =>
    dsimp only
    unfold startLoad
    split
    · exact ⟨rfl, .inl ⟨rfl, hnil⟩⟩
    · dsimp only
      split <;> exact ⟨rfl, .inl ⟨rfl, hnil⟩⟩
  | event s g idx ok s' hev | arrive s g idx ok s' hev | «break» s g idx ok s' hnot hev =>
    obtain ⟨_, rfl⟩ := takeEvent_eq hev
    exact ⟨rfl, .inl ⟨rfl, hnil⟩⟩
  | settle s g i k w =>
    obtain ⟨h₁, h₂, h₃⟩ := hsame (sameSlots_settleStep s k.expert i)
    exact ⟨h₁, .inl ⟨h₂, h₃⟩⟩
  | bump s g | bumpLast s g | bumpFinish s g =>
    obtain ⟨h₁, h₂, h₃⟩ := hsame (sameSlots_bumpBatch s C.topo.nExpert).1
    exact ⟨h₁, .inl ⟨h₂, h₃⟩⟩
  | failBatch s g =>
    obtain ⟨h₁, h₂, h₃⟩ := hsame (sameSlots_failBatch s).1
    exact ⟨h₁, .inl ⟨h₂, h₃⟩⟩
  | beginEvict s g i k =>
    dsimp only
    unfold Sys.beginEvict
    split <;> exact ⟨rfl, .inl ⟨rfl, hnil⟩⟩
  | submitMove s g m => exact ⟨rfl, .inl ⟨rfl, [m], rfl⟩⟩
  | popMove s g m rest b hdone =>
    refine ⟨rfl, .inr ⟨m, b, ?_, rfl, rfl⟩⟩
    dsimp only
    rw [Sys.popMove, hdone]
    rfl
  | _ => exact ⟨rfl, .inl ⟨rfl, hnil⟩⟩

/-- The other threads pass the moves on and add none. -/
theorem mem_moves_env {s s' : Sys} {a : EnvAct} (ha : envStep s a = some s') {m : MoveTask} :
    m ∈ s'.moves ↔ m ∈ s.moves := by
  cases a with
  | tryPin b i =>
    simp only [envStep] at ha
    split at ha <;> cases ha
    have hs := sameSlots_tryPin s b i
    rw [hs.moves_eq]
  | takeMove =>
    simp only [envStep] at ha
    split at ha
    · rename_i m' ms hmoving hsubmit
      cases ha
      simp [Sys.moves, hmoving, hsubmit]
    · cases ha
  | copyMove =>
    simp only [envStep] at ha
    split at ha
    · rename_i m' hmoving
      cases ha
      simp [Sys.moves, hmoving]
    · cases ha
  | finishMove =>
    simp only [envStep] at ha
    split at ha
    · rename_i m' hmoving
      cases ha
      simp [Sys.moves, hmoving]
    · cases ha
  | unpin _ _ | push _ | land _ =>
    simp only [envStep] at ha
    split at ha <;> cases ha
    exact Iff.rfl
  | strayUnpin _ | nextToken | touch _ _ _ | resetBatch _ =>
    cases ha
    exact Iff.rfl

end queues

section landing

/-- A slot whose bytes have arrived becomes READY and then its entry does. -/
theorem Step.arrived {promise : Promise} {x y : Sys × Ghost} (hwf : WF C x)
    (hstep : Step C promise x y) {i : ℕ} {k : Key} {b : Inbound} (hi : x.2.own i = .arrived k b) :
    y.2.own i = .arrived k b ∨ y.2.own i = .landed k b := by
  have hother : ∀ {g : Ghost} {j : ℕ} (a : Owner), g.own i = .arrived k b →
      g.own j ≠ .arrived k b → (g.setOwn j a).own i = .arrived k b := by
    intro g j a hg hj
    have hij : i ≠ j := by
      rintro rfl
      exact hj hg
    rw [Ghost.setOwn_of_ne g a hij]
    exact hg
  cases hstep with
  | markReady s g j k' b' hj =>
    by_cases hij : i = j
    · subst hij
      rw [hi] at hj
      cases hj
      exact .inr (Ghost.setOwn_self ..)
    · left
      dsimp only
      rw [Ghost.setOwn_of_ne g _ hij]
      exact hi
  | reserve s g j k' hj | reload s g j k' hj | startLoad s g j k' accept idx hj | settleDir s g j k' b' hj
  | markFailed s g j k' hj | fail s g j k' hj | clear s g j k' hj | recycle s g j l e hj
  | claim s g j k' hj | moveIn s g j k' hj | unreserve s g j k' hj =>
    exact .inl (hother _ hi (by rw [hj]; simp))
  | abandon s g j k' _ hj => exact .inl (hother _ hi (by rw [hj]; simp))
  | drain s g j l e hj => exact .inl (hother _ hi (by rw [hj]; simp))
  | beginEvict s g j k' _ _ hj => exact .inl (hother _ hi (by rw [hj]; simp))
  | release s g j hj =>
    refine .inl (hother _ hi ?_)
    rcases hj with hj | ⟨l, e, hj⟩ <;> rw [hj] <;> simp
  | arrive s g idx ok s' hev hp =>
    have hload := (hwf.ring.loading idx (by dsimp only; omega)).1
    dsimp only at hload
    exact .inl (hother _ hi (by rw [hload]; simp))
  | «break» s g idx ok s' hnot hev hp =>
    have hload := (hwf.ring.loading idx (by dsimp only; omega)).1
    dsimp only at hload
    exact .inl (hother _ hi (by rw [hload]; simp))
  | submitMove s g m hsrc hdst =>
    have hmid := hother (.source m.layer m.expert) hi (by rw [hsrc]; simp)
    have hne : (g.setOwn m.srcSlot (.source m.layer m.expert)).own m.dstSlot ≠ .arrived k b := by
      by_cases hsd : m.dstSlot = m.srcSlot
      · rw [hsd, Ghost.setOwn_self]
        simp
      · rw [Ghost.setOwn_of_ne _ _ hsd, hdst]
        simp
    exact .inl (hother _ hmid hne)
  | popMove s g m rest b' hdone hdst =>
    have hmem : m ∈ s.moves := by simp [Sys.moves, hdone]
    have hsrc := (hwf.moves.tasks m hmem).1
    dsimp only at hsrc
    have hmid := hother (.drained m.layer m.expert) hi (by rw [hsrc]; simp)
    have hne : (g.setOwn m.srcSlot (.drained m.layer m.expert)).own m.dstSlot ≠ .arrived k b := by
      by_cases hsd : m.dstSlot = m.srcSlot
      · rw [hsd, Ghost.setOwn_self]
        simp
      · rw [Ghost.setOwn_of_ne _ _ hsd, hdst]
        simp
    exact .inl (hother _ hmid hne)
  | _ => exact .inl hi

end landing

section home

variable {s s' : Sys} {g : Ghost} {i : ℕ} {a : Owner}

/-- The layer of the expert that is on its way out of a slot. -/
def Owner.leaves : Owner → Option ℕ
  | .vacating l _ | .drained l _ | .source l _ => some l
  | _ => none

/-- It leaves a region of its layer's group. -/
def LeavesHome (C : Config) (x : Sys × Ghost) : Prop :=
  ∀ i l, Owner.leaves (x.2.own i) = some l → ∃ p, InRegion C i p l

theorem LeavesHome.setOwn (h : LeavesHome C (s, g))
    (ha : ∀ l, Owner.leaves a = some l → ∃ p, InRegion C i p l) :
    LeavesHome C (s', g.setOwn i a) := by
  intro j l hj
  by_cases hji : j = i
  · subst hji
    dsimp only at hj
    rw [Ghost.setOwn_self] at hj
    exact ha l hj
  · dsimp only at hj
    rw [Ghost.setOwn_of_ne g a hji] at hj
    exact h j l hj

theorem LeavesHome.step {promise : Promise} {x y : Sys × Ghost} (hwf : WF C x) (h : LeavesHome C x)
    (hstep : Step C promise x y) : LeavesHome C y := by
  have hkeep : ∀ {s s' : Sys} {g : Ghost} {i l e : ℕ} {a : Owner}, LeavesHome C (s, g) →
      Owner.leaves (g.own i) = some l → a = .drained l e ∨ a = .source l e →
      LeavesHome C (s', g.setOwn i a) := by
    intro s s' g i l e a hl hi ha
    refine hl.setOwn ?_
    intro l' hl'
    rcases ha with rfl | rfl <;> cases hl' <;> exact hl i l hi
  have hnone : ∀ {s s' : Sys} {g : Ghost} {i : ℕ} {a : Owner}, LeavesHome C (s, g) →
      Owner.leaves a = none → LeavesHome C (s', g.setOwn i a) := by
    intro s s' g i a hl ha
    refine hl.setOwn ?_
    intro l hl'
    rw [ha] at hl'
    cases hl'
  cases hstep with
  | clear s g i k hown =>
    refine h.setOwn ?_
    intro l hl
    cases hl
    exact ⟨k.pool, hwf.region i k .ready (by dsimp only; rw [hown]; rfl)⟩
  | drain s g i l e hown => exact hkeep (e := e) h (by rw [hown]; rfl) (.inl rfl)
  | submitMove s g m hsrc hdst =>
    have hmid : LeavesHome C (s, g.setOwn m.srcSlot (.source m.layer m.expert)) :=
      hkeep (e := m.expert) h (by rw [hsrc]; rfl) (.inr rfl)
    exact hnone hmid rfl
  | popMove s g m rest b hdone hdst =>
    have hmem : m ∈ s.moves := by simp [Sys.moves, hdone]
    have hsrc := (hwf.moves.tasks m hmem).1
    dsimp only at hsrc
    have hmid : LeavesHome C (s, g.setOwn m.srcSlot (.drained m.layer m.expert)) :=
      hkeep (e := m.expert) h (by rw [hsrc]; rfl) (.inl rfl)
    exact hnone hmid rfl
  | reserve | reload | startLoad | abandon | arrive | «break» | markReady | settleDir | markFailed
  | fail | beginEvict | recycle | claim | moveIn | unreserve | release => exact hnone h rfl
  | _ => exact h

end home

end SchedRuns
end StreamMoE
