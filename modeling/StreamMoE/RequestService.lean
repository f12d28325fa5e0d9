import StreamMoE.PinLayer
import StreamMoE.RequestSteps

/-! One request on its way through the scheduler: queued, taken, served, and done or failed. The
executing thread's contract with the scheduler and the other threads. -/
namespace StreamMoE
namespace PinLayer

open AtomicProg SlotWord SchedConfig Sched PinProtection

/-- The pins of the thread that waits for batch `b`. -/
def mine (b : ℕ) (s : Sys) : List Pin := s.pins.filter fun p => p.holder == .batch (some b)

/-- The pins the scheduler holds for the active request. -/
def lent (s : Sys) : List Pin := s.pins.filter fun p => p.holder == .scheduler

/-- Increments and decrements of each refcount. -/
structure Tally where
  taken : ℕ → ℕ
  given : ℕ → ℕ

def Tally.zero : Tally := ⟨fun _ => 0, fun _ => 0⟩

def Tally.add (t : Tally) (s s' : Sys) : Tally :=
  { taken := fun i => t.taken i + (slotWordRefcount (s'.word i) - slotWordRefcount (s.word i))
    given := fun i => t.given i + (slotWordRefcount (s.word i) - slotWordRefcount (s'.word i)) }

theorem Tally.add_same (t : Tally) {s s' : Sys}
    (h : ∀ i, slotWordRefcount (s'.word i) = slotWordRefcount (s.word i)) : t.add s s' = t := by
  rw [Tally.add]
  congr 1 <;> funext i <;> rw [h i, Nat.sub_self, Nat.add_zero]

@[simp] theorem Tally.add_self (t : Tally) (s : Sys) : t.add s s = t := t.add_same fun _ => rfl

/-- Steps of the threads beside the scheduler and the executing thread. -/
def OtherAct : EnvAct → Prop
  | .tryPin (.thread _) _ | .unpin (.thread _) _ => True
  | .land _ | .takeMove | .copyMove | .finishMove | .nextToken | .touch _ _ _ => True
  | _ => False

def ExecAct : EnvAct → Prop
  | .tryPin h _ | .unpin h _ => ∃ b, h = .batch (some b)
  | .push _ | .nextToken | .touch _ _ _ | .resetBatch _ => True
  | _ => False

theorem OtherAct.matched {a : EnvAct} (h : OtherAct a) (i : ℕ) : a ≠ .strayUnpin i := by
  rintro rfl
  exact h

theorem ExecAct.matched {a : EnvAct} (h : ExecAct a) (i : ℕ) : a ≠ .strayUnpin i := by
  rintro rfl
  exact h

abbrev World := Sys × (Ghost × Tally)

/-- The executing thread among the scheduler, whose steps count on the tally, and the others. -/
def execContract (C : Config) : Contract Sys (Ghost × Tally) where
  inv x := WF C (x.1, x.2.1) ∧ PinsOk (x.1, x.2.1)
  rely x y := (Step C .nothing (x.1, x.2.1) (y.1, y.2.1) ∧ y.2.2 = x.2.2.add x.1 y.1) ∨
    (y.2 = x.2 ∧ ∃ a, OtherAct a ∧ envStep x.1 a = some y.1)
  guar x y := y.2 = (x.2.1, x.2.2.add x.1 y.1) ∧
    (y.1 = x.1 ∨ ∃ a, ExecAct a ∧ envStep x.1 a = some y.1)
  rely_inv := by
    rintro ⟨s, g, t⟩ ⟨s', g', t'⟩ ⟨hwf, hpins⟩ (⟨hstep, _⟩ | ⟨hg, a, ha, hstep⟩)
    · exact ⟨hstep.wf hwf, Step.pinsOk hwf hstep hpins⟩
    · have hg' : g' = g := congrArg Prod.fst hg
      subst hg'
      exact ⟨hwf.env hstep, hpins.env hwf ha.matched hstep⟩
  guar_inv := by
    rintro ⟨s, g, t⟩ ⟨s', g', t'⟩ ⟨hwf, hpins⟩ ⟨hg, hcases⟩
    have hg' : g' = g := congrArg Prod.fst hg
    subst hg'
    rcases hcases with hsame | ⟨a, ha, hstep⟩
    · dsimp only at hsame
      subst hsame
      exact ⟨hwf, hpins⟩
    · exact ⟨hwf.env hstep, hpins.env hwf ha.matched hstep⟩
  guar_refl := by
    intro x
    exact ⟨by simp, .inl rfl⟩

/-- What the request and the two threads that deal with it see of a step of another thread. -/
structure Beside (b : ℕ) (s s' : Sys) : Prop where
  requests : s'.requests = s.requests
  batch : s'.batch = s.batch
  active : s'.active = s.active
  mine : mine b s' = mine b s
  lent : lent s' = lent s

theorem filter_eraseP {α : Type} {p q : α → Bool} (h : ∀ a, p a = true → q a = false) (l : List α) :
    (l.eraseP p).filter q = l.filter q := by
  induction l with
  | nil => rfl
  | cons a l ih =>
    by_cases ha : p a = true
    · rw [List.eraseP_cons_of_pos ha, List.filter_cons_of_neg (by simp [h a ha])]
    · rw [List.eraseP_cons_of_neg ha, List.filter_cons, List.filter_cons, ih]

theorem beside_of_other {b : ℕ} {s s' : Sys} {a : EnvAct} (ha : OtherAct a)
    (hstep : envStep s a = some s') : Beside b s s' := by
  have hactive : s'.active = s.active := congrArg View.active (envStep_view hstep)
  cases a with
  | tryPin h i =>
    cases h with
    | thread id =>
      simp only [envStep] at hstep
      rw [if_neg (by simp)] at hstep
      cases hstep
      refine ⟨?_, ?_, hactive, ?_, ?_⟩ <;> unfold Sys.tryPin <;> split <;> rfl
    | scheduler => exact ha.elim
    | batch id => exact ha.elim
  | unpin h i =>
    cases h with
    | thread id =>
      simp only [envStep] at hstep
      split at hstep
      · cases hstep
        refine ⟨rfl, rfl, hactive, filter_eraseP ?_ _, filter_eraseP ?_ _⟩ <;> intro r hr <;>
          simp only [Bool.and_eq_true, beq_iff_eq] at hr <;> simp [hr.1]
      · cases hstep
    | scheduler => exact ha.elim
    | batch id => exact ha.elim
  | land idx =>
    simp only [envStep] at hstep
    split at hstep <;> cases hstep
    exact ⟨rfl, rfl, hactive, rfl, rfl⟩
  | takeMove | copyMove | finishMove =>
    simp only [envStep] at hstep
    split at hstep <;> cases hstep
    exact ⟨rfl, rfl, hactive, rfl, rfl⟩
  | nextToken | touch _ _ _ =>
    cases hstep
    exact ⟨rfl, rfl, hactive, rfl, rfl⟩
  | strayUnpin _ | push _ | resetBatch _ => exact ha.elim

section bound

/-- Taken by the executing thread, or for it. -/
def OnBehalf (b : ℕ) (p : Pin) : Prop := p.holder = .scheduler ∨ p.holder = .batch (some b)

/-- The slots pinned by or for the executing thread are resident and not up for eviction. -/
def Bound (b : ℕ) (s : Sys) (g : Ghost) : Prop :=
  ∀ p ∈ s.pins, OnBehalf b p → ∃ k, g.own p.slot = .resident k ∧ p.slot ∉ g.idle ∧
    p.content = some (k.layer, k.expert)

variable {C : Config} {b : ℕ} {s s' : Sys} {g g' : Ghost}

theorem Bound.mono (h : Bound b s g) (hown : g'.own = g.own) (hidle : ∀ i ∈ g'.idle, i ∈ g.idle)
    (hpins : ∀ p ∈ s'.pins, OnBehalf b p →
      ∃ q ∈ s.pins, OnBehalf b q ∧ q.slot = p.slot ∧ q.content = p.content) : Bound b s' g' := by
  intro p hp hb
  obtain ⟨q, hq, hqb, hslot, hcontent⟩ := hpins p hp hb
  obtain ⟨k, hk, hnot, hc⟩ := h q hq hqb
  rw [hown, ← hslot, ← hcontent]
  exact ⟨k, hk, fun hi => hnot (hidle _ hi), hc⟩

theorem Bound.of_pins (h : Bound b s g) (hpins : ∀ p ∈ s'.pins, p ∈ s.pins) (hown : g'.own = g.own)
    (hidle : ∀ i ∈ g'.idle, i ∈ g.idle) : Bound b s' g' :=
  h.mono hown hidle fun p hp hb => ⟨p, hpins p hp, hb, rfl, rfl⟩

theorem Bound.beside (h : Bound b s g) (hb : Beside b s s') : Bound b s' g := by
  refine h.mono rfl (fun _ hi => hi) ?_
  intro p hp hon
  refine ⟨p, ?_, hon, rfl, rfl⟩
  rcases hon with hsched | hmine
  · have hmem : p ∈ lent s' := List.mem_filter.mpr ⟨hp, by simp [hsched]⟩
    rw [hb.lent] at hmem
    exact (List.mem_filter.mp hmem).1
  · have hmem : p ∈ mine b s' := List.mem_filter.mpr ⟨hp, by simp [hmine]⟩
    rw [hb.mine] at hmem
    exact (List.mem_filter.mp hmem).1

theorem Bound.background (h : Bound b s g) (hpins : PinsOk (s, g))
    (hb : Background C (s, g) (s', g')) : Bound b s' g' := by
  intro p hp hon
  have hp' : p ∈ s.pins := by
    have heq : s'.pins = s.pins := hb.pins
    rwa [heq] at hp
  obtain ⟨k, hk, hnot, hc⟩ := h p hp' hon
  refine ⟨k, ?_, ?_, hc⟩
  · rcases hb.resident p.slot k hk with hr | ⟨_, hi⟩
    · exact hr
    · exact absurd hi hnot
  · intro hi
    rcases hb.idle p.slot hi with hi | ⟨_, hzero⟩
    · exact hnot hi
    · have hpos := hpins.refcount_pos hp'
      dsimp only at hzero
      omega

theorem Bound.handOver (h : Bound b s g) (hpins : s'.pins = s.handOver.pins) (hown : g'.own = g.own)
    (hidle : g'.idle = []) : Bound b s' g' := by
  refine h.mono hown (by simp [hidle]) ?_
  intro p hp hon
  rw [hpins, Sys.handOver] at hp
  obtain ⟨q, hq, rfl⟩ := List.mem_map.mp hp
  by_cases hsched : q.holder = .scheduler
  · exact ⟨q, hq, .inl hsched, by simp [hsched], by simp [hsched]⟩
  · rw [if_neg hsched] at hon ⊢
    exact ⟨q, hq, hon, rfl, rfl⟩

theorem Bound.service (h : Bound b s g) (hwf : WF C (s, g))
    (hs : Service C (s, g) (s', g')) : Bound b s' g' := by
  cases hs with
  | pop | register => exact h.of_pins (fun _ hp => hp) rfl fun _ hi => hi
  | settle _ _ i k w hcalm hphase hpresent hlayer hneed hown hw =>
    intro p hp hon
    simp only [Sys.settleStep, hw, Sys.tryPin] at hp
    rcases List.mem_cons.mp hp with rfl | hp
    · have hcontent := hwf.content i (k.layer, k.expert) (by dsimp only; rw [hown]; rfl)
      exact ⟨k, hown, List.not_mem_nil, hcontent⟩
    · obtain ⟨k', hk', _, hc⟩ := h p hp hon
      exact ⟨k', hk', List.not_mem_nil, hc⟩
  | bump _ _ hcalm hphase hpresent hall =>
    refine h.of_pins ?_ rfl (by simp)
    intro p hp
    rw [Sys.bumpBatch] at hp
    simp only [hall, Bool.false_eq_true, if_false] at hp
    revert hp
    split <;> exact fun hp => hp
  | bumpLast _ _ hcalm hphase hpresent hall => exact h.handOver (bumpBatch_pins hall) rfl rfl
  | bumpFinish => exact h.handOver (handOver_bumpBatch s _) rfl rfl
  | finish => exact h.handOver rfl rfl rfl
  | unpinOwed _ _ i rest =>
    exact h.of_pins (fun p hp => List.mem_of_mem_eraseP hp) rfl (by simp)
  | failBatch =>
    refine h.of_pins ?_ rfl (by simp)
    intro p hp
    unfold Sys.failBatch Sys.activeClearState at hp
    revert hp
    split <;> exact fun hp => hp

end bound

end PinLayer
end StreamMoE
