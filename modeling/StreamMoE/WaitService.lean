import Mathlib.Data.List.Perm.Basic
import StreamMoE.RequestService

/-! The stages of one request, each kept by every step of the scheduler and the other threads or
followed by the next. -/
namespace StreamMoE
namespace PinLayer

open AtomicProg SlotWord SchedConfig Sched PinProtection

/-- The scheduler has nothing of the request under way: nobody is evicted, no pin is owed. -/
structure Quiet (C : Config) (reqs : List Request) (s : Sys) (g : Ghost) : Prop where
  requests : s.requests = reqs
  idle : g.idle = []
  calm : Calm g
  owed : g.owed = []
  phase : (g.phase = .idle ∧ s.active.present = false) ∨
    (g.phase = .handed ∧ s.active.allSettled C.topo.nExpert = true)

section quiet

variable {C : Config} {b : ℕ} {reqs : List Request} {s s' : Sys} {g g' : Ghost}

theorem allSettled_of_work {A A' : Active} (h : A'.work = A.work) (n : ℕ) :
    A'.allSettled n = A.allSettled n := by
  have hneed : A'.stillNeed = A.stillNeed := congrArg Work.stillNeed h
  have hleft : A'.nLeft = A.nLeft := congrArg Work.nLeft h
  rw [Active.allSettled, Active.allSettled, hneed, hleft]

theorem Quiet.not_hunting (h : Quiet C reqs s g) : ¬ Hunting C (s, g) := by
  rintro ⟨hphase, _⟩
  dsimp only at hphase
  rcases h.phase with ⟨hp, _⟩ | ⟨hp, _⟩ <;> rw [hphase] at hp <;> cases hp

theorem Quiet.background (h : Quiet C reqs s g) (hb : Background C (s, g) (s', g')) :
    Quiet C reqs s' g' := by
  have hwork := hb.work
  dsimp only at hwork
  refine ⟨hb.requests.trans h.requests, ?_, ?_, hb.owed.trans h.owed, ?_⟩
  · refine List.eq_nil_iff_forall_not_mem.mpr ?_
    intro i hi
    rcases hb.idle i hi with hi | ⟨hhunt, _⟩
    · rw [h.idle] at hi
      cases hi
    · exact h.not_hunting hhunt
  · rcases hb.calm h.calm with hcalm | hhunt
    · exact hcalm
    · exact absurd hhunt h.not_hunting
  · have hphase := hb.phase
    dsimp only at hphase
    have hpresent : s'.active.present = s.active.present := congrArg Work.present hwork
    rw [hphase, hpresent, allSettled_of_work hwork]
    exact h.phase

theorem not_scheduler_of_owed (hpins : PinsOk (s, g)) (howed : g.owed = []) {p : Pin}
    (hp : p ∈ s.pins) : p.holder ≠ .scheduler := by
  intro hsched
  have hcount := hpins.owed p.slot
  dsimp only at hcount
  rw [howed, List.count_nil, List.countP_eq_zero] at hcount
  exact hcount p hp (by simp [hsched])

theorem handOver_of_owed (hpins : PinsOk (s, g)) (howed : g.owed = []) : s.handOver.pins = s.pins := by
  rw [Sys.handOver]
  conv_rhs => rw [← List.map_id s.pins]
  refine List.map_congr_left ?_
  intro r hr
  rw [if_neg (not_scheduler_of_owed hpins howed hr)]
  rfl

theorem Quiet.not_busy (h : Quiet C reqs s g) : g.phase.busy = false := by
  rcases h.phase with ⟨hp, _⟩ | ⟨hp, _⟩ <;> rw [hp] <;> rfl

/-- The end of the bookkeeping keeps what is queued. -/
theorem Quiet.finish (h : Quiet C reqs s g) :
    Quiet C reqs s.activeFinish { g with owed := [], idle := [], phase := .idle } :=
  ⟨h.requests, rfl, h.calm, rfl, .inl ⟨rfl, rfl⟩⟩

/-- The scheduler's look at an empty queue and the end of its bookkeeping are all that is left. -/
theorem Quiet.service (h : Quiet C [] s g) (hs : Service C (s, g) (s', g')) :
    Quiet C [] s' g' ∧ s'.batch = s.batch ∧ g'.own = g.own ∧
      (s'.pins = s.pins ∨ s'.pins = s.handOver.pins) := by
  have hno : ∀ {ph : Phase}, g.phase = ph → ph.busy = true → False := by
    rintro ph rfl hb
    rw [h.not_busy] at hb
    cases hb
  cases hs with
  | pop _ _ hphase hpresent =>
    refine ⟨⟨?_, h.idle, h.calm, h.owed, .inl ⟨?_, hpresent⟩⟩, rfl, rfl, .inl rfl⟩
    · rw [Sys.popRequest, h.requests]
      rfl
    · dsimp only
      rw [Sys.popPhase, h.requests]
  | register _ _ r hphase =>
    rcases h.phase with ⟨hp, _⟩ | ⟨hp, _⟩ <;> rw [hphase] at hp <;> cases hp
  | settle _ _ i k w _ hphase => exact (hno hphase rfl).elim
  | bump _ _ _ hphase | bumpLast _ _ _ hphase | bumpFinish _ _ _ hphase =>
    exact (hno hphase rfl).elim
  | finish _ _ hcalm => exact ⟨h.finish, rfl, rfl, .inr rfl⟩
  | unpinOwed _ _ i rest _ hb => exact (hno rfl hb).elim
  | failBatch _ _ _ hb => exact (hno rfl hb).elim

theorem Quiet.step (h : Quiet C [] s g) (hwf : WF C (s, g)) (hpins : PinsOk (s, g))
    {promise : Promise} (hstep : Step C promise (s, g) (s', g')) :
    Quiet C [] s' g' ∧ s'.batch = s.batch ∧ s'.pins = s.pins ∧
      ∀ i k, g.own i = .resident k → g'.own i = .resident k := by
  rcases hstep.background_or_service hwf with hb | hs
  · refine ⟨h.background hb, hb.batch, hb.pins, ?_⟩
    intro i k hi
    rcases hb.resident i k hi with hr | ⟨hhunt, _⟩
    · exact hr
    · exact absurd hhunt h.not_hunting
  · obtain ⟨hq, hbatch, hown, hp⟩ := h.service hs
    refine ⟨hq, hbatch, hp.elim id (·.trans (handOver_of_owed hpins h.owed)), ?_⟩
    intro i k hi
    rw [hown]
    exact hi

theorem Quiet.beside (h : Quiet C reqs s g) (hb : Beside b s s') : Quiet C reqs s' g := by
  refine ⟨hb.requests.trans h.requests, h.idle, h.calm, h.owed, ?_⟩
  rw [hb.active]
  exact h.phase

theorem Bound.step (hbound : Bound b s g) (hwf : WF C (s, g)) (hpins : PinsOk (s, g))
    {promise : Promise} (hstep : Step C promise (s, g) (s', g')) : Bound b s' g' := by
  rcases hstep.background_or_service hwf with hb | hs
  · exact hbound.background hpins hb
  · exact hbound.service hwf hs

/-- Steps that take and give back no pin leave the tally alone. -/
theorem add_of_pins (t : Tally) (hpins : PinsOk (s, g)) (hpins' : PinsOk (s', g'))
    (heq : s'.pins = s.pins) : t.add s s' = t := by
  refine t.add_same ?_
  intro i
  have h₁ := hpins.count i
  have h₂ := hpins'.count i
  dsimp only at h₁ h₂
  rw [h₁, h₂, heq]

end quiet

/-- A quiet state with the executing thread's pins, its batch, the tally and slots known to be
resident. -/
structure Still (C : Config) (b : ℕ) (L : List Pin) (β : Batch) (τ : Tally) (R : ℕ → Key → Prop)
    (x : World) : Prop where
  quiet : Quiet C [] x.1 x.2.1
  bound : Bound b x.1 x.2.1
  mine : (mine b x.1).Perm L
  batch : x.1.batch b = β
  tally : x.2.2 = τ
  resident : ∀ i k, R i k → x.2.1.own i = .resident k

variable {C : Config} {b : ℕ} {L : List Pin} {β : Batch} {τ : Tally} {R : ℕ → Key → Prop}

theorem stable_still : Stable (execContract C) (Still C b L β τ R) := by
  rintro ⟨s, g, t⟩ ⟨s', g', t'⟩ ⟨hwf, hpins⟩ (⟨hstep, ht⟩ | ⟨hg, a, ha, hstep⟩) h
  · obtain ⟨hq, hbatch, hp, hres⟩ := h.quiet.step hwf hpins hstep
    refine ⟨hq, h.bound.step hwf hpins hstep, ?_, ?_, ?_, ?_⟩
    · have hmine : PinLayer.mine b s' = PinLayer.mine b s := by
        rw [PinLayer.mine, PinLayer.mine, hp]
      dsimp only
      rw [hmine]
      exact h.mine
    · dsimp only
      rw [hbatch]
      exact h.batch
    · dsimp only at ht ⊢
      rw [ht, add_of_pins t hpins (Step.pinsOk hwf hstep hpins) hp]
      exact h.tally
    · intro i k hi
      exact hres i k (h.resident i k hi)
  · cases hg
    have hb := beside_of_other (b := b) ha hstep
    refine ⟨h.quiet.beside hb, h.bound.beside hb, ?_, ?_, h.tally, h.resident⟩
    · dsimp only
      rw [hb.mine]
      exact h.mine
    · dsimp only
      rw [hb.batch]
      exact h.batch

/-- One increment for each pin. -/
def tallyOf (P : List Pin) : Tally := ⟨fun i => P.countP (·.slot == i), fun _ => 0⟩

structure Queued (C : Config) (b layer : ℕ) (missing : List ℕ) (L A : List Pin) (x : World) : Prop where
  quiet : Quiet C [requestFor b layer missing] x.1 x.2.1
  bound : Bound b x.1 x.2.1
  mine : (mine b x.1).Perm L
  batch : x.1.batch b = ⟨0, false⟩
  tally : x.2.2 = tallyOf A

/-- The scheduler has taken the request from the queue. -/
structure Popped (b layer : ℕ) (missing : List ℕ) (L A : List Pin) (x : World) : Prop where
  requests : x.1.requests = []
  phase : x.2.1.phase = .popped (requestFor b layer missing)
  present : x.1.active.present = false
  idle : x.2.1.idle = []
  calm : Calm x.2.1
  owed : x.2.1.owed = []
  bound : Bound b x.1 x.2.1
  mine : (mine b x.1).Perm L
  batch : x.1.batch b = ⟨0, false⟩
  tally : x.2.2 = tallyOf A

def pinnedExperts (missing : List ℕ) (A : Active) : List ℕ := missing.filter fun e => !A.stillNeed e

/-- The scheduler works on the request: its count and its pins are those of the experts no longer
needed, until it starts to release the pins. -/
structure Served (b layer : ℕ) (missing : List ℕ) (L A : List Pin) (x : World) : Prop where
  requests : x.1.requests = []
  busy : x.2.1.phase.busy = true
  present : x.1.active.present = true
  layerEq : x.1.active.layer = layer
  waiter : x.1.active.batch = some b
  need : ∀ e, x.1.active.stillNeed e = true → e ∈ missing
  left : x.1.active.nLeft = (missing.filter x.1.active.stillNeed).length
  bound : Bound b x.1 x.2.1
  mine : (mine b x.1).Perm L
  failed : (x.1.batch b).failed = false
  active : x.2.1.phase = .active →
    0 < x.1.active.nLeft ∧ (x.1.batch b).done + x.1.active.nLeft ≤ missing.length
  owing : x.2.1.phase = .owing → (x.1.batch b).done + x.1.active.nLeft < missing.length
  failing : x.2.1.phase = .failing → (x.1.batch b).done < missing.length
  lent : x.2.1.phase ≠ .failing → ((lent x.1).map Pin.content).Perm
    ((pinnedExperts missing x.1.active).map fun e => some (layer, e))
  given : x.2.1.phase ≠ .failing → ∀ i, x.2.2.given i = 0
  taken : ∀ i, x.2.2.taken i =
    A.countP (·.slot == i) + (PinLayer.lent x.1).countP (·.slot == i) + x.2.2.given i

def nothing (_ : ℕ) (_ : Key) : Prop := False

/-- Every expert is pinned and the pins belong to the executing thread. -/
def Granted (C : Config) (b layer : ℕ) (missing : List ℕ) (L A B : List Pin) (x : World) : Prop :=
  (B.map Pin.content).Perm (missing.map fun e => some (layer, e)) ∧
    ∃ β : Batch, β.failed = false ∧ Still C b (L ++ B) β (tallyOf (A ++ B)) nothing x

/-- The request failed and its pins are released. -/
def Aborted (C : Config) (b : ℕ) (L A : List Pin) (x : World) : Prop :=
  ∃ β τ, β.failed = true ∧ (∀ i, τ.taken i = A.countP (·.slot == i) + τ.given i) ∧
    Still C b L β τ nothing x

def Waiting (C : Config) (b layer : ℕ) (missing : List ℕ) (L A : List Pin) (x : World) : Prop :=
  Queued C b layer missing L A x ∨ Popped b layer missing L A x ∨ Served b layer missing L A x ∨
    (∃ B, Granted C b layer missing L A B x) ∨ Aborted C b L A x

section lists

variable {l : List ℕ} {p : ℕ → Bool} {e : ℕ}

/-- One more expert is no longer needed. -/
theorem filter_update (hl : l.Nodup) (he : e ∈ l) (hp : p e = true) :
    (l.filter p).length = (l.filter (Function.update p e false)).length + 1 ∧
      (l.filter fun a => !Function.update p e false a).Perm (e :: l.filter fun a => !p a) := by
  induction l with
  | nil => cases he
  | cons a l ih =>
    obtain ⟨hnot, hl'⟩ := List.nodup_cons.mp hl
    by_cases hae : a = e
    · subst hae
      have hother : ∀ x ∈ l, Function.update p a false x = p x := by
        intro x hx
        refine Function.update_of_ne ?_ ..
        rintro rfl
        exact hnot hx
      have h₁ : l.filter (Function.update p a false) = l.filter p := List.filter_congr hother
      have h₂ : (l.filter fun x => !Function.update p a false x) = l.filter fun x => !p x :=
        List.filter_congr fun x hx => by rw [hother x hx]
      rw [List.filter_cons_of_pos hp, List.filter_cons_of_neg (by simp),
        List.filter_cons_of_pos (by simp), List.filter_cons_of_neg (by simp [hp]), h₁, h₂]
      exact ⟨rfl, .refl _⟩
    · have he' : e ∈ l := (List.mem_cons.mp he).resolve_left fun h => hae h.symm
      obtain ⟨h₁, h₂⟩ := ih hl' he'
      have ha : Function.update p e false a = p a := Function.update_of_ne hae ..
      cases hpa : p a with
      | true =>
        rw [List.filter_cons_of_pos hpa, List.filter_cons_of_pos (ha.trans hpa),
          List.filter_cons_of_neg (by simp [ha, hpa]), List.filter_cons_of_neg (by simp [hpa])]
        exact ⟨by simp [h₁], h₂⟩
      | false =>
        rw [List.filter_cons_of_neg (by simp [hpa]), List.filter_cons_of_neg (by simp [ha, hpa]),
          List.filter_cons_of_pos (by simp [ha, hpa]), List.filter_cons_of_pos (by simp [hpa])]
        exact ⟨h₁, (h₂.cons a).trans (.swap e a _)⟩

/-- The pins of the scheduler join those of the thread. -/
theorem filter_handOver (b : ℕ) (l : List Pin) :
    ((l.map fun r => if r.holder = .scheduler then { r with holder := .batch (some b) } else r).filter
      fun r => r.holder == .batch (some b)).Perm
      ((l.filter fun r => r.holder == .batch (some b)) ++
        (l.filter fun r => r.holder == .scheduler).map fun r =>
          { r with holder := .batch (some b) }) := by
  induction l with
  | nil => exact .refl _
  | cons a l ih =>
    rw [List.map_cons]
    by_cases hs : a.holder = .scheduler
    · rw [if_pos hs, List.filter_cons_of_pos (by simp), List.filter_cons_of_neg (by simp [hs]),
        List.filter_cons_of_pos (by simp [hs]), List.map_cons]
      exact (ih.cons _).trans List.perm_middle.symm
    · rw [if_neg hs]
      by_cases hb : a.holder = .batch (some b)
      · rw [List.filter_cons_of_pos (by simp [hb]), List.filter_cons_of_pos (by simp [hb]),
          List.filter_cons_of_neg (by simp [hs])]
        exact ih.cons _
      · rw [List.filter_cons_of_neg (by simp [hb]), List.filter_cons_of_neg (by simp [hb]),
          List.filter_cons_of_neg (by simp [hs])]
        exact ih

end lists

end PinLayer
end StreamMoE
