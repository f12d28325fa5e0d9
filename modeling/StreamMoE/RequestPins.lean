import StreamMoE.RequestStages

/-! The pins of a request and what the scheduler adds to the refcounts, while the thread that asked
waits: a step of the scheduler or of another thread keeps the stage of the request or takes it to the
next. -/
namespace StreamMoE
namespace PinLayer

open AtomicProg SlotWord SchedConfig Sched PinProtection

section tally

variable {C : Config} {s s' : Sys} {g g' : Ghost} {p : Pin}

theorem Tally.add_pin (t : Tally) (hpins : PinsOk (s, g)) (hpins' : PinsOk (s', g'))
    (h : s'.pins = p :: s.pins) :
    t.add s s' = ⟨fun i => t.taken i + if p.slot = i then 1 else 0, t.given⟩ := by
  have hcount : ∀ i, slotWordRefcount (s'.word i) =
      slotWordRefcount (s.word i) + if p.slot = i then 1 else 0 := by
    intro i
    have h₁ := hpins.count i
    have h₂ := hpins'.count i
    dsimp only at h₁ h₂
    rw [h₁, h₂, h, List.countP_cons]
    simp only [beq_iff_eq]
  rw [Tally.add]
  congr 1 <;> funext i <;> rw [hcount i] <;> omega

theorem Tally.add_unpin (t : Tally) (hpins : PinsOk (s, g)) (hpins' : PinsOk (s', g'))
    (h : s.pins.Perm (p :: s'.pins)) :
    t.add s s' = ⟨t.taken, fun i => t.given i + if p.slot = i then 1 else 0⟩ := by
  have hcount : ∀ i, slotWordRefcount (s.word i) =
      slotWordRefcount (s'.word i) + if p.slot = i then 1 else 0 := by
    intro i
    have h₁ := hpins.count i
    have h₂ := hpins'.count i
    dsimp only at h₁ h₂
    rw [h₁, h₂, h.countP_eq, List.countP_cons]
    simp only [beq_iff_eq]
  rw [Tally.add]
  congr 1 <;> funext i <;> rw [hcount i] <;> omega

theorem Tally.add_handOver (t : Tally) (hpins : PinsOk (s, g)) (hpins' : PinsOk (s', g'))
    (h : s'.pins = s.handOver.pins) : t.add s s' = t := by
  refine t.add_same ?_
  intro i
  have h₁ := hpins.count i
  have h₂ := hpins'.count i
  dsimp only at h₁ h₂
  rw [h₁, h₂, h, Sys.handOver, List.countP_map]
  congr 1
  funext r
  by_cases hr : r.holder = .scheduler <;> simp [hr]

theorem exists_unpinned {b : Holder} {i : ℕ}
    (h : s.pins.any (fun r => r.holder == b && r.slot == i) = true) :
    ∃ p, p.holder = b ∧ p.slot = i ∧ s.pins.Perm (p :: (s.unpin b i).pins) := by
  obtain ⟨r, hr, hmatch⟩ := List.any_eq_true.mp h
  obtain ⟨a, l₁, l₂, _, ha, hl, herase⟩ :=
    List.exists_of_eraseP (p := fun r : Pin => r.holder == b && r.slot == i) hr hmatch
  simp only [Bool.and_eq_true, beq_iff_eq] at ha
  refine ⟨a, ha.1, ha.2, ?_⟩
  have hpins : (s.unpin b i).pins = l₁ ++ l₂ := herase
  rw [hpins, hl]
  exact List.perm_middle

theorem tallyOf_concat (P : List Pin) (p : Pin) : tallyOf (P ++ [p]) =
    ⟨fun i => (tallyOf P).taken i + if p.slot = i then 1 else 0, (tallyOf P).given⟩ := by
  rw [tallyOf, tallyOf]
  congr 1
  funext i
  simp [List.countP_append, List.countP_singleton]

theorem tallyOf_perm {P Q : List Pin} (h : P.Perm Q) : tallyOf P = tallyOf Q := by
  rw [tallyOf, tallyOf]
  congr 1
  funext i
  exact h.countP_eq _

end tally

section stages

variable {C : Config} {b layer : ℕ} {missing : List ℕ} {L A : List Pin} {s s' : Sys}
  {g g' : Ghost} {t : Tally}

theorem mine_of_pins (h : s'.pins = s.pins) : mine b s' = mine b s := by rw [mine, mine, h]

theorem lent_of_pins (h : s'.pins = s.pins) : lent s' = lent s := by rw [lent, lent, h]

theorem lent_of_owed (hpins : PinsOk (s, g)) (howed : g.owed = []) : lent s = [] := by
  rw [lent, List.filter_eq_nil_iff]
  intro p hp
  simpa using not_scheduler_of_owed hpins howed hp

section beside

variable {C : Config}

theorem Queued.beside (h : Queued C b layer missing L A (s, g, t)) (hb : Beside b s s') :
    Queued C b layer missing L A (s', g, t) := by
  refine ⟨h.quiet.beside hb, h.bound.beside hb, ?_, (congrFun hb.batch b).trans h.batch, h.tally⟩
  dsimp only
  rw [hb.mine]
  exact h.mine

theorem Popped.beside (h : Popped b layer missing L A (s, g, t)) (hb : Beside b s s') :
    Popped b layer missing L A (s', g, t) := by
  refine ⟨hb.requests.trans h.requests, h.phase, ?_, h.idle, h.calm, h.owed, h.bound.beside hb, ?_,
    (congrFun hb.batch b).trans h.batch, h.tally⟩ <;> dsimp only
  · rw [hb.active]
    exact h.present
  · rw [hb.mine]
    exact h.mine

theorem Served.beside (h : Served b layer missing L A (s, g, t)) (hb : Beside b s s') :
    Served b layer missing L A (s', g, t) := by
  have hbatch : s'.batch b = s.batch b := congrFun hb.batch b
  obtain ⟨h₁, h₂, h₃, h₄, h₅, h₆, h₇, h₈, h₉, h₁₀, h₁₁, h₁₂, h₁₃, h₁₄, h₁₅, h₁₆⟩ := h
  refine ⟨hb.requests.trans h₁, h₂, ?_, ?_, ?_, ?_, ?_, h₈.beside hb, ?_, ?_, ?_, ?_, ?_, ?_, h₁₅, ?_⟩ <;>
    dsimp only <;> simp only [hb.active, hb.mine, hb.lent, hbatch]
  exacts [h₃, h₄, h₅, h₆, h₇, h₉, h₁₀, h₁₁, h₁₂, h₁₃, h₁₄, h₁₆]

end beside

section background

variable (hpins : PinsOk (s, g)) (hpins' : PinsOk (s', g')) (hb : Background C (s, g) (s', g'))
include hpins hpins' hb

theorem Queued.background (h : Queued C b layer missing L A (s, g, t)) :
    Queued C b layer missing L A (s', g', t.add s s') := by
  refine ⟨h.quiet.background hb, h.bound.background hpins hb, ?_, (congrFun hb.batch b).trans h.batch, ?_⟩
  · dsimp only
    rw [mine_of_pins hb.pins]
    exact h.mine
  · dsimp only
    rw [add_of_pins t hpins hpins' hb.pins]
    exact h.tally

theorem Popped.background (h : Popped b layer missing L A (s, g, t)) :
    Popped b layer missing L A (s', g', t.add s s') := by
  have hnot : ¬ Hunting C (s, g) := by
    rintro ⟨hphase, _⟩
    have hpopped := h.phase
    dsimp only at hphase hpopped
    rw [hphase] at hpopped
    cases hpopped
  have hpresent : s'.active.present = s.active.present := congrArg Work.present hb.work
  refine ⟨hb.requests.trans h.requests, hb.phase.trans h.phase, hpresent.trans h.present, ?_,
    (hb.calm h.calm).resolve_right hnot, hb.owed.trans h.owed, h.bound.background hpins hb, ?_,
    (congrFun hb.batch b).trans h.batch, ?_⟩ <;> dsimp only
  · refine List.eq_nil_iff_forall_not_mem.mpr ?_
    intro i hi
    rcases hb.idle i hi with hold | ⟨hhunt, _⟩
    · rw [h.idle] at hold
      cases hold
    · exact hnot hhunt
  · rw [mine_of_pins hb.pins]
    exact h.mine
  · rw [add_of_pins t hpins hpins' hb.pins]
    exact h.tally

theorem Served.background (h : Served b layer missing L A (s, g, t)) :
    Served b layer missing L A (s', g', t.add s s') := by
  have hwork := hb.work
  have hphase := hb.phase
  dsimp only at hwork hphase
  have hbatch : s'.batch b = s.batch b := congrFun hb.batch b
  have hpresent : s'.active.present = s.active.present := congrArg Work.present hwork
  have hlayer : s'.active.layer = s.active.layer := congrArg Work.layer hwork
  have hwaiter : s'.active.batch = s.active.batch := congrArg Work.batch hwork
  have hneed : s'.active.stillNeed = s.active.stillNeed := congrArg Work.stillNeed hwork
  have hleft : s'.active.nLeft = s.active.nLeft := congrArg Work.nLeft hwork
  have hexperts : pinnedExperts missing s'.active = pinnedExperts missing s.active := by
    rw [pinnedExperts, pinnedExperts, hneed]
  have hmine : PinLayer.mine b s' = PinLayer.mine b s := mine_of_pins hb.pins
  have hlent : PinLayer.lent s' = PinLayer.lent s := lent_of_pins hb.pins
  obtain ⟨h₁, h₂, h₃, h₄, h₅, h₆, h₇, h₈, h₉, h₁₀, h₁₁, h₁₂, h₁₃, h₁₄, h₁₅, h₁₆⟩ := h
  refine ⟨hb.requests.trans h₁, ?_, ?_, ?_, ?_, ?_, ?_, h₈.background hpins hb, ?_, ?_, ?_, ?_, ?_, ?_,
    ?_, ?_⟩ <;> dsimp only <;>
    simp only [hphase, hpresent, hlayer, hwaiter, hneed, hleft, hexperts, hmine, hlent, hbatch,
      add_of_pins t hpins hpins' hb.pins]
  exacts [h₂, h₃, h₄, h₅, h₆, h₇, h₉, h₁₀, h₁₁, h₁₂, h₁₃, h₁₄, h₁₅, h₁₆]

end background

section service

variable (hwf : WF C (s, g)) (hpins : PinsOk (s, g)) (hpins' : PinsOk (s', g'))
  (hs : Service C (s, g) (s', g'))
include hwf hpins hpins' hs

/-- From the queue to the scheduler's hands. -/
theorem Queued.service (h : Queued C b layer missing L A (s, g, t)) :
    Waiting C b layer missing L A (s', g', t.add s s') := by
  have hbound := h.bound.service hwf hs
  have hno : ∀ {ph : Phase}, g.phase = ph → ph.busy = true → False := by
    rintro ph rfl hb
    have hnot := h.quiet.not_busy
    dsimp only at hnot
    rw [hnot] at hb
    cases hb
  have hqueue := h.quiet.requests
  have howed := h.quiet.owed
  have hmine := h.mine
  have htally := h.tally
  dsimp only at hqueue howed hmine htally
  cases hs with
  | pop _ _ hphase hpresent =>
    refine .inr (.inl ⟨?_, ?_, hpresent, h.quiet.idle, h.quiet.calm, howed, hbound, hmine, h.batch, ?_⟩)
    · dsimp only
      rw [Sys.popRequest, hqueue]
      rfl
    · dsimp only
      rw [Sys.popPhase, hqueue]
    · dsimp only
      rw [add_of_pins t hpins hpins' rfl]
      exact htally
  | register _ _ r hphase =>
    have hp := h.quiet.phase
    dsimp only at hp
    rw [hphase] at hp
    rcases hp with ⟨hp, _⟩ | ⟨hp, _⟩ <;> cases hp
  | finish _ _ hcalm =>
    refine .inl ⟨h.quiet.finish, hbound, ?_, h.batch, ?_⟩
    · have hkeep : s.activeFinish.pins = s.pins := handOver_of_owed hpins howed
      dsimp only
      rw [mine_of_pins hkeep]
      exact hmine
    · dsimp only
      rw [Tally.add_handOver t hpins hpins' rfl]
      exact htally
  | settle _ _ i k w _ hphase => exact (hno hphase rfl).elim
  | bump _ _ _ hphase | bumpLast _ _ _ hphase | bumpFinish _ _ _ hphase =>
    exact (hno hphase rfl).elim
  | unpinOwed _ _ i rest _ hb | failBatch _ _ _ hb => exact (hno rfl hb).elim

theorem Popped.service (h : Popped b layer missing L A (s, g, t)) (hpos : 0 < missing.length) :
    Waiting C b layer missing L A (s', g', t.add s s') := by
  have hbound := h.bound.service hwf hs
  have hpopped := h.phase
  have hmine := h.mine
  have htally := h.tally
  dsimp only at hpopped hmine htally
  cases hs with
  | register _ _ r hphase =>
    rw [hpopped] at hphase
    cases hphase
    have hneeded : ∀ e ∈ missing, decide (e ∈ missing) = true := fun e he => decide_eq_true he
    have hbatch : (s.activeInit (requestFor b layer missing)).batch b = ⟨0, false⟩ := h.batch
    have hnone : lent (s.activeInit (requestFor b layer missing)) = [] :=
      lent_of_owed (s := s) hpins h.owed
    have hsame : t.add s (s.activeInit (requestFor b layer missing)) = tallyOf A := by
      rw [add_of_pins t hpins hpins' rfl]
      exact htally
    refine .inr (.inr (.inl ⟨h.requests, rfl, rfl, rfl, rfl, fun e he => of_decide_eq_true he, ?_,
      hbound, hmine, ?_, ?_, (fun hp => by cases hp), (fun hp => by cases hp), ?_, ?_, ?_⟩)) <;>
      dsimp only
    · exact (congrArg List.length (List.filter_eq_self.mpr hneeded)).symm
    · rw [hbatch]
    · intro _
      rw [hbatch]
      exact ⟨hpos, by simp [Sys.activeInit, requestFor]⟩
    · intro _
      have hzero : pinnedExperts missing (s.activeInit (requestFor b layer missing)).active = [] := by
        refine List.filter_eq_nil_iff.mpr ?_
        intro e he
        simp [Sys.activeInit, requestFor, he]
      rw [hnone, hzero]
      exact .refl _
    · intro _ i
      rw [hsame]
      rfl
    · intro i
      rw [hsame, hnone]
      rfl
  | pop _ _ hphase | settle _ _ i k w _ hphase | bump _ _ _ hphase | bumpLast _ _ _ hphase
  | bumpFinish _ _ _ hphase =>
    rw [hpopped] at hphase
    cases hphase
  | finish _ _ hcalm hphase =>
    rw [hpopped] at hphase
    rcases hphase with hphase | hphase <;> cases hphase
  | unpinOwed _ _ i rest _ hb | failBatch _ _ _ hb =>
    rw [hpopped] at hb
    cases hb

end service

section served

/-- While an expert is needed, one is left to count. -/
theorem Served.left_pos (h : Served b layer missing L A (s, g, t))
    (hall : s.active.allSettled C.topo.nExpert = false) : 0 < s.active.nLeft := by
  have hleft := h.left
  dsimp only at hleft
  by_contra hzero
  have hnil : missing.filter s.active.stillNeed = [] := List.eq_nil_of_length_eq_zero (by omega)
  have hnone : ∀ e, s.active.stillNeed e = false := by
    intro e
    cases he : s.active.stillNeed e with
    | false => rfl
    | true => exact absurd he (List.filter_eq_nil_iff.mp hnil e (h.need e he))
  have hzero' : s.active.nLeft = 0 := by omega
  simp [Active.allSettled, hnone, hzero'] at hall

theorem Served.done_lt (h : Served b layer missing L A (s, g, t)) :
    (s.batch b).done < missing.length := by
  have hbusy := h.busy
  have hactive := h.active
  have howing := h.owing
  have hfailing := h.failing
  dsimp only at hbusy hactive howing hfailing
  cases hphase : g.phase with
  | active =>
    have hcount := hactive hphase
    omega
  | owing =>
    have hcount := howing hphase
    omega
  | failing => exact hfailing hphase
  | idle | popped _ | handed =>
    rw [hphase] at hbusy
    cases hbusy

theorem Served.settle (h : Served b layer missing L A (s, g, t)) (hwf : WF C (s, g))
    (hpins : PinsOk (s, g)) (hnodup : missing.Nodup) {i : ℕ} {k : Key} {w : Word}
    (hphase : g.phase = .active) (hlayer : s.active.layer = k.layer)
    (hneed : s.active.stillNeed k.expert = true) (hown : g.own i = .resident k)
    (hw : SlotWord.tryPin (s.word i) = some w) (hpins' : PinsOk (s.settleStep k.expert i, g'))
    (hbound : Bound b (s.settleStep k.expert i) g') (hg : g'.phase = .owing) :
    Served b layer missing L A (s.settleStep k.expert i, g', t.add s (s.settleStep k.expert i)) := by
  obtain ⟨hlength, hperm⟩ := filter_update hnodup (h.need _ hneed) hneed
  have hmore : (s.settleStep k.expert i).pins =
      ⟨.scheduler, i, slotWordGeneration w, s.content i⟩ :: s.pins := by
    simp only [Sys.settleStep, hw, Sys.tryPin]
  have hA : (s.settleStep k.expert i).active = s.active.settled k.expert i :=
    congrArg View.active (settleStep_view hw)
  have hbatch : (s.settleStep k.expert i).batch = s.batch := by
    simp only [Sys.settleStep, hw, Sys.tryPin, Sys.setWord]
  have hreq : (s.settleStep k.expert i).requests = s.requests := by
    simp only [Sys.settleStep, hw, Sys.tryPin, Sys.setWord]
  have hmine : PinLayer.mine b (s.settleStep k.expert i) = PinLayer.mine b s := by
    rw [PinLayer.mine, hmore]
    rfl
  have hlent : PinLayer.lent (s.settleStep k.expert i) =
      ⟨.scheduler, i, slotWordGeneration w, s.content i⟩ :: PinLayer.lent s := by
    rw [PinLayer.lent, hmore]
    rfl
  have hcontent : s.content i = some (layer, k.expert) := by
    have hbytes := hwf.content i (k.layer, k.expert) (by dsimp only; rw [hown]; rfl)
    have hsame := h.layerEq
    dsimp only at hbytes hsame
    rw [hbytes, ← hlayer, hsame]
  have hleft := h.left
  have hactive := h.active hphase
  have hexperts := h.lent (by dsimp only; rw [hphase]; simp)
  have hgiven := h.given (by dsimp only; rw [hphase]; simp)
  have htaken := h.taken
  dsimp only at hleft hactive hexperts hgiven htaken
  refine ⟨hreq.trans h.requests, ?_, ?_, ?_, ?_, ?_, ?_, hbound, ?_, ?_, ?_, ?_, ?_, ?_, ?_, ?_⟩ <;>
    dsimp only <;> simp only [hA, hbatch, hmine, hlent, hg, Tally.add_pin t hpins hpins' hmore,
      Active.settled]
  · rfl
  · exact h.present
  · exact h.layerEq
  · exact h.waiter
  · intro e he
    by_cases hek : e = k.expert
    · rw [hek]
      exact h.need _ hneed
    · rw [Function.update_of_ne hek] at he
      exact h.need e he
  · omega
  · exact h.mine
  · exact h.failed
  · exact fun hp => by cases hp
  · intro _
    omega
  · exact fun hp => by cases hp
  · intro _
    rw [List.map_cons, hcontent]
    exact ((hexperts.cons _).trans (hperm.map fun e => some (layer, e)).symm)
  · exact fun _ => hgiven
  · intro j
    rw [htaken j, List.countP_cons]
    simp only [beq_iff_eq]
    omega

theorem Served.bump (h : Served b layer missing L A (s, g, t)) (hpins : PinsOk (s, g))
    (hpins' : PinsOk (s.bumpBatch C.topo.nExpert, g')) (hphase : g.phase = .owing)
    (hall : s.active.allSettled C.topo.nExpert = false)
    (hbound : Bound b (s.bumpBatch C.topo.nExpert) g') (hg : g'.phase = .active) :
    Served b layer missing L A
      (s.bumpBatch C.topo.nExpert, g', t.add s (s.bumpBatch C.topo.nExpert)) := by
  have hA : (s.bumpBatch C.topo.nExpert).active = s.active :=
    congrArg View.active (bumpBatch_view s _)
  have hwaiter := h.waiter
  have howing := h.owing hphase
  have hpos : 0 < s.active.nLeft := h.left_pos hall
  dsimp only at hwaiter howing
  have hbatch : (s.bumpBatch C.topo.nExpert).batch b =
      { s.batch b with done := ((s.batch b).done + 1) % 2 ^ 32 } := by
    rw [Sys.bumpBatch]
    simp only [hall, Bool.false_eq_true, if_false, hwaiter, Function.update_self]
  have hsame : (s.bumpBatch C.topo.nExpert).pins = s.pins := by
    rw [Sys.bumpBatch]
    simp only [hall, Bool.false_eq_true, if_false, hwaiter]
  have hle : ((s.batch b).done + 1) % 2 ^ 32 ≤ (s.batch b).done + 1 := Nat.mod_le _ _
  have hbusy : g.phase ≠ .failing := by
    rw [hphase]
    simp
  refine ⟨(bumpBatch_requests s _).trans h.requests, ?_, ?_, ?_, ?_, ?_, ?_, hbound, ?_, ?_, ?_, ?_, ?_,
    ?_, ?_, ?_⟩ <;> dsimp only <;> simp only [hA, hbatch, hg, mine_of_pins hsame, lent_of_pins hsame,
      add_of_pins t hpins hpins' hsame]
  · rfl
  · exact h.present
  · exact h.layerEq
  · exact h.waiter
  · exact h.need
  · exact h.left
  · exact h.mine
  · exact h.failed
  · intro _
    omega
  · exact fun hp => by cases hp
  · exact fun hp => by cases hp
  · exact fun _ => h.lent hbusy
  · exact fun _ => h.given hbusy
  · exact h.taken

/-- The scheduler releases a pin it took. -/
theorem Served.unpinOwed (h : Served b layer missing L A (s, g, t)) (hpins : PinsOk (s, g)) {i : ℕ}
    {rest : List ℕ} (howed : g.owed = i :: rest) (hpins' : PinsOk (s.unpin .scheduler i, g'))
    (hbound : Bound b (s.unpin .scheduler i) g') (hg : g'.phase = .failing) :
    Served b layer missing L A (s.unpin .scheduler i, g', t.add s (s.unpin .scheduler i)) := by
  have hmem : s.pins.any (fun r => r.holder == .scheduler && r.slot == i) = true := by
    have hcount := hpins.owed i
    dsimp only at hcount
    rw [howed, List.count_cons_self] at hcount
    obtain ⟨r, hr, hmatch⟩ := List.countP_pos_iff.mp (Nat.lt_of_lt_of_eq (Nat.succ_pos _) hcount.symm)
    exact List.any_eq_true.mpr ⟨r, hr, hmatch⟩
  obtain ⟨p, hholder, hslot, hperm⟩ := exists_unpinned hmem
  have hmine : (PinLayer.mine b (s.unpin .scheduler i)).Perm (PinLayer.mine b s) := by
    refine ((hperm.filter fun p => p.holder == .batch (some b)).trans ?_).symm
    rw [List.filter_cons_of_neg (by simp [hholder])]
    exact .refl _
  have hlent : (PinLayer.lent s).Perm (p :: PinLayer.lent (s.unpin .scheduler i)) := by
    refine (hperm.filter fun p => p.holder == .scheduler).trans ?_
    rw [List.filter_cons_of_pos (by simp [hholder])]
    exact .refl _
  have hdone : (s.batch b).done < missing.length := h.done_lt
  have htaken := h.taken
  dsimp only at htaken
  refine ⟨h.requests, ?_, h.present, h.layerEq, h.waiter, h.need, h.left, hbound, hmine.trans h.mine,
    h.failed, ?_, ?_, fun _ => hdone, ?_, ?_, ?_⟩ <;> dsimp only <;>
    simp only [hg, Tally.add_unpin t hpins hpins' hperm]
  · rfl
  · exact fun hp => by cases hp
  · exact fun hp => by cases hp
  · exact fun hp => absurd rfl hp
  · exact fun hp => absurd rfl hp
  · intro j
    rw [htaken j, hlent.countP_eq, List.countP_cons]
    simp only [beq_iff_eq]
    omega

theorem Served.granted (h : Served b layer missing L A (s, g, t)) (hpins : PinsOk (s, g))
    (hphase : g.phase ≠ .failing) (hzero : s.active.nLeft = 0) (hq : Quiet C [] s' g')
    (hbound : Bound b s' g') (hpins' : PinsOk (s', g')) (hmoved : s'.pins = s.handOver.pins)
    (hfailed : (s'.batch b).failed = false) :
    ∃ B, Granted C b layer missing L A B (s', g', t.add s s') := by
  have hleft := h.left
  have hexperts := h.lent hphase
  have hgiven := h.given hphase
  have htaken := h.taken
  have hwaiter := h.waiter
  dsimp only at hleft hexperts hgiven htaken hwaiter
  have hall : pinnedExperts missing s.active = missing := by
    have hnil : missing.filter s.active.stillNeed = [] :=
      List.eq_nil_of_length_eq_zero (hleft.symm.trans hzero)
    refine List.filter_eq_self.mpr ?_
    intro e he
    simpa using List.filter_eq_nil_iff.mp hnil e he
  rw [hall] at hexperts
  have hmine : (PinLayer.mine b s').Perm
      (PinLayer.mine b s ++ (PinLayer.lent s).map fun r => { r with holder := .batch (some b) }) := by
    rw [PinLayer.mine, hmoved, Sys.handOver, hwaiter]
    exact filter_handOver b s.pins
  refine ⟨(PinLayer.lent s).map fun r => { r with holder := .batch (some b) }, ?_, s'.batch b, hfailed, hq,
    hbound, hmine.trans (h.mine.append_right _), rfl, ?_, fun _ _ hn => hn.elim⟩
  · rw [List.map_map]
    exact hexperts
  · dsimp only
    rw [Tally.add_handOver t hpins hpins' hmoved]
    have htaken' : t.taken = (tallyOf (A ++ (PinLayer.lent s).map fun r =>
        { r with holder := .batch (some b) })).taken := by
      funext i
      rw [htaken i, hgiven i, tallyOf]
      dsimp only
      rw [List.countP_append, List.countP_map, Nat.add_zero]
      rfl
    have hgiven' : t.given = fun _ => 0 := funext hgiven
    rw [tallyOf, ← hgiven']
    exact congrArg (Tally.mk · t.given) htaken'

/-- The pins are released and the failure is told. -/
theorem Served.aborted (h : Served b layer missing L A (s, g, t)) (hpins : PinsOk (s, g))
    (howed : g.owed = []) (hq : Quiet C [] s' g') (hbound : Bound b s' g') (hpins' : PinsOk (s', g'))
    (hsame : s'.pins = s.pins) (hfailed : (s'.batch b).failed = true) :
    Aborted C b L A (s', g', t.add s s') := by
  have htaken := h.taken
  dsimp only at htaken
  rw [lent_of_owed hpins howed] at htaken
  refine ⟨s'.batch b, t, hfailed, ?_, hq, hbound, ?_, rfl, add_of_pins t hpins hpins' hsame,
    fun _ _ hn => hn.elim⟩
  · intro i
    rw [htaken i, List.countP_nil, Nat.add_zero]
  · dsimp only
    rw [mine_of_pins hsame]
    exact h.mine

theorem Served.service (h : Served b layer missing L A (s, g, t)) (hwf : WF C (s, g))
    (hpins : PinsOk (s, g)) (hpins' : PinsOk (s', g')) (hnodup : missing.Nodup)
    (hs : Service C (s, g) (s', g')) : Waiting C b layer missing L A (s', g', t.add s s') := by
  have hbound := h.bound.service hwf hs
  have hbusy := h.busy
  have hwaiter := h.waiter
  have hunfailed := h.failed
  dsimp only at hbusy hwaiter hunfailed
  have hpresent : (s.bumpBatch C.topo.nExpert).active = s.active :=
    congrArg View.active (bumpBatch_view s _)
  have hbumped : ((s.bumpBatch C.topo.nExpert).batch b).failed = false := by
    rw [Sys.bumpBatch]
    simp only [hwaiter, Function.update_self]
    exact hunfailed
  cases hs with
  | pop _ _ hphase | register _ _ r hphase =>
    rw [hphase] at hbusy
    cases hbusy
  | settle _ _ i k w _ hphase _ hlayer hneed hown hw =>
    exact .inr (.inr (.inl (h.settle hwf hpins hnodup hphase hlayer hneed hown hw hpins' hbound rfl)))
  | bump _ _ _ hphase _ hall =>
    exact .inr (.inr (.inl (h.bump hpins hpins' hphase hall hbound rfl)))
  | bumpLast _ _ hcalm hphase _ hall =>
    have hzero : s.active.nLeft = 0 := by
      have hboth := hall
      rw [Active.allSettled, Bool.and_eq_true, beq_iff_eq] at hboth
      exact hboth.1
    have hq : Quiet C [] (s.bumpBatch C.topo.nExpert)
        { g with owed := [], idle := [], phase := .handed } :=
      ⟨(bumpBatch_requests s _).trans h.requests, rfl, hcalm, rfl, .inr ⟨rfl, by rw [hpresent]; exact hall⟩⟩
    refine .inr (.inr (.inr (.inl (h.granted hpins ?_ hzero hq hbound hpins' (bumpBatch_pins hall) hbumped))))
    rw [hphase]
    simp
  | bumpFinish _ _ hcalm hphase _ hzero =>
    have hq : Quiet C [] (s.bumpBatch C.topo.nExpert).activeFinish
        { g with owed := [], idle := [], phase := .idle } :=
      ⟨(bumpBatch_requests s _).trans h.requests, rfl, hcalm, rfl, .inl ⟨rfl, rfl⟩⟩
    refine .inr (.inr (.inr (.inl (h.granted hpins ?_ hzero hq hbound hpins' (handOver_bumpBatch s _) hbumped))))
    rw [hphase]
    simp
  | finish _ _ hcalm hphase _ hzero =>
    rcases hphase with hphase | hphase
    · have hpos := (h.active hphase).1
      dsimp only at hpos
      omega
    · rw [hphase] at hbusy
      cases hbusy
  | unpinOwed _ _ i rest _ _ howed =>
    exact .inr (.inr (.inl (h.unpinOwed hpins howed hpins' hbound rfl)))
  | failBatch _ _ hcalm _ _ howed =>
    have hq : Quiet C [] s.failBatch { g with idle := [], phase := .idle } :=
      ⟨(failBatch_requests s).trans h.requests, rfl, hcalm, howed,
        .inl ⟨rfl, congrArg (fun v : View => v.active.present) (failBatch_view s)⟩⟩
    have hsame : s.failBatch.pins = s.pins := by
      unfold Sys.failBatch Sys.activeClearState
      split <;> rfl
    have hfailed : (s.failBatch.batch b).failed = true := by
      unfold Sys.failBatch Sys.activeClearState
      simp only [hwaiter, Function.update_self]
    exact .inr (.inr (.inr (.inr (h.aborted hpins howed hq hbound hpins' hsame hfailed))))

end served

theorem Waiting.step (h : Waiting C b layer missing L A (s, g, t)) (hwf : WF C (s, g))
    (hpins : PinsOk (s, g)) (hnodup : missing.Nodup) (hpos : 0 < missing.length)
    (hstep : Step C .nothing (s, g) (s', g')) : Waiting C b layer missing L A (s', g', t.add s s') := by
  have hpins' := Step.pinsOk hwf hstep hpins
  have hrely : (execContract C).rely (s, g, t) (s', g', t.add s s') := .inl ⟨hstep, rfl⟩
  rcases h with h | h | h | ⟨B, hB, β, hβ, h⟩ | ⟨β, τ, hβ, hτ, h⟩
  · rcases hstep.background_or_service hwf with hb | hs
    · exact .inl (h.background hpins hpins' hb)
    · exact h.service hwf hpins hpins' hs
  · rcases hstep.background_or_service hwf with hb | hs
    · exact .inr (.inl (h.background hpins hpins' hb))
    · exact h.service hwf hpins hpins' hs hpos
  · rcases hstep.background_or_service hwf with hb | hs
    · exact .inr (.inr (.inl (h.background hpins hpins' hb)))
    · exact h.service hwf hpins hpins' hnodup hs
  · exact .inr (.inr (.inr (.inl ⟨B, hB, β, hβ, stable_still _ _ ⟨hwf, hpins⟩ hrely h⟩)))
  · exact .inr (.inr (.inr (.inr ⟨β, τ, hβ, hτ, stable_still _ _ ⟨hwf, hpins⟩ hrely h⟩)))

/-- Whatever runs beside it, a waiting thread's request stays in one of its stages. -/
theorem stable_waiting (hnodup : missing.Nodup) (hpos : 0 < missing.length) :
    Stable (execContract C) (Waiting C b layer missing L A) := by
  rintro ⟨s, g, t⟩ ⟨s', g', t'⟩ ⟨hwf, hpins⟩ hrely h
  rcases hrely with ⟨hstep, ht⟩ | ⟨hg, a, ha, hstep⟩
  · dsimp only at ht
    subst ht
    exact h.step hwf hpins hnodup hpos hstep
  · have hrely' : (execContract C).rely (s, g, t) (s', g', t') := .inr ⟨hg, a, ha, hstep⟩
    cases hg
    have hb := beside_of_other (b := b) ha hstep
    rcases h with h | h | h | ⟨B, hB, β, hβ, h⟩ | ⟨β, τ, hβ, hτ, h⟩
    · exact .inl (h.beside hb)
    · exact .inr (.inl (h.beside hb))
    · exact .inr (.inr (.inl (h.beside hb)))
    · exact .inr (.inr (.inr (.inl ⟨B, hB, β, hβ, stable_still _ _ ⟨hwf, hpins⟩ hrely' h⟩)))
    · exact .inr (.inr (.inr (.inr ⟨β, τ, hβ, hτ, stable_still _ _ ⟨hwf, hpins⟩ hrely' h⟩)))

theorem Waiting.wakes (h : Waiting C b layer missing L A (s, g, t)) (hpos : 0 < missing.length)
    (hwake : missing.length ≤ (s.batch b).done ∨ (s.batch b).failed = true) :
    (∃ B, Granted C b layer missing L A B (s, g, t)) ∨ Aborted C b L A (s, g, t) := by
  have hasleep : ∀ {β : Batch}, s.batch b = β → β.done < missing.length → β.failed = false → False := by
    rintro β rfl hlt hfailed
    rcases hwake with hle | hfail
    · omega
    · rw [hfailed] at hfail
      cases hfail
  rcases h with h | h | h | h | h
  · exact (hasleep h.batch hpos rfl).elim
  · exact (hasleep h.batch hpos rfl).elim
  · exact (hasleep rfl h.done_lt h.failed).elim
  · exact .inl h
  · exact .inr h

end stages

end PinLayer
end StreamMoE
