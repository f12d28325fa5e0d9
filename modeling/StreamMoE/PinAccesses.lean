import StreamMoE.RequestPins

/-! The accesses of the executing thread in `pin_layer` while the scheduler has nothing of its request
under way: what it pins is resident and stays so. -/
namespace StreamMoE
namespace PinLayer

open AtomicProg SlotWord SchedConfig Sched PinProtection

def Handle.key (h : Handle) : Key := ⟨h.layer, h.expert, h.pool⟩

def Handle.pin (b : ℕ) (h : Handle) : Pin := ⟨.batch (some b), h.slot, h.gen, some (h.layer, h.expert)⟩

def Tally.give (t : Tally) (P : List Pin) : Tally :=
  ⟨t.taken, fun i => t.given i + P.countP (·.slot == i)⟩

/-- The pins of the scheduler and of every executing thread are on resident slots. -/
def AllBound (x : World) : Prop := ∀ b, Bound b x.1 x.2.1

/-- A still state in which this is so. -/
structure Held (C : Config) (b : ℕ) (L : List Pin) (β : Batch) (τ : Tally) (R : ℕ → Key → Prop)
    (x : World) : Prop where
  still : Still C b L β τ R x
  bound : AllBound x

section stable

variable {C : Config} {b : ℕ} {L : List Pin} {β : Batch} {τ : Tally} {R R' : ℕ → Key → Prop} {x : World}

theorem stable_allBound : Stable (execContract C) AllBound := by
  rintro ⟨s, g, t⟩ ⟨s', g', t'⟩ ⟨hwf, hpins⟩ (⟨hstep, _⟩ | ⟨hg, a, ha, hstep⟩) h b
  · exact (h b).step hwf hpins hstep
  · cases hg
    exact (h b).beside (beside_of_other ha hstep)

theorem stable_held : Stable (execContract C) (Held C b L β τ R) := fun x y hx hxy h =>
  ⟨stable_still x y hx hxy h.still, stable_allBound x y hx hxy h.bound⟩

theorem Held.mono (h : Held C b L β τ R x) (hR : ∀ i k, R' i k → x.2.1.own i = .resident k) :
    Held C b L β τ R' x :=
  ⟨⟨h.still.quiet, h.still.bound, h.still.mine, h.still.batch, h.still.tally, hR⟩, h.bound⟩

theorem Held.forget (h : Held C b L β τ R x) : Held C b L β τ nothing x :=
  h.mono fun _ _ hn => False.elim hn

theorem Held.perm {L' : List Pin} (h : Held C b L β τ R x) (hL : L.Perm L') : Held C b L' β τ R x :=
  ⟨⟨h.still.quiet, h.still.bound, h.still.mine.trans hL, h.still.batch, h.still.tally,
    h.still.resident⟩, h.bound⟩

/-- While nobody is evicted, a READY entry names a resident slot. -/
theorem Held.resident_of_ready (h : Held C b L β τ R x) (hx : (execContract C).inv x) {k : Key}
    (hk : (x.1.dir k).state = .ready) : ∃ i, (x.1.dir k).slot = some i ∧ x.2.1.own i = .resident k := by
  obtain ⟨s, g, t⟩ := x
  have hwf := hx.1
  dsimp only at hwf hk ⊢
  cases hslot : (s.dir k).slot with
  | none =>
    have habsent := hwf.dir.unnamed k hslot
    dsimp only at habsent
    rw [habsent] at hk
    cases hk
  | some i =>
    have hentry : s.dir k = ⟨.ready, some i⟩ := by rw [← hslot, ← hk]
    have hclaim := (hwf.dir.named k i .ready).mp hentry
    refine ⟨i, rfl, ?_⟩
    exact (Owner.of_claim_ready hclaim).resolve_right (h.still.quiet.calm i k)

theorem dir_of_resident (hx : (execContract C).inv x) {i : ℕ} {k : Key}
    (hk : x.2.1.own i = .resident k) : x.1.dir k = ⟨.ready, some i⟩ :=
  (hx.1.dir.named k i .ready).mpr (by dsimp only; rw [hk]; rfl)

end stable

section accesses

variable {C : Config} {b : ℕ} {L : List Pin} {β : Batch} {τ : Tally} {R : ℕ → Key → Prop} {s s' : Sys}
  {g : Ghost} {t : Tally}

/-- A step of the executing thread, counted. -/
theorem exec_guar {a : EnvAct} (ha : ExecAct a) (hstep : envStep s a = some s') :
    (execContract C).guar (s, g, t) (s', g, t.add s s') := ⟨rfl, .inr ⟨a, ha, hstep⟩⟩

theorem exec_inv {a : EnvAct} (hx : (execContract C).inv (s, g, t)) (ha : ExecAct a)
    (hstep : envStep s a = some s') : (execContract C).inv (s', g, t.add s s') :=
  (execContract C).guar_inv _ _ hx (exec_guar ha hstep)

/-- Steps that leave words, pins and the request alone. -/
theorem Held.access {β' : Batch} (h : Held C b L β τ R (s, g, t)) (hreq : s'.requests = s.requests)
    (hactive : s'.active = s.active) (hpins : s'.pins = s.pins) (hword : s'.word = s.word)
    (hbatch : s'.batch b = β') : Held C b L β' τ R (s', g, t.add s s') := by
  have hq := h.still.quiet
  refine ⟨⟨⟨hreq.trans hq.requests, hq.idle, hq.calm, hq.owed, ?_⟩, ?_, ?_, hbatch, ?_,
    h.still.resident⟩, ?_⟩
  · dsimp only
    rw [hactive]
    exact hq.phase
  · exact h.still.bound.of_pins (fun _ hp => hpins ▸ hp) rfl fun _ hi => hi
  · dsimp only
    rw [mine_of_pins hpins]
    exact h.still.mine
  · dsimp only
    rw [t.add_same fun i => by rw [hword]]
    exact h.still.tally
  · exact fun b' => (h.bound b').of_pins (fun _ hp => hpins ▸ hp) rfl fun _ hi => hi

/-- A pin of a slot that is known to be resident. -/
theorem Held.pin (h : Held C b L β τ R (s, g, t)) (hx : (execContract C).inv (s, g, t)) {i : ℕ} {k : Key}
    (hR : R i k) {w : Word} (hw : SlotWord.tryPin (s.word i) = some w) :
    Held C b (L ++ [⟨.batch (some b), i, slotWordGeneration w, some (k.layer, k.expert)⟩]) β
      ⟨fun j => τ.taken j + if i = j then 1 else 0, τ.given⟩ R
      (s.tryPin (.batch (some b)) i, g, t.add s (s.tryPin (.batch (some b)) i)) := by
  have hown : g.own i = .resident k := h.still.resident i k hR
  have hcontent : s.content i = some (k.layer, k.expert) :=
    hx.1.content i (k.layer, k.expert) (by dsimp only; rw [hown]; rfl)
  have hmore : (s.tryPin (.batch (some b)) i).pins =
      ⟨.batch (some b), i, slotWordGeneration w, some (k.layer, k.expert)⟩ :: s.pins := by
    simp only [Sys.tryPin, hw, hcontent]
  have hinv := exec_inv hx (a := .tryPin (.batch (some b)) i) ⟨b, rfl⟩ rfl
  have hidle := h.still.quiet.idle
  dsimp only at hidle
  have hbound : ∀ b', Bound b' s g → Bound b' (s.tryPin (.batch (some b)) i) g := by
    intro b' hb' p hp hon
    rw [hmore] at hp
    rcases List.mem_cons.mp hp with rfl | hp
    · exact ⟨k, hown, by rw [hidle]; exact List.not_mem_nil, rfl⟩
    · exact hb' p hp hon
  refine ⟨⟨h.still.quiet.sameAsk (sameAsk_tryPin s _ i), hbound b h.still.bound, ?_, ?_, ?_,
    h.still.resident⟩, fun b' => hbound b' (h.bound b')⟩
  · have hmine : mine b (s.tryPin (.batch (some b)) i) =
        ⟨.batch (some b), i, slotWordGeneration w, some (k.layer, k.expert)⟩ :: mine b s := by
      rw [mine, hmore, List.filter_cons_of_pos (by simp)]
      rfl
    dsimp only
    rw [hmine]
    exact (h.still.mine.cons _).trans (List.perm_append_singleton _ L).symm
  · dsimp only
    rw [(sameAsk_tryPin s (.batch (some b)) i).batch]
    exact h.still.batch
  · dsimp only
    rw [Tally.add_pin t hx.2 hinv.2 hmore]
    have htally := h.still.tally
    dsimp only at htally
    rw [htally]

/-- One of the thread's pins is given back. -/
theorem Held.unpin {p : Pin} {P : List Pin} (h : Held C b (L ++ p :: P) β τ R (s, g, t))
    (hx : (execContract C).inv (s, g, t)) :
    (execContract C).guar (s, g, t)
        (s.unpin (.batch (some b)) p.slot, g, t.add s (s.unpin (.batch (some b)) p.slot)) ∧
      Held C b (L ++ P) β (τ.give [p]) R
        (s.unpin (.batch (some b)) p.slot, g, t.add s (s.unpin (.batch (some b)) p.slot)) := by
  have hmine : p ∈ mine b s := h.still.mine.mem_iff.mpr (by simp)
  obtain ⟨hp, hholder⟩ := List.mem_filter.mp hmine
  have hmem : s.pins.any (fun r => r.holder == .batch (some b) && r.slot == p.slot) = true :=
    List.any_eq_true.mpr ⟨p, hp, by simpa using hholder⟩
  obtain ⟨q, hqholder, hqslot, hperm⟩ := exists_unpinned hmem
  -- the ledger gives back a pin of the slot, and all of the thread's pins of it are alike
  have hq : q = p := by
    have hold := hx.2.held p hp
    have hnew := hx.2.held q (hperm.mem_iff.mpr List.mem_cons_self)
    rw [hqslot] at hnew
    obtain ⟨_, _, _, _⟩ := p
    obtain ⟨_, _, _, _⟩ := q
    simp only [beq_iff_eq] at hholder
    simp only [Pin.mk.injEq]
    exact ⟨hqholder.trans hholder.symm, hqslot, hnew.1.trans hold.1.symm, hnew.2.trans hold.2.symm⟩
  subst hq
  have hstep : envStep s (.unpin (.batch (some b)) q.slot) = some (s.unpin (.batch (some b)) q.slot) := by
    simp [envStep, hmem]
  have hguar := exec_guar (C := C) (g := g) (t := t) (a := .unpin (.batch (some b)) q.slot) ⟨b, rfl⟩ hstep
  have hinv := (execContract C).guar_inv _ _ hx hguar
  refine ⟨hguar, ⟨⟨h.still.quiet.sameAsk ⟨rfl, rfl, rfl⟩, ?_, ?_, h.still.batch, ?_, h.still.resident⟩, ?_⟩⟩
  · exact h.still.bound.of_pins (fun _ hr => List.mem_of_mem_eraseP hr) rfl fun _ hi => hi
  · have hrest := hperm.filter fun r => r.holder == .batch (some b)
    rw [List.filter_cons_of_pos (by simp [hqholder])] at hrest
    exact ((hrest.symm.trans (h.still.mine.trans List.perm_middle)).cons_inv)
  · dsimp only
    rw [Tally.add_unpin t hx.2 hinv.2 hperm]
    have htally := h.still.tally
    dsimp only at htally
    rw [htally, Tally.give]
    congr 1
    funext i
    simp [List.countP_singleton]
  · exact fun b' => (h.bound b').of_pins (fun _ hr => List.mem_of_mem_eraseP hr) rfl fun _ hi => hi

end accesses

end PinLayer
end StreamMoE
