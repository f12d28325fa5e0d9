import StreamMoE.PinProtection

/-! What a step of the scheduler thread can do to the request it serves: nine steps that are
about the request, and the background in which every other step leaves it alone. -/
namespace StreamMoE
namespace Sched

open SlotWord SchedConfig PinProtection

/-- The active request without ledger and stall clock. -/
structure Work where
  present : Bool
  layer : ℕ
  stillNeed : ℕ → Bool
  nLeft : ℕ
  batch : Option ℕ

def Active.work (A : Active) : Work := ⟨A.present, A.layer, A.stillNeed, A.nLeft, A.batch⟩

structure SameRequest (s s' : Sys) : Prop where
  requests : s'.requests = s.requests
  batch : s'.batch = s.batch
  pins : s'.pins = s.pins
  work : s'.active.work = s.active.work

theorem SameRequest.refl (s : Sys) : SameRequest s s := ⟨rfl, rfl, rfl, rfl⟩

/-- The scheduler may be looking for a victim. -/
def Hunting (C : Config) (x : Sys × Ghost) : Prop := x.2.phase = .active ∧ Serving C x.1

/-- A step that leaves the request alone. Only while the scheduler hunts, a slot may be found idle
and an idle slot's eviction may begin. -/
structure Background (C : Config) (x y : Sys × Ghost) : Prop extends SameRequest x.1 y.1 where
  phase : y.2.phase = x.2.phase
  owed : y.2.owed = x.2.owed
  idle : ∀ i ∈ y.2.idle, i ∈ x.2.idle ∨ (Hunting C x ∧ slotWordRefcount (x.1.word i) = 0)
  resident : ∀ i k, x.2.own i = .resident k → y.2.own i = .resident k ∨ (Hunting C x ∧ i ∈ x.2.idle)
  calm : Calm x.2 → Calm y.2 ∨ Hunting C x

inductive Service (C : Config) : Sys × Ghost → Sys × Ghost → Prop
  | pop (s g) : g.phase = .idle → s.active.present = false →
      Service C (s, g) (s.popRequest, { g with phase := s.popPhase })
  | register (s g r) : g.phase = .popped r → s.active.present = false → g.owed = [] →
      Service C (s, g) (s.activeInit r, { g with phase := .active })
  | settle (s g i k w) : Calm g → g.phase = .active → s.active.present = true →
      s.active.layer = k.layer → s.active.stillNeed k.expert = true → g.own i = .resident k →
      SlotWord.tryPin (s.word i) = some w →
      Service C (s, g) (s.settleStep k.expert i,
        { g with owed := g.owed ++ [i], idle := [], phase := .owing })
  | bump (s g) : Calm g → g.phase = .owing → s.active.present = true →
      s.active.allSettled C.topo.nExpert = false →
      Service C (s, g) (s.bumpBatch C.topo.nExpert, { g with idle := [], phase := .active })
  | bumpLast (s g) : Calm g → g.phase = .owing → s.active.present = true →
      s.active.allSettled C.topo.nExpert = true →
      Service C (s, g) (s.bumpBatch C.topo.nExpert,
        { g with owed := [], idle := [], phase := .handed })
  | bumpFinish (s g) : Calm g → g.phase = .owing → s.active.present = true → s.active.nLeft = 0 →
      Service C (s, g) ((s.bumpBatch C.topo.nExpert).activeFinish,
        { g with owed := [], idle := [], phase := .idle })
  | finish (s g) : Calm g → (g.phase = .active ∨ g.phase = .handed) → s.active.present = true →
      s.active.nLeft = 0 →
      Service C (s, g) (s.activeFinish, { g with owed := [], idle := [], phase := .idle })
  | unpinOwed (s g i rest) : Calm g → g.phase.busy = true → g.owed = i :: rest →
      Service C (s, g) (s.unpin .scheduler i,
        { g with owed := rest, idle := [], phase := .failing })
  | failBatch (s g) : Calm g → g.phase.busy = true → s.active.present = true → g.owed = [] →
      Service C (s, g) (s.failBatch, { g with idle := [], phase := .idle })

variable {C : Config} {s s' : Sys} {g : Ghost} {i : ℕ} {a : Owner}

/-- A slot that is not resident changes its owner. -/
theorem Background.setOwn (hs : SameRequest s s') (hi : ∀ k, g.own i ≠ .resident k)
    (ha : ∀ k, a ≠ .evicting k) : Background C (s, g) (s', g.setOwn i a) := by
  refine ⟨hs, rfl, rfl, fun j hj => .inl hj, ?_, ?_⟩
  · intro j k hj
    have hji : j ≠ i := by
      intro e
      exact hi k (e ▸ hj)
    exact .inl ((Ghost.setOwn_of_ne g a hji).trans hj)
  · intro hcalm
    refine .inl ?_
    intro j k
    by_cases hji : j = i
    · rw [hji, Ghost.setOwn_self]
      exact ha k
    · rw [Ghost.setOwn_of_ne g a hji]
      exact hcalm j k

theorem Background.setOwn₂ {j : ℕ} {c : Owner} (hs : SameRequest s s')
    (hi : ∀ k, g.own i ≠ .resident k) (hj : ∀ k, g.own j ≠ .resident k)
    (ha : ∀ k, a ≠ .evicting k) (hc : ∀ k, c ≠ .evicting k) :
    Background C (s, g) (s', (g.setOwn i a).setOwn j c) := by
  refine ⟨hs, rfl, rfl, fun j hj => .inl hj, ?_, ?_⟩
  · intro n k hn
    have hni : n ≠ i := fun e => hi k (e ▸ hn)
    have hnj : n ≠ j := fun e => hj k (e ▸ hn)
    refine .inl ?_
    rw [Ghost.setOwn_of_ne _ c hnj, Ghost.setOwn_of_ne g a hni]
    exact hn
  · intro hcalm
    refine .inl ?_
    intro n k
    by_cases hnj : n = j
    · rw [hnj, Ghost.setOwn_self]
      exact hc k
    · rw [Ghost.setOwn_of_ne _ c hnj]
      by_cases hni : n = i
      · rw [hni, Ghost.setOwn_self]
        exact ha k
      · rw [Ghost.setOwn_of_ne g a hni]
        exact hcalm n k

theorem Background.same (hs : SameRequest s s') : Background C (s, g) (s', g) :=
  ⟨hs, rfl, rfl, fun _ hj => .inl hj, fun _ _ hj => .inl hj, fun hcalm => .inl hcalm⟩

theorem sameRequest_startLoad (accept : ℕ → Bool) (i layer expert : ℕ) (s : Sys) :
    SameRequest s (startLoad C accept i layer expert s) := by
  unfold startLoad
  split
  · exact .refl s
  · dsimp only
    split <;> exact ⟨rfl, rfl, rfl, rfl⟩

theorem Step.background_or_service {promise : Promise} {x y : Sys × Ghost} (hwf : WF C x)
    (hstep : Step C promise x y) : Background C x y ∨ Service C x y := by
  have hne : ∀ {a b : Owner}, a = b → (∀ k, b ≠ .resident k) → ∀ k, a ≠ .resident k := by
    rintro a b rfl h
    exact h
  cases hstep with
  | stutter => exact .inl (.same (.refl _))
  | forget s g =>
    exact .inl ⟨.refl s, rfl, rfl, fun i hi => absurd hi List.not_mem_nil, fun _ _ h => .inl h,
      fun h => .inl h⟩
  | observe s g i k hphase hserve hown hrc =>
    refine .inl ⟨.refl s, rfl, rfl, ?_, fun _ _ h => .inl h, fun h => .inl h⟩
    intro j hj
    rcases List.mem_cons.mp hj with rfl | hj
    · exact .inr ⟨⟨hphase, hserve⟩, hrc⟩
    · exact .inl hj
  | arm s g b => exact .inl (.same ⟨rfl, rfl, rfl, rfl⟩)
  | pop s g h₁ h₂ => exact .inr (.pop s g h₁ h₂)
  | register s g r h₁ h₂ h₃ => exact .inr (.register s g r h₁ h₂ h₃)
  | settle s g i k w h₁ h₂ h₃ h₄ h₅ h₆ h₇ => exact .inr (.settle s g i k w h₁ h₂ h₃ h₄ h₅ h₆ h₇)
  | bump s g h₁ h₂ h₃ h₄ => exact .inr (.bump s g h₁ h₂ h₃ h₄)
  | bumpLast s g h₁ h₂ h₃ h₄ => exact .inr (.bumpLast s g h₁ h₂ h₃ h₄)
  | bumpFinish s g h₁ h₂ h₃ h₄ => exact .inr (.bumpFinish s g h₁ h₂ h₃ h₄)
  | finish s g h₁ h₂ h₃ h₄ => exact .inr (.finish s g h₁ h₂ h₃ h₄)
  | unpinOwed s g i rest h₁ h₂ h₃ => exact .inr (.unpinOwed s g i rest h₁ h₂ h₃)
  | failBatch s g h₁ h₂ h₃ h₄ => exact .inr (.failBatch s g h₁ h₂ h₃ h₄)
  | beginEvict s g i k hphase hserve hown hidle =>
    have hs : SameRequest s (s.beginEvict i) := by
      unfold Sys.beginEvict
      split <;> exact ⟨rfl, rfl, rfl, rfl⟩
    refine .inl ⟨hs, rfl, rfl, fun j hj => .inl hj, ?_, fun _ => .inr ⟨hphase, hserve⟩⟩
    intro j k' hj
    by_cases hji : j = i
    · exact .inr ⟨⟨hphase, hserve⟩, hji ▸ hidle⟩
    · exact .inl ((Ghost.setOwn_of_ne g _ hji).trans hj)
  | startLoad s g i k accept idx hown =>
    exact .inl (.setOwn (sameRequest_startLoad ..) (hne hown (by simp)) (by simp))
  | startNone s g i k accept => exact .inl (.same (sameRequest_startLoad ..))
  | event s g idx ok s' hev =>
    obtain ⟨_, rfl⟩ := takeEvent_eq hev
    exact .inl (.same ⟨rfl, rfl, rfl, rfl⟩)
  | arrive s g idx ok s' hev | «break» s g idx ok s' hnot hev =>
    obtain ⟨hpos, rfl⟩ := takeEvent_eq hev
    have hown := (hwf.ring.loading idx hpos).1
    exact .inl (.setOwn ⟨rfl, rfl, rfl, rfl⟩ (hne hown (by simp)) (by simp))
  | release s g i hown =>
    refine .inl (.setOwn ⟨rfl, rfl, rfl, rfl⟩ ?_ (by simp))
    rcases hown with hown | ⟨l, e, hown⟩ <;> exact hne hown (by simp)
  | freeTask s g idx => exact .inl (.same ⟨rfl, rfl, rfl, rfl⟩)
  | submitMove s g m hsrc hdst =>
    exact .inl (.setOwn₂ ⟨rfl, rfl, rfl, rfl⟩ (hne hsrc (by simp)) (hne hdst (by simp)) (by simp)
      (by simp))
  | popMove s g m rest b hdone hdst =>
    have hmem : m ∈ s.moves := by simp [Sys.moves, hdone]
    have hsrc := (hwf.moves.tasks m hmem).1
    exact .inl (.setOwn₂ ⟨rfl, rfl, rfl, rfl⟩ (hne hsrc (by simp)) (hne hdst (by simp)) (by simp)
      (by simp))
  | reserve s g i k hown | reload s g i k hown | abandon s g i k _ hown | markReady s g i k _ hown
  | settleDir s g i k _ hown | markFailed s g i k hown | fail s g i k hown | clear s g i k hown
  | drain s g i _ _ hown | recycle s g i _ _ hown | claim s g i k hown | moveIn s g i k hown
  | unreserve s g i k hown =>
    exact .inl (.setOwn ⟨rfl, rfl, rfl, rfl⟩ (hne hown (by simp)) (by simp))

end Sched
end StreamMoE
