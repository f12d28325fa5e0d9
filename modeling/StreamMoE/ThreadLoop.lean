import StreamMoE.AtomicProg
import StreamMoE.TransitionSystem

/-! A thread that runs one operation after another beside an environment, and the invariants of
its runs that a contract gives. -/
namespace StreamMoE
namespace ThreadLoop

open AtomicProg TransitionSystem

/-- The shared state and what is left of the operation under way. -/
structure Running (σ : Type) where
  state : σ
  prog : Prog σ Unit

inductive Label (ω ε : Type)
  | call (o : ω)
  | step
  | env (a : ε)

structure Loop (σ ω ε : Type) where
  start : σ
  op : ω → Prog σ Unit
  env : σ → ε → Option σ

variable {σ γ ω ε : Type}

def Running.idle (r : Running σ) : Prop := r.prog = .ret ()

instance (r : Running σ) : Decidable r.idle :=
  match h : r.prog with
  | .ret () => .isTrue h
  | .act _ _ => .isFalse fun hidle => by
      rw [Running.idle, h] at hidle
      cases hidle

def Loop.step (L : Loop σ ω ε) (r : Running σ) : Label ω ε → Option (Running σ)
  | .call o =>
      match r.prog with
      | .ret _ => some ⟨r.state, L.op o⟩
      | .act _ _ => none
  | .step =>
      match r.prog with
      | .ret _ => none
      | .act f k => (f r.state).map fun t => ⟨t, k r.state⟩
  | .env a => (L.env r.state a).map fun t => ⟨t, r.prog⟩

def Loop.machine (L : Loop σ ω ε) : Machine (Running σ) (Label ω ε) :=
  { init := fun r => r = ⟨L.start, .ret ()⟩, step := L.step }

/-- What a contract and a further invariant `J` say of a running thread. -/
def Kept (C : Contract σ γ) (rest J : σ × γ → Prop) (r : Running σ) : Prop :=
  ∃ g, C.inv (r.state, g) ∧ J (r.state, g) ∧ Safe C r.prog (fun _ => rest) (r.state, g)

section adequacy

variable {L : Loop σ ω ε} {C : Contract σ γ} {rest J : σ × γ → Prop}
  {guard : Running σ → Label ω ε → Prop}

theorem Kept.step
    (hop : ∀ r o g, guard r (.call o) → C.inv (r.state, g) → rest (r.state, g) →
      Safe C (L.op o) (fun _ => rest) (r.state, g))
    (henv : ∀ s a s' g, L.env s a = some s' → C.rely (s, g) (s', g))
    (hguar : ∀ x y, C.inv x → J x → C.guar x y → J y)
    (hJenv : ∀ r a s' g, guard r (.env a) → C.inv (r.state, g) → J (r.state, g) →
      L.env r.state a = some s' → J (s', g))
    {r r' : Running σ} {a : Label ω ε} (h : Kept C rest J r) (ha : guard r a)
    (hstep : L.step r a = some r') : Kept C rest J r' := by
  obtain ⟨g, hinv, hJ, hsafe⟩ := h
  obtain ⟨s, p⟩ := r
  cases a with
  | call o =>
    cases p with
    | ret u =>
      cases hstep
      have hr : rest (s, g) := hsafe.result hinv
      exact ⟨g, hinv, hJ, hop ⟨s, .ret u⟩ o g ha hinv hr⟩
    | act f k => cases hstep
  | step =>
    cases p with
    | ret u => cases hstep
    | act f k =>
      obtain ⟨t, ht, rfl⟩ := Option.map_eq_some_iff.mp hstep
      obtain ⟨g', hg', hk⟩ := hsafe.step hinv ht
      exact ⟨g', C.guar_inv _ _ hinv hg', hguar _ _ hinv hJ hg', hk⟩
  | env a =>
    obtain ⟨t, ht, rfl⟩ := Option.map_eq_some_iff.mp hstep
    have hrely := henv s a t g ht
    exact ⟨g, C.rely_inv _ _ hinv hrely, hJenv ⟨s, p⟩ a t g ha hinv hJ ht, hsafe.stable (.single hrely)⟩

/-- Every reachable state of a loop of safe operations keeps the contract's invariant. -/
theorem Kept.reach (hrest : Stable C rest) {g : γ} (hinit : C.inv (L.start, g))
    (hrest₀ : rest (L.start, g)) (hJ₀ : J (L.start, g))
    (hop : ∀ r o g, guard r (.call o) → C.inv (r.state, g) → rest (r.state, g) →
      Safe C (L.op o) (fun _ => rest) (r.state, g))
    (henv : ∀ s a s' g, L.env s a = some s' → C.rely (s, g) (s', g))
    (hguar : ∀ x y, C.inv x → J x → C.guar x y → J y)
    (hJenv : ∀ r a s' g, guard r (.env a) → C.inv (r.state, g) → J (r.state, g) →
      L.env r.state a = some s' → J (s', g))
    {r : Running σ} (h : Reach L.machine guard r) : Kept C rest J r := by
  induction h with
  | init h =>
    cases h
    exact ⟨g, hinit, hJ₀, Safe.ret hrest hinit hrest₀ fun _ _ hy => hy⟩
  | step _ ha hstep ih => exact ih.step hop henv hguar hJenv ha hstep

theorem Kept.idle {r : Running σ} (h : Kept C rest J r) (hidle : r.idle) :
    ∃ g, C.inv (r.state, g) ∧ J (r.state, g) ∧ rest (r.state, g) := by
  obtain ⟨g, hinv, hJ, hsafe⟩ := h
  rw [Running.idle] at hidle
  rw [hidle] at hsafe
  exact ⟨g, hinv, hJ, hsafe.result hinv⟩

end adequacy

end ThreadLoop
end StreamMoE
