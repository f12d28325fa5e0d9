import StreamMoE.ThreadLoop

/-! Programs that run undisturbed, and state predicates that every access of a program keeps. -/
namespace StreamMoE
namespace AtomicProg

variable {σ α β : Type}

@[simp] theorem alone_ret (a : α) (s : σ) : (Prog.ret a).alone s = some (a, s) := rfl

@[simp] theorem alone_act (f : σ → Option σ) (k : σ → Prog σ α) (s : σ) :
    (Prog.act f k).alone s = (f s).bind fun t => (k s).alone t := rfl

@[simp] theorem alone_get (s : σ) : (Prog.get : Prog σ σ).alone s = some (s, s) := rfl

@[simp] theorem alone_getModify (f : σ → σ) (s : σ) : (Prog.getModify f).alone s = some (s, f s) := rfl

theorem alone_await {c : σ → Bool} {s : σ} (h : c s = true) : (Prog.await c).alone s = some ((), s) := by
  simp [Prog.await, h]

theorem alone_bind (p : Prog σ α) (q : α → Prog σ β) (s : σ) :
    (p.bind q).alone s = (p.alone s).bind fun x => (q x.1).alone x.2 := by
  induction p generalizing s with
  | ret a => rfl
  | act f k ih =>
    rw [act_bind, alone_act, alone_act, Option.bind_assoc]
    exact congrArg _ (funext fun t => ih s t)

/-- A first part that runs to its end. -/
theorem alone_bind_of {p : Prog σ α} {q : α → Prog σ β} {s t : σ} {a : α} (h : p.alone s = some (a, t)) :
    (p.bind q).alone s = (q a).alone t := by
  rw [alone_bind, h, Option.bind_some]

/-- Every access keeps `J` in the states that have it; the results satisfy `Q`. -/
def Keeps (J : σ → Prop) : Prog σ α → (α → Prop) → Prop
  | .ret a, Q => Q a
  | .act f k, Q => ∀ s, J s → ∀ t, f s = some t → J t ∧ Keeps J (k s) Q

variable {J : σ → Prop} {Q Q' : α → Prop}

theorem Keeps.mono {p : Prog σ α} (h : Keeps J p Q) (hQ : ∀ a, Q a → Q' a) : Keeps J p Q' := by
  induction p with
  | ret a => exact hQ a h
  | act f k ih => exact fun s hs t ht => ⟨(h s hs t ht).1, ih s (h s hs t ht).2⟩

theorem Keeps.bind {p : Prog σ α} {q : α → Prog σ β} {Q : β → Prop}
    (h : Keeps J p fun a => Keeps J (q a) Q) : Keeps J (p.bind q) Q := by
  induction p with
  | ret a => exact h
  | act f k ih => exact fun s hs t ht => ⟨(h s hs t ht).1, ih s (h s hs t ht).2⟩

/-- The rule of composition with an assertion in between. -/
theorem Keeps.seq {R : α → Prop} {p : Prog σ α} {q : α → Prog σ β} {Q : β → Prop} (h : Keeps J p R)
    (hq : ∀ a, R a → Keeps J (q a) Q) : Keeps J (p.bind q) Q := .bind (h.mono hq)

theorem Keeps.get {q : σ → Prog σ β} {Q : β → Prop} (hq : ∀ s, J s → Keeps J (q s) Q) :
    Keeps J (Prog.get.bind q) Q := by
  intro s hs t ht
  cases ht
  exact ⟨hs, hq s hs⟩

theorem Keeps.modify {f : σ → σ} {q : Unit → Prog σ β} {Q : β → Prop} (hf : ∀ s, J s → J (f s))
    (hq : Keeps J (q ()) Q) : Keeps J ((Prog.modify f).bind q) Q := by
  intro s hs t ht
  cases ht
  exact ⟨hf s hs, hq⟩

theorem Keeps.modifyLast {f : σ → σ} (hf : ∀ s, J s → J (f s)) {Q : Unit → Prop} (hQ : Q ()) :
    Keeps J (Prog.modify f) Q := by
  intro s hs t ht
  cases ht
  exact ⟨hf s hs, hQ⟩

theorem Keeps.getModify {f : σ → σ} {q : σ → Prog σ β} {Q : β → Prop} (hf : ∀ s, J s → J (f s))
    (hq : ∀ s, J s → Keeps J (q s) Q) : Keeps J ((Prog.getModify f).bind q) Q := by
  intro s hs t ht
  cases ht
  exact ⟨hf s hs, hq s hs⟩

theorem Keeps.await {c : σ → Bool} {q : Unit → Prog σ β} {Q : β → Prop} (hq : Keeps J (q ()) Q) :
    Keeps J ((Prog.await c).bind q) Q := by
  intro s hs t ht
  dsimp only at ht
  split at ht
  · cases ht
    exact ⟨hs, hq⟩
  · cases ht

end AtomicProg

namespace ThreadLoop

open AtomicProg TransitionSystem

variable {σ ω ε : Type} {L : Loop σ ω ε} {J : σ → Prop}

/-- What every access of every operation and every step of the others keeps holds in all reachable states,
also amid an operation. -/
theorem keeps_of_reach (hinit : J L.start) (hop : ∀ o, Keeps J (L.op o) fun _ => True)
    (henv : ∀ s a s', J s → L.env s a = some s' → J s') {guard : Running σ → Label ω ε → Prop}
    {r : Running σ} (h : Reach L.machine guard r) : J r.state ∧ Keeps J r.prog fun _ => True := by
  refine h.invariant (I := fun r => J r.state ∧ Keeps J r.prog fun _ => True) ?_ ?_
  · rintro _ rfl
    exact ⟨hinit, trivial⟩
  · rintro ⟨s, p⟩ a r' ⟨hs, hp⟩ _ hstep
    cases a with
    | call o =>
      cases p with
      | ret u =>
        cases hstep
        exact ⟨hs, hop o⟩
      | act f k => cases hstep
    | step =>
      cases p with
      | ret u => cases hstep
      | act f k =>
        obtain ⟨t, ht, rfl⟩ := Option.map_eq_some_iff.mp hstep
        exact hp s hs t ht
    | env a =>
      obtain ⟨t, ht, rfl⟩ := Option.map_eq_some_iff.mp hstep
      exact ⟨henv s a t hs ht, hp⟩

end ThreadLoop
end StreamMoE
