import StreamMoE.AtomicProg

/-! Two threads side by side, each safe under its own contract, and what is said of all
accesses a program makes. -/
namespace StreamMoE
namespace AtomicProg

variable {σ γ α β : Type}

section pair

/-- Each thread may assume what the other promises. -/
structure Compatible (C D : Contract σ γ) : Prop where
  left : ∀ x y, C.inv x → D.inv x → C.guar x y → D.relies x y
  right : ∀ x y, C.inv x → D.inv x → D.guar x y → C.relies x y

/-- Two programs that share the state and the ghost data. -/
structure Both (C D : Contract σ γ) (p : Prog σ α) (q : Prog σ β) (P : α → σ × γ → Prop)
    (Q : β → σ × γ → Prop) (x : σ × γ) : Prop where
  invLeft : C.inv x
  invRight : D.inv x
  left : Safe C p P x
  right : Safe D q Q x

variable {C D : Contract σ γ} {p : Prog σ α} {q : Prog σ β} {P : α → σ × γ → Prop}
  {Q : β → σ × γ → Prop} {x y : σ × γ}

theorem Both.swap (h : Both C D p q P Q x) : Both D C q p Q P x :=
  ⟨h.invRight, h.invLeft, h.right, h.left⟩

theorem Compatible.swap (h : Compatible C D) : Compatible D C :=
  ⟨fun x y hD hC => h.right x y hC hD, fun x y hD hC => h.left x y hC hD⟩

theorem Both.stepLeft (hCD : Compatible C D) {f : σ → Option σ} {k : σ → Prog σ α} {t : σ}
    (h : Both C D (.act f k) q P Q x) (hf : f x.1 = some t) :
    ∃ g, C.guar x (t, g) ∧ Both C D (k x.1) q P Q (t, g) := by
  obtain ⟨g, hguar, hk⟩ := h.left.step h.invLeft hf
  have hrely := hCD.left _ _ h.invLeft h.invRight hguar
  exact ⟨g, hguar, C.guar_inv _ _ h.invLeft hguar, D.relies_inv hrely h.invRight, hk,
    h.right.stable hrely⟩

theorem Both.stepRight (hCD : Compatible C D) {f : σ → Option σ} {k : σ → Prog σ β} {t : σ}
    (h : Both C D p (.act f k) P Q x) (hf : f x.1 = some t) :
    ∃ g, D.guar x (t, g) ∧ Both C D p (k x.1) P Q (t, g) := by
  obtain ⟨g, hguar, hk⟩ := h.swap.stepLeft hCD.swap hf
  exact ⟨g, hguar, hk.swap⟩

/-- A step of somebody else. -/
theorem Both.aside (h : Both C D p q P Q x) (hC : C.rely x y) (hD : D.rely x y) :
    Both C D p q P Q y :=
  ⟨C.rely_inv _ _ h.invLeft hC, D.rely_inv _ _ h.invRight hD, h.left.stable (.single hC),
    h.right.stable (.single hD)⟩

end pair

section accesses

/-- Whatever the others do, related by `R`, every access the program makes is one that `G` has for
the state it is made in. -/
def Makes (R : σ → σ → Prop) (G : (σ → Option σ) → σ → Prop) : Prog σ α → σ → Prop
  | .ret _, _ => True
  | .act f k, s => ∀ t, Relation.ReflTransGen R s t →
      G f t ∧ ∀ u, f t = some u → Makes R G (k t) u

/-- From every state. -/
def MakesOnly (R : σ → σ → Prop) (G : (σ → Option σ) → σ → Prop) (p : Prog σ α) : Prop :=
  ∀ s, Makes R G p s

variable {R : σ → σ → Prop} {G G' : (σ → Option σ) → σ → Prop} {p : Prog σ α} {s t : σ}

theorem Makes.stable (h : Makes R G p s) (hst : Relation.ReflTransGen R s t) : Makes R G p t := by
  cases p with
  | ret a => trivial
  | act f k => exact fun u hu => h u (hst.trans hu)

theorem Makes.access {f : σ → Option σ} {k : σ → Prog σ α} (h : Makes R G (.act f k) s) : G f s :=
  (h s .refl).1

theorem Makes.step {f : σ → Option σ} {k : σ → Prog σ α} (h : Makes R G (.act f k) s)
    (hf : f s = some t) : Makes R G (k s) t := (h s .refl).2 t hf

theorem Makes.mono (hG : ∀ f t, G f t → G' f t) (h : Makes R G p s) : Makes R G' p s := by
  induction p generalizing s with
  | ret a => trivial
  | act f k ih =>
    intro t ht
    obtain ⟨h₁, h₂⟩ := h t ht
    exact ⟨hG f t h₁, fun u hu => ih t (h₂ u hu)⟩

theorem Makes.bind {q : α → Prog σ β} (h : Makes R G p s) (hq : ∀ a, MakesOnly R G (q a)) :
    Makes R G (p.bind q) s := by
  induction p generalizing s with
  | ret a => exact hq a s
  | act f k ih =>
    intro t ht
    obtain ⟨h₁, h₂⟩ := h t ht
    exact ⟨h₁, fun u hu => ih t (h₂ u hu)⟩

/-- The rules of one access, for what holds of the states it may meet. -/
theorem Makes.getModify {f : σ → σ} {q : σ → Prog σ α} (hf : ∀ t, G (fun s => some (f s)) t)
    (hq : ∀ t, Relation.ReflTransGen R s t → Makes R G (q t) (f t)) :
    Makes R G ((Prog.getModify f).bind q) s := by
  intro t ht
  refine ⟨hf t, ?_⟩
  intro u hu
  cases hu
  exact hq t ht

theorem Makes.modify {f : σ → σ} {q : Unit → Prog σ α} (hf : ∀ t, G (fun s => some (f s)) t)
    (hq : ∀ t, Relation.ReflTransGen R s t → Makes R G (q ()) (f t)) :
    Makes R G ((Prog.modify f).bind q) s := by
  intro t ht
  refine ⟨hf t, ?_⟩
  intro u hu
  cases hu
  exact hq t ht

theorem Makes.await {c : σ → Bool} {q : Unit → Prog σ α}
    (hc : ∀ t, Relation.ReflTransGen R s t → G (fun s => if c s then some s else none) t)
    (hq : MakesOnly R G (q ())) : Makes R G ((Prog.await c).bind q) s :=
  fun t ht => ⟨hc t ht, fun u _ => hq u⟩

theorem makesOnly_ret (a : α) : MakesOnly R G (.ret a) := fun _ => trivial

theorem MakesOnly.bind {q : α → Prog σ β} (h : MakesOnly R G p) (hq : ∀ a, MakesOnly R G (q a)) :
    MakesOnly R G (p.bind q) := fun s => (h s).bind hq

theorem makesOnly_act {f : σ → Option σ} {k : σ → Prog σ α} (hf : ∀ t, G f t)
    (hk : ∀ s, MakesOnly R G (k s)) : MakesOnly R G (.act f k) :=
  fun _ t _ => ⟨hf t, fun u _ => hk t u⟩

theorem makesOnly_get {q : σ → Prog σ α} (hf : ∀ t, G some t) (hq : ∀ s, MakesOnly R G (q s)) :
    MakesOnly R G (Prog.get.bind q) := makesOnly_act hf hq

theorem makesOnly_modify {f : σ → σ} {q : Unit → Prog σ α} (hf : ∀ t, G (fun s => some (f s)) t)
    (hq : MakesOnly R G (q ())) : MakesOnly R G ((Prog.modify f).bind q) :=
  makesOnly_act hf fun _ => hq

theorem makesOnly_getModify {f : σ → σ} {q : σ → Prog σ α} (hf : ∀ t, G (fun s => some (f s)) t)
    (hq : ∀ s, MakesOnly R G (q s)) : MakesOnly R G ((Prog.getModify f).bind q) :=
  makesOnly_act hf hq

theorem makesOnly_modifyLast {f : σ → σ} (hf : ∀ t, G (fun s => some (f s)) t) :
    MakesOnly R G (Prog.modify f) := makesOnly_act hf fun _ => makesOnly_ret ()

end accesses

end AtomicProg
end StreamMoE
