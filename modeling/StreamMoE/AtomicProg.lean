import Mathlib.Logic.Relation
import Mathlib.Data.Prod.Basic

/-! Programs made of atomic accesses to a shared state, and a rely-guarantee logic for them
over a state extended with ghost data. -/
namespace StreamMoE
namespace AtomicProg

/-- A thread's program: it returns, or performs one atomic access and goes on with the state
it found. An access that is undefined in a state waits there. -/
inductive Prog (σ : Type) (α : Type) where
  | ret (a : α)
  | act (f : σ → Option σ) (k : σ → Prog σ α)

variable {σ γ α β : Type}

def Prog.bind (p : Prog σ α) (q : α → Prog σ β) : Prog σ β :=
  match p with
  | .ret a => q a
  | .act f k => .act f fun s => (k s).bind q

instance : Monad (Prog σ) where
  pure := .ret
  bind := Prog.bind

def Prog.get : Prog σ σ := .act some .ret

def Prog.modify (f : σ → σ) : Prog σ Unit := .act (fun s => some (f s)) fun _ => .ret ()

/-- An atomic update that returns the state it found. -/
def Prog.getModify (f : σ → σ) : Prog σ σ := .act (fun s => some (f s)) .ret

def Prog.await (c : σ → Bool) : Prog σ Unit :=
  .act (fun s => if c s then some s else none) fun _ => .ret ()

@[simp] theorem ret_bind (a : α) (q : α → Prog σ β) : (Prog.ret a).bind q = q a := rfl

@[simp] theorem act_bind (f : σ → Option σ) (k : σ → Prog σ α) (q : α → Prog σ β) :
    (Prog.act f k).bind q = .act f fun s => (k s).bind q := rfl

@[simp] theorem bind_eq (p : Prog σ α) (q : α → Prog σ β) : (p >>= q) = p.bind q := rfl

@[simp] theorem pure_eq (a : α) : (pure a : Prog σ α) = .ret a := rfl

theorem Prog.bind_assoc {δ : Type} (p : Prog σ α) (q : α → Prog σ β) (r : β → Prog σ δ) :
    (p.bind q).bind r = p.bind fun a => (q a).bind r := by
  induction p with
  | ret a => rfl
  | act f k ih =>
    simp only [act_bind]
    exact congrArg (Prog.act f) (funext ih)

/-- A program that nobody disturbs. -/
def Prog.alone : Prog σ α → σ → Option (α × σ)
  | .ret a, s => some (a, s)
  | .act f k, s => (f s).bind fun t => (k s).alone t

/-- A result the program can come to, whatever states it finds. -/
inductive Returns : Prog σ α → α → Prop
  | ret (a : α) : Returns (.ret a) a
  | act (f : σ → Option σ) {k : σ → Prog σ α} {s : σ} {a : α} : Returns (k s) a → Returns (.act f k) a

theorem returns_bind {p : Prog σ α} {q : α → Prog σ β} {b : β} (h : Returns (p.bind q) b) :
    ∃ a, Returns p a ∧ Returns (q a) b := by
  induction p with
  | ret a => exact ⟨a, .ret a, h⟩
  | act f k ih =>
    cases h with
    | act _ h =>
      obtain ⟨a, ha, hb⟩ := ih _ h
      exact ⟨a, .act f ha, hb⟩

theorem returns_of_alone {p : Prog σ α} {a : α} : ∀ {s t : σ}, p.alone s = some (a, t) → Returns p a := by
  induction p with
  | ret b =>
    intro s t h
    cases h
    exact .ret a
  | act f k ih =>
    intro s t h
    obtain ⟨u, _, h⟩ := Option.bind_eq_some_iff.mp h
    exact .act f (ih s h)

/-- What a thread may assume of the others and promises to them, and the invariant both
keep. States carry ghost data in their second component. -/
structure Contract (σ γ : Type) where
  inv : σ × γ → Prop
  rely : σ × γ → σ × γ → Prop
  guar : σ × γ → σ × γ → Prop
  rely_inv : ∀ x y, inv x → rely x y → inv y
  guar_inv : ∀ x y, inv x → guar x y → inv y
  guar_refl : ∀ x, guar x x

def Contract.relies (C : Contract σ γ) : σ × γ → σ × γ → Prop := Relation.ReflTransGen C.rely

theorem Contract.relies_inv (C : Contract σ γ) {x y : σ × γ} (h : C.relies x y) (hx : C.inv x) :
    C.inv y := by
  induction h with
  | refl => exact hx
  | tail _ hstep ih => exact C.rely_inv _ _ ih hstep

/-- Every access the program makes, whatever the others do before it, keeps the guarantee;
where it returns, `Q` holds and stays. -/
def Safe (C : Contract σ γ) : Prog σ α → (α → σ × γ → Prop) → σ × γ → Prop
  | .ret a, Q, x => ∀ y, C.relies x y → C.inv y → Q a y
  | .act f k, Q, x => ∀ y, C.relies x y → C.inv y → ∀ t, f y.1 = some t →
      ∃ g, C.guar y (t, g) ∧ Safe C (k y.1) Q (t, g)

variable {C : Contract σ γ} {Q Q' : α → σ × γ → Prop} {x y : σ × γ}

theorem Safe.stable {p : Prog σ α} (h : Safe C p Q x) (hxy : C.relies x y) : Safe C p Q y := by
  cases p with
  | ret a => exact fun z hz => h z (hxy.trans hz)
  | act f k => exact fun z hz => h z (hxy.trans hz)

/-- An access the program makes next. -/
theorem Safe.step {f : σ → Option σ} {k : σ → Prog σ α} {t : σ} (h : Safe C (.act f k) Q x)
    (hx : C.inv x) (hf : f x.1 = some t) : ∃ g, C.guar x (t, g) ∧ Safe C (k x.1) Q (t, g) :=
  h x .refl hx t hf

theorem Safe.result {a : α} (h : Safe C (.ret a) Q x) (hx : C.inv x) : Q a x := h x .refl hx

theorem Safe.mono {p : Prog σ α} (hQ : ∀ a y, C.inv y → Q a y → Q' a y) (h : Safe C p Q x) :
    Safe C p Q' x := by
  induction p generalizing x with
  | ret a => exact fun y hy hinv => hQ a y hinv (h y hy hinv)
  | act f k ih =>
    intro y hy hinv t ht
    obtain ⟨g, hg, hk⟩ := h y hy hinv t ht
    exact ⟨g, hg, ih _ hk⟩

/-- The rule of sequential composition. -/
theorem Safe.bind {p : Prog σ α} {q : α → Prog σ β} {Q : β → σ × γ → Prop}
    (hx : C.inv x) (h : Safe C p (fun a y => Safe C (q a) Q y) x) : Safe C (p.bind q) Q x := by
  induction p generalizing x with
  | ret a => exact h x .refl hx
  | act f k ih =>
    intro y hy hinv t ht
    obtain ⟨g, hg, hk⟩ := h y hy hinv t ht
    exact ⟨g, hg, ih _ (C.guar_inv _ _ hinv hg) hk⟩

/-- An assertion that the others cannot invalidate. -/
def Stable (C : Contract σ γ) (φ : σ × γ → Prop) : Prop :=
  ∀ x y, C.inv x → C.rely x y → φ x → φ y

theorem Stable.relies {φ : σ × γ → Prop} (hφ : Stable C φ) (hx : C.inv x) (h : φ x)
    (hxy : C.relies x y) : φ y := by
  induction hxy with
  | refl => exact h
  | tail hxz hstep ih => exact hφ _ _ (C.relies_inv hxz hx) hstep ih

theorem Stable.and {φ ψ : σ × γ → Prop} (hφ : Stable C φ) (hψ : Stable C ψ) :
    Stable C fun x => φ x ∧ ψ x := fun x y hx hxy h => ⟨hφ x y hx hxy h.1, hψ x y hx hxy h.2⟩

/-- The rule of one access, from a stable assertion. -/
theorem Safe.act {φ : σ × γ → Prop} {f : σ → Option σ} {k : σ → Prog σ α} (hφ : Stable C φ)
    (hx : C.inv x) (h : φ x)
    (hstep : ∀ y, C.inv y → φ y → ∀ t, f y.1 = some t →
      ∃ g, C.guar y (t, g) ∧ Safe C (k y.1) Q (t, g)) : Safe C (.act f k) Q x := by
  intro y hy hinv t ht
  exact hstep y hinv (hφ.relies hx h hy) t ht

theorem Safe.ret {φ : σ × γ → Prop} {a : α} (hφ : Stable C φ) (hx : C.inv x) (h : φ x)
    (hQ : ∀ y, C.inv y → φ y → Q a y) : Safe C (.ret a) Q x := by
  intro y hy hinv
  exact hQ y hinv (hφ.relies hx h hy)

section rules

variable {φ : σ × γ → Prop} {q : β → Prog σ α}

/-- Reading the state. -/
theorem Safe.get {q : σ → Prog σ α} (hφ : Stable C φ) (hx : C.inv x) (h : φ x)
    (hq : ∀ y, C.inv y → φ y → Safe C (q y.1) Q y) : Safe C (Prog.get.bind q) Q x := by
  refine Safe.act hφ hx h ?_
  intro y hy hφy t ht
  cases ht
  exact ⟨y.2, C.guar_refl y, hq y hy hφy⟩

/-- Reading the state while the ghost data records what was seen. -/
theorem Safe.getWith {q : σ → Prog σ α} (hφ : Stable C φ) (hx : C.inv x) (h : φ x)
    (hq : ∀ y, C.inv y → φ y → ∃ g, C.guar y (y.1, g) ∧ Safe C (q y.1) Q (y.1, g)) :
    Safe C (Prog.get.bind q) Q x := by
  refine Safe.act hφ hx h ?_
  intro y hy hφy t ht
  cases ht
  exact hq y hy hφy

/-- Reading and changing the state. -/
theorem Safe.getModify {f : σ → σ} {q : σ → Prog σ α} (hφ : Stable C φ) (hx : C.inv x) (h : φ x)
    (hq : ∀ y, C.inv y → φ y → ∃ g, C.guar y (f y.1, g) ∧ Safe C (q y.1) Q (f y.1, g)) :
    Safe C ((Prog.getModify f).bind q) Q x := by
  refine Safe.act hφ hx h ?_
  intro y hy hφy t ht
  cases ht
  exact hq y hy hφy

theorem Safe.modify {f : σ → σ} {q : Unit → Prog σ α} (hφ : Stable C φ) (hx : C.inv x) (h : φ x)
    (hq : ∀ y, C.inv y → φ y → ∃ g, C.guar y (f y.1, g) ∧ Safe C (q ()) Q (f y.1, g)) :
    Safe C ((Prog.modify f).bind q) Q x := by
  refine Safe.act hφ hx h ?_
  intro y hy hφy t ht
  cases ht
  exact hq y hy hφy

theorem Safe.await {c : σ → Bool} {q : Unit → Prog σ α} (hφ : Stable C φ) (hx : C.inv x) (h : φ x)
    (hq : ∀ y, C.inv y → φ y → c y.1 = true → ∃ g, C.guar y (y.1, g) ∧ Safe C (q ()) Q (y.1, g)) :
    Safe C ((Prog.await c).bind q) Q x := by
  refine Safe.act hφ hx h ?_
  intro y hy hφy t ht
  split at ht
  · rename_i hc
    cases ht
    exact hq y hy hφy hc
  · cases ht

end rules

/-- A program that changes the state once and returns. -/
theorem Safe.modifyLast {φ : σ × γ → Prop} {f : σ → σ} {Q : Unit → σ × γ → Prop}
    (hφ : Stable C φ) (hx : C.inv x) (h : φ x)
    (hq : ∀ y, C.inv y → φ y → ∃ g, C.guar y (f y.1, g) ∧ Safe C (.ret ()) Q (f y.1, g)) :
    Safe C (Prog.modify f) Q x := by
  refine Safe.act hφ hx h ?_
  intro y hy hφy t ht
  cases ht
  exact hq y hy hφy

end AtomicProg
end StreamMoE
