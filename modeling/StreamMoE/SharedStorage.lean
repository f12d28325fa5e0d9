import Mathlib.Data.List.Basic
import StreamMoE.ByteMemory

/-! Programs whose operations each write one storage from those they read, run in buffers where the
storages may lie over each other: what is live at the end of an operation must lie clear of what
the operation writes. -/
namespace StreamMoE
namespace SharedStorage

open ByteMemory

/-- A storage holds `size` values, and the result of an operation depends on nothing but the
storages it reads. -/
structure Program (ι σ V : Type*) where
  target : ι → σ
  reads : ι → List σ
  size : σ → ℕ
  apply : ι → (σ → ℕ → V) → ℕ → V
  apply_congr : ∀ i f g, (∀ x ∈ reads i, ∀ k < size x, f x k = g x k) →
    ∀ k < size (target i), apply i f k = apply i g k

variable {ι σ V B : Type*} (P : Program ι σ V)

section runs

variable [DecidableEq σ] [DecidableEq B] (loc : σ → B × ℕ)

/-- An operation where every storage has a buffer of its own. -/
def ownStep (st : σ → ℕ → V) (i : ι) : σ → ℕ → V := Function.update st (P.target i) (P.apply i st)

def ownRun (l : List ι) (st : σ → ℕ → V) : σ → ℕ → V := l.foldl (ownStep P) st

/-- The values a storage holds in the buffers. -/
def contents (mem : B → ℕ → V) (x : σ) (k : ℕ) : V := mem (loc x).1 ((loc x).2 + k)

/-- An operation in the buffers. -/
def step (mem : B → ℕ → V) (i : ι) : B → ℕ → V :=
  Function.update mem (loc (P.target i)).1
    (blit (mem (loc (P.target i)).1) (loc (P.target i)).2 (P.size (P.target i))
      (P.apply i (contents loc mem)))

def run (l : List ι) (mem : B → ℕ → V) : B → ℕ → V := l.foldl (step P loc) mem

/-- Two storages share no value. -/
def Clear (x y : σ) : Prop :=
  (loc x).1 = (loc y).1 → Apart (loc x).2 (P.size x) (loc y).2 (P.size y)

end runs

section liveness

variable (keep : σ → Prop)

/-- What is read before it is written, or kept to the end. -/
def Live : List ι → σ → Prop
  | [], x => keep x
  | i :: rest, x => x ∈ P.reads i ∨ x ≠ P.target i ∧ Live rest x

variable {P keep}

theorem Live.reader {l : List ι} {x : σ} (h : Live P keep l x) : (∃ i ∈ l, x ∈ P.reads i) ∨ keep x := by
  induction l with
  | nil => exact .inr h
  | cons i rest ih =>
    rcases h with hread | ⟨_, hlive⟩
    · exact .inl ⟨i, List.mem_cons_self, hread⟩
    · exact (ih hlive).imp_left fun ⟨j, hj, hread⟩ => ⟨j, List.mem_cons_of_mem _ hj, hread⟩

/-- What an operation makes anew is not live before it, if nothing between reads it. -/
theorem not_live_of_made {pre post : List ι} {i : ι} (hpre : ∀ j ∈ pre, P.target i ∉ P.reads j)
    (hi : P.target i ∉ P.reads i) : ¬ Live P keep (pre ++ i :: post) (P.target i) := by
  induction pre with
  | nil => exact fun h => h.elim hi fun hne => hne.1 rfl
  | cons j pre ih =>
    obtain ⟨hj, hpre⟩ := List.forall_mem_cons.mp hpre
    exact fun h => h.elim hj fun hlive => ih hpre hlive.2

end liveness

section agreement

variable (loc : σ → B × ℕ) (keep : σ → Prop)

/-- No operation writes over another storage that it reads or that is live behind it. -/
def Safe (l : List ι) : Prop :=
  ∀ i post, i :: post <:+ l → ∀ y, y ≠ P.target i → y ∈ P.reads i ∨ Live P keep post y →
    Clear P loc (P.target i) y

/-- The buffers hold what the storages hold, as far as it is asked for. -/
def Agree (Q : σ → Prop) (mem : B → ℕ → V) (st : σ → ℕ → V) : Prop :=
  ∀ x, Q x → ∀ k < P.size x, contents loc mem x k = st x k

variable {P loc keep} {mem : B → ℕ → V} {st : σ → ℕ → V} {i : ι} {l pre post : List ι}

theorem Safe.tail (h : Safe P loc keep (i :: post)) : Safe P loc keep post :=
  fun j rest hsuffix => h j rest (hsuffix.trans (List.suffix_cons i post))

/-- Buffers that agree on what the operation reads give the same result. -/
theorem Agree.apply (h : Agree P loc (Live P keep (i :: post)) mem st) {k : ℕ}
    (hk : k < P.size (P.target i)) : P.apply i (contents loc mem) k = P.apply i st k :=
  P.apply_congr i _ _ (fun x hx => h x (.inl hx)) k hk

variable [DecidableEq B]

theorem contents_step_target {k : ℕ} (h : k < P.size (P.target i)) :
    contents loc (step P loc mem i) (P.target i) k = P.apply i (contents loc mem) k := by
  simp only [contents, step, Function.update_self]
  exact blit_inside _ _ h

theorem contents_step_other {y : σ} (h : Clear P loc (P.target i) y) {k : ℕ} (hk : k < P.size y) :
    contents loc (step P loc mem i) y k = contents loc mem y k := by
  by_cases hbuf : (loc y).1 = (loc (P.target i)).1
  · have hapart := h hbuf.symm
    simp only [contents, step, hbuf, Function.update_self]
    refine blit_outside _ _ ?_
    simp only [Apart] at hapart
    omega
  · simp only [contents, step, Function.update_of_ne hbuf]

variable [DecidableEq σ]

theorem Agree.step (hsafe : Safe P loc keep (i :: post)) (h : Agree P loc (Live P keep (i :: post)) mem st) :
    Agree P loc (Live P keep post) (step P loc mem i) (ownStep P st i) := by
  intro x hx k hk
  by_cases hxi : x = P.target i
  · subst hxi
    rw [contents_step_target hk, h.apply hk, ownStep, Function.update_self]
  · have hclear := hsafe i post List.suffix_rfl x hxi (.inr hx)
    rw [contents_step_other hclear hk, ownStep, Function.update_of_ne hxi]
    exact h x (.inr ⟨hxi, hx⟩) k hk

theorem Agree.run (hsafe : Safe P loc keep (pre ++ post))
    (h : Agree P loc (Live P keep (pre ++ post)) mem st) :
    Agree P loc (Live P keep post) (run P loc pre mem) (ownRun P pre st) := by
  induction pre generalizing mem st with
  | nil => exact h
  | cons i pre ih => exact ih hsafe.tail (h.step hsafe)

/-- In a safe run every operation makes what it makes with buffers of their own, and what is kept
is there at the end. -/
theorem run_agree (hsafe : Safe P loc keep l) (h : Agree P loc (Live P keep l) mem st) :
    (∀ pre i post, l = pre ++ i :: post → ∀ k < P.size (P.target i),
        contents loc (SharedStorage.run P loc (pre ++ [i]) mem) (P.target i) k =
          ownRun P (pre ++ [i]) st (P.target i) k) ∧
      Agree P loc keep (SharedStorage.run P loc l mem) (ownRun P l st) := by
  constructor
  · rintro pre i post rfl k hk
    have hpre := h.run hsafe
    simp only [SharedStorage.run, ownRun, List.foldl_append, List.foldl_cons, List.foldl_nil] at hpre ⊢
    rw [contents_step_target hk, hpre.apply hk, ownStep, Function.update_self]
  · rw [← List.append_nil l] at hsafe h
    have hend := h.run hsafe
    exact hend

end agreement

end SharedStorage
end StreamMoE
