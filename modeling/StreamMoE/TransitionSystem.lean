import Mathlib.Logic.Relation

/-!
# Guarded runs of a transition system

A machine is a set of initial states and a partial step function on labelled
actions. A guard restricts which steps a run may take; the unguarded runs are
those of the guard that is always true.
-/

namespace StreamMoE
namespace TransitionSystem

/-- An undefined step is an action that is not enabled in the state. -/
structure Machine (σ α : Type*) where
  init : σ → Prop
  step : σ → α → Option σ

variable {σ α : Type*} {M : Machine σ α} {guard guard' : σ → α → Prop}

/-- The guard of unrestricted runs. -/
def anyStep (_ : σ) (_ : α) : Prop := True

/-- States reached by runs all of whose steps meet the guard. -/
inductive Reach (M : Machine σ α) (guard : σ → α → Prop) : σ → Prop
  | init {s : σ} : M.init s → Reach M guard s
  | step {s : σ} {a : α} {s' : σ} :
      Reach M guard s → guard s a → M.step s a = some s' → Reach M guard s'

/-- The invariant rule: what one guarded step preserves, every guarded run preserves. -/
theorem Reach.invariant {I : σ → Prop} (hinit : ∀ s, M.init s → I s)
    (hstep : ∀ s a s', I s → guard s a → M.step s a = some s' → I s')
    {s : σ} (h : Reach M guard s) : I s := by
  induction h with
  | init h => exact hinit _ h
  | step _ hg hs ih => exact hstep _ _ _ ih hg hs

/-- A stronger guard allows fewer runs. -/
theorem Reach.mono (hg : ∀ s a, guard s a → guard' s a) {s : σ} (h : Reach M guard s) :
    Reach M guard' s := by
  induction h with
  | init h => exact .init h
  | step _ ha hs ih => exact .step ih (hg _ _ ha) hs

/-- Execute a word of actions, stopping at the first one that is not enabled. -/
def run (M : Machine σ α) : List α → σ → Option σ
  | [], s => some s
  | a :: as, s => (M.step s a).bind (run M as)

@[simp] theorem run_nil (s : σ) : run M [] s = some s := rfl

@[simp] theorem run_cons (a : α) (as : List α) (s : σ) :
    run M (a :: as) s = (M.step s a).bind (run M as) := rfl

theorem run_append (as bs : List α) (s : σ) : run M (as ++ bs) s = (run M as s).bind (run M bs) := by
  induction as generalizing s with
  | nil => rfl
  | cons a as ih =>
    rw [List.cons_append, run_cons, run_cons, Option.bind_assoc]
    exact congrArg _ (funext ih)

/-- Every state that a word of allowed actions passes through is reached. -/
theorem Reach.run_of_forall (as : List α) (hg : ∀ a ∈ as, ∀ s, guard s a) {s s' : σ}
    (hs : Reach M guard s) (h : run M as s = some s') : Reach M guard s' := by
  induction as generalizing s with
  | nil => cases h; exact hs
  | cons a as ih =>
    obtain ⟨t, ht, hrun⟩ := Option.bind_eq_some_iff.mp h
    have hrest : ∀ b ∈ as, ∀ s, guard s b := fun b hb => hg b (List.mem_cons_of_mem a hb)
    exact ih hrest (.step hs (hg a List.mem_cons_self _) ht) hrun

theorem Reach.run_of_guard (hg : ∀ s a, guard s a) (as : List α) {s s' : σ}
    (hs : Reach M guard s) (h : run M as s = some s') : Reach M guard s' :=
  hs.run_of_forall as (fun a _ s => hg s a) h

/-- Every step of a word that is executed meets the guard. -/
def Meets (M : Machine σ α) (guard : σ → α → Prop) : List α → σ → Prop
  | [], _ => True
  | a :: as, s => guard s a ∧ ∀ t, M.step s a = some t → Meets M guard as t

theorem Reach.run_of_meets (as : List α) {s s' : σ} (hs : Reach M guard s) (hm : Meets M guard as s)
    (h : run M as s = some s') : Reach M guard s' := by
  induction as generalizing s with
  | nil => cases h; exact hs
  | cons a as ih =>
    obtain ⟨t, ht, hrun⟩ := Option.bind_eq_some_iff.mp h
    exact ih (.step hs hm.1 ht) (hm.2 t ht) hrun

/-- Execute a word of actions, also stopping at the first one that breaks the guard. -/
def guardedRun (M : Machine σ α) (guard : σ → α → Prop) [∀ s a, Decidable (guard s a)] :
    List α → σ → Option σ
  | [], s => some s
  | a :: as, s => if guard s a then (M.step s a).bind (guardedRun M guard as) else none

theorem run_of_guardedRun [∀ s a, Decidable (guard s a)] (as : List α) {s s' : σ}
    (h : guardedRun M guard as s = some s') : run M as s = some s' := by
  induction as generalizing s with
  | nil => exact h
  | cons a as ih =>
    rw [guardedRun] at h
    split at h
    · obtain ⟨t, ht, hrun⟩ := Option.bind_eq_some_iff.mp h
      exact Option.bind_eq_some_iff.mpr ⟨t, ht, ih hrun⟩
    · cases h

/-- A guard that implies another on the actions of the word. -/
theorem meets_of_guardedRun [∀ s a, Decidable (guard' s a)] (as : List α)
    (hg : ∀ a ∈ as, ∀ s, guard' s a → guard s a) {s s' : σ}
    (h : guardedRun M guard' as s = some s') : Meets M guard as s := by
  induction as generalizing s with
  | nil => trivial
  | cons a as ih =>
    rw [guardedRun] at h
    split at h
    · rename_i ha
      obtain ⟨t, ht, hrun⟩ := Option.bind_eq_some_iff.mp h
      refine ⟨hg a List.mem_cons_self s ha, fun t' ht' => ?_⟩
      rw [ht] at ht'
      cases ht'
      exact ih (fun b hb => hg b (List.mem_cons_of_mem a hb)) hrun
    · cases h

theorem Reach.guardedRun_of_forall [∀ s a, Decidable (guard' s a)] (as : List α)
    (hg : ∀ a ∈ as, ∀ s, guard' s a → guard s a) {s s' : σ} (hs : Reach M guard s)
    (h : guardedRun M guard' as s = some s') : Reach M guard s' :=
  hs.run_of_meets as (meets_of_guardedRun as hg h) (run_of_guardedRun as h)

theorem Reach.guardedRun [∀ s a, Decidable (guard s a)] (as : List α) {s s' : σ}
    (hs : Reach M guard s) (h : guardedRun M guard as s = some s') : Reach M guard s' :=
  hs.guardedRun_of_forall as (fun _ _ _ ha => ha) h

end TransitionSystem
end StreamMoE
