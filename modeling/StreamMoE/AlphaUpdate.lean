import Mathlib.Data.Rat.Init
import Mathlib.Logic.Function.Basic
import Mathlib.Tactic.NormNum

/-! `update_alpha` in the ticks of `worker_loop`: every scheduler adapts its eviction blend to its own hit
rate, and all of them compare with the lookups that the thread saw last. -/
namespace StreamMoE
namespace AlphaUpdate

/-- `hit_rate_ema_` and `alpha_` -/
structure Adapt (F : Type) where
  hitRateEma : F
  alpha : F
  deriving DecidableEq

/-- A scheduler in the third loop of a tick: whether it runs, and its counters at that time. -/
structure Seen (ι : Type) where
  who : ι
  running : Bool
  lookups : UInt64
  hits : UInt64
  deriving DecidableEq

/-- The thread-local variables of the worker and what it keeps in the schedulers. -/
structure Worker (ι F : Type) where
  lastLookups : UInt64
  lastHits : UInt64
  adapt : ι → Adapt F

/-- The worker when it is started. -/
def fresh {ι F : Type} (adapt : ι → Adapt F) : Worker ι F := { lastLookups := 0, lastHits := 0, adapt }

section update

variable {ι F : Type} [DecidableEq ι] [Add F] [Sub F] [Mul F] [Div F] [LT F] [DecidableLT F] [NatCast F]
  [OfScientific F]

/-- The new average and the blend, kept between 0.1 and 0.9. -/
def blend (a : Adapt F) (lookups hits : UInt64) : Adapt F :=
  let hr : F := (hits.toNat : F) / (lookups.toNat : F)
  let ema := a.hitRateEma * 0.9 + hr * 0.1
  let alpha := 1.0 - ema
  let alpha := if alpha < 0.1 then 0.1 else alpha
  let alpha := if 0.9 < alpha then 0.9 else alpha
  { hitRateEma := ema, alpha }

def updateAlpha (w : Worker ι F) (e : Seen ι) : Worker ι F :=
  if e.lookups ≠ w.lastLookups ∧ e.lookups > 0 then
    { lastLookups := e.lookups, lastHits := e.hits
      adapt := Function.update w.adapt e.who (blend (w.adapt e.who) e.lookups e.hits) }
  else w

def adaptOne (w : Worker ι F) (e : Seen ι) : Worker ι F := if e.running then updateAlpha w e else w

/-- The adaptations of one tick, over the schedulers of the snapshot -/
def tick (w : Worker ι F) (snap : List (Seen ι)) : Worker ι F := snap.foldl adaptOne w

def ticks (w : Worker ι F) (snaps : List (List (Seen ι))) : Worker ι F := snaps.foldl tick w

theorem ticks_eq (w : Worker ι F) (snaps : List (List (Seen ι))) :
    ticks w snaps = snaps.flatten.foldl adaptOne w := by
  rw [ticks, List.foldl_flatten]
  rfl

/-- What one scheduler shows of itself in a tick. -/
def own (x : ι) (snap : List (Seen ι)) : List (Seen ι) := snap.filter fun e => e.who = x

/-- A scheduler that compares with its own lookups: its adaptation and the lookups it used last. -/
def ownStep (p : Adapt F × UInt64) (e : Seen ι) : Adapt F × UInt64 :=
  if e.running ∧ e.lookups ≠ p.2 ∧ e.lookups > 0 then (blend p.1 e.lookups e.hits, e.lookups) else p

/-- Whenever the scheduler is updated, the thread tells new lookups from old ones as the scheduler itself
would, which used `last` for its own last update. -/
def Undisturbed (x : ι) : Worker ι F → UInt64 → List (Seen ι) → Prop
  | _, _, [] => True
  | w, last, e :: es =>
      (e.who = x → e.running → e.lookups > 0 → (e.lookups = w.lastLookups ↔ e.lookups = last)) ∧
        Undisturbed x (adaptOne w e) (if e.who = x then (ownStep (w.adapt x, last) e).2 else last) es

variable {x : ι} {w : Worker ι F} {e : Seen ι}

theorem adapt_other (h : e.who ≠ x) : (adaptOne w e).adapt x = w.adapt x := by
  rw [adaptOne, updateAlpha]
  split
  · split
    · exact Function.update_of_ne (Ne.symm h) ..
    · rfl
  · rfl

theorem adapt_own {last : UInt64} (hwho : e.who = x)
    (h : e.running → e.lookups > 0 → (e.lookups = w.lastLookups ↔ e.lookups = last)) :
    (adaptOne w e).adapt x = (ownStep (w.adapt x, last) e).1 := by
  subst hwho
  rw [adaptOne, ownStep]
  cases hrun : e.running with
  | false => simp
  | true =>
    by_cases hpos : e.lookups > 0
    · have hsame := h hrun hpos
      rw [updateAlpha]
      by_cases hnew : e.lookups = last
      · have hold : e.lookups = w.lastLookups := hsame.mpr hnew
        simp only [if_true, true_and, ne_eq, hnew, not_true_eq_false, false_and, if_false, ← hold]
      · have hold : e.lookups ≠ w.lastLookups := fun heq => hnew (hsame.mp heq)
        simp [hpos, hnew, hold]
    · simp [updateAlpha, hpos]

/-- The adaptation of a scheduler that is not disturbed is made of its own counters. -/
theorem adapt_eq {es : List (Seen ι)} {last : UInt64} (h : Undisturbed x w last es) :
    (es.foldl adaptOne w).adapt x = ((own x es).foldl ownStep (w.adapt x, last)).1 := by
  induction es generalizing w last with
  | nil => rfl
  | cons e es ih =>
    obtain ⟨hfirst, hrest⟩ := h
    rw [List.foldl_cons, ih hrest]
    by_cases hwho : e.who = x
    · have hown : own x (e :: es) = e :: own x es := List.filter_cons_of_pos (by simpa using hwho)
      rw [if_pos hwho, hown, List.foldl_cons, adapt_own hwho (hfirst hwho)]
    · have hown : own x (e :: es) = own x es := List.filter_cons_of_neg (by simpa using hwho)
      rw [if_neg hwho, hown, adapt_other hwho]

theorem adaptOne_idle (h : e.running = false ∨ e.lookups = 0) : adaptOne w e = w := by
  rw [adaptOne]
  split
  · rename_i hrun
    rw [updateAlpha, if_neg]
    rintro ⟨-, hpos⟩
    rcases h with hno | hzero
    · simp [hrun] at hno
    · simp [hzero] at hpos
  · rfl

/-- A scheduler is not disturbed where no other one looks up experts. -/
theorem undisturbed_of_alone {es : List (Seen ι)}
    (h : ∀ e ∈ es, e.who ≠ x → e.running = false ∨ e.lookups = 0) : Undisturbed x w w.lastLookups es := by
  induction es generalizing w with
  | nil => trivial
  | cons e es ih =>
    obtain ⟨hfirst, hrest⟩ := List.forall_mem_cons.mp h
    refine ⟨fun _ _ _ => Iff.rfl, ?_⟩
    by_cases hwho : e.who = x
    · have hlast : (ownStep (w.adapt x, w.lastLookups) e).2 = (adaptOne w e).lastLookups := by
        rw [ownStep, adaptOne, updateAlpha]
        cases e.running with
        | false => rfl
        | true =>
          by_cases hnew : e.lookups ≠ w.lastLookups ∧ e.lookups > 0
          · simp [hnew]
          · simp only [if_true, if_neg hnew, true_and]
      rw [if_pos hwho, hlast]
      exact ih hrest
    · rw [if_neg hwho, adaptOne_idle (hfirst hwho)]
      exact ih hrest

end update

section spec

variable {ι F : Type} [DecidableEq ι] [Add F] [Sub F] [Mul F] [Div F] [LT F] [DecidableLT F] [NatCast F]
  [OfScientific F]

/-- Runs that show the same of a scheduler adapt it alike if it is disturbed in neither. -/
theorem alpha_independent (x : ι) (adapt₁ adapt₂ : ι → Adapt F) (snaps₁ snaps₂ : List (List (Seen ι)))
    (hinit : adapt₁ x = adapt₂ x) (hown : snaps₁.map (own x) = snaps₂.map (own x))
    (h₁ : Undisturbed x (fresh adapt₁) 0 snaps₁.flatten)
    (h₂ : Undisturbed x (fresh adapt₂) 0 snaps₂.flatten) :
    (ticks (fresh adapt₁) snaps₁).adapt x = (ticks (fresh adapt₂) snaps₂).adapt x := by
  have hflat : ∀ snaps : List (List (Seen ι)), own x snaps.flatten = (snaps.map (own x)).flatten :=
    fun snaps => List.filter_flatten
  rw [ticks_eq, ticks_eq, adapt_eq h₁, adapt_eq h₂, hflat, hflat, hown]
  simp [fresh, hinit]

/-- Two models at one worker: the counters of the first in two ticks, and those of the second. -/
def twoModels (firstThen firstNow second : UInt64) : List (List (Seen Bool)) :=
  [[⟨true, true, firstThen, firstThen⟩, ⟨false, true, second, 0⟩],
    [⟨true, true, firstNow, firstNow⟩, ⟨false, true, second, 0⟩]]

def halfHits : Bool → Adapt ℚ := fun _ => ⟨1 / 2, 1 / 2⟩

theorem alpha_independent_busy :
    (ticks (fresh halfHits) (twoModels 1 2 0)).adapt true = (ticks (fresh halfHits) (twoModels 1 2 9)).adapt true :=
  alpha_independent true halfHits halfHits (twoModels 1 2 0) (twoModels 1 2 9) rfl (by decide)
    (by simp [twoModels, Undisturbed, fresh, adaptOne, updateAlpha, ownStep])
    (by simp [twoModels, Undisturbed, fresh, adaptOne, updateAlpha, ownStep])

/-- The first model does nothing between the ticks; what it adapts to depends on the second one. -/
theorem not_alpha_independent :
    ¬ ∀ (x : Bool) (adapt : Bool → Adapt ℚ) (snaps₁ snaps₂ : List (List (Seen Bool))),
      snaps₁.map (own x) = snaps₂.map (own x) →
        (ticks (fresh adapt) snaps₁).adapt x = (ticks (fresh adapt) snaps₂).adapt x := by
  intro h
  have hsame := h true halfHits (twoModels 1 1 0) (twoModels 1 1 9) (by decide)
  revert hsame
  decide +kernel

end spec

end AlphaUpdate
end StreamMoE
