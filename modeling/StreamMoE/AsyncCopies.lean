import Mathlib.Data.List.Basic

/-! Traces of asynchronous copies out of host buffers: a buffer must not change before the device that a
copy was issued to is waited for. -/
namespace StreamMoE
namespace AsyncCopies

/-- A copy out of a buffer to a device, a change of a buffer, its end, and a wait for a device. -/
inductive Event (D B : Type*)
  | copy (d : D) (b : B)
  | write (b : B)
  | free (b : B)
  | sync (d : D)
  deriving DecidableEq, Repr

variable {D B : Type*}

/-- The event changes the buffer or ends it. -/
def Event.Touches (e : Event D B) (b : B) : Prop := e = .write b ∨ e = .free b

/-- The device has not been waited for since a copy out of the buffer. -/
def InFlight (tr : List (Event D B)) (d : D) (b : B) : Prop :=
  ∃ pre post, tr = pre ++ .copy d b :: post ∧ .sync d ∉ post

/-- No buffer is touched while a copy out of it is in flight. -/
def Safe (tr : List (Event D B)) : Prop :=
  ∀ pre e post, tr = pre ++ e :: post → ∀ d b, e.Touches b → ¬ InFlight pre d b

/-- Safe, and nothing is in flight at the end. -/
structure Settled (tr : List (Event D B)) : Prop where
  safe : Safe tr
  quiet : ∀ d b, ¬ InFlight tr d b

variable {xs ys tr : List (Event D B)} {d : D} {b : B}

/-- An event of two traces in a row belongs to one of them. -/
theorem append_eq_split {e : Event D B} {pre post : List (Event D B)} (h : xs ++ ys = pre ++ e :: post) :
    (∃ zs, xs = pre ++ e :: zs ∧ post = zs ++ ys) ∨
      ∃ zs, pre = xs ++ zs ∧ ys = zs ++ e :: post := by
  rcases List.append_eq_append_iff.mp h with ⟨zs, hpre, hys⟩ | ⟨zs, hxs, htail⟩
  · exact .inr ⟨zs, hpre, hys⟩
  · cases zs with
    | nil => exact .inr ⟨[], by simpa using hxs.symm, by simpa using htail.symm⟩
    | cons z zs =>
      rw [List.cons_append, List.cons.injEq] at htail
      obtain ⟨rfl, rfl⟩ := htail
      exact .inl ⟨zs, hxs, rfl⟩

theorem inFlight_append :
    InFlight (xs ++ ys) d b ↔ InFlight ys d b ∨ (InFlight xs d b ∧ .sync d ∉ ys) := by
  constructor
  · rintro ⟨pre, post, heq, hpost⟩
    rcases append_eq_split heq with ⟨zs, hxs, rfl⟩ | ⟨zs, _, hys⟩
    · rw [List.mem_append, not_or] at hpost
      exact .inr ⟨⟨pre, zs, hxs, hpost.1⟩, hpost.2⟩
    · exact .inl ⟨zs, post, hys, hpost⟩
  · rintro (⟨pre, post, rfl, hpost⟩ | ⟨⟨pre, post, rfl, hpost⟩, hys⟩)
    · exact ⟨xs ++ pre, post, by simp, hpost⟩
    · exact ⟨pre, post ++ ys, by simp, by simp [hpost, hys]⟩

theorem not_inFlight (h : ∀ d b, .copy d b ∉ tr) : ¬ InFlight tr d b := by
  rintro ⟨pre, post, rfl, _⟩
  exact h d b (by simp)

theorem InFlight.mem (h : InFlight tr d b) : .copy d b ∈ tr := by
  obtain ⟨pre, post, rfl, _⟩ := h
  simp

theorem Safe.left (h : Safe (xs ++ ys)) : Safe xs := by
  rintro pre e post rfl
  exact h pre e (post ++ ys) (by simp)

/-- A trace that starts with nothing in flight. -/
theorem Settled.append_safe (hx : Settled xs) (hy : Safe ys) : Safe (xs ++ ys) := by
  intro pre e post heq d b htouch hflight
  rcases append_eq_split heq with ⟨zs, hxs, _⟩ | ⟨zs, rfl, hys⟩
  · exact hx.safe pre e zs hxs d b htouch hflight
  · rcases inFlight_append.mp hflight with hzs | ⟨hxs, _⟩
    · exact hy zs e post hys d b htouch hzs
    · exact hx.quiet d b hxs

/-- Events that touch nothing. -/
theorem Safe.append_untouched (h : Safe xs) (hy : ∀ e ∈ ys, ∀ b, ¬ e.Touches b) : Safe (xs ++ ys) := by
  intro pre e post heq d b htouch hflight
  rcases append_eq_split heq with ⟨zs, hxs, _⟩ | ⟨zs, _, hys⟩
  · exact h pre e zs hxs d b htouch hflight
  · exact hy e (by simp [hys]) b htouch

theorem Settled.append (hx : Settled xs) (hy : Settled ys) : Settled (xs ++ ys) := by
  refine ⟨hx.append_safe hy.safe, fun d b hflight => ?_⟩
  rcases inFlight_append.mp hflight with h | ⟨h, _⟩
  · exact hy.quiet d b h
  · exact hx.quiet d b h

theorem settled_nil : Settled ([] : List (Event D B)) :=
  ⟨fun pre e post heq => absurd heq (by simp), fun _ _ => not_inFlight (by simp)⟩

theorem Settled.flatten {trs : List (List (Event D B))} (h : ∀ tr ∈ trs, Settled tr) :
    Settled trs.flatten := by
  induction trs with
  | nil => exact settled_nil
  | cons tr trs ih =>
    obtain ⟨htr, hrest⟩ := List.forall_mem_cons.mp h
    simpa using htr.append (ih hrest)

/-- Without a copy nothing can go wrong. -/
theorem settled_of_no_copy (h : ∀ d b, .copy d b ∉ tr) : Settled tr := by
  refine ⟨fun pre e post heq d b _ => not_inFlight fun d b hmem => h d b ?_, fun _ _ => not_inFlight h⟩
  rw [heq]
  exact List.mem_append_left _ hmem

theorem safe_burst (hx : ∀ d b, .copy d b ∉ xs) (hy : ∀ e ∈ ys, ∃ b, e = .copy d b) :
    Safe (xs ++ ys) := by
  refine (settled_of_no_copy hx).safe.append_untouched fun e he b htouch => ?_
  obtain ⟨b', rfl⟩ := hy e he
  rcases htouch with h | h <;> cases h

theorem inFlight_copies (xs : List (Event D B)) (hy : ∀ e ∈ ys, ∃ b, e = .copy d b) (hne : ys ≠ []) :
    ∃ b, InFlight (xs ++ ys) d b := by
  obtain ⟨b, hlast⟩ := hy _ (List.getLast_mem hne)
  refine ⟨b, xs ++ ys.dropLast, [], ?_, List.not_mem_nil⟩
  rw [List.append_assoc, ← hlast, List.dropLast_append_getLast hne]

/-- The burst is over once its device was waited for. -/
theorem settled_burst (hx : ∀ d b, .copy d b ∉ xs) (hy : ∀ e ∈ ys, ∃ b, e = .copy d b) :
    Settled (xs ++ ys ++ [.sync d]) := by
  refine ⟨(safe_burst hx hy).append_untouched fun e he b htouch => ?_, fun d' b hflight => ?_⟩
  · rw [List.mem_singleton.mp he] at htouch
    rcases htouch with h | h <;> cases h
  · rcases inFlight_append.mp hflight with h | ⟨h, hnot⟩
    · exact not_inFlight (by simp) h
    · rcases List.mem_append.mp h.mem with hmem | hmem
      · exact hx d' b hmem
      · obtain ⟨b', heq⟩ := hy _ hmem
        cases heq
        simp at hnot

end AsyncCopies
end StreamMoE
