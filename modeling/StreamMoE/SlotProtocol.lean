import Mathlib.Data.Int.Notation
import StreamMoE.SlotWord
import StreamMoE.TransitionSystem

/-! `slot_meta` with any number of threads in its methods: every compare-and-swap is a step, and between the
read of the word and the compare-and-swap any other thread may move. -/
namespace StreamMoE
namespace SlotProtocol

open SlotWord TransitionSystem

section fields

/-- What the word packs. -/
structure Fields where
  state : SlotState
  refcount : ℕ
  gen : ℕ
  deriving DecidableEq, Repr

def Denotes (w : Word) (f : Fields) : Prop := Reads w f.state f.refcount f.gen

inductive Op
  | tryPin | unpin | markReady | beginEvict | beginReload | releaseToEmpty | markFailed
  deriving DecidableEq, Repr

/-- The new word the loop of a method makes from the one it saw; none where the loop is left without a
compare-and-swap. -/
def Op.offer : Op → Word → Option Word
  | .tryPin, w => SlotWord.tryPin w
  | .unpin, w => if slotWordRefcount w = 0 then none else some (SlotWord.unpin w)
  | .markReady, w =>
      if slotWordState w = SlotState.ioInflight.code then some (SlotWord.markReady w) else none
  | .beginEvict, w => SlotWord.beginEvict w
  | .beginReload, w => some (SlotWord.beginReload w)
  | .releaseToEmpty, w => some (SlotWord.releaseToEmpty w)
  | .markFailed, w => some (SlotWord.markFailed w)

/-- The method on a slot whose fields are apart from one another. -/
def Op.effect : Op → Fields → Option Fields
  | .tryPin, f =>
      if f.state = .ready ∧ f.refcount < 2 ^ 29 - 1 then some { f with refcount := f.refcount + 1 } else none
  | .unpin, f => if f.refcount = 0 then none else some { f with refcount := f.refcount - 1 }
  | .markReady, f => if f.state = .ioInflight then some { f with state := .ready } else none
  | .beginEvict, f => if f.state = .ready then some { f with state := .evicting } else none
  | .beginReload, f => some ⟨.ioInflight, 0, nextGen f.gen⟩
  | .releaseToEmpty, f => some ⟨.empty, 0, nextGen f.gen⟩
  | .markFailed, f => some { f with state := .failed }

variable {op : Op} {w w' : Word} {f : Fields}

/-- The fields lie side by side. -/
theorem Denotes.toNat (h : Denotes w f) : w.toNat = f.gen * 2 ^ 32 + (f.refcount * 2 ^ 3 + f.state.code) := by
  have hstate := slotWordState_eq w
  have hcount := slotWordRefcount_eq w
  have hgen := slotWordGeneration_eq w
  rw [h.state] at hstate
  rw [h.refcount] at hcount
  rw [h.generation] at hgen
  omega

theorem Denotes.state_iff (h : Denotes w f) (st : SlotState) : slotWordState w = st.code ↔ f.state = st := by
  rw [h.state]
  exact ⟨code_injective, fun heq => heq ▸ rfl⟩

/-- The packed word does what the fields do: no arithmetic on the count reaches the other bits. -/
theorem offer_effect (op : Op) (h : Denotes w f) :
    (op.offer w = none ∧ op.effect f = none) ∨
      ∃ w' f', op.offer w = some w' ∧ op.effect f = some f' ∧ Denotes w' f' := by
  cases op with
  | tryPin =>
    rcases Reads.tryPin h with ⟨w', hw', hready, hreads⟩ | ⟨hw', hnot⟩
    · have hfits : f.refcount < 2 ^ 29 - 1 := by
        have hlt := slotWordRefcount_lt w'
        rw [hreads.refcount] at hlt
        omega
      refine .inr ⟨w', { f with refcount := f.refcount + 1 }, hw', if_pos ⟨hready, hfits⟩, ?_⟩
      exact ⟨hready ▸ hreads.state, hreads.refcount, hreads.generation⟩
    · refine .inl ⟨hw', if_neg ?_⟩
      rintro ⟨hready, hlt⟩
      rcases hnot with hne | hge
      · exact hne hready
      · omega
  | unpin =>
    simp only [Op.offer, Op.effect, h.refcount]
    by_cases hzero : f.refcount = 0
    · exact .inl ⟨if_pos hzero, if_pos hzero⟩
    · exact .inr ⟨_, _, if_neg hzero, if_neg hzero, Reads.unpin h⟩
  | markReady =>
    simp only [Op.offer, Op.effect, h.state_iff]
    by_cases hload : f.state = .ioInflight
    · have hreads : Reads w .ioInflight f.refcount f.gen := hload ▸ h
      exact .inr ⟨_, _, if_pos hload, if_pos hload, hreads.markReady⟩
    · exact .inl ⟨if_neg hload, if_neg hload⟩
  | beginEvict =>
    by_cases hready : f.state = .ready
    · have hreads : Reads w .ready f.refcount f.gen := hready ▸ h
      obtain ⟨w', hw', hreads'⟩ := hreads.beginEvict
      exact .inr ⟨w', { f with state := .evicting }, hw', if_pos hready, hreads'⟩
    · have hcode : slotWordState w ≠ SlotState.ready.code := fun heq => hready ((h.state_iff _).mp heq)
      exact .inl ⟨if_neg hcode, if_neg hready⟩
  | beginReload => exact .inr ⟨_, _, rfl, rfl, Reads.beginReload h⟩
  | releaseToEmpty => exact .inr ⟨_, _, rfl, rfl, Reads.releaseToEmpty h⟩
  | markFailed => exact .inr ⟨_, _, rfl, rfl, Reads.markFailed h⟩

theorem effect_of_offer (h : Denotes w f) (hoffer : op.offer w = some w') :
    ∃ f', op.effect f = some f' ∧ Denotes w' f' := by
  rcases offer_effect op h with ⟨hnone, _⟩ | ⟨w'', f', hw'', hf', hden⟩
  · rw [hoffer] at hnone
    cases hnone
  · rw [hoffer] at hw''
    cases hw''
    exact ⟨f', hf', hden⟩

def Op.isReset (op : Op) : Bool := op == .beginReload || op == .releaseToEmpty

/-- The four ways in which a method changes the fields. -/
inductive Change : Op → Fields → Fields → Prop
  | pin {f : Fields} : f.state = .ready → Change .tryPin f { f with refcount := f.refcount + 1 }
  | unpin {f : Fields} : f.refcount ≠ 0 → Change .unpin f { f with refcount := f.refcount - 1 }
  | reset {op : Op} {f : Fields} (st : SlotState) : op.isReset = true → st ≠ .ready →
      Change op f ⟨st, 0, nextGen f.gen⟩
  | mark {op : Op} {f : Fields} (st : SlotState) : op ≠ .tryPin → op ≠ .unpin → op.isReset = false →
      (st = .ready → f.state = .ioInflight) → Change op f { f with state := st }

theorem change_of_effect {f' : Fields} (h : op.effect f = some f') : Change op f f' := by
  cases op with
  | beginReload =>
    cases h
    exact .reset .ioInflight rfl (by decide)
  | releaseToEmpty =>
    cases h
    exact .reset .empty rfl (by decide)
  | markFailed =>
    cases h
    exact .mark .failed (by decide) (by decide) rfl nofun
  | tryPin =>
    obtain ⟨hif, heq⟩ := Option.ite_none_right_eq_some.mp h
    cases heq
    exact .pin hif.1
  | unpin =>
    obtain ⟨hif, heq⟩ := Option.ite_none_left_eq_some.mp h
    cases heq
    exact .unpin hif
  | markReady =>
    obtain ⟨hif, heq⟩ := Option.ite_none_right_eq_some.mp h
    cases heq
    exact .mark .ready (by decide) (by decide) rfl fun _ => hif
  | beginEvict =>
    obtain ⟨hif, heq⟩ := Option.ite_none_right_eq_some.mp h
    cases heq
    exact .mark .evicting (by decide) (by decide) rfl nofun

/-- The count follows the pins and unpins, also through a reset that finds it at zero. -/
theorem Change.refcount {f' : Fields} (h : Change op f f') (hzero : op.isReset = true → f.refcount = 0) :
    f'.refcount + (if op = .unpin then 1 else 0) = f.refcount + if op = .tryPin then 1 else 0 := by
  cases h with
  | pin hready => rfl
  | unpin hpos => exact Nat.sub_add_cancel (Nat.pos_of_ne_zero hpos)
  | reset st hop =>
    have hne : op ≠ .unpin ∧ op ≠ .tryPin := by constructor <;> rintro rfl <;> cases hop
    rw [if_neg hne.1, if_neg hne.2, hzero hop]
  | mark st hpin hunpin hop => rw [if_neg hpin, if_neg hunpin]

end fields

section machine

/-- A thread inside a method, with the value of the word it saw last. -/
structure Call where
  op : Op
  seen : Word
  deriving DecidableEq, Repr

/-- A method that has returned; `swapped` tells that its compare-and-swap replaced the value seen. -/
structure Returned where
  op : Op
  seen : Word
  swapped : Bool
  deriving DecidableEq, Repr

/-- The value returned; 0 for the methods without one. -/
def Returned.answer (r : Returned) : ℤ :=
  match r.op with
  | .tryPin => if r.swapped then slotWordGeneration r.seen else -1
  | .beginEvict => if r.swapped then 1 else 0
  | .beginReload => nextGen (slotWordGeneration r.seen)
  | _ => 0

def Returned.pinned (r : Returned) : Bool := r.op == .tryPin && decide (0 ≤ r.answer)

def Returned.resets (r : Returned) : Bool := r.swapped && r.op.isReset

/-- The threads that use the slot, idle or inside a method. `issued` counts the calls of `unpin` begun and
`log` holds the methods that have returned, the latest first. -/
structure State where
  word : Word
  threads : List (Option Call)
  issued : ℕ
  log : List Returned

inductive Action
  | call (t : ℕ) (op : Op)
  | attempt (t : ℕ) (spurious : Bool)
  deriving DecidableEq, Repr

namespace State

variable (s : State)

def setThread (t : ℕ) (c : Option Call) : State := { s with threads := s.threads.set t c }

/-- A method begins with a load of the word. -/
def call (t : ℕ) (op : Op) : State :=
  { s.setThread t (some ⟨op, s.word⟩) with issued := if op = .unpin then s.issued + 1 else s.issued }

def finish (t : ℕ) (c : Call) (swapped : Bool) : State :=
  { s.setThread t none with log := ⟨c.op, c.seen, swapped⟩ :: s.log }

/-- One turn of the retry loop. `compare_exchange_weak` may fail without a reason; a failure leaves the
thread with the word it found. -/
def attempt (t : ℕ) (c : Call) (spurious : Bool) : State :=
  match c.op.offer c.seen with
  | none => s.finish t c false
  | some w =>
      if s.word = c.seen ∧ spurious = false then { s.finish t c true with word := w }
      else s.setThread t (some { c with seen := s.word })

end State

def step (s : State) : Action → Option State
  | .call t op => if s.threads[t]? = some none then some (s.call t op) else none
  | .attempt t spurious =>
      match s.threads[t]? with
      | some (some c) => some (s.attempt t c spurious)
      | _ => none

def initial (n : ℕ) : State :=
  { word := slotWord SlotState.empty.code 0 0, threads := List.replicate n none, issued := 0, log := [] }

def machine (n : ℕ) : Machine State Action where
  init s := s = initial n
  step := step

/-- What a step can do. -/
inductive Move (s : State) : Action → State → Prop
  | called (t : ℕ) (op : Op) : s.threads[t]? = some none → Move s (.call t op) (s.call t op)
  | left (t : ℕ) (spurious : Bool) (c : Call) : s.threads[t]? = some (some c) →
      c.op.offer c.seen = none → Move s (.attempt t spurious) (s.finish t c false)
  | swapped (t : ℕ) (op : Op) (w : Word) : s.threads[t]? = some (some ⟨op, s.word⟩) →
      op.offer s.word = some w →
      Move s (.attempt t false) { s.finish t ⟨op, s.word⟩ true with word := w }
  | retried (t : ℕ) (spurious : Bool) (c : Call) : s.threads[t]? = some (some c) →
      Move s (.attempt t spurious) (s.setThread t (some { c with seen := s.word }))

variable {s s' : State} {a : Action}

theorem move_of_step (h : step s a = some s') : Move s a s' := by
  cases a with
  | call t op =>
    simp only [step] at h
    split at h
    · rename_i hidle
      cases h
      exact .called t op hidle
    · cases h
  | attempt t spurious =>
    simp only [step] at h
    split at h
    · rename_i c hc
      cases h
      obtain ⟨op, seen⟩ := c
      unfold State.attempt
      dsimp only
      cases hoffer : op.offer seen with
      | none => exact .left t spurious ⟨op, seen⟩ hc hoffer
      | some w =>
        dsimp only
        split
        · rename_i hswap
          obtain ⟨rfl, rfl⟩ := hswap
          exact .swapped t op w hc hoffer
        · exact .retried t spurious ⟨op, seen⟩ hc
    · cases h

end machine

section always

/-- Successful pins, calls of `unpin`, and those that took a pin back. -/
def pins (log : List Returned) : ℕ := log.countP Returned.pinned

def unpins (log : List Returned) : ℕ := log.countP fun r => r.op == .unpin

def takenBack (log : List Returned) : ℕ := log.countP fun r => r.op == .unpin && r.swapped

def resets (log : List Returned) : ℕ := log.countP Returned.resets

/-- What has returned since the last reload or release. -/
def sinceReset (log : List Returned) : List Returned := log.takeWhile fun r => !r.resets

/-- The word is a count of the pins taken and not taken back, and a generation that counts the resets. -/
structure Agrees (s : State) (f : Fields) : Prop where
  denotes : Denotes s.word f
  count : f.refcount + takenBack (sinceReset s.log) = pins (sinceReset s.log)
  gen : f.gen = resets s.log % 2 ^ 32

/-- A compare-and-swap of the count alone: one pin more. -/
structure OneMore (w w' : Word) : Prop where
  bits : w'.toNat = w.toNat + 2 ^ 3
  refcount : slotWordRefcount w' = slotWordRefcount w + 1
  state : slotWordState w' = slotWordState w
  gen : slotWordGeneration w' = slotWordGeneration w

structure Obeys (s s' : State) : Prop where
  still : s'.log = s.log → s'.word = s.word
  idle : ∀ r, s'.log = r :: s.log → r.swapped = false → s'.word = s.word
  pin : ∀ r, s'.log = r :: s.log → r.pinned = true →
    slotWordState s.word = SlotState.ready.code ∧ OneMore s.word s'.word
  unpin : ∀ r, s'.log = r :: s.log → r.op = .unpin → r.swapped = true → OneMore s'.word s.word
  gen : ∀ r, s'.log = r :: s.log → slotWordGeneration s'.word =
    if r.resets then nextGen (slotWordGeneration s.word) else slotWordGeneration s.word
  ready : slotWordState s'.word = SlotState.ready.code →
    slotWordState s.word = SlotState.ready.code ∨ slotWordState s.word = SlotState.ioInflight.code

variable {s s' : State} {a : Action} {f f' : Fields} {w w' : Word}

theorem pinned_iff (r : Returned) : r.pinned = true ↔ r.op = .tryPin ∧ r.swapped = true := by
  obtain ⟨op, seen, swapped⟩ := r
  cases op <;> cases swapped <;> simp [Returned.pinned, Returned.answer]

/-- A step that leaves the word alone obeys the rules. -/
theorem obeys_same (hword : s'.word = s.word) (hlog : ∀ r, s'.log = r :: s.log → r.swapped = false) :
    Obeys s s' := by
  refine ⟨fun _ => hword, fun _ _ _ => hword, ?_, ?_, ?_, fun h => .inl (hword ▸ h)⟩
  · intro r hr hpin
    exact absurd ((pinned_iff r).mp hpin).2 (by simp [hlog r hr])
  · intro r hr _ hswap
    rw [hlog r hr] at hswap
    cases hswap
  · intro r hr
    rw [hword, if_neg (by simp [Returned.resets, hlog r hr])]

theorem oneMore_of_denotes (h : Denotes w f) (h' : Denotes w' { f with refcount := f.refcount + 1 }) :
    OneMore w w' := by
  have hbits := h.toNat
  have hbits' := h'.toNat
  refine ⟨?_, h'.refcount.trans (by rw [h.refcount]), h'.state.trans h.state.symm,
    h'.generation.trans h.generation.symm⟩
  dsimp only at hbits'
  omega

theorem obeys_swapped {op : Op} {seen : Word} (h : Denotes s.word f) (h' : Denotes s'.word f')
    (hchange : Change op f f') (hlog : s'.log = ⟨op, seen, true⟩ :: s.log) : Obeys s s' := by
  have hentry : ∀ r, s'.log = r :: s.log → r = ⟨op, seen, true⟩ := by
    intro r hr
    rw [hlog] at hr
    exact (List.cons.inj hr).1.symm
  have hresets : (Returned.mk op seen true).resets = op.isReset := rfl
  refine ⟨?_, ?_, ?_, ?_, ?_, ?_⟩
  · intro hsame
    rw [hlog] at hsame
    exact absurd hsame (List.cons_ne_self _ _)
  · intro r hr hswap
    rw [hentry r hr] at hswap
    cases hswap
  · intro r hr hpin
    rw [hentry r hr, pinned_iff] at hpin
    obtain ⟨rfl, _⟩ := hpin
    cases hchange with
    | pin hready => exact ⟨(h.state_iff .ready).mpr hready, oneMore_of_denotes h h'⟩
    | reset st hop => cases hop
    | mark st hop => exact absurd rfl hop
  · intro r hr hop _
    rw [hentry r hr] at hop
    cases hop
    cases hchange with
    | unpin hcount =>
      refine oneMore_of_denotes h' ?_
      have hback : f.refcount - 1 + 1 = f.refcount := Nat.sub_add_cancel (Nat.pos_of_ne_zero hcount)
      rwa [hback]
    | reset st hop => cases hop
    | mark st _ hop => exact absurd rfl hop
  · intro r hr
    rw [hentry r hr, hresets, h'.generation, h.generation]
    cases hchange with
    | pin | unpin => rfl
    | reset st hop => rw [if_pos hop]
    | mark st _ _ hop => simp [hop]
  · intro hready
    rw [h'.state_iff] at hready
    rw [h.state_iff, h.state_iff]
    cases hchange with
    | pin h | unpin h => exact .inl hready
    | reset st _ hne => exact absurd hready hne
    | mark st _ _ _ hload => exact .inr (hload hready)

theorem obeys_of_move (h : Denotes s.word f) (hmove : Move s a s') : Obeys s s' := by
  cases hmove with
  | called t op => exact obeys_same rfl fun r hr => absurd hr.symm (List.cons_ne_self _ _)
  | left t spurious c =>
    refine obeys_same rfl fun r hr => ?_
    rw [← (List.cons.inj hr).1]
  | swapped t op w _ hoffer =>
    obtain ⟨f', heffect, hden⟩ := effect_of_offer h hoffer
    exact obeys_swapped h hden (change_of_effect heffect) rfl
  | retried t spurious c => exact obeys_same rfl fun r hr => absurd hr.symm (List.cons_ne_self _ _)

theorem Agrees.same (h : Agrees s f) (hword : s'.word = s.word) (hlog : s'.log = s.log) : Agrees s' f :=
  ⟨hword ▸ h.denotes, hlog ▸ h.count, hlog ▸ h.gen⟩

@[simp] theorem pins_cons (r : Returned) (log : List Returned) :
    pins (r :: log) = pins log + if r.pinned then 1 else 0 := List.countP_cons

@[simp] theorem unpins_cons (r : Returned) (log : List Returned) :
    unpins (r :: log) = unpins log + if r.op = .unpin then 1 else 0 := by
  simp only [unpins, List.countP_cons, beq_iff_eq]

@[simp] theorem takenBack_cons (r : Returned) (log : List Returned) :
    takenBack (r :: log) = takenBack log + if r.op = .unpin ∧ r.swapped = true then 1 else 0 := by
  simp only [takenBack, List.countP_cons, Bool.and_eq_true, beq_iff_eq]

@[simp] theorem resets_cons (r : Returned) (log : List Returned) :
    resets (r :: log) = resets log + if r.resets then 1 else 0 := List.countP_cons

theorem sinceReset_cons (r : Returned) (log : List Returned) :
    sinceReset (r :: log) = if r.resets then [] else r :: sinceReset log := by
  cases hr : r.resets <;> simp [sinceReset, hr]

variable (op : Op) (seen : Word) (log : List Returned)

@[simp] theorem pins_swapped : pins (⟨op, seen, true⟩ :: log) = pins log + if op = .tryPin then 1 else 0 := by
  have hpin : (Returned.mk op seen true).pinned = true ↔ op = .tryPin := by simp [pinned_iff]
  simp only [pins_cons, hpin]

theorem sinceReset_swapped : sinceReset (⟨op, seen, true⟩ :: log) =
    if op.isReset then [] else ⟨op, seen, true⟩ :: sinceReset log := sinceReset_cons _ _

/-- A method that changed nothing counts for nothing. -/
theorem Agrees.left (h : Agrees s f) {r : Returned} (hswap : r.swapped = false) (hword : s'.word = s.word)
    (hlog : s'.log = r :: s.log) : Agrees s' f := by
  have hpin : r.pinned = false := Bool.eq_false_iff.mpr fun hpin => by simp [((pinned_iff r).mp hpin).2] at hswap
  have hreset : r.resets = false := by simp [Returned.resets, hswap]
  refine ⟨hword ▸ h.denotes, ?_, ?_⟩
  · rw [hlog, sinceReset_cons, hreset]
    simpa [hpin, hswap] using h.count
  · rw [hlog, resets_cons, hreset]
    exact h.gen

theorem Agrees.swapped {op : Op} {seen : Word} (h : Agrees s f) (hden : Denotes s'.word f')
    (hchange : Change op f f') (hlog : s'.log = ⟨op, seen, true⟩ :: s.log) : Agrees s' f' := by
  have hreset : (Returned.mk op seen true).resets = op.isReset := rfl
  have hcount := h.count
  have hgen := h.gen
  refine ⟨hden, ?_, ?_⟩
  · rw [hlog, sinceReset_swapped]
    split_ifs with hop
    · cases hchange with
      | pin | unpin => cases hop
      | reset st => rfl
      | mark st _ _ hnot =>
        rw [hnot] at hop
        cases hop
    · have hdelta := hchange.refcount fun h => absurd h hop
      simp only [takenBack_cons, pins_swapped, and_true]
      omega
  · rw [hlog, resets_cons, hreset]
    cases hchange with
    | pin | unpin => exact hgen
    | reset st hop =>
      rw [if_pos hop]
      simp only [nextGen, hgen]
      omega
    | mark st _ _ hop =>
      rw [hop]
      exact hgen

theorem Agrees.move (h : Agrees s f) (hmove : Move s a s') : ∃ f', Agrees s' f' := by
  cases hmove with
  | called t op => exact ⟨f, h.same rfl rfl⟩
  | left t spurious c => exact ⟨f, Agrees.left h rfl rfl rfl⟩
  | swapped t op w _ hoffer =>
    obtain ⟨f', heffect, hden⟩ := effect_of_offer h.denotes hoffer
    exact ⟨f', Agrees.swapped h hden (change_of_effect heffect) rfl⟩
  | retried t spurious c => exact ⟨f, h.same rfl rfl⟩

theorem agrees_initial (n : ℕ) : Agrees (initial n) ⟨.empty, 0, 0⟩ :=
  ⟨reads_slotWord .empty (by decide) (by decide), rfl, rfl⟩

theorem agrees_of_reach {n : ℕ} {guard : State → Action → Prop} (h : Reach (machine n) guard s) :
    ∃ f, Agrees s f := by
  refine h.invariant (I := fun s => ∃ f, Agrees s f) ?_ ?_
  · rintro s rfl
    exact ⟨_, agrees_initial n⟩
  · rintro s a s' ⟨f, hf⟩ _ hstep
    exact hf.move (move_of_step hstep)

end always

section disciplined

def unpinning (c : Option Call) : Bool := c.any fun c => c.op == .unpin

/-- Each call of `unpin` gives back a pin, and no pin is out where a reload or release takes effect. -/
def Disciplined (s : State) : Action → Prop
  | .call _ op => op = .unpin → s.issued < pins s.log
  | .attempt t _ => ∀ c ∈ s.threads[t]?.join, c.op.isReset = true → c.seen = s.word →
      slotWordRefcount s.word = 0

instance (s : State) (a : Action) : Decidable (Disciplined s a) :=
  match a with
  | .call _ _ => inferInstanceAs (Decidable (_ → _))
  | .attempt _ _ => inferInstanceAs (Decidable (∀ c ∈ _, _))

/-- The count is the number of pins that are out, and the threads inside `unpin` hold one each. -/
structure Balanced (s : State) : Prop where
  total : slotWordRefcount s.word + unpins s.log = pins s.log
  since : slotWordRefcount s.word + unpins (sinceReset s.log) = pins (sinceReset s.log)
  inside : unpins s.log + s.threads.countP unpinning = s.issued
  bound : s.issued ≤ pins s.log
  sees : ∀ c, some c ∈ s.threads → c.op = .unpin → slotWordRefcount c.seen ≠ 0

variable {s s' : State} {a : Action} {f f' : Fields}

theorem countP_set_add {α : Type} {p : α → Bool} {l : List α} {t : ℕ} {x : α} (h : l[t]? = some x) (y : α) :
    (l.set t y).countP p + (if p x then 1 else 0) = l.countP p + if p y then 1 else 0 := by
  obtain ⟨ht, rfl⟩ := List.getElem?_eq_some_iff.mp h
  rw [List.countP_set ht]
  by_cases hx : p l[t] = true
  · have hpos : 0 < l.countP p := List.countP_pos_iff.mpr ⟨_, List.getElem_mem ht, hx⟩
    simp only [hx, if_true]
    omega
  · simp [hx]

/-- A thread inside `unpin` holds a pin. -/
theorem Balanced.held (h : Balanced s) {c : Call} (hc : some c ∈ s.threads) (hop : c.op = .unpin) :
    slotWordRefcount s.word ≠ 0 := by
  have hpos : 0 < s.threads.countP unpinning :=
    List.countP_pos_iff.mpr ⟨_, hc, by simp [unpinning, hop]⟩
  have htotal := h.total
  have hinside := h.inside
  have hbound := h.bound
  omega

theorem Balanced.sees_set (h : Balanced s) {t : ℕ} {d : Option Call}
    (hd : ∀ c, d = some c → c.op = .unpin → slotWordRefcount c.seen ≠ 0) {c : Call}
    (hc : some c ∈ s.threads.set t d) (hop : c.op = .unpin) : slotWordRefcount c.seen ≠ 0 := by
  rcases List.mem_or_eq_of_mem_set hc with hmem | heq
  · exact h.sees c hmem hop
  · exact hd c heq.symm hop

theorem Balanced.called (h : Balanced s) {t : ℕ} {op : Op} (hidle : s.threads[t]? = some none)
    (hguard : Disciplined s (.call t op)) : Balanced (s.call t op) := by
  have hset := @countP_set_add _ unpinning _ _ _ hidle (some ⟨op, s.word⟩)
  have htotal := h.total
  have hinside := h.inside
  have hbound := h.bound
  refine ⟨h.total, h.since, ?_, ?_, fun c => h.sees_set ?_⟩
  · simp only [State.call, State.setThread]
    simp only [unpinning, Option.any_none, Option.any_some, beq_iff_eq, Bool.false_eq_true, if_false] at hset
    split_ifs at hset ⊢ <;> omega
  · simp only [State.call, State.setThread]
    split_ifs with hop
    · exact hguard hop
    · exact hbound
  · rintro c ⟨rfl⟩ hop
    have hlt := hguard hop
    dsimp only
    omega

theorem Balanced.left (h : Balanced s) {t : ℕ} {c : Call} (hc : s.threads[t]? = some (some c))
    (hoffer : c.op.offer c.seen = none) : Balanced (s.finish t c false) := by
  -- a thread inside `unpin` has seen a pin and does not leave the loop
  have hop : c.op ≠ .unpin := by
    intro hop
    have hne := h.sees c (List.mem_of_getElem? hc) hop
    rw [hop, Op.offer, if_neg hne] at hoffer
    cases hoffer
  have hset := @countP_set_add _ unpinning _ _ _ hc none
  have hpin : (Returned.mk c.op c.seen false).pinned = false :=
    Bool.eq_false_iff.mpr fun hpin => by simpa using ((pinned_iff _).mp hpin).2
  have hinside := h.inside
  refine ⟨?_, ?_, ?_, ?_, fun c' => h.sees_set (by simp)⟩
  · simpa [State.finish, State.setThread, hop, hpin] using h.total
  · simpa [State.finish, State.setThread, sinceReset_cons, Returned.resets, hop, hpin] using h.since
  · simp [State.finish, State.setThread, unpinning, hop] at hset ⊢
    omega
  · simpa [State.finish, State.setThread, hpin] using h.bound

theorem Balanced.retried (h : Balanced s) {t : ℕ} {c : Call} (hc : s.threads[t]? = some (some c)) :
    Balanced (s.setThread t (some { c with seen := s.word })) := by
  have hset := @countP_set_add _ unpinning _ _ _ hc (some { c with seen := s.word })
  have hsame : unpinning (some { c with seen := s.word }) = unpinning (some c) := rfl
  rw [hsame, Nat.add_right_cancel_iff] at hset
  refine ⟨h.total, h.since, ?_, h.bound, fun c' => h.sees_set ?_⟩
  · exact (congrArg _ hset).trans h.inside
  · rintro c' ⟨rfl⟩ hop
    exact h.held (List.mem_of_getElem? hc) hop

theorem Balanced.swapped (h : Balanced s) (hf : Denotes s.word f) {t : ℕ} {op : Op} {w : Word}
    (hc : s.threads[t]? = some (some ⟨op, s.word⟩)) (hw : Denotes w f') (hchange : Change op f f')
    (hguard : Disciplined s (.attempt t false)) :
    Balanced { s.finish t ⟨op, s.word⟩ true with word := w } := by
  have hset := @countP_set_add _ unpinning _ _ _ hc none
  have hcount := hchange.refcount fun hop => hf.refcount ▸ hguard ⟨op, s.word⟩ (by simp [hc]) hop rfl
  rw [← hf.refcount, ← hw.refcount] at hcount
  have htotal := h.total
  have hsince := h.since
  have hinside := h.inside
  have hbound := h.bound
  simp only [unpinning, Option.any_none, Option.any_some, beq_iff_eq, Bool.false_eq_true, if_false] at hset
  refine ⟨?_, ?_, ?_, ?_, fun c => h.sees_set (by simp)⟩
  · simp only [State.finish, State.setThread, pins_swapped, unpins_cons]
    omega
  · simp only [State.finish, State.setThread, sinceReset_swapped]
    split_ifs with hop
    · cases hchange with
      | pin | unpin => cases hop
      | reset st => exact hw.refcount
      | mark st _ _ hnot =>
        rw [hnot] at hop
        cases hop
    · rw [pins_swapped, unpins_cons]
      dsimp only
      omega
  · simp only [State.finish, State.setThread, unpins_cons]
    omega
  · simp only [State.finish, State.setThread, pins_swapped]
    omega

theorem Balanced.move (h : Balanced s) (hf : Denotes s.word f) (hguard : Disciplined s a)
    (hmove : Move s a s') : Balanced s' := by
  cases hmove with
  | called t op hidle => exact h.called hidle hguard
  | left t spurious c hc hoffer => exact h.left hc hoffer
  | swapped t op w hc hoffer =>
    obtain ⟨f', heffect, hden⟩ := effect_of_offer hf hoffer
    exact h.swapped hf hc hden (change_of_effect heffect) hguard
  | retried t spurious c hc => exact h.retried hc

theorem balanced_initial (n : ℕ) : Balanced (initial n) := by
  have hzero := (agrees_initial n).denotes.refcount
  refine ⟨hzero, hzero, ?_, Nat.le_refl _, ?_⟩
  · simp [initial, unpins, unpinning]
  · intro c hc
    cases List.eq_of_mem_replicate hc

theorem balanced_of_reach {n : ℕ} (h : Reach (machine n) Disciplined s) : Balanced s := by
  have hboth : (∃ f, Agrees s f) ∧ Balanced s := by
    refine h.invariant (I := fun s => (∃ f, Agrees s f) ∧ Balanced s) ?_ ?_
    · rintro s rfl
      exact ⟨⟨_, agrees_initial n⟩, balanced_initial n⟩
    · rintro s a s' ⟨⟨f, hf⟩, hb⟩ hguard hstep
      exact ⟨hf.move (move_of_step hstep), hb.move hf.denotes hguard (move_of_step hstep)⟩
  exact hboth.2

/-- The word of a slot in every state that any number of threads come to, and every step from there. -/
theorem slot_protocol {n : ℕ} (h : Reach (machine n) anyStep s) :
    (∃ f, Agrees s f) ∧ (∀ a s', step s a = some s' → Obeys s s') ∧
      (Reach (machine n) Disciplined s →
        slotWordRefcount s.word + unpins (sinceReset s.log) = pins (sinceReset s.log)) := by
  obtain ⟨f, hf⟩ := agrees_of_reach h
  refine ⟨⟨f, hf⟩, ?_, fun hdisc => (balanced_of_reach hdisc).since⟩
  intro a s' hstep
  exact obeys_of_move hf.denotes (move_of_step hstep)

/-- One thread loads the slot, two pin it, and one of them gives its pin back at the second attempt. -/
def pinRun : List Action :=
  [.call 0 .beginReload, .attempt 0 false, .call 0 .markReady, .attempt 0 false, .call 1 .tryPin,
    .call 2 .tryPin, .attempt 1 false, .attempt 2 false, .attempt 2 false, .call 1 .unpin, .attempt 1 true,
    .attempt 1 false]

theorem slot_protocol_pinRun : ∃ s, guardedRun (machine 3) Disciplined pinRun (initial 3) = some s ∧
    (∃ f, Agrees s f) ∧ (∀ a s', step s a = some s' → Obeys s s') ∧ slotWordRefcount s.word + 1 = 2 := by
  obtain ⟨s, hs, hunpins, hpins⟩ : ∃ s, guardedRun (machine 3) Disciplined pinRun (initial 3) = some s ∧
      unpins (sinceReset s.log) = 1 ∧ pins (sinceReset s.log) = 2 := ⟨_, rfl, rfl, rfl⟩
  have hreach := Reach.guardedRun pinRun (.init rfl) hs
  obtain ⟨hagrees, hobeys, hcount⟩ := slot_protocol (hreach.mono fun _ _ _ => trivial)
  have hsum := hcount hreach
  rw [hunpins, hpins] at hsum
  exact ⟨s, hs, hagrees, hobeys, hsum⟩

/-- Each call of `unpin` gives back a pin, and reload and release are called with the count at zero, on a
slot that takes no pins. -/
def DrainedAtCall (s : State) : Action → Prop
  | .call _ op => (op = .unpin → s.issued < pins s.log) ∧
      (op.isReset = true → slotWordRefcount s.word = 0 ∧ slotWordState s.word ≠ SlotState.ready.code)
  | .attempt _ _ => True

instance (s : State) (a : Action) : Decidable (DrainedAtCall s a) :=
  match a with
  | .call _ _ => inferInstanceAs (Decidable ((_ → _) ∧ (_ → _)))
  | .attempt _ _ => inferInstanceAs (Decidable True)

/-- Two threads reload the empty slot; between the two compare-and-swaps the slot becomes ready and is
pinned. -/
def raceRun : List Action :=
  [.call 0 .beginReload, .call 1 .beginReload, .attempt 0 false, .call 0 .markReady, .attempt 0 false,
    .call 2 .tryPin, .attempt 2 false, .attempt 1 false, .attempt 1 false, .call 2 .unpin, .attempt 2 false]

/-- A reload that was called in time takes effect too late: the pin taken meanwhile is forgotten, and its
`unpin` finds nothing. -/
theorem not_pins_minus_unpins : ¬ ∀ n s, Reach (machine n) DrainedAtCall s →
    slotWordRefcount s.word + unpins (sinceReset s.log) = pins (sinceReset s.log) := by
  intro h
  obtain ⟨s, hs, hcount, hunpins, hpins⟩ :
      ∃ s, guardedRun (machine 3) DrainedAtCall raceRun (initial 3) = some s ∧
        slotWordRefcount s.word = 0 ∧ unpins (sinceReset s.log) = 1 ∧ pins (sinceReset s.log) = 0 :=
    ⟨_, rfl, rfl, rfl, rfl⟩
  have hsum := h 3 s (Reach.guardedRun raceRun (.init rfl) hs)
  rw [hcount, hunpins, hpins] at hsum
  cases hsum

end disciplined

section owned

/-- As the scheduler has it: one thread calls all methods but `try_pin` and `unpin`, and it reloads or
releases a slot that takes no pins after its count has drained. -/
def Owned (o : ℕ) (s : State) : Action → Prop
  | .call t op => (op ≠ .tryPin → op ≠ .unpin → t = o) ∧ DrainedAtCall s (.call t op)
  | .attempt _ _ => True

/-- What the owner found at the call of a reload or release stays until its compare-and-swap. -/
structure Kept (o : ℕ) (s : State) : Prop where
  owner : ∀ (t : ℕ) (c : Call), s.threads[t]? = some (some c) → c.op ≠ .tryPin → c.op ≠ .unpin → t = o
  drained : ∀ (t : ℕ) (c : Call), s.threads[t]? = some (some c) → c.op.isReset = true →
    slotWordRefcount s.word = 0 ∧ slotWordState s.word ≠ SlotState.ready.code

variable {o : ℕ} {s s' : State} {a : Action} {f : Fields}

theorem isReset_ne {op : Op} (h : op.isReset = true) : op ≠ .tryPin ∧ op ≠ .unpin := by
  constructor <;> rintro rfl <;> cases h

theorem thread_set {l : List (Option Call)} {t t' : ℕ} {d : Option Call} {c : Call}
    (h : (l.set t d)[t']? = some (some c)) : (t' = t ∧ d = some c) ∨ l[t']? = some (some c) := by
  rw [List.getElem?_set] at h
  split at h
  · rename_i heq
    split at h
    · exact .inl ⟨heq.symm, Option.some.inj h⟩
    · cases h
  · exact .inr h

/-- A step that leaves the word alone and brings a thread into no other method. -/
theorem Kept.same (h : Kept o s) {t : ℕ} {d : Option Call} (hword : s'.word = s.word)
    (hthreads : s'.threads = s.threads.set t d)
    (hd : ∀ c' : Call, d = some c' → ∃ c : Call, s.threads[t]? = some (some c) ∧ c.op = c'.op) : Kept o s' := by
  have hold : ∀ (t' : ℕ) (c' : Call), s'.threads[t']? = some (some c') →
      ∃ c : Call, s.threads[t']? = some (some c) ∧ c.op = c'.op := by
    intro t' c' hc'
    rw [hthreads] at hc'
    rcases thread_set hc' with ⟨rfl, hdc⟩ | hmem
    · exact hd c' hdc
    · exact ⟨c', hmem, rfl⟩
  refine ⟨fun t' c' hc' => ?_, fun t' c' hc' => ?_⟩
  · obtain ⟨c, hc, hop⟩ := hold t' c' hc'
    exact hop ▸ h.owner t' c hc
  · obtain ⟨c, hc, hop⟩ := hold t' c' hc'
    rw [hword]
    exact hop ▸ h.drained t' c hc

theorem Kept.called (h : Kept o s) {t : ℕ} {op : Op} (hguard : Owned o s (.call t op)) :
    Kept o (s.call t op) := by
  obtain ⟨howner, _, hdrained⟩ := hguard
  refine ⟨fun t' c hc => ?_, fun t' c hc => ?_⟩
  · rcases thread_set hc with ⟨rfl, hnew⟩ | hold
    · cases hnew
      exact howner
    · exact h.owner t' c hold
  · rcases thread_set hc with ⟨rfl, hnew⟩ | hold
    · cases hnew
      exact hdrained
    · exact h.drained t' c hold

/-- Beside a thread in a reload or release nobody else changes the word. -/
theorem Kept.swapped (h : Kept o s) (hf : Denotes s.word f) {f' : Fields} {t : ℕ} {op : Op} {w : Word}
    (hc : s.threads[t]? = some (some ⟨op, s.word⟩)) (hchange : Change op f f') :
    Kept o { s.finish t ⟨op, s.word⟩ true with word := w } := by
  refine ⟨fun t' c hc' => ?_, fun t' c hc' hreset => ?_⟩
  · rcases thread_set hc' with ⟨_, hnone⟩ | hold
    · cases hnone
    · exact h.owner t' c hold
  · rcases thread_set hc' with ⟨_, hnone⟩ | hold
    · cases hnone
    · obtain ⟨hzero, hnot⟩ := h.drained t' c hold hreset
      rw [hf.refcount] at hzero
      rw [Ne, hf.state_iff] at hnot
      have howner := h.owner t' c hold (isReset_ne hreset).1 (isReset_ne hreset).2
      have hother : op ≠ .tryPin → op ≠ .unpin → t = t' := fun hne hne' => (h.owner t _ hc hne hne').trans howner.symm
      have hidle : t ≠ t' := by
        rintro rfl
        have hlt := (List.getElem?_eq_some_iff.mp hc).1
        have hset : (s.threads.set t none)[t]? = some none := List.getElem?_set_self hlt
        rw [State.finish, State.setThread] at hc'
        cases hset.symm.trans hc'
      cases hchange with
      | pin hready => exact absurd hready hnot
      | unpin hpos => exact absurd hzero hpos
      | reset st hop => exact absurd (hother (isReset_ne hop).1 (isReset_ne hop).2) hidle
      | mark st hne hne' => exact absurd (hother hne hne') hidle

theorem Kept.move (h : Kept o s) (hf : Denotes s.word f) (hguard : Owned o s a) (hmove : Move s a s') :
    Kept o s' := by
  cases hmove with
  | called t op => exact h.called hguard
  | left t spurious c => exact h.same rfl rfl nofun
  | swapped t op w hc hoffer =>
    obtain ⟨f', heffect, _⟩ := effect_of_offer hf hoffer
    exact h.swapped hf hc (change_of_effect heffect)
  | retried t spurious c hc =>
    refine h.same rfl rfl ?_
    rintro c' ⟨rfl⟩
    exact ⟨c, hc, rfl⟩

/-- The scheduler's discipline at the calls is enough. -/
theorem disciplined_of_owned {n : ℕ} (h : Reach (machine n) (Owned o) s) :
    Reach (machine n) Disciplined s ∧ Kept o s := by
  induction h with
  | init h =>
    refine ⟨.init h, ?_, ?_⟩ <;> intro t c hc
    · rw [h] at hc
      cases List.eq_of_mem_replicate (List.mem_of_getElem? hc)
    · rw [h] at hc
      cases List.eq_of_mem_replicate (List.mem_of_getElem? hc)
  | @step s a s' _ hguard hstep ih =>
    obtain ⟨hreach, hkept⟩ := ih
    obtain ⟨f, hf⟩ := agrees_of_reach hreach
    refine ⟨.step hreach ?_ hstep, hkept.move hf.denotes hguard (move_of_step hstep)⟩
    cases a with
    | call t op => exact hguard.2.1
    | attempt t spurious =>
      intro c hc hreset _
      exact (hkept.drained t c (Option.join_eq_some_iff.mp hc) hreset).1

end owned

end SlotProtocol
end StreamMoE
