import Mathlib.Algebra.GroupWithZero.Nat
import Mathlib.Data.Nat.Notation
import Mathlib.Data.List.Basic
import Mathlib.Logic.Function.Basic
import StreamMoE.TransitionSystem

/-! `mpsc_alloc_queue`: producers reserve positions of a ring with a compare-and-swap on `tail_`,
fill and publish them, and one consumer takes them in order. The counters are `uint32_t`. -/
namespace StreamMoE
namespace MpscQueue

open TransitionSystem

/-- A `uint32_t`. -/
def wrap (n : ℕ) : ℕ := n % 2 ^ 32

/-- Where a producer stands in `push`. `since` counts the pops before it read `head_` and `pos` the
reservations before its own; the code has them modulo `2 ^ 32` only. -/
inductive PushPc (R : Type*)
  | idle
  | loadHead (r : R)
  | loadTail (r : R) (head since : ℕ)
  | claim (r : R) (tail since : ℕ)
  | write (r : R) (tail pos : ℕ)
  | publish (r : R) (tail pos : ℕ)

inductive PopPc (R : Type*)
  | idle
  | loadHead
  | loadTail (head : ℕ)
  | checkSeq (head : ℕ)
  | read (head : ℕ)
  | release (head : ℕ) (out : R)

/-- The queue and its threads, with the requests in the order of their reservations, the positions
published and the requests popped so far. -/
structure State (T R : Type*) where
  head : ℕ
  tail : ℕ
  ring : ℕ → R
  seqs : ℕ → ℕ
  push : T → PushPc R
  pop : PopPc R
  reserved : List R
  published : List ℕ
  popped : List R

/-- `pushFail` and `popFail` are spurious failures of a weak compare-and-swap. -/
inductive Action (T R : Type*)
  | callPush (t : T) (r : R)
  | push (t : T)
  | pushFail (t : T)
  | callPop
  | pop
  | popFail

section machine

variable {T R : Type*} [DecidableEq T] (cap : ℕ)

def State.setPush (s : State T R) (t : T) (pc : PushPc R) : State T R :=
  { s with push := Function.update s.push t pc }

def pushStep (s : State T R) (t : T) : Option (State T R) :=
  match s.push t with
  | .idle => none
  | .loadHead r => some (s.setPush t (.loadTail r s.head s.popped.length))
  | .loadTail r head since =>
      -- `tail - head >= cap_`: full, look again
      if cap ≤ wrap (s.tail + 2 ^ 32 - head) then some (s.setPush t (.loadHead r))
      else some (s.setPush t (.claim r s.tail since))
  | .claim r tail _ =>
      if s.tail = tail then
        some { s with
          tail := wrap (tail + 1)
          push := Function.update s.push t (.write r tail s.reserved.length)
          reserved := s.reserved ++ [r] }
      else some (s.setPush t (.loadHead r))
  | .write r tail pos =>
      some { s with
        ring := Function.update s.ring (tail % cap) r
        push := Function.update s.push t (.publish r tail pos) }
  | .publish _ tail pos =>
      some { s with
        seqs := Function.update s.seqs (tail % cap) (wrap (tail + 1))
        push := Function.update s.push t .idle
        published := s.published ++ [pos] }

def popStep (s : State T R) : Option (State T R) :=
  match s.pop with
  | .idle => none
  | .loadHead => some { s with pop := .loadTail s.head }
  | .loadTail head => some { s with pop := if s.tail = head then .idle else .checkSeq head }
  | .checkSeq head =>
      some { s with pop := if s.seqs (head % cap) = wrap (head + 1) then .read head else .loadHead }
  | .read head => some { s with pop := .release head (s.ring (head % cap)) }
  | .release head out =>
      if s.head = head then
        some { s with head := wrap (head + 1), pop := .idle, popped := s.popped ++ [out] }
      else some { s with pop := .loadHead }

def step (s : State T R) : Action T R → Option (State T R)
  | .callPush t r =>
      match s.push t with
      | .idle => some (s.setPush t (.loadHead r))
      | _ => none
  | .push t => pushStep cap s t
  | .pushFail t =>
      match s.push t with
      | .claim r _ _ => some (s.setPush t (.loadHead r))
      | _ => none
  | .callPop =>
      match s.pop with
      | .idle => some { s with pop := .loadHead }
      | _ => none
  | .pop => popStep cap s
  | .popFail =>
      match s.pop with
      | .release _ _ => some { s with pop := .loadHead }
      | _ => none

/-- A new queue; `blank` is what its elements hold at first. -/
def initState (T : Type*) {R : Type*} (blank : R) : State T R where
  head := 0
  tail := 0
  ring _ := blank
  seqs _ := 0
  push _ := .idle
  pop := .idle
  reserved := []
  published := []
  popped := []

def machine (T : Type*) {R : Type*} [DecidableEq T] (blank : R) (cap : ℕ) :
    Machine (State T R) (Action T R) where
  init s := s = initState T blank
  step := step cap

/-- The position a producer has reserved and not yet published. -/
def PushPc.holds : PushPc R → Option ℕ
  | .write _ _ pos | .publish _ _ pos => some pos
  | _ => none

def Action.byConsumer : Action T R → Bool
  | .callPop | .pop => true
  | _ => false

/-- Requests are popped in the order of their reservations, each once; nothing published is written
over before it is popped, a producer writes where no other waiting position lies, and the consumer
reads what is published; `pop` finds the queue empty only if all is popped, and once no producer
holds a position the consumer gets everything. -/
structure Linear (blank : R) (s : State T R) : Prop where
  order : s.popped <+: s.reserved
  kept : ∀ i ∈ s.published, s.popped.length ≤ i → s.reserved[i]? = some (s.ring (i % cap))
  writes : ∀ t r tail pos, s.push t = .write r tail pos →
    ∀ i, s.popped.length ≤ i → i < s.reserved.length → i ≠ pos → i % cap ≠ tail % cap
  reads : ∀ head, s.pop = .read head →
    s.popped.length ∈ s.published ∧ head % cap = s.popped.length % cap
  empty : ∀ head, s.pop = .loadTail head → s.tail = head → s.popped = s.reserved
  drains : (∀ t, (s.push t).holds = none) →
    ∃ as s', (∀ a ∈ as, Action.byConsumer a = true) ∧ run (machine T blank cap) as s = some s' ∧
      s'.reserved = s.reserved ∧ s'.popped = s.reserved

/-- When a producer swaps `tail_`, fewer than `2 ^ 32` positions lie behind the head it has read. -/
def InTime (s : State T R) : Action T R → Prop
  | .push t => ∀ r tail since, s.push t = .claim r tail since → s.reserved.length < since + 2 ^ 32
  | _ => True

end machine

section counters

theorem wrap_mod {cap n : ℕ} (h : cap ∣ 2 ^ 32) : wrap n % cap = n % cap := Nat.mod_mod_of_dvd n h

theorem wrap_succ (n : ℕ) : wrap (wrap n + 1) = wrap (n + 1) := by
  unfold wrap
  omega

/-- Positions less than `cap` apart lie in different slots. -/
theorem mod_ne {cap a i j : ℕ} (hi : a ≤ i) (hi' : i < a + cap) (hj : a ≤ j) (hj' : j < a + cap)
    (hne : i ≠ j) : i % cap ≠ j % cap := by
  have hlt : ∀ i j : ℕ, i < j → j < i + cap → i % cap ≠ j % cap := by
    intro i j hij hj heq
    have hdvd := Nat.dvd_of_mod_eq_zero (Nat.sub_mod_eq_zero_of_mod_eq heq.symm)
    have hle := Nat.le_of_dvd (by omega) hdvd
    omega
  rcases Nat.lt_or_gt_of_ne hne with h | h
  · exact hlt i j h (by omega)
  · exact (hlt j i h (by omega)).symm

/-- The wrapped difference is the true one while that is below `2 ^ 32`. -/
theorem wrap_sub {since n : ℕ} (h : since ≤ n) (h' : n < since + 2 ^ 32) :
    wrap (wrap n + 2 ^ 32 - wrap since) = n - since := by
  unfold wrap
  omega

end counters

section invariant

variable {T R : Type*} (cap : ℕ)

/-- What a producer knows at each place of `push`. -/
def PushOk (s : State T R) : PushPc R → Prop
  | .idle | .loadHead _ => True
  | .loadTail _ head since => head = wrap since ∧ since ≤ s.popped.length
  | .claim _ tail since =>
      since ≤ s.popped.length ∧ wrap (tail + 2 ^ 32 - wrap since) < cap
  | .write r tail pos =>
      tail = wrap pos ∧ pos ∉ s.published ∧ s.reserved[pos]? = some r
  | .publish r tail pos =>
      tail = wrap pos ∧ pos ∉ s.published ∧ s.reserved[pos]? = some r ∧ s.ring (pos % cap) = r

/-- What the consumer knows at each place of `pop`. -/
def PopOk (s : State T R) : PopPc R → Prop
  | .idle | .loadHead => True
  | .loadTail head => head = wrap s.popped.length
  | .checkSeq head => head = wrap s.popped.length
  | .read head => head = wrap s.popped.length ∧ s.popped.length ∈ s.published
  | .release head out =>
      head = wrap s.popped.length ∧ s.popped.length ∈ s.published ∧
        s.reserved[s.popped.length]? = some out

structure Inv (s : State T R) : Prop where
  head : s.head = wrap s.popped.length
  tail : s.tail = wrap s.reserved.length
  order : s.popped <+: s.reserved
  room : s.reserved.length ≤ s.popped.length + cap
  popped : ∀ i < s.popped.length, i ∈ s.published
  published : ∀ i ∈ s.published, i < s.reserved.length
  ring : ∀ i ∈ s.published, s.popped.length ≤ i → s.reserved[i]? = some (s.ring (i % cap))
  seqs : ∀ i, s.popped.length ≤ i → i < s.popped.length + cap → s.seqs (i % cap) =
    if i ∈ s.published then wrap (i + 1) else if cap ≤ i then wrap (i - cap + 1) else 0
  push : ∀ t, PushOk cap s (s.push t)
  alone : ∀ t t' pos, (s.push t).holds = some pos → (s.push t').holds = some pos → t = t'
  held : ∀ i < s.reserved.length, i ∉ s.published → ∃ t, (s.push t).holds = some i
  pop : PopOk s s.pop

variable {cap} {s : State T R}

theorem Inv.init (T : Type*) (blank : R) : Inv cap (initState T blank) := by
  constructor <;> simp [initState, wrap, PushOk, PopOk, PushPc.holds]
  omega

theorem PushOk.holds {pc : PushPc R} {pos : ℕ} (h : PushOk cap s pc) (hpos : pc.holds = some pos) :
    pos ∉ s.published ∧ pos < s.reserved.length := by
  cases pc with
  | write r tail p =>
    cases hpos
    obtain ⟨_, hnot, hget⟩ := h
    exact ⟨hnot, (List.getElem?_eq_some_iff.mp hget).1⟩
  | publish r tail p =>
    cases hpos
    obtain ⟨_, hnot, hget, _⟩ := h
    exact ⟨hnot, (List.getElem?_eq_some_iff.mp hget).1⟩
  | idle => cases hpos
  | loadHead r => cases hpos
  | loadTail r head since => cases hpos
  | claim r tail since => cases hpos

/-- A reserved position that is not published lies in the window of the ring. -/
theorem Inv.window (h : Inv cap s) {pos : ℕ} (hnot : pos ∉ s.published) (hlt : pos < s.reserved.length) :
    s.popped.length ≤ pos ∧ pos < s.popped.length + cap := by
  have hroom := h.room
  refine ⟨?_, by omega⟩
  by_contra hlow
  exact hnot (h.popped pos (by omega))

theorem getElem?_of_prefix {l l' : List R} (h : l <+: l') {i : ℕ} {r : R} (hget : l[i]? = some r) :
    l'[i]? = some r := by
  obtain ⟨tail, rfl⟩ := h
  obtain ⟨hlt, _⟩ := List.getElem?_eq_some_iff.mp hget
  rw [List.getElem?_append_left hlt]
  exact hget

theorem PushOk.frame {s' : State T R} {pc : PushPc R} (h : PushOk cap s pc)
    (hpopped : s.popped.length ≤ s'.popped.length) (hreserved : s.reserved <+: s'.reserved)
    (hpublished : ∀ pos, pc.holds = some pos → pos ∉ s'.published)
    (hring : ∀ pos, pc.holds = some pos → s'.ring (pos % cap) = s.ring (pos % cap)) :
    PushOk cap s' pc := by
  cases pc with
  | idle => trivial
  | loadHead r => trivial
  | loadTail r head since => exact ⟨h.1, Nat.le_trans h.2 hpopped⟩
  | claim r tail since => exact ⟨Nat.le_trans h.1 hpopped, h.2⟩
  | write r tail pos => exact ⟨h.1, hpublished pos rfl, getElem?_of_prefix hreserved h.2.2⟩
  | publish r tail pos =>
    exact ⟨h.1, hpublished pos rfl, getElem?_of_prefix hreserved h.2.2.1,
      (hring pos rfl).trans h.2.2.2⟩

theorem PopOk.frame {s' : State T R} {pc : PopPc R} (h : PopOk s pc) (hpopped : s'.popped = s.popped)
    (hreserved : s.reserved <+: s'.reserved) (hpublished : s.published ⊆ s'.published) : PopOk s' pc := by
  cases pc with
  | idle => trivial
  | loadHead => trivial
  | loadTail head => simpa only [PopOk, hpopped] using h
  | checkSeq head => simpa only [PopOk, hpopped] using h
  | read head => exact ⟨by rw [hpopped]; exact h.1, by rw [hpopped]; exact hpublished h.2⟩
  | release head out =>
    obtain ⟨hhead, hmem, hget⟩ := h
    simp only [PopOk, hpopped]
    exact ⟨hhead, hpublished hmem, getElem?_of_prefix hreserved hget⟩

theorem Inv.setPop (h : Inv cap s) {pc : PopPc R} (hok : PopOk s pc) : Inv cap { s with pop := pc } :=
  { h with pop := hok }

variable [DecidableEq T]

/-- A producer that only moves on. -/
theorem Inv.setPush (h : Inv cap s) {t : T} {pc : PushPc R} (hok : PushOk cap s pc)
    (hholds : pc.holds = (s.push t).holds) : Inv cap (s.setPush t pc) := by
  have hsame : ∀ t', ((s.setPush t pc).push t').holds = (s.push t').holds := by
    intro t'
    by_cases heq : t' = t
    · subst heq
      simp only [State.setPush, Function.update_self, hholds]
    · simp only [State.setPush, Function.update_of_ne heq]
  refine { h with push := fun t' => ?_, alone := fun t₁ t₂ pos h₁ h₂ => ?_, held := fun i hi hnot => ?_ }
  · by_cases heq : t' = t
    · subst heq
      simp only [State.setPush, Function.update_self]
      exact hok
    · simp only [State.setPush, Function.update_of_ne heq]
      exact h.push t'
  · rw [hsame] at h₁ h₂
    exact h.alone t₁ t₂ pos h₁ h₂
  · obtain ⟨t', ht'⟩ := h.held i hi hnot
    exact ⟨t', by rw [hsame]; exact ht'⟩

/-- A reservation: in time, so there was room. -/
theorem Inv.claim (h : Inv cap s) {t : T} {r : R} {since : ℕ} (hpc : s.push t = .claim r s.tail since)
    (htime : s.reserved.length < since + 2 ^ 32) :
    Inv cap { s with
      tail := wrap (s.tail + 1)
      push := Function.update s.push t (.write r s.tail s.reserved.length)
      reserved := s.reserved ++ [r] } := by
  have hok := h.push t
  rw [hpc] at hok
  obtain ⟨hsince, hspare⟩ := hok
  have hpop := h.order.length_le
  rw [h.tail, wrap_sub (by omega) htime] at hspare
  have hnew : s.reserved.length ∉ s.published := fun hmem => Nat.lt_irrefl _ (h.published _ hmem)
  have hholds : ∀ t' pos, (if t' = t then PushPc.write r s.tail s.reserved.length else s.push t').holds =
      some pos → t' = t ∧ pos = s.reserved.length ∨
        t' ≠ t ∧ pos < s.reserved.length ∧ (s.push t').holds = some pos := by
    intro t' pos hpos
    by_cases heq : t' = t
    · rw [if_pos heq] at hpos
      exact Or.inl ⟨heq, (Option.some.inj hpos).symm⟩
    · rw [if_neg heq] at hpos
      exact Or.inr ⟨heq, ((h.push t').holds hpos).2, hpos⟩
  refine { h with
    tail := ?_, order := h.order.trans (List.prefix_append _ _), room := ?_, published := fun i hi => ?_
    ring := fun i hi hlow => ?_, push := fun t' => ?_, alone := fun t₁ t₂ pos h₁ h₂ => ?_
    held := fun i hi hnot => ?_, pop := ?_ }
  · show wrap (s.tail + 1) = wrap (s.reserved ++ [r]).length
    rw [h.tail, wrap_succ, List.length_append, List.length_singleton]
  · show (s.reserved ++ [r]).length ≤ s.popped.length + cap
    rw [List.length_append, List.length_singleton]
    omega
  · show i < (s.reserved ++ [r]).length
    rw [List.length_append, List.length_singleton]
    exact Nat.lt_succ_of_lt (h.published i hi)
  · exact getElem?_of_prefix (List.prefix_append _ _) (h.ring i hi hlow)
  · show PushOk cap _ (Function.update s.push t _ t')
    rw [Function.update_apply]
    by_cases heq : t' = t
    · rw [if_pos heq]
      refine ⟨h.tail, hnew, ?_⟩
      show (s.reserved ++ [r])[s.reserved.length]? = some r
      rw [List.getElem?_append_right (Nat.le_refl _), Nat.sub_self]
      rfl
    · rw [if_neg heq]
      exact (h.push t').frame (Nat.le_refl _) (List.prefix_append _ _)
        (fun pos hpos => ((h.push t').holds hpos).1) (fun _ _ => rfl)
  · have h₁' : (Function.update s.push t (.write r s.tail s.reserved.length) t₁).holds = some pos := h₁
    have h₂' : (Function.update s.push t (.write r s.tail s.reserved.length) t₂).holds = some pos := h₂
    rw [Function.update_apply] at h₁' h₂'
    rcases hholds t₁ pos h₁' with ⟨rfl, hp⟩ | ⟨_, hlt, hp⟩ <;>
      rcases hholds t₂ pos h₂' with ⟨rfl, hp'⟩ | ⟨_, hlt', hp'⟩
    · rfl
    · omega
    · omega
    · exact h.alone t₁ t₂ pos hp hp'
  · have hi' : i < s.reserved.length + 1 := by
      have hlen : i < (s.reserved ++ [r]).length := hi
      rwa [List.length_append, List.length_singleton] at hlen
    show ∃ t', (Function.update s.push t _ t').holds = some i
    by_cases hlast : i = s.reserved.length
    · refine ⟨t, ?_⟩
      rw [Function.update_apply, if_pos rfl, hlast]
      rfl
    · obtain ⟨t', ht'⟩ := h.held i (by omega) hnot
      refine ⟨t', ?_⟩
      have hne : t' ≠ t := by
        rintro rfl
        rw [hpc] at ht'
        cases ht'
      rw [Function.update_apply, if_neg hne]
      exact ht'
  · exact h.pop.frame rfl (List.prefix_append _ _) (List.Subset.refl _)

/-- The payload goes where no waiting request lies. -/
theorem Inv.write (h : Inv cap s) (hcap : cap ∣ 2 ^ 32) {t : T} {r : R} {tail pos : ℕ}
    (hpc : s.push t = .write r tail pos) :
    Inv cap { s with
      ring := Function.update s.ring (tail % cap) r
      push := Function.update s.push t (.publish r tail pos) } := by
  have hok := h.push t
  rw [hpc] at hok
  obtain ⟨htail, hnot, hget⟩ := hok
  have hslot : tail % cap = pos % cap := by rw [htail, wrap_mod hcap]
  obtain ⟨hlow, hhigh⟩ := h.window hnot (List.getElem?_eq_some_iff.mp hget).1
  have hother : ∀ i, s.popped.length ≤ i → i < s.popped.length + cap → i ≠ pos →
      Function.update s.ring (tail % cap) r (i % cap) = s.ring (i % cap) := by
    intro i hi hi' hne
    rw [hslot]
    exact Function.update_of_ne (mod_ne hi hi' hlow hhigh hne) ..
  refine { h with
    ring := fun i hi hlow' => ?_, push := fun t' => ?_, alone := fun t₁ t₂ p h₁ h₂ => ?_
    held := fun i hi hnot' => ?_ }
  · show s.reserved[i]? = some (Function.update s.ring (tail % cap) r (i % cap))
    have hlt := h.published i hi
    have hroom := h.room
    rw [hother i hlow' (by omega) (fun heq => hnot (heq ▸ hi))]
    exact h.ring i hi hlow'
  · show PushOk cap _ (Function.update s.push t _ t')
    rw [Function.update_apply]
    by_cases heq : t' = t
    · rw [if_pos heq]
      refine ⟨htail, hnot, hget, ?_⟩
      show Function.update s.ring (tail % cap) r (pos % cap) = r
      rw [hslot]
      exact Function.update_self ..
    · rw [if_neg heq]
      refine (h.push t').frame (Nat.le_refl _) (List.prefix_refl _)
        (fun p hp => ((h.push t').holds hp).1) (fun p hp => ?_)
      obtain ⟨hnot', hlt'⟩ := (h.push t').holds hp
      obtain ⟨hlow', hhigh'⟩ := h.window hnot' hlt'
      refine hother p hlow' hhigh' fun hpos => heq (h.alone t' t p hp ?_)
      rw [hpc, hpos]
      rfl
  · have hsame : ∀ t' p, (Function.update s.push t (.publish r tail pos) t').holds = some p →
        (s.push t').holds = some p := by
      intro t' p hp
      rw [Function.update_apply] at hp
      split at hp
      · rename_i heq
        rw [heq, hpc]
        exact hp
      · exact hp
    exact h.alone t₁ t₂ p (hsame t₁ p h₁) (hsame t₂ p h₂)
  · obtain ⟨t', ht'⟩ := h.held i hi hnot'
    refine ⟨t', ?_⟩
    show (Function.update s.push t _ t').holds = some i
    rw [Function.update_apply]
    split
    · rename_i heq
      rw [heq, hpc] at ht'
      exact ht'
    · exact ht'

/-- Publication: the slot carries the number of its position. -/
theorem Inv.publish (h : Inv cap s) (hcap : cap ∣ 2 ^ 32) {t : T} {r : R} {tail pos : ℕ}
    (hpc : s.push t = .publish r tail pos) :
    Inv cap { s with
      seqs := Function.update s.seqs (tail % cap) (wrap (tail + 1))
      push := Function.update s.push t .idle
      published := s.published ++ [pos] } := by
  have hok := h.push t
  rw [hpc] at hok
  obtain ⟨htail, hnot, hget, hring⟩ := hok
  have hslot : tail % cap = pos % cap := by rw [htail, wrap_mod hcap]
  have hlt := (List.getElem?_eq_some_iff.mp hget).1
  obtain ⟨hlow, hhigh⟩ := h.window hnot hlt
  have hmem : ∀ i, i ∈ s.published ++ [pos] ↔ i ∈ s.published ∨ i = pos := by
    intro i
    rw [List.mem_append, List.mem_singleton]
  refine { h with
    popped := fun i hi => (hmem i).mpr (Or.inl (h.popped i hi)), published := fun i hi => ?_
    ring := fun i hi hlow' => ?_, seqs := fun i hi hi' => ?_, push := fun t' => ?_
    alone := fun t₁ t₂ p h₁ h₂ => ?_, held := fun i hi hnot' => ?_, pop := ?_ }
  · rcases (hmem i).mp hi with hi | rfl
    · exact h.published i hi
    · exact hlt
  · rcases (hmem i).mp hi with hi | rfl
    · exact h.ring i hi hlow'
    · rw [hring]
      exact hget
  · show Function.update s.seqs (tail % cap) (wrap (tail + 1)) (i % cap) = _
    by_cases heq : i = pos
    · subst heq
      rw [hslot, Function.update_self, if_pos ((hmem i).mpr (Or.inr rfl)), htail, wrap_succ]
    · rw [hslot, Function.update_of_ne (mod_ne hi hi' hlow hhigh heq), h.seqs i hi hi']
      simp only [hmem, heq, or_false]
  · show PushOk cap _ (Function.update s.push t _ t')
    rw [Function.update_apply]
    by_cases heq : t' = t
    · rw [if_pos heq]
      trivial
    · rw [if_neg heq]
      refine (h.push t').frame (Nat.le_refl _) (List.prefix_refl _) (fun p hp hin => ?_) (fun _ _ => rfl)
      rcases (hmem p).mp hin with hin | rfl
      · exact ((h.push t').holds hp).1 hin
      · refine heq (h.alone t' t p hp ?_)
        rw [hpc]
        rfl
  · have hsame : ∀ t' p, (Function.update s.push t .idle t').holds = some p →
        (s.push t').holds = some p := by
      intro t' p hp
      rw [Function.update_apply] at hp
      split at hp
      · cases hp
      · exact hp
    exact h.alone t₁ t₂ p (hsame t₁ p h₁) (hsame t₂ p h₂)
  · obtain ⟨t', ht'⟩ := h.held i hi fun hin => hnot' ((hmem i).mpr (Or.inl hin))
    refine ⟨t', ?_⟩
    show (Function.update s.push t _ t').holds = some i
    have hne : t' ≠ t := by
      rintro rfl
      rw [hpc] at ht'
      cases ht'
      exact hnot' ((hmem pos).mpr (Or.inr rfl))
    rw [Function.update_apply, if_neg hne]
    exact ht'
  · exact h.pop.frame rfl (List.prefix_refl _) (List.subset_append_left ..)

omit [DecidableEq T] in
/-- The consumer frees the slot of the position it has read. -/
theorem Inv.release (h : Inv cap s) {out : R} (hpc : s.pop = .release s.head out) :
    Inv cap { s with head := wrap (s.head + 1), pop := .idle, popped := s.popped ++ [out] } := by
  have hok := h.pop
  rw [hpc] at hok
  obtain ⟨hhead, hmem, hget⟩ := hok
  have hlen : (s.popped ++ [out]).length = s.popped.length + 1 := by
    rw [List.length_append, List.length_singleton]
  have hroom := h.room
  refine { h with
    head := ?_, order := ?_, room := ?_, popped := fun i hi => ?_, ring := fun i hi hlow => ?_
    seqs := fun i hi hi' => ?_, push := fun t => ?_, pop := trivial }
  · show wrap (s.head + 1) = wrap (s.popped ++ [out]).length
    rw [hhead, wrap_succ, hlen]
  · obtain ⟨rest, hrest⟩ := h.order
    rw [← hrest, List.getElem?_append_right (Nat.le_refl _), Nat.sub_self] at hget
    cases rest with
    | nil => cases hget
    | cons a rest =>
      cases hget
      exact ⟨rest, by rw [← hrest, List.append_assoc]; rfl⟩
  · show s.reserved.length ≤ (s.popped ++ [out]).length + cap
    omega
  · have hi' : i < (s.popped ++ [out]).length := hi
    rw [hlen] at hi'
    rcases Nat.lt_succ_iff_lt_or_eq.mp hi' with hlt | rfl
    · exact h.popped i hlt
    · exact hmem
  · have hlow' : (s.popped ++ [out]).length ≤ i := hlow
    exact h.ring i hi (by omega)
  · have hlo : (s.popped ++ [out]).length ≤ i := hi
    have hhi : i < (s.popped ++ [out]).length + cap := hi'
    rw [hlen] at hlo hhi
    show s.seqs (i % cap) = if i ∈ s.published then _ else _
    by_cases hlast : i = s.popped.length + cap
    · have hnot : i ∉ s.published := by
        intro hin
        have hlt := h.published i hin
        omega
      have hcap : 0 < cap := by
        by_contra hzero
        omega
      have hprev := h.seqs s.popped.length (Nat.le_refl _) (by omega)
      rw [if_pos hmem] at hprev
      rw [if_neg hnot, if_pos (by omega), hlast, Nat.add_mod_right, hprev, Nat.add_sub_cancel]
    · exact h.seqs i (by omega) (by omega)
  · refine (h.push t).frame ?_ (List.prefix_refl _)
      (fun pos hpos => ((h.push t).holds hpos).1) (fun _ _ => rfl)
    show s.popped.length ≤ (s.popped ++ [out]).length
    omega

end invariant

section runs

variable {T R : Type*} [DecidableEq T] {cap : ℕ} {s s' : State T R}

/-- A capacity of the queue: a power of two that fits a `uint32_t`. -/
structure Capacity (cap : ℕ) : Prop where
  pow : ∃ k, cap = 2 ^ k
  lt : cap < 2 ^ 32

theorem Capacity.pos (h : Capacity cap) : 0 < cap := by
  obtain ⟨k, rfl⟩ := h.pow
  exact Nat.two_pow_pos k

theorem Capacity.dvd (h : Capacity cap) : cap ∣ 2 ^ 32 := by
  obtain ⟨k, rfl⟩ := h.pow
  exact Nat.pow_dvd_pow 2 (Nat.le_of_lt ((Nat.pow_lt_pow_iff_right (by decide)).mp h.lt))

omit [DecidableEq T] in
/-- The number in the slot of the next position tells whether that is published. -/
theorem Inv.seq_iff (h : Inv cap s) (hcap : Capacity cap) :
    s.seqs (wrap s.popped.length % cap) = wrap (wrap s.popped.length + 1) ↔
      s.popped.length ∈ s.published := by
  have hpos := hcap.pos
  have hlt := hcap.lt
  rw [wrap_mod hcap.dvd, wrap_succ, h.seqs _ (Nat.le_refl _) (by omega)]
  constructor
  · intro heq
    by_contra hnot
    rw [if_neg hnot] at heq
    unfold wrap at heq
    split at heq <;> omega
  · intro hmem
    rw [if_pos hmem]

omit [DecidableEq T] in
/-- The counters agree only when everything is popped. -/
theorem Inv.empty_iff (h : Inv cap s) (hcap : Capacity cap) :
    s.tail = wrap s.popped.length ↔ s.popped.length = s.reserved.length := by
  have hle := h.order.length_le
  have hroom := h.room
  have hlt := hcap.lt
  rw [h.tail]
  unfold wrap
  omega

theorem Inv.pushStep (h : Inv cap s) (hcap : Capacity cap) {t : T}
    (htime : InTime s (.push t : Action T R)) (hstep : pushStep cap s t = some s') : Inv cap s' := by
  have hok := h.push t
  unfold MpscQueue.pushStep at hstep
  cases hpc : s.push t with
  | idle =>
    rw [hpc] at hstep
    cases hstep
  | loadHead r =>
    simp only [hpc] at hstep
    cases hstep
    exact h.setPush ⟨h.head, Nat.le_refl _⟩ (by rw [hpc]; rfl)
  | loadTail r head since =>
    simp only [hpc] at hstep
    rw [hpc] at hok
    obtain ⟨hhead, hsince⟩ := hok
    split at hstep <;> cases hstep
    · exact h.setPush trivial (by rw [hpc]; rfl)
    · rename_i hspare
      exact h.setPush ⟨hsince, by rw [← hhead]; omega⟩ (by rw [hpc]; rfl)
  | claim r tail since =>
    simp only [hpc] at hstep
    split at hstep <;> cases hstep
    · rename_i htail
      subst htail
      exact h.claim hpc (htime r s.tail since hpc)
    · exact h.setPush trivial (by rw [hpc]; rfl)
  | write r tail pos =>
    simp only [hpc] at hstep
    cases hstep
    exact h.write hcap.dvd hpc
  | publish r tail pos =>
    simp only [hpc] at hstep
    cases hstep
    exact h.publish hcap.dvd hpc

omit [DecidableEq T] in
theorem Inv.popStep (h : Inv cap s) (hcap : Capacity cap) (hstep : popStep cap s = some s') :
    Inv cap s' := by
  have hok := h.pop
  unfold MpscQueue.popStep at hstep
  cases hpc : s.pop with
  | idle =>
    rw [hpc] at hstep
    cases hstep
  | loadHead =>
    simp only [hpc] at hstep
    cases hstep
    exact h.setPop h.head
  | loadTail head =>
    simp only [hpc] at hstep
    rw [hpc] at hok
    cases hstep
    split
    · exact h.setPop trivial
    · exact h.setPop hok
  | checkSeq head =>
    simp only [hpc] at hstep
    rw [hpc] at hok
    cases hstep
    split
    · rename_i hseq
      have hhead : head = wrap s.popped.length := hok
      rw [hhead] at hseq
      exact h.setPop ⟨hok, (h.seq_iff hcap).mp hseq⟩
    · exact h.setPop trivial
  | read head =>
    simp only [hpc] at hstep
    rw [hpc] at hok
    obtain ⟨hhead, hmem⟩ := hok
    cases hstep
    refine h.setPop ⟨hhead, hmem, ?_⟩
    rw [hhead, wrap_mod hcap.dvd]
    exact h.ring _ hmem (Nat.le_refl _)
  | release head out =>
    simp only [hpc] at hstep
    split at hstep <;> cases hstep
    · rename_i hhead
      subst hhead
      exact h.release hpc
    · exact h.setPop trivial

theorem Inv.step (h : Inv cap s) (hcap : Capacity cap) {a : Action T R} (htime : InTime s a)
    (hstep : step cap s a = some s') : Inv cap s' := by
  cases a with
  | callPush t r =>
    simp only [MpscQueue.step] at hstep
    split at hstep <;> cases hstep
    rename_i hpc
    exact h.setPush trivial (by rw [hpc]; rfl)
  | push t => exact h.pushStep hcap htime hstep
  | pushFail t =>
    simp only [MpscQueue.step] at hstep
    split at hstep <;> cases hstep
    rename_i hpc
    exact h.setPush trivial (by rw [hpc]; rfl)
  | callPop =>
    simp only [MpscQueue.step] at hstep
    split at hstep <;> cases hstep
    exact h.setPop trivial
  | pop => exact h.popStep hcap hstep
  | popFail =>
    simp only [MpscQueue.step] at hstep
    split at hstep <;> cases hstep
    exact h.setPop trivial

theorem inv_of_reach (hcap : Capacity cap) {blank : R}
    (h : Reach (machine T blank cap) InTime s) : Inv cap s := by
  refine h.invariant ?_ ?_
  · rintro s rfl
    exact Inv.init T blank
  · intro s a s' hs htime hstep
    exact hs.step hcap htime hstep

/-- The steps from here to the end of a `pop` that finds a request. -/
def rank : PopPc R → ℕ
  | .release _ _ => 0
  | .read _ => 1
  | .checkSeq _ => 2
  | .loadTail _ => 3
  | .loadHead => 4
  | .idle => 5

/-- With a published request waiting the consumer goes on. -/
theorem Inv.advance (h : Inv cap s) (hcap : Capacity cap) (hlt : s.popped.length < s.reserved.length)
    (hmem : s.popped.length ∈ s.published) {n : ℕ} (hn : rank s.pop = n + 1) :
    ∃ a pc, Action.byConsumer a = true ∧ MpscQueue.step cap s a = some { s with pop := pc } ∧
      rank pc = n := by
  have hok := h.pop
  cases hpc : s.pop with
  | idle =>
    rw [hpc] at hn
    cases hn
    exact ⟨.callPop, .loadHead, rfl, by simp only [MpscQueue.step, hpc], rfl⟩
  | loadHead =>
    rw [hpc] at hn
    cases hn
    exact ⟨.pop, .loadTail s.head, rfl, by simp only [MpscQueue.step, MpscQueue.popStep, hpc], rfl⟩
  | loadTail head =>
    rw [hpc] at hn hok
    cases hn
    have hhead : head = wrap s.popped.length := hok
    have hne : s.tail ≠ head := by
      rw [hhead]
      exact fun heq => Nat.ne_of_lt hlt ((h.empty_iff hcap).mp heq)
    exact ⟨.pop, .checkSeq head, rfl,
      by simp only [MpscQueue.step, MpscQueue.popStep, hpc, if_neg hne], rfl⟩
  | checkSeq head =>
    rw [hpc] at hn hok
    cases hn
    have hhead : head = wrap s.popped.length := hok
    have hseq : s.seqs (head % cap) = wrap (head + 1) := by
      rw [hhead]
      exact (h.seq_iff hcap).mpr hmem
    exact ⟨.pop, .read head, rfl,
      by simp only [MpscQueue.step, MpscQueue.popStep, hpc, if_pos hseq], rfl⟩
  | read head =>
    rw [hpc] at hn
    cases hn
    exact ⟨.pop, .release head (s.ring (head % cap)), rfl,
      by simp only [MpscQueue.step, MpscQueue.popStep, hpc], rfl⟩
  | release head out =>
    rw [hpc] at hn
    cases hn

/-- One request more is popped. -/
theorem Inv.pops (h : Inv cap s) (hcap : Capacity cap) (hlt : s.popped.length < s.reserved.length)
    (hmem : s.popped.length ∈ s.published) (blank : R) :
    ∃ as s', (∀ a ∈ as, Action.byConsumer a = true) ∧ run (machine T blank cap) as s = some s' ∧
      Inv cap s' ∧ s'.reserved = s.reserved ∧ s'.push = s.push ∧
        s'.popped.length = s.popped.length + 1 := by
  induction hn : rank s.pop generalizing s with
  | zero =>
    have hok := h.pop
    cases hpc : s.pop with
    | release head out =>
      rw [hpc] at hok
      have hhead : s.head = head := h.head.trans hok.1.symm
      subst hhead
      refine ⟨[.pop], _, by simp [Action.byConsumer], ?_, h.release hpc, rfl, rfl, ?_⟩
      · simp only [run_cons, machine, MpscQueue.step, MpscQueue.popStep, hpc, if_true, run_nil,
          Option.bind_some]
      · show (s.popped ++ [out]).length = s.popped.length + 1
        rw [List.length_append, List.length_singleton]
    | idle => rw [hpc] at hn; cases hn
    | loadHead => rw [hpc] at hn; cases hn
    | loadTail head => rw [hpc] at hn; cases hn
    | checkSeq head => rw [hpc] at hn; cases hn
    | read head => rw [hpc] at hn; cases hn
  | succ n ih =>
    obtain ⟨a, pc, hby, hstep, hrank⟩ := h.advance hcap hlt hmem hn
    have htime : InTime s a := by
      cases a with
      | push t => cases hby
      | _ => trivial
    obtain ⟨as, s', hall, hrun, hinv, hreserved, hpush, hpopped⟩ :=
      ih (s := { s with pop := pc }) (h.step hcap htime hstep) hlt hmem hrank
    refine ⟨a :: as, s', ?_, ?_, hinv, hreserved, hpush, hpopped⟩
    · intro b hb
      rcases List.mem_cons.mp hb with rfl | hb
      · exact hby
      · exact hall b hb
    · rw [run_cons]
      show (MpscQueue.step cap s a).bind _ = _
      rw [hstep]
      exact hrun

/-- When no producer holds a position the consumer alone gets everything. -/
theorem Inv.drains (h : Inv cap s) (hcap : Capacity cap) (blank : R)
    (hidle : ∀ t, (s.push t).holds = none) :
    ∃ as s', (∀ a ∈ as, Action.byConsumer a = true) ∧ run (machine T blank cap) as s = some s' ∧
      s'.reserved = s.reserved ∧ s'.popped = s.reserved := by
  induction hn : s.reserved.length - s.popped.length generalizing s with
  | zero =>
    have hle := h.order.length_le
    exact ⟨[], s, by simp, rfl, rfl, h.order.eq_of_length (by omega)⟩
  | succ n ih =>
    have hlt : s.popped.length < s.reserved.length := by omega
    have hmem : s.popped.length ∈ s.published := by
      by_contra hnot
      obtain ⟨t, ht⟩ := h.held _ hlt hnot
      rw [hidle t] at ht
      cases ht
    obtain ⟨as, s₁, hall, hrun, hinv, hreserved, hpush, hpopped⟩ := h.pops hcap hlt hmem blank
    obtain ⟨bs, s₂, hall', hrun', hreserved', hpopped'⟩ :=
      ih hinv (by rw [hpush]; exact hidle) (by rw [hreserved]; omega)
    refine ⟨as ++ bs, s₂, ?_, ?_, hreserved'.trans hreserved, hpopped'.trans hreserved⟩
    · intro a ha
      exact (List.mem_append.mp ha).elim (hall a) (hall' a)
    · rw [run_append, hrun, Option.bind_some, hrun']

/-- Whatever the producers and the consumer do and however often the counters wrap, the queue is
linearizable as long as every reservation comes in time. -/
theorem linear_of_inTime (hcap : Capacity cap) (blank : R)
    (h : Reach (machine T blank cap) InTime s) : Linear cap blank s := by
  have hinv := inv_of_reach hcap h
  refine ⟨hinv.order, hinv.ring, ?_, ?_, ?_, hinv.drains hcap blank⟩
  · intro t r tail pos hpc i hlow hi hne
    have hok := hinv.push t
    rw [hpc] at hok
    obtain ⟨htail, hnot, hget⟩ := hok
    obtain ⟨hlow', hhigh'⟩ := hinv.window hnot (List.getElem?_eq_some_iff.mp hget).1
    have hroom := hinv.room
    rw [htail, wrap_mod hcap.dvd]
    exact mod_ne hlow (by omega) hlow' hhigh' hne
  · intro head hpc
    have hok := hinv.pop
    rw [hpc] at hok
    obtain ⟨hhead, hmem⟩ := hok
    exact ⟨hmem, by rw [hhead, wrap_mod hcap.dvd]⟩
  · intro head hpc htail
    have hok := hinv.pop
    rw [hpc] at hok
    have hhead : head = wrap s.popped.length := hok
    rw [hhead] at htail
    exact hinv.order.eq_of_length ((hinv.empty_iff hcap).mp htail)

end runs

section overtaken

variable {T R : Type*} [DecidableEq T] {cap : ℕ} {blank : R} {s : State T R}

theorem reach_push (hcap : Capacity cap) (h : Reach (machine T blank cap) InTime s) {t : T}
    (hidle : s.push t = .idle) (hroom : s.reserved.length < s.popped.length + cap) (r : R) :
    ∃ s', Reach (machine T blank cap) InTime s' ∧ s'.reserved = s.reserved ++ [r] ∧
      s'.popped = s.popped ∧ s'.push = s.push := by
  have hinv := inv_of_reach hcap h
  have hle := hinv.order.length_le
  have hlt := hcap.lt
  have hspare : ¬ cap ≤ wrap (s.tail + 2 ^ 32 - s.head) := by
    rw [hinv.head, hinv.tail, wrap_sub hle (by omega)]
    omega
  have hself : ∀ pc, (s.setPush t pc).push t = pc := fun pc => Function.update_self ..
  have hpush : ∀ pc pc', Function.update (Function.update s.push t pc) t pc' =
      Function.update s.push t pc' := fun pc pc' => Function.update_idem ..
  have h₁ : Reach (machine T blank cap) InTime (s.setPush t (.loadHead r)) := by
    refine Reach.step (a := Action.callPush t r) h trivial ?_
    simp only [machine, step, hidle]
  have h₂ : Reach (machine T blank cap) InTime (s.setPush t (.loadTail r s.head s.popped.length)) := by
    refine Reach.step (a := Action.push t) h₁ (fun r' tail since hpc => ?_) ?_
    · rw [hself] at hpc
      cases hpc
    · simp only [machine, step, pushStep, hself]
      simp only [State.setPush, hpush]
  have h₃ : Reach (machine T blank cap) InTime (s.setPush t (.claim r s.tail s.popped.length)) := by
    refine Reach.step (a := Action.push t) h₂ (fun r' tail since hpc => ?_) ?_
    · rw [hself] at hpc
      cases hpc
    · simp only [machine, step, pushStep, hself]
      simp only [State.setPush, hpush, if_neg hspare]
  have h₄ : Reach (machine T blank cap) InTime
      { s with
        tail := wrap (s.tail + 1)
        push := Function.update s.push t (.write r s.tail s.reserved.length)
        reserved := s.reserved ++ [r] } := by
    refine Reach.step (a := Action.push t) h₃ (fun r' tail since hpc => ?_) ?_
    · rw [hself] at hpc
      cases hpc
      show s.reserved.length < s.popped.length + 2 ^ 32
      omega
    · simp only [machine, step, pushStep, hself]
      simp only [State.setPush, hpush, if_true]
  have h₅ : Reach (machine T blank cap) InTime
      { s with
        tail := wrap (s.tail + 1)
        ring := Function.update s.ring (s.tail % cap) r
        push := Function.update s.push t (.publish r s.tail s.reserved.length)
        reserved := s.reserved ++ [r] } := by
    refine Reach.step (a := Action.push t) h₄ (fun r' tail since hpc => ?_) ?_
    · simp only [Function.update_self] at hpc
      cases hpc
    · simp only [machine, step, pushStep, Function.update_self, hpush]
  have h₆ : Reach (machine T blank cap) InTime
      { s with
        tail := wrap (s.tail + 1)
        ring := Function.update s.ring (s.tail % cap) r
        seqs := Function.update s.seqs (s.tail % cap) (wrap (s.tail + 1))
        push := Function.update s.push t .idle
        reserved := s.reserved ++ [r]
        published := s.published ++ [s.reserved.length] } := by
    refine Reach.step (a := Action.push t) h₅ (fun r' tail since hpc => ?_) ?_
    · simp only [Function.update_self] at hpc
      cases hpc
    · simp only [machine, step, pushStep, Function.update_self, hpush]
  refine ⟨_, h₆, rfl, rfl, ?_⟩
  show Function.update s.push t .idle = s.push
  rw [← hidle]
  exact Function.update_eq_self t s.push

/-- The consumer takes a request that nobody still works on. -/
theorem reach_pop (hcap : Capacity cap) (h : Reach (machine T blank cap) InTime s)
    (hidle : ∀ t, (s.push t).holds = none) (hlt : s.popped.length < s.reserved.length) :
    ∃ s', Reach (machine T blank cap) InTime s' ∧ s'.reserved = s.reserved ∧ s'.push = s.push ∧
      s'.popped.length = s.popped.length + 1 := by
  have hinv := inv_of_reach hcap h
  have hmem : s.popped.length ∈ s.published := by
    by_contra hnot
    obtain ⟨t, ht⟩ := hinv.held _ hlt hnot
    rw [hidle t] at ht
    cases ht
  obtain ⟨as, s', hall, hrun, _, hreserved, hpush, hpopped⟩ := hinv.pops hcap hlt hmem blank
  have htime : ∀ a ∈ as, ∀ s : State T R, InTime s a := by
    intro a ha s
    have hby := hall a ha
    cases a with
    | push t => cases hby
    | _ => trivial
  exact ⟨s', h.run_of_forall as htime hrun, hreserved, hpush, hpopped⟩

/-- `n` requests of one producer, each popped before the next. -/
theorem reach_rounds (hcap : Capacity cap) (h : Reach (machine T blank cap) InTime s)
    (hidle : s.push t = .idle) (hholds : ∀ t, (s.push t).holds = none)
    (hempty : s.reserved.length = s.popped.length) (r : R) (n : ℕ) :
    ∃ s', Reach (machine T blank cap) InTime s' ∧ s'.push = s.push ∧
      s'.reserved.length = s.reserved.length + n ∧ s'.popped.length = s.popped.length + n := by
  have hpos : 0 < cap := hcap.pos
  induction n with
  | zero => exact ⟨s, h, rfl, rfl, rfl⟩
  | succ n ih =>
    obtain ⟨s₁, hs₁, hpush₁, hreserved₁, hpopped₁⟩ := ih
    obtain ⟨s₂, hs₂, hreserved₂, hpopped₂, hpush₂⟩ :=
      reach_push hcap hs₁ (by rw [hpush₁, hidle]) (by omega) r
    have hlen : s₂.reserved.length = s.reserved.length + n + 1 := by
      rw [hreserved₂, List.length_append, List.length_singleton, hreserved₁]
    obtain ⟨s₃, hs₃, hreserved₃, hpush₃, hpopped₃⟩ :=
      reach_pop hcap hs₂ (by rwa [hpush₂, hpush₁]) (by rw [hpopped₂]; omega)
    refine ⟨s₃, hs₃, by rw [hpush₃, hpush₂, hpush₁], by rw [hreserved₃, hlen]; omega, ?_⟩
    rw [hpopped₃, hpopped₂, hpopped₁]
    omega

/-- A queue of two elements whose counters have gone round: two producers push, and the request of the
first is popped. -/
theorem linear_wrapped : Capacity 2 ∧ ∃ s : State Bool Bool, Reach (machine Bool false 2) InTime s ∧
    s.reserved.length = 2 ^ 32 + 2 ∧ s.popped.length = 2 ^ 32 + 1 ∧ s.tail = 2 ∧ Linear 2 false s := by
  have hcap : Capacity 2 := ⟨⟨1, rfl⟩, by decide⟩
  have hinit : Reach (machine Bool false 2) InTime (initState Bool false) := .init rfl
  obtain ⟨s, hs, hpush, hreserved, hpopped⟩ :=
    reach_rounds hcap hinit (t := true) rfl (fun _ => rfl) rfl false (2 ^ 32)
  have hnone : s.reserved.length = 2 ^ 32 ∧ s.popped.length = 2 ^ 32 := ⟨hreserved, hpopped⟩
  obtain ⟨s₁, hs₁, hreserved₁, hpopped₁, hpush₁⟩ :=
    reach_push hcap hs (t := true) (by rw [hpush]; rfl) (by omega) true
  have hlen₁ := congrArg List.length hreserved₁
  rw [List.length_append, List.length_singleton] at hlen₁
  obtain ⟨s₂, hs₂, hreserved₂, hpopped₂, hpush₂⟩ :=
    reach_push hcap hs₁ (t := false) (by rw [hpush₁, hpush]; rfl) (by rw [hpopped₁]; omega) false
  have hlen₂ := congrArg List.length hreserved₂
  rw [List.length_append, List.length_singleton] at hlen₂
  obtain ⟨s₃, hs₃, hreserved₃, _, hpopped₃⟩ :=
    reach_pop hcap hs₂ (by rw [hpush₂, hpush₁, hpush]; exact fun _ => rfl) (by rw [hpopped₂, hpopped₁]; omega)
  have hlen₃ : s₃.reserved.length = 2 ^ 32 + 2 := by
    rw [hreserved₃]
    omega
  have htail := (inv_of_reach hcap hs₃).tail
  rw [hlen₃] at htail
  exact ⟨hcap, s₃, hs₃, hlen₃, by rw [hpopped₃, hpopped₂, hpopped₁, hnone.2], htail,
    linear_of_inTime hcap false hs₃⟩

/-- Had the counters gone round once when the slow producer reads the tail, it takes a full queue for
an empty one and writes over the request that waits there. -/
theorem waiting_overwritten :
    ∃ s : State Bool Bool, Reach (machine Bool false 1) anyStep s ∧ ¬ Linear 1 false s := by
  have hcap : Capacity 1 := ⟨⟨0, rfl⟩, by decide⟩
  have h₀ : Reach (machine Bool false 1) InTime ((initState Bool false).setPush true (.loadTail false 0 0)) := by
    have hinit : Reach (machine Bool false 1) InTime (initState Bool false) := .init rfl
    have hcall := Reach.step (a := Action.callPush true false) hinit trivial rfl
    refine Reach.step (a := Action.push true) hcall (by intro r tail since hpc; cases hpc) ?_
    simp [machine, step, pushStep, State.setPush, initState]
  obtain ⟨s, hs, hpush, hlen, hlen'⟩ :=
    reach_rounds hcap h₀ (t := false) rfl (by decide) rfl false (2 ^ 32 - 1)
  have hslow : s.push true = .loadTail false 0 0 := by rw [hpush]; rfl
  have hbusy : s.push false = .idle := by rw [hpush]; rfl
  have hreserved : s.reserved.length = 2 ^ 32 - 1 := hlen
  have hpopped : s.popped.length = 2 ^ 32 - 1 := hlen'
  obtain ⟨s₁, hs₁, hreserved₁, hpopped₁, hpush₁⟩ :=
    reach_push hcap hs (t := false) hbusy (by omega) true
  have hinv := inv_of_reach hcap hs₁
  have hlen : s₁.reserved.length = 2 ^ 32 := by
    have happend := congrArg List.length hreserved₁
    rw [List.length_append, List.length_singleton] at happend
    omega
  have htail : s₁.tail = 0 := by
    rw [hinv.tail, hlen]
    rfl
  have hslow₁ : s₁.push true = .loadTail false 0 0 := by rw [hpush₁, hslow]
  have hmem : 2 ^ 32 - 1 ∈ s₁.published := by
    by_contra hnot
    obtain ⟨t, ht⟩ := hinv.held _ (by rw [hlen]; omega) hnot
    rw [hpush₁] at ht
    cases t
    · rw [hbusy] at ht
      cases ht
    · rw [hslow] at ht
      cases ht
  have h₁ : Reach (machine Bool false 1) anyStep s₁ := hs₁.mono fun _ _ _ => trivial
  have h₂ : Reach (machine Bool false 1) anyStep (s₁.setPush true (.claim false 0 0)) := by
    refine Reach.step (a := Action.push true) h₁ trivial ?_
    simp only [machine, step, pushStep, hslow₁, htail]
    rfl
  have h₃ : Reach (machine Bool false 1) anyStep { s₁ with
      tail := 1, push := Function.update s₁.push true (.write false 0 s₁.reserved.length)
      reserved := s₁.reserved ++ [false] } := by
    refine Reach.step (a := Action.push true) h₂ trivial ?_
    simp only [machine, step, pushStep, State.setPush, Function.update_self, Function.update_idem, htail]
    rfl
  have h₄ : Reach (machine Bool false 1) anyStep { s₁ with
      tail := 1, ring := Function.update s₁.ring 0 false
      push := Function.update s₁.push true (.publish false 0 s₁.reserved.length)
      reserved := s₁.reserved ++ [false] } := by
    refine Reach.step (a := Action.push true) h₃ trivial ?_
    simp only [machine, step, pushStep, Function.update_self, Function.update_idem]
  refine ⟨_, h₄, fun hlinear => ?_⟩
  have hkept := hlinear.kept (2 ^ 32 - 1) hmem (by
    show s₁.popped.length ≤ 2 ^ 32 - 1
    rw [hpopped₁]
    exact Nat.le_of_eq hpopped)
  have hring : (s₁.reserved ++ [false])[2 ^ 32 - 1]? = some false := by
    rw [hkept]
    show some (Function.update s₁.ring 0 false ((2 ^ 32 - 1) % 1)) = some false
    rw [Nat.mod_one, Function.update_self]
  rw [hreserved₁, List.append_assoc, ← hreserved, List.getElem?_append_right (Nat.le_refl _),
    Nat.sub_self] at hring
  cases hring

end overtaken

end MpscQueue
end StreamMoE
