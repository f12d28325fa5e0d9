import Mathlib.Data.List.Count
import Mathlib.Data.List.Flatten
import Mathlib.Data.List.Nodup
import Mathlib.Data.Nat.Find
import Mathlib.Data.Nat.Notation

/-! Runs that alternate between offers to copy items and the execution of nodes: an offer copies the
items it takes that no earlier offer has copied. -/
namespace StreamMoE
namespace OfferSchedule

variable {ρ ν : Type*}

inductive Beat (ρ ν : Type*)
  | offer (takes : ρ → Bool)
  | exec (nodes : List ν)

inductive Event (ρ ν : Type*)
  | copies (batch : List ρ)
  | ran (nodes : List ν)
  deriving DecidableEq

section positions

def Event.copied : Event ρ ν → List ρ
  | .copies batch => batch
  | .ran _ => []

def Event.nodes : Event ρ ν → List ν
  | .copies _ => []
  | .ran nodes => nodes

/-- Every copy of a run, in order. -/
def copied (events : List (Event ρ ν)) : List ρ := events.flatMap Event.copied

def CopiedAt (events : List (Event ρ ν)) (i : ℕ) (r : ρ) : Prop :=
  ∃ batch, events[i]? = some (.copies batch) ∧ r ∈ batch

def RanAt (events : List (Event ρ ν)) (i : ℕ) (n : ν) : Prop :=
  ∃ nodes, events[i]? = some (.ran nodes) ∧ n ∈ nodes

def OfferedAt (beats : List (Beat ρ ν)) (i : ℕ) (r : ρ) : Prop :=
  ∃ takes, beats[i]? = some (.offer takes) ∧ takes r = true

def ExecAt (beats : List (Beat ρ ν)) (i : ℕ) (n : ν) : Prop :=
  ∃ nodes, beats[i]? = some (.exec nodes) ∧ n ∈ nodes

def FirstAt (beats : List (Beat ρ ν)) (i : ℕ) (r : ρ) : Prop :=
  OfferedAt beats i r ∧ ∀ j < i, ¬ OfferedAt beats j r

/-- Copied exactly once, after the nodes it needs and before any node that reads it. -/
structure CopiedInOrder [DecidableEq ρ] (events : List (Event ρ ν)) (r : ρ) (needs reads : ν → Prop) :
    Prop where
  once : (copied events).count r = 1
  after : ∀ i, CopiedAt events i r → ∀ n, needs n → ∃ k < i, RanAt events k n
  before : ∀ i, CopiedAt events i r → ∀ n, reads n → ∀ k, RanAt events k n → i < k

theorem offeredAt_succ {b : Beat ρ ν} {beats : List (Beat ρ ν)} {i : ℕ} {r : ρ} :
    OfferedAt (b :: beats) (i + 1) r ↔ OfferedAt beats i r := by
  simp only [OfferedAt, List.getElem?_cons_succ]

theorem firstAt_zero {b : Beat ρ ν} {beats : List (Beat ρ ν)} {r : ρ} :
    FirstAt (b :: beats) 0 r ↔ ∃ takes, b = .offer takes ∧ takes r = true := by
  constructor
  · rintro ⟨⟨takes, h, ht⟩, _⟩
    rw [List.getElem?_cons_zero] at h
    exact ⟨takes, Option.some.inj h, ht⟩
  · rintro ⟨takes, rfl, ht⟩
    exact ⟨⟨takes, rfl, ht⟩, fun j hj => absurd hj (Nat.not_lt_zero j)⟩

theorem firstAt_succ {b : Beat ρ ν} {beats : List (Beat ρ ν)} {i : ℕ} {r : ρ} :
    FirstAt (b :: beats) (i + 1) r ↔ ¬ OfferedAt (b :: beats) 0 r ∧ FirstAt beats i r := by
  constructor
  · rintro ⟨hoffer, hbefore⟩
    refine ⟨hbefore 0 (Nat.succ_pos i), offeredAt_succ.mp hoffer, fun j hj hj' => ?_⟩
    exact hbefore (j + 1) (Nat.succ_lt_succ hj) (offeredAt_succ.mpr hj')
  · rintro ⟨hzero, hoffer, hbefore⟩
    refine ⟨offeredAt_succ.mpr hoffer, fun j hj => ?_⟩
    cases j with
    | zero => exact hzero
    | succ j => exact fun hj' => hbefore j (Nat.lt_of_succ_lt_succ hj) (offeredAt_succ.mp hj')

theorem FirstAt.unique {beats : List (Beat ρ ν)} {i j : ℕ} {r : ρ} (hi : FirstAt beats i r)
    (hj : FirstAt beats j r) : i = j := by
  rcases Nat.lt_trichotomy i j with hlt | heq | hlt
  · exact absurd hi.1 (hj.2 i hlt)
  · exact heq
  · exact absurd hj.1 (hi.2 j hlt)

theorem mem_copied {events : List (Event ρ ν)} {r : ρ} :
    r ∈ copied events ↔ ∃ i, CopiedAt events i r := by
  constructor
  · intro h
    obtain ⟨e, he, hr⟩ := List.mem_flatMap.mp h
    obtain ⟨i, hi⟩ := List.mem_iff_getElem?.mp he
    cases e with
    | copies batch => exact ⟨i, batch, hi, hr⟩
    | ran nodes => cases hr
  · rintro ⟨i, batch, hi, hr⟩
    exact List.mem_flatMap.mpr ⟨_, List.mem_iff_getElem?.mpr ⟨i, hi⟩, hr⟩

instance [DecidableEq ρ] (events : List (Event ρ ν)) (i : ℕ) (r : ρ) :
    Decidable (CopiedAt events i r) :=
  decidable_of_iff (r ∈ (events[i]?.map Event.copied).getD []) (by
    unfold CopiedAt
    cases events[i]? with
    | none => simp
    | some e => cases e <;> simp [Event.copied])

instance [DecidableEq ν] (events : List (Event ρ ν)) (i : ℕ) (n : ν) : Decidable (RanAt events i n) :=
  decidable_of_iff (n ∈ (events[i]?.map Event.nodes).getD []) (by
    unfold RanAt
    cases events[i]? with
    | none => simp
    | some e => cases e <;> simp [Event.nodes])

end positions

section play

variable [DecidableEq ρ] (items : List ρ)

def batch (executed : List ρ) (takes : ρ → Bool) : List ρ :=
  items.filter fun r => decide (r ∉ executed) && takes r

def play (executed : List ρ) : List (Beat ρ ν) → List (Event ρ ν)
  | [] => []
  | .offer takes :: beats =>
      .copies (batch items executed takes) :: play (executed ++ batch items executed takes) beats
  | .exec nodes :: beats => .ran nodes :: play executed beats

variable {items}

theorem mem_batch {executed : List ρ} {takes : ρ → Bool} {r : ρ} :
    r ∈ batch items executed takes ↔ r ∈ items ∧ r ∉ executed ∧ takes r = true := by
  simp only [batch, List.mem_filter, Bool.and_eq_true, decide_eq_true_eq]

theorem ranAt_play {executed : List ρ} {beats : List (Beat ρ ν)} {i : ℕ} {n : ν} :
    RanAt (play items executed beats) i n ↔ ExecAt beats i n := by
  induction beats generalizing executed i with
  | nil => simp [play, RanAt, ExecAt]
  | cons b beats ih =>
    cases i with
    | zero => cases b <;> simp [play, RanAt, ExecAt]
    | succ i =>
      have hrest := fun executed => @ih executed i
      simp only [RanAt, ExecAt] at hrest ⊢
      cases b <;> simp only [play, List.getElem?_cons_succ, hrest]

theorem copiedAt_play {executed : List ρ} {beats : List (Beat ρ ν)} {i : ℕ} {r : ρ} :
    CopiedAt (play items executed beats) i r ↔ r ∈ items ∧ r ∉ executed ∧ FirstAt beats i r := by
  induction beats generalizing executed i with
  | nil => simp [play, CopiedAt, FirstAt, OfferedAt]
  | cons b beats ih =>
    cases i with
    | zero =>
      rw [firstAt_zero]
      cases b with
      | offer takes => simp [play, CopiedAt, mem_batch]
      | exec nodes => simp [play, CopiedAt]
    | succ i =>
      have hrest := fun executed => @ih executed i
      rw [firstAt_succ]
      cases b with
      | exec nodes =>
        have hzero : ¬ OfferedAt (.exec nodes :: beats) 0 r := by
          rintro ⟨takes, h, _⟩
          cases h
        simp only [CopiedAt, play, List.getElem?_cons_succ] at hrest ⊢
        rw [hrest]
        simp only [hzero, not_false_eq_true, true_and]
      | offer takes =>
        have hzero : OfferedAt (.offer takes :: beats) 0 r ↔ takes r = true := by
          simp [OfferedAt]
        simp only [CopiedAt, play, List.getElem?_cons_succ] at hrest ⊢
        rw [hrest, hzero, List.mem_append, mem_batch]
        tauto

theorem copied_nodup (h : items.Nodup) (executed : List ρ) (beats : List (Beat ρ ν)) :
    (copied (play items executed beats)).Nodup := by
  induction beats generalizing executed with
  | nil => exact List.nodup_nil
  | cons b beats ih =>
    cases b with
    | exec nodes => exact ih executed
    | offer takes =>
      refine List.nodup_append.mpr ⟨h.filter _, ih _, ?_⟩
      rintro r hr r' hr' rfl
      obtain ⟨i, hi⟩ := mem_copied.mp hr'
      exact (copiedAt_play.mp hi).2.1 (List.mem_append_right executed hr)

/-- In order exactly if the first offer lies between what the item needs and what reads it. -/
theorem copiedInOrder_iff (h : items.Nodup) {r : ρ} (hr : r ∈ items) {beats : List (Beat ρ ν)}
    {needs reads : ν → Prop} :
    CopiedInOrder (play items [] beats) r needs reads ↔
      ∃ i, FirstAt beats i r ∧ (∀ n, needs n → ∃ k < i, ExecAt beats k n) ∧
        ∀ n, reads n → ∀ k, ExecAt beats k n → i < k := by
  have hat : ∀ i, CopiedAt (play items [] beats) i r ↔ FirstAt beats i r := by
    intro i
    rw [copiedAt_play]
    simp only [hr, List.not_mem_nil, not_false_eq_true, true_and]
  constructor
  · rintro ⟨honce, hafter, hbefore⟩
    have hmem : r ∈ copied (play items [] beats) := by
      rw [← List.count_pos_iff, honce]
      exact Nat.one_pos
    obtain ⟨i, hi⟩ := mem_copied.mp hmem
    refine ⟨i, (hat i).mp hi, fun n hn => ?_, fun n hn k hk => ?_⟩
    · obtain ⟨k, hk, hran⟩ := hafter i hi n hn
      exact ⟨k, hk, ranAt_play.mp hran⟩
    · exact hbefore i hi n hn k (ranAt_play.mpr hk)
  · rintro ⟨i, hi, hafter, hbefore⟩
    have hunique : ∀ j, CopiedAt (play items [] beats) j r → j = i := fun j hj =>
      ((hat j).mp hj).unique hi
    refine ⟨?_, fun j hj n hn => ?_, fun j hj n hn k hk => ?_⟩
    · exact List.count_eq_one_of_mem (copied_nodup h [] beats) (mem_copied.mpr ⟨i, (hat i).mpr hi⟩)
    · obtain rfl := hunique j hj
      obtain ⟨k, hk, hexec⟩ := hafter n hn
      exact ⟨k, hk, ranAt_play.mpr hexec⟩
    · obtain rfl := hunique j hj
      exact hbefore n hn k (ranAt_play.mp hk)

end play

section legs

/-- Nodes with an offer before and an offer behind them. -/
structure Leg (ρ ν : Type*) where
  before : ρ → Bool
  nodes : List ν
  after : ρ → Bool

def Leg.beats (l : Leg ρ ν) : List (Beat ρ ν) := [.offer l.before, .exec l.nodes, .offer l.after]

def Leg.comap {σ : Type*} (f : σ → ρ) (l : Leg ρ ν) : Leg σ ν :=
  ⟨fun s => l.before (f s), l.nodes, fun s => l.after (f s)⟩

def Leg.takes (l : Leg ρ ν) (r : ρ) : Bool := l.before r || l.after r

def beatsOf (legs : List (Leg ρ ν)) : List (Beat ρ ν) := legs.flatMap Leg.beats

def FirstLeg (legs : List (Leg ρ ν)) (k : ℕ) (l : Leg ρ ν) (r : ρ) : Prop :=
  legs[k]? = some l ∧ l.takes r = true ∧ ∀ j < k, ∀ l', legs[j]? = some l' → l'.takes r = false

def RunsIn (legs : List (Leg ρ ν)) (k : ℕ) (n : ν) : Prop := ∃ l, legs[k]? = some l ∧ n ∈ l.nodes

/-- The first leg to take the item comes once what it needs has run, and no node that reads it
runs earlier. -/
def InTurn (legs : List (Leg ρ ν)) (r : ρ) (needs reads : ν → Prop) : Prop :=
  ∃ k l, FirstLeg legs k l r ∧
    if l.before r then
      (∀ n, needs n → ∃ j < k, RunsIn legs j n) ∧ ∀ n, reads n → ∀ j, RunsIn legs j n → k ≤ j
    else
      (∀ n, needs n → ∃ j ≤ k, RunsIn legs j n) ∧ ∀ n, reads n → ∀ j, RunsIn legs j n → k < j

variable {legs : List (Leg ρ ν)}

theorem beatsOf_cons (l : Leg ρ ν) (legs : List (Leg ρ ν)) :
    beatsOf (l :: legs) = .offer l.before :: .exec l.nodes :: .offer l.after :: beatsOf legs := rfl

theorem getElem?_beatsOf (legs : List (Leg ρ ν)) (k : ℕ) :
    (beatsOf legs)[3 * k]? = legs[k]?.map (fun l => Beat.offer l.before) ∧
      (beatsOf legs)[3 * k + 1]? = legs[k]?.map (fun l => Beat.exec l.nodes) ∧
      (beatsOf legs)[3 * k + 2]? = legs[k]?.map (fun l => Beat.offer l.after) := by
  induction legs generalizing k with
  | nil => simp [beatsOf]
  | cons l legs ih =>
    rw [beatsOf_cons]
    cases k with
    | zero => exact ⟨rfl, rfl, rfl⟩
    | succ k =>
      have hsplit : 3 * (k + 1) = 3 * k + 1 + 1 + 1 := by omega
      rw [hsplit]
      exact ih k

theorem beat_cases (i : ℕ) : ∃ k, i = 3 * k ∨ i = 3 * k + 1 ∨ i = 3 * k + 2 :=
  ⟨i / 3, by omega⟩

theorem execAt_beatsOf {i : ℕ} {n : ν} :
    ExecAt (beatsOf legs) i n ↔ ∃ k, i = 3 * k + 1 ∧ RunsIn legs k n := by
  constructor
  · rintro ⟨nodes, hi, hn⟩
    obtain ⟨k, rfl | rfl | rfl⟩ := beat_cases i
    · rw [(getElem?_beatsOf legs k).1] at hi
      obtain ⟨l, _, hl⟩ := Option.map_eq_some_iff.mp hi
      cases hl
    · rw [(getElem?_beatsOf legs k).2.1] at hi
      obtain ⟨l, hl, hnodes⟩ := Option.map_eq_some_iff.mp hi
      cases hnodes
      exact ⟨k, rfl, l, hl, hn⟩
    · rw [(getElem?_beatsOf legs k).2.2] at hi
      obtain ⟨l, _, hl⟩ := Option.map_eq_some_iff.mp hi
      cases hl
  · rintro ⟨k, rfl, l, hl, hn⟩
    exact ⟨l.nodes, by rw [(getElem?_beatsOf legs k).2.1, hl]; rfl, hn⟩

theorem offeredAt_beatsOf {i : ℕ} {r : ρ} :
    OfferedAt (beatsOf legs) i r ↔ ∃ k l, legs[k]? = some l ∧
      (i = 3 * k ∧ l.before r = true ∨ i = 3 * k + 2 ∧ l.after r = true) := by
  constructor
  · rintro ⟨takes, hi, ht⟩
    obtain ⟨k, rfl | rfl | rfl⟩ := beat_cases i
    · rw [(getElem?_beatsOf legs k).1] at hi
      obtain ⟨l, hl, htakes⟩ := Option.map_eq_some_iff.mp hi
      cases htakes
      exact ⟨k, l, hl, Or.inl ⟨rfl, ht⟩⟩
    · rw [(getElem?_beatsOf legs k).2.1] at hi
      obtain ⟨l, _, hl⟩ := Option.map_eq_some_iff.mp hi
      cases hl
    · rw [(getElem?_beatsOf legs k).2.2] at hi
      obtain ⟨l, hl, htakes⟩ := Option.map_eq_some_iff.mp hi
      cases htakes
      exact ⟨k, l, hl, Or.inr ⟨rfl, ht⟩⟩
  · rintro ⟨k, l, hl, ⟨rfl, ht⟩ | ⟨rfl, ht⟩⟩
    · exact ⟨l.before, by rw [(getElem?_beatsOf legs k).1, hl]; rfl, ht⟩
    · exact ⟨l.after, by rw [(getElem?_beatsOf legs k).2.2, hl]; rfl, ht⟩

/-- The first offer is before the first leg that takes the item, else behind it. -/
theorem firstAt_beatsOf {i : ℕ} {r : ρ} :
    FirstAt (beatsOf legs) i r ↔
      ∃ k l, FirstLeg legs k l r ∧ i = 3 * k + if l.before r then 0 else 2 := by
  constructor
  · rintro ⟨hoffer, hbefore⟩
    obtain ⟨k, l, hl, hside⟩ := offeredAt_beatsOf.mp hoffer
    refine ⟨k, l, ⟨hl, ?_, fun j hj l' hl' => ?_⟩, ?_⟩
    · rcases hside with ⟨_, h⟩ | ⟨_, h⟩ <;> simp [Leg.takes, h]
    · have hno : ∀ i' < 3 * k, ¬ OfferedAt (beatsOf legs) i' r := fun i' hi' => hbefore i' (by omega)
      have hb : ¬ l'.before r = true := fun h =>
        hno (3 * j) (by omega) (offeredAt_beatsOf.mpr ⟨j, l', hl', Or.inl ⟨rfl, h⟩⟩)
      have ha : ¬ l'.after r = true := fun h =>
        hno (3 * j + 2) (by omega) (offeredAt_beatsOf.mpr ⟨j, l', hl', Or.inr ⟨rfl, h⟩⟩)
      simp [Leg.takes, hb, ha]
    · split
      · rename_i hb
        rcases hside with ⟨h, _⟩ | ⟨h, _⟩
        · exact h
        · exact absurd (offeredAt_beatsOf.mpr ⟨k, l, hl, Or.inl ⟨rfl, hb⟩⟩)
            (hbefore (3 * k) (by omega))
      · rename_i hb
        rcases hside with ⟨_, h⟩ | ⟨h, _⟩
        · exact absurd h hb
        · exact h
  · rintro ⟨k, l, ⟨hl, htakes, hbefore⟩, rfl⟩
    constructor
    · refine offeredAt_beatsOf.mpr ⟨k, l, hl, ?_⟩
      by_cases hb : l.before r = true
      · exact Or.inl ⟨by rw [if_pos hb]; rfl, hb⟩
      · refine Or.inr ⟨by rw [if_neg hb], ?_⟩
        simpa [Leg.takes, hb] using htakes
    · intro j hj hoffer
      obtain ⟨k', l', hl', hside⟩ := offeredAt_beatsOf.mp hoffer
      have htaken : l'.takes r = true := by
        rcases hside with ⟨_, h⟩ | ⟨_, h⟩ <;> simp [Leg.takes, h]
      by_cases hlt : k' < k
      · rw [hbefore k' hlt l' hl'] at htaken
        cases htaken
      · split at hj
        · omega
        · rename_i hb
          obtain rfl : k' = k := by omega
          rw [hl] at hl'
          obtain rfl := Option.some.inj hl'
          rcases hside with ⟨_, h⟩ | ⟨h, _⟩
          · exact hb h
          · omega

theorem copiedInOrder_iff_inTurn [DecidableEq ρ] {items : List ρ} (h : items.Nodup) {r : ρ}
    (hr : r ∈ items) {needs reads : ν → Prop} :
    CopiedInOrder (play items [] (beatsOf legs)) r needs reads ↔ InTurn legs r needs reads := by
  rw [copiedInOrder_iff h hr]
  constructor
  · rintro ⟨i, hfirst, hneeds, hreads⟩
    obtain ⟨k, l, hleg, hi⟩ := firstAt_beatsOf.mp hfirst
    have hneeds' : ∀ n, needs n → ∃ j, 3 * j + 1 < i ∧ RunsIn legs j n := by
      intro n hn
      obtain ⟨_, hlt, hexec⟩ := hneeds n hn
      obtain ⟨j, rfl, hj⟩ := execAt_beatsOf.mp hexec
      exact ⟨j, hlt, hj⟩
    have hreads' : ∀ n, reads n → ∀ j, RunsIn legs j n → i < 3 * j + 1 := fun n hn j hj =>
      hreads n hn _ (execAt_beatsOf.mpr ⟨j, rfl, hj⟩)
    refine ⟨k, l, hleg, ?_⟩
    split at hi
    · rename_i hb
      rw [if_pos hb]
      refine ⟨fun n hn => ?_, fun n hn j hj => ?_⟩
      · obtain ⟨j, hlt, hj⟩ := hneeds' n hn
        exact ⟨j, by omega, hj⟩
      · have := hreads' n hn j hj
        omega
    · rename_i hb
      rw [if_neg hb]
      refine ⟨fun n hn => ?_, fun n hn j hj => ?_⟩
      · obtain ⟨j, hlt, hj⟩ := hneeds' n hn
        exact ⟨j, by omega, hj⟩
      · have := hreads' n hn j hj
        omega
  · rintro ⟨k, l, hleg, hside⟩
    refine ⟨_, firstAt_beatsOf.mpr ⟨k, l, hleg, rfl⟩, ?_⟩
    split at hside
    · rename_i hb
      rw [if_pos hb]
      refine ⟨fun n hn => ?_, fun n hn i hi => ?_⟩
      · obtain ⟨j, hlt, hj⟩ := hside.1 n hn
        exact ⟨3 * j + 1, by omega, execAt_beatsOf.mpr ⟨j, rfl, hj⟩⟩
      · obtain ⟨j, rfl, hj⟩ := execAt_beatsOf.mp hi
        have := hside.2 n hn j hj
        omega
    · rename_i hb
      rw [if_neg hb]
      refine ⟨fun n hn => ?_, fun n hn i hi => ?_⟩
      · obtain ⟨j, hlt, hj⟩ := hside.1 n hn
        exact ⟨3 * j + 1, by omega, execAt_beatsOf.mpr ⟨j, rfl, hj⟩⟩
      · obtain ⟨j, rfl, hj⟩ := execAt_beatsOf.mp hi
        have := hside.2 n hn j hj
        omega

/-- No copy of `r'` is made between the copy of `r` and a node that reads it; the copies of one
offer are made together. -/
def KeptFrom (events : List (Event ρ ν)) (r r' : ρ) (reads : ν → Prop) : Prop :=
  ∀ a b, CopiedAt events a r → CopiedAt events b r' → a ≤ b →
    ∀ n, reads n → ∀ k, RanAt events k n → k < b

theorem exists_firstAt {beats : List (Beat ρ ν)} {i : ℕ} {r : ρ} (h : OfferedAt beats i r) :
    ∃ j ≤ i, FirstAt beats j r := by
  induction i using Nat.strongRecOn with
  | ind i ih =>
    by_cases hearlier : ∃ j < i, OfferedAt beats j r
    · obtain ⟨j, hj, hoffer⟩ := hearlier
      obtain ⟨k, hk, hfirst⟩ := ih j hj hoffer
      exact ⟨k, by omega, hfirst⟩
    · push Not at hearlier
      exact ⟨i, Nat.le_refl i, h, hearlier⟩

theorem FirstAt.le {beats : List (Beat ρ ν)} {i j : ℕ} {r : ρ} (h : FirstAt beats i r)
    (hj : OfferedAt beats j r) : i ≤ j := by
  by_contra hlt
  exact h.2 j (Nat.lt_of_not_le hlt) hj

/-- Whatever offers `r'` ahead of a node that reads `r`, some offer of `r'` is ahead of every one of
`r`. -/
theorem keptFrom_iff [DecidableEq ρ] {items : List ρ} {r r' : ρ} (hr : r ∈ items) (hr' : r' ∈ items)
    {reads : ν → Prop} {beats : List (Beat ρ ν)} :
    KeptFrom (play items [] beats) r r' reads ↔
      ∀ n, reads n → ∀ k, ExecAt beats k n → ∀ t < k, OfferedAt beats t r' →
        ∃ t', OfferedAt beats t' r' ∧ ∀ u, OfferedAt beats u r → t' < u := by
  have hat : ∀ i r, r ∈ items → (CopiedAt (play items [] beats) i r ↔ FirstAt beats i r) := by
    intro i r hr
    rw [copiedAt_play]
    simp only [hr, List.not_mem_nil, not_false_eq_true, true_and]
  constructor
  · intro hkept n hn k hk t ht hoffer
    obtain ⟨b, hb, hfirst⟩ := exists_firstAt hoffer
    refine ⟨b, hfirst.1, fun u hu => ?_⟩
    obtain ⟨a, ha, hfirst'⟩ := exists_firstAt hu
    by_contra hle
    have := hkept a b ((hat a r hr).mpr hfirst') ((hat b r' hr').mpr hfirst) (by omega) n hn k
      (ranAt_play.mpr hk)
    omega
  · intro hkept a b ha hb hab n hn k hk
    have hfirst := (hat a r hr).mp ha
    have hfirst' := (hat b r' hr').mp hb
    have hexec := ranAt_play.mp hk
    by_contra hle
    have hne : b ≠ k := by
      rintro rfl
      obtain ⟨takes, hget, _⟩ := hfirst'.1
      obtain ⟨nodes, hget', _⟩ := hexec
      rw [hget] at hget'
      cases hget'
    obtain ⟨t', ht', hall⟩ := hkept n hn k hexec b (by omega) hfirst'.1
    have hlt := hall a hfirst.1
    have hle' := hfirst'.le ht'
    omega

section comap

variable {σ : Type*} {f : σ → ρ} {s : σ}

theorem runsIn_comap {k : ℕ} {n : ν} : RunsIn (legs.map (Leg.comap f)) k n ↔ RunsIn legs k n := by
  unfold RunsIn
  rw [List.getElem?_map]
  cases legs[k]? <;> simp [Leg.comap]

theorem firstLeg_comap {k : ℕ} {l : Leg σ ν} :
    FirstLeg (legs.map (Leg.comap f)) k l s ↔ ∃ l', l = l'.comap f ∧ FirstLeg legs k l' (f s) := by
  constructor
  · rintro ⟨hl, htakes, hbefore⟩
    rw [List.getElem?_map] at hl
    obtain ⟨l', hl', rfl⟩ := Option.map_eq_some_iff.mp hl
    refine ⟨l', rfl, hl', htakes, fun j hj l₁ hl₁ => ?_⟩
    exact hbefore j hj (l₁.comap f) (by rw [List.getElem?_map, hl₁]; rfl)
  · rintro ⟨l', rfl, hl', htakes, hbefore⟩
    refine ⟨by rw [List.getElem?_map, hl']; rfl, htakes, fun j hj l₁ hl₁ => ?_⟩
    rw [List.getElem?_map] at hl₁
    obtain ⟨l₂, hl₂, rfl⟩ := Option.map_eq_some_iff.mp hl₁
    exact hbefore j hj l₂ hl₂

theorem inTurn_comap {needs reads : ν → Prop} :
    InTurn (legs.map (Leg.comap f)) s needs reads ↔ InTurn legs (f s) needs reads := by
  simp only [InTurn, runsIn_comap, firstLeg_comap]
  constructor
  · rintro ⟨k, _, ⟨l, rfl, hfirst⟩, hside⟩
    exact ⟨k, l, hfirst, hside⟩
  · rintro ⟨k, l, hfirst, hside⟩
    exact ⟨k, _, ⟨l, rfl, hfirst⟩, hside⟩

end comap

end legs

section blocks

variable {κ : Type*} {α : Type*} (f : κ → List α)

/-- What the blocks before the `i`-th one hold. -/
def offset (run : List κ) (i : ℕ) : ℕ := ((run.take i).flatMap f).length

variable {f}

theorem getElem?_flatMap {run : List κ} {k : ℕ} {x : α} :
    (run.flatMap f)[k]? = some x ↔
      ∃ i a j, run[i]? = some a ∧ (f a)[j]? = some x ∧ k = offset f run i + j := by
  induction run generalizing k with
  | nil => simp
  | cons b run ih =>
    have hsucc : ∀ i, offset f (b :: run) (i + 1) = (f b).length + offset f run i := by
      intro i
      simp only [offset, List.take_succ_cons, List.flatMap_cons, List.length_append]
    rw [List.flatMap_cons]
    by_cases hk : k < (f b).length
    · rw [List.getElem?_append_left hk]
      constructor
      · exact fun h => ⟨0, b, k, rfl, h, by simp [offset]⟩
      · rintro ⟨i, a, j, hi, hj, heq⟩
        cases i with
        | zero =>
          obtain rfl := Option.some.inj hi
          have hkj : k = j := by simpa [offset] using heq
          rwa [hkj]
        | succ i =>
          rw [hsucc] at heq
          omega
    · rw [List.getElem?_append_right (Nat.le_of_not_lt hk), ih]
      constructor
      · rintro ⟨i, a, j, hi, hj, heq⟩
        exact ⟨i + 1, a, j, hi, hj, by rw [hsucc]; omega⟩
      · rintro ⟨i, a, j, hi, hj, heq⟩
        cases i with
        | zero =>
          obtain rfl := Option.some.inj hi
          have hlt := (List.getElem?_eq_some_iff.mp hj).1
          have hkj : k = j := by simpa [offset] using heq
          omega
        | succ i =>
          rw [hsucc] at heq
          exact ⟨i, a, j, hi, hj, by omega⟩

/-- Blocks lie one behind the other. -/
theorem offset_add_lt {run : List κ} {i i' j : ℕ} {a : κ} {x : α} (hi : run[i]? = some a)
    (hj : (f a)[j]? = some x) (hlt : i < i') : offset f run i + j < offset f run i' := by
  have hlen := (List.getElem?_eq_some_iff.mp hj).1
  have hsucc : offset f run (i + 1) = offset f run i + (f a).length := by
    simp [offset, List.take_add_one, hi, List.flatMap_append]
  have hmono : offset f run (i + 1) ≤ offset f run i' := by
    have hsub : ((run.take (i + 1)).flatMap f).Sublist ((run.take i').flatMap f) :=
      (List.take_sublist_take_left hlt).flatMap f
    exact hsub.length_le
  omega

variable {g : κ → List (Leg ρ ν)}

theorem runsIn_flatMap {run : List κ} {k : ℕ} {n : ν} :
    RunsIn (run.flatMap g) k n ↔
      ∃ i a j, run[i]? = some a ∧ RunsIn (g a) j n ∧ k = offset g run i + j := by
  simp only [RunsIn, getElem?_flatMap]
  constructor
  · rintro ⟨l, ⟨i, a, j, hi, hj, hk⟩, hn⟩
    exact ⟨i, a, j, hi, ⟨l, hj, hn⟩, hk⟩
  · rintro ⟨i, a, j, hi, ⟨l, hj, hn⟩, hk⟩
    exact ⟨l, ⟨i, a, j, hi, hj, hk⟩, hn⟩

/-- Some leg takes the item; every offer that takes it comes behind what it needs, and one ahead of each
node that reads it. -/
structure Timely (legs : List (Leg ρ ν)) (past : ν → Prop) (r : ρ) (needs reads : ν → Prop) : Prop where
  served : ∃ l ∈ legs, l.takes r = true
  behind : ∀ (k : ℕ) (l : Leg ρ ν), legs[k]? = some l → ∀ n, needs n →
    (l.before r = true → past n ∨ ∃ j < k, RunsIn legs j n) ∧
      (l.after r = true → past n ∨ ∃ j ≤ k, RunsIn legs j n)
  ahead : ∀ n, reads n → ¬ past n ∧ ∀ j, RunsIn legs j n →
    ∃ (k : ℕ) (l : Leg ρ ν), legs[k]? = some l ∧
      (k ≤ j ∧ l.before r = true ∨ k < j ∧ l.after r = true)

theorem takes_iff {l : Leg ρ ν} {r : ρ} : l.takes r = true ↔ l.before r = true ∨ l.after r = true :=
  iff_of_eq (Bool.or_eq_true _ _)

theorem exists_firstLeg {legs : List (Leg ρ ν)} {r : ρ} (h : ∃ l ∈ legs, l.takes r = true) :
    ∃ (k : ℕ) (l : Leg ρ ν), FirstLeg legs k l r := by
  have hserved : ∃ (k : ℕ) (l : Leg ρ ν), legs[k]? = some l ∧ l.takes r = true := by
    obtain ⟨l, hl, htakes⟩ := h
    obtain ⟨k, hk⟩ := List.mem_iff_getElem?.mp hl
    exact ⟨k, l, hk, htakes⟩
  classical
  obtain ⟨l, hl, htakes⟩ := Nat.find_spec hserved
  refine ⟨_, l, hl, htakes, fun j hj l' hl' => ?_⟩
  rw [← Bool.not_eq_true]
  exact fun htakes' => Nat.find_min hserved hj ⟨l', hl', htakes'⟩

/-- Whether it is an item's turn is a matter of all the legs that take it, not of the first one. -/
theorem inTurn_iff_timely {legs : List (Leg ρ ν)} {r : ρ} {needs reads : ν → Prop} :
    InTurn legs r needs reads ↔ Timely legs (fun _ => False) r needs reads := by
  constructor
  · rintro ⟨k, l, ⟨hl, htakes, hmin⟩, hside⟩
    have hle : ∀ (k' : ℕ) (l' : Leg ρ ν), legs[k']? = some l' → l'.takes r = true → k ≤ k' := by
      intro k' l' hl' htakes'
      by_contra hlt
      rw [hmin k' (Nat.lt_of_not_le hlt) l' hl'] at htakes'
      cases htakes'
    by_cases hbefore : l.before r = true
    · rw [if_pos hbefore] at hside
      refine ⟨⟨l, List.mem_of_getElem? hl, htakes⟩, fun k' l' hl' n hn => ?_, fun n hn => ⟨id, fun j hj => ?_⟩⟩
      · obtain ⟨j, hj, hrun⟩ := hside.1 n hn
        refine ⟨fun h => Or.inr ⟨j, ?_, hrun⟩, fun h => Or.inr ⟨j, ?_, hrun⟩⟩
        · have := hle k' l' hl' (takes_iff.mpr (Or.inl h))
          omega
        · have := hle k' l' hl' (takes_iff.mpr (Or.inr h))
          omega
      · exact ⟨k, l, hl, Or.inl ⟨hside.2 n hn j hj, hbefore⟩⟩
    · rw [if_neg hbefore] at hside
      have hafter : l.after r = true := (takes_iff.mp htakes).resolve_left hbefore
      refine ⟨⟨l, List.mem_of_getElem? hl, htakes⟩, fun k' l' hl' n hn => ?_, fun n hn => ⟨id, fun j hj => ?_⟩⟩
      · obtain ⟨j, hj, hrun⟩ := hside.1 n hn
        refine ⟨fun h => Or.inr ⟨j, ?_, hrun⟩, fun h => Or.inr ⟨j, ?_, hrun⟩⟩
        · have hk' := hle k' l' hl' (takes_iff.mpr (Or.inl h))
          have hne : k ≠ k' := by
            rintro rfl
            rw [hl] at hl'
            obtain rfl := Option.some.inj hl'
            exact hbefore h
          omega
        · have := hle k' l' hl' (takes_iff.mpr (Or.inr h))
          omega
      · exact ⟨k, l, hl, Or.inr ⟨hside.2 n hn j hj, hafter⟩⟩
  · rintro ⟨hserved, hbehind, hahead⟩
    obtain ⟨k, l, hl, htakes, hmin⟩ := exists_firstLeg hserved
    have hle : ∀ (k' : ℕ) (l' : Leg ρ ν), legs[k']? = some l' → l'.takes r = true → k ≤ k' := by
      intro k' l' hl' htakes'
      by_contra hlt
      rw [hmin k' (Nat.lt_of_not_le hlt) l' hl'] at htakes'
      cases htakes'
    refine ⟨k, l, ⟨hl, htakes, hmin⟩, ?_⟩
    by_cases hbefore : l.before r = true
    · rw [if_pos hbefore]
      refine ⟨fun n hn => ((hbehind k l hl n hn).1 hbefore).resolve_left id, fun n hn j hj => ?_⟩
      obtain ⟨k', l', hl', hside⟩ := (hahead n hn).2 j hj
      have := hle k' l' hl' (takes_iff.mpr (hside.imp And.right And.right))
      omega
    · rw [if_neg hbefore]
      have hafter : l.after r = true := (takes_iff.mp htakes).resolve_left hbefore
      refine ⟨fun n hn => ((hbehind k l hl n hn).2 hafter).resolve_left id, fun n hn j hj => ?_⟩
      obtain ⟨k', l', hl', hside⟩ := (hahead n hn).2 j hj
      have hk' := hle k' l' hl' (takes_iff.mpr (hside.imp And.right And.right))
      rcases hside with ⟨hj, hbefore'⟩ | ⟨hj, _⟩
      · have hne : k ≠ k' := by
          rintro rfl
          rw [hl] at hl'
          obtain rfl := Option.some.inj hl'
          exact hbefore hbefore'
        omega
      · omega

/-- An offer with no nodes ahead of the legs. -/
theorem timely_cons {l : Leg ρ ν} {legs : List (Leg ρ ν)} {past : ν → Prop} {r : ρ}
    {needs reads : ν → Prop} (hnodes : l.nodes = []) (hafter : l.after r = false) :
    Timely (l :: legs) past r needs reads ↔
      if l.before r = true then (∀ n, needs n → past n) ∧ ∀ n, reads n → ¬ past n
      else Timely legs past r needs reads := by
  have hruns : ∀ (j : ℕ) (n : ν), RunsIn (l :: legs) j n ↔ ∃ j', j = j' + 1 ∧ RunsIn legs j' n := by
    intro j n
    cases j with
    | zero => simp [RunsIn, hnodes]
    | succ j => simp [RunsIn]
  have hshift : ∀ (k : ℕ) (n : ν), (∃ j < k + 1, RunsIn (l :: legs) j n) ↔ ∃ j < k, RunsIn legs j n := by
    intro k n
    simp only [hruns]
    constructor
    · rintro ⟨_, hj, j, rfl, hn⟩
      exact ⟨j, by omega, hn⟩
    · rintro ⟨j, hj, hn⟩
      exact ⟨j + 1, by omega, j, rfl, hn⟩
  split
  · rename_i hbefore
    constructor
    · rintro ⟨_, hbehind, hahead⟩
      refine ⟨fun n hn => ?_, fun n hn => (hahead n hn).1⟩
      rcases (hbehind 0 l rfl n hn).1 hbefore with hpast | ⟨j, hj, _⟩
      · exact hpast
      · omega
    · rintro ⟨hneeds, hreads⟩
      refine ⟨⟨l, List.mem_cons_self .., takes_iff.mpr (Or.inl hbefore)⟩, fun k l' _ n hn => ?_,
        fun n hn => ⟨hreads n hn, fun j _ => ⟨0, l, rfl, Or.inl ⟨Nat.zero_le j, hbefore⟩⟩⟩⟩
      exact ⟨fun _ => Or.inl (hneeds n hn), fun _ => Or.inl (hneeds n hn)⟩
  · rename_i hbefore
    have hnone : ¬ l.takes r = true := fun h => (takes_iff.mp h).elim hbefore (by simp [hafter])
    constructor
    · rintro ⟨⟨l', hl', htakes⟩, hbehind, hahead⟩
      refine ⟨?_, fun k l₁ hl₁ n hn => ?_, fun n hn => ⟨(hahead n hn).1, fun j hj => ?_⟩⟩
      · rcases List.mem_cons.mp hl' with rfl | hl'
        · exact absurd htakes hnone
        · exact ⟨l', hl', htakes⟩
      · have hwhole := hbehind (k + 1) l₁ hl₁ n hn
        refine ⟨fun h => (hwhole.1 h).imp id (hshift k n).mp, fun h => (hwhole.2 h).imp id ?_⟩
        rintro ⟨j, hj, hrun⟩
        obtain ⟨j', rfl, hrun⟩ := (hruns j n).mp hrun
        exact ⟨j', by omega, hrun⟩
      · obtain ⟨k, l₁, hl₁, hside⟩ := (hahead n hn).2 (j + 1) ((hruns _ n).mpr ⟨j, rfl, hj⟩)
        cases k with
        | zero =>
          cases hl₁
          exact absurd (takes_iff.mpr (hside.imp And.right And.right)) hnone
        | succ k => exact ⟨k, l₁, hl₁, hside.imp (.imp_left (by omega)) (.imp_left (by omega))⟩
    · rintro ⟨⟨l', hl', htakes⟩, hbehind, hahead⟩
      refine ⟨⟨l', List.mem_cons_of_mem _ hl', htakes⟩, fun k l₁ hl₁ n hn => ?_,
        fun n hn => ⟨(hahead n hn).1, fun j hj => ?_⟩⟩
      · cases k with
        | zero =>
          cases hl₁
          exact ⟨fun h => absurd (takes_iff.mpr (Or.inl h)) hnone,
            fun h => absurd (takes_iff.mpr (Or.inr h)) hnone⟩
        | succ k =>
          have hwhole := hbehind k l₁ hl₁ n hn
          refine ⟨fun h => (hwhole.1 h).imp id (hshift k n).mpr, fun h => (hwhole.2 h).imp id ?_⟩
          rintro ⟨j, hj, hrun⟩
          exact ⟨j + 1, by omega, (hruns _ n).mpr ⟨j, rfl, hrun⟩⟩
      · obtain ⟨j', rfl, hrun⟩ := (hruns j n).mp hj
        obtain ⟨k, l₁, hl₁, hside⟩ := (hahead n hn).2 j' hrun
        exact ⟨k + 1, l₁, hl₁, hside.imp (.imp_left (by omega)) (.imp_left (by omega))⟩

/-- What the blocks before the `i`-th one run. -/
def past (g : κ → List (Leg ρ ν)) (run : List κ) (i : ℕ) (n : ν) : Prop :=
  ∃ i' < i, ∃ (a : κ) (j : ℕ), run[i']? = some a ∧ RunsIn (g a) j n

/-- Of a run only the block that takes an item matters, and what has run before it. -/
theorem timely_flatMap {run : List κ} {r : ρ} {needs reads : ν → Prop}
    (hone : ∀ (i j : ℕ) (a b : κ), run[i]? = some a → run[j]? = some b →
      (∃ l ∈ g a, l.takes r = true) → (∃ l ∈ g b, l.takes r = true) → i = j) :
    Timely (run.flatMap g) (fun _ => False) r needs reads ↔
      ∃ (i : ℕ) (a : κ), run[i]? = some a ∧ Timely (g a) (past g run i) r needs reads := by
  have hruns : ∀ {i : ℕ} {a : κ} {k : ℕ} {l : Leg ρ ν} {jj : ℕ} {n : ν}, run[i]? = some a →
      (g a)[k]? = some l → jj ≤ offset g run i + k → RunsIn (run.flatMap g) jj n →
      past g run i n ∨ ∃ j, RunsIn (g a) j n ∧ jj = offset g run i + j := by
    intro i a k l jj n hi hk hjj hn
    obtain ⟨i', a', j', hi', hrun, rfl⟩ := runsIn_flatMap.mp hn
    rcases Nat.lt_trichotomy i' i with hlt | rfl | hlt
    · exact Or.inl ⟨i', hlt, a', j', hi', hrun⟩
    · rw [hi] at hi'
      obtain rfl := Option.some.inj hi'
      exact Or.inr ⟨j', hrun, rfl⟩
    · have hlater := offset_add_lt hi hk hlt
      omega
  constructor
  · rintro ⟨⟨l, hl, htakes⟩, hbehind, hahead⟩
    obtain ⟨a, ha, hla⟩ := List.mem_flatMap.mp hl
    obtain ⟨i, hi⟩ := List.mem_iff_getElem?.mp ha
    refine ⟨i, a, hi, ⟨l, hla, htakes⟩, fun k l' hl' n hn => ?_, fun n hn => ?_⟩
    · have hwhole := hbehind _ l' (getElem?_flatMap.mpr ⟨i, a, k, hi, hl', rfl⟩) n hn
      refine ⟨fun h => ?_, fun h => ?_⟩
      · obtain ⟨jj, hjj, hrun⟩ := (hwhole.1 h).resolve_left id
        rcases hruns hi hl' (Nat.le_of_lt hjj) hrun with hpast | ⟨j, hj, rfl⟩
        · exact Or.inl hpast
        · exact Or.inr ⟨j, by omega, hj⟩
      · obtain ⟨jj, hjj, hrun⟩ := (hwhole.2 h).resolve_left id
        rcases hruns hi hl' hjj hrun with hpast | ⟨j, hj, rfl⟩
        · exact Or.inl hpast
        · exact Or.inr ⟨j, by omega, hj⟩
    · have hoffer : ∀ jj, RunsIn (run.flatMap g) jj n → ∃ (k : ℕ) (l' : Leg ρ ν), (g a)[k]? = some l' ∧
          (offset g run i + k ≤ jj ∧ l'.before r = true ∨
            offset g run i + k < jj ∧ l'.after r = true) := by
        intro jj hjj
        obtain ⟨kk, l', hl', hside⟩ := (hahead n hn).2 jj hjj
        obtain ⟨i', a', k, hi', hk, rfl⟩ := getElem?_flatMap.mp hl'
        obtain rfl := hone i i' a a' hi hi' ⟨l, hla, htakes⟩
          ⟨l', List.mem_of_getElem? hk, takes_iff.mpr (hside.imp And.right And.right)⟩
        rw [hi] at hi'
        obtain rfl := Option.some.inj hi'
        exact ⟨k, l', hk, hside⟩
      refine ⟨?_, fun j hj => ?_⟩
      · rintro ⟨i', hlt, a', j, hi', hj⟩
        obtain ⟨k, l', hk, hside⟩ := hoffer _ (runsIn_flatMap.mpr ⟨i', a', j, hi', hj, rfl⟩)
        obtain ⟨l₁, hl₁, _⟩ := hj
        have hlater := offset_add_lt hi' hl₁ hlt
        omega
      · obtain ⟨k, l', hk, hside⟩ := hoffer _ (runsIn_flatMap.mpr ⟨i, a, j, hi, hj, rfl⟩)
        refine ⟨k, l', hk, ?_⟩
        rcases hside with ⟨hle, h⟩ | ⟨hlt, h⟩
        · exact Or.inl ⟨by omega, h⟩
        · exact Or.inr ⟨by omega, h⟩
  · rintro ⟨i, a, hi, ⟨l, hla, htakes⟩, hbehind, hahead⟩
    refine ⟨⟨l, List.mem_flatMap.mpr ⟨a, List.mem_of_getElem? hi, hla⟩, htakes⟩, fun kk l' hl' n hn => ?_,
      fun n hn => ⟨id, fun jj hjj => ?_⟩⟩
    · obtain ⟨i', a', k, hi', hk, rfl⟩ := getElem?_flatMap.mp hl'
      have hblock : l'.takes r = true → i = i' := fun h =>
        hone i i' a a' hi hi' ⟨l, hla, htakes⟩ ⟨l', List.mem_of_getElem? hk, h⟩
      have hran : past g run i' n → ∃ j < offset g run i' + k, RunsIn (run.flatMap g) j n := by
        rintro ⟨i₂, hlt, a₂, j, hi₂, hj⟩
        obtain ⟨l₁, hl₁, _⟩ := id hj
        have := offset_add_lt hi₂ hl₁ hlt
        exact ⟨_, by omega, runsIn_flatMap.mpr ⟨i₂, a₂, j, hi₂, hj, rfl⟩⟩
      refine ⟨fun h => Or.inr ?_, fun h => Or.inr ?_⟩
      · obtain rfl := hblock (takes_iff.mpr (Or.inl h))
        rw [hi] at hi'
        obtain rfl := Option.some.inj hi'
        rcases (hbehind k l' hk n hn).1 h with hpast | ⟨j, hj, hrun⟩
        · exact hran hpast
        · exact ⟨_, by omega, runsIn_flatMap.mpr ⟨i, a, j, hi, hrun, rfl⟩⟩
      · obtain rfl := hblock (takes_iff.mpr (Or.inr h))
        rw [hi] at hi'
        obtain rfl := Option.some.inj hi'
        rcases (hbehind k l' hk n hn).2 h with hpast | ⟨j, hj, hrun⟩
        · obtain ⟨j, hlt, hrun⟩ := hran hpast
          exact ⟨j, Nat.le_of_lt hlt, hrun⟩
        · exact ⟨_, by omega, runsIn_flatMap.mpr ⟨i, a, j, hi, hrun, rfl⟩⟩
    · obtain ⟨i', a', j, hi', hj, rfl⟩ := runsIn_flatMap.mp hjj
      obtain ⟨hnot, hin⟩ := hahead n hn
      obtain ⟨k₀, hk₀⟩ := List.mem_iff_getElem?.mp hla
      rcases Nat.lt_trichotomy i' i with hlt | rfl | hlt
      · exact absurd ⟨i', hlt, a', j, hi', hj⟩ hnot
      · rw [hi] at hi'
        obtain rfl := Option.some.inj hi'
        obtain ⟨k, l', hk, hside⟩ := hin j hj
        refine ⟨_, l', getElem?_flatMap.mpr ⟨i', a, k, hi, hk, rfl⟩, ?_⟩
        rcases hside with ⟨hle, h⟩ | ⟨hlt, h⟩
        · exact Or.inl ⟨by omega, h⟩
        · exact Or.inr ⟨by omega, h⟩
      · have hlater := offset_add_lt hi hk₀ hlt
        refine ⟨_, l, getElem?_flatMap.mpr ⟨i, a, k₀, hi, hk₀, rfl⟩, ?_⟩
        rcases takes_iff.mp htakes with h | h
        · exact Or.inl ⟨by omega, h⟩
        · exact Or.inr ⟨by omega, h⟩

end blocks

end OfferSchedule
end StreamMoE
