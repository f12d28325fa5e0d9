import Mathlib.Algebra.BigOperators.Group.List.Basic
import Mathlib.Data.List.GetD
import Mathlib.Order.Bounds.Basic
import StreamMoE.ArenaRegions

/-! The result layout of a closure: interval packing is tight, so the check of the layout that
follows it finds nothing. -/
namespace StreamMoE
namespace ClosureLayout

open ByteMemory ComputeGraph Packing ArenaLayout ArenaRegions

section tight

/-- The block `x` at `off` and the placed block `p` have a byte in common. -/
def Share (x : Item) (off : ℕ) (p : Placed) : Prop :=
  ∃ b, (off ≤ b ∧ b < off + x.size) ∧ p.2 ≤ b ∧ b < p.2 + p.1.size

/-- No placed block that is alive together with `x` has a byte of `x` at `off`. -/
def Feasible (placed : List Placed) (x : Item) (off : ℕ) : Prop :=
  ∀ p ∈ placed, x.meets p.1 = true → ¬ Share x off p

/-- `x` is placed at `off` when the blocks `earlier` are placed. -/
def Step (placed earlier : List Placed) (x : Item) (off : ℕ) : Prop :=
  ∃ later, placed = earlier ++ (x, off) :: later

/-- What `pack_interval` makes of its blocks. -/
structure Tight (items : List Item) (placed : List Placed) : Prop where
  perm : (placed.map Prod.fst).Perm items
  separated : placed.Pairwise Separated
  ends : ∀ earlier x off, Step placed earlier x off → furthest earlier x off = none ∧
    ∀ fuel, earlier.length ≤ fuel → fit earlier x fuel 0 = off
  lowest : ∀ earlier x off, Step placed earlier x off → IsLeast {n | Feasible earlier x n} off
  total : placed ≠ [] → IsGreatest {n | ∃ p ∈ placed, p.2 + p.1.size = n} (arena placed)
  empty : placed = [] → arena placed = 0
  fits : arena placed ≤ (items.map Item.size).sum

variable {placed earlier : List Placed} {x : Item} {off : ℕ}

theorem collides_iff {p : Placed} : collides x off p = true ↔
    x.meets p.1 = true ∧ off < p.2 + p.1.size ∧ p.2 < off + x.size := by
  simp [collides]

/-- Blocks of some size collide where they have a byte in common. -/
theorem share_iff {p : Placed} (hx : 0 < x.size) (hp : 0 < p.1.size) :
    Share x off p ↔ off < p.2 + p.1.size ∧ p.2 < off + x.size := by
  constructor
  · rintro ⟨b, hb, hb'⟩
    omega
  · rintro ⟨h₁, h₂⟩
    refine ⟨max off p.2, ?_, ?_⟩ <;> omega

theorem Share.collides {p : Placed} (h : Share x off p) (hmeets : x.meets p.1 = true) :
    collides x off p = true := by
  obtain ⟨b, hb, hb'⟩ := h
  simp [collides_iff, hmeets]
  omega

theorem furthest_none_iff : furthest placed x off = none ↔ ∀ p ∈ placed, collides x off p = false := by
  simp [furthest]

/-- The search never passes an offset without collisions. -/
theorem fit_le {n : ℕ} (hfree : ∀ p ∈ placed, collides x n p = false) (fuel : ℕ) :
    ∀ off ≤ n, fit placed x fuel off ≤ n := by
  induction fuel with
  | zero => exact fun off h => h
  | succ fuel ih =>
    intro off hle
    unfold fit
    cases hf : furthest placed x off with
    | none => exact hle
    | some next =>
      have hmem := List.max?_mem hf
      obtain ⟨p, hp, hnext⟩ := List.mem_map.mp hmem
      obtain ⟨hp, hcol⟩ := List.mem_filter.mp hp
      have h₁ := collides_iff.mp hcol
      have h₂ : ¬ (n < p.2 + p.1.size ∧ p.2 < n + x.size) := by
        have h := hfree p hp
        rw [← Bool.not_eq_true, collides_iff] at h
        exact fun h' => h ⟨h₁.1, h'⟩
      exact ih next (by omega)

/-- More turns than there are blocks behind the offset change nothing. -/
theorem fit_fuel (fuel : ℕ) : ∀ fuel' off, behind placed off ≤ fuel → behind placed off ≤ fuel' →
    fit placed x fuel off = fit placed x fuel' off := by
  have hstop : ∀ off, behind placed off = 0 → furthest placed x off = none := by
    intro off h
    cases hf : furthest placed x off with
    | none => rfl
    | some next =>
      obtain ⟨hlt, hex⟩ := furthest_eq_some hf
      have hless := behind_lt hlt hex
      omega
  induction fuel with
  | zero =>
    intro fuel' off h _
    have hnone := hstop off (Nat.le_zero.mp h)
    cases fuel' <;> simp [fit, hnone]
  | succ fuel ih =>
    intro fuel' off h h'
    cases hf : furthest placed x off with
    | none => cases fuel' <;> simp [fit, hf]
    | some next =>
      obtain ⟨hlt, hex⟩ := furthest_eq_some hf
      have hless := behind_lt hlt hex
      cases fuel' with
      | zero => omega
      | succ fuel' => simpa [fit, hf] using ih fuel' next (by omega) (by omega)

theorem prefix_placeAll (placed : List Placed) (items : List Item) :
    ∃ later, placeAll placed items = placed ++ later := by
  induction items generalizing placed with
  | nil => exact ⟨[], by simp [placeAll]⟩
  | cons x xs ih =>
    obtain ⟨later, h⟩ := ih (placed ++ [(x, fit placed x placed.length 0)])
    exact ⟨_, by rw [placeAll, h, List.append_assoc]⟩

/-- Every block is where the search over the blocks before it ends. -/
theorem placeAll_step {items : List Item} (hlen : placed.length ≤ earlier.length)
    (h : Step (placeAll placed items) earlier x off) : off = fit earlier x earlier.length 0 := by
  obtain ⟨later, h⟩ := h
  induction items generalizing placed with
  | nil =>
    have hsum := congrArg List.length h
    simp [placeAll] at hsum
    omega
  | cons y ys ih =>
    rcases Nat.lt_or_eq_of_le hlen with hlt | heq
    · exact ih (by simpa using Nat.succ_le_of_lt hlt) h
    · obtain ⟨rest, hrest⟩ := prefix_placeAll (placed ++ [(y, fit placed y placed.length 0)]) ys
      rw [placeAll, hrest, List.append_assoc] at h
      obtain ⟨rfl, htail⟩ := List.append_inj h heq
      simp only [List.singleton_append, List.cons.injEq, Prod.mk.injEq] at htail
      rw [← htail.1.1, htail.1.2]

theorem packInterval_sorted (items : List Item) :
    ((packInterval items).map Prod.fst).Pairwise fun x y => y.size ≤ x.size := by
  have hsorted : (items.insertionSort fun x y => before x y = true).Pairwise
      fun x y => before x y = true := by
    have htotal : Std.Total fun x y : Item => before x y = true := ⟨fun x y => by
      simp [before]; omega⟩
    have htrans : IsTrans Item fun x y => before x y = true := ⟨fun x y z => by
      simp [before]; omega⟩
    exact List.pairwise_insertionSort _ _
  rw [packInterval, map_fst_placeAll, List.map_nil, List.nil_append]
  exact hsorted.imp fun h => by
    simp [before] at h
    omega

/-- The offset of a block is the lowest one its predecessors leave it. -/
theorem isLeast_fit (hsize : ∀ p ∈ earlier, x.size ≤ p.1.size) :
    IsLeast {n | Feasible earlier x n} (fit earlier x earlier.length 0) := by
  have hfree : ∀ p ∈ earlier, collides x (fit earlier x earlier.length 0) p = false :=
    fun p hp => fit_free (List.countP_le_length ..) hp
  constructor
  · intro p hp hmeets hshare
    have hcol := hshare.collides hmeets
    simp [hfree p hp] at hcol
  · intro n hn
    rcases Nat.eq_zero_or_pos x.size with hzero | hpos
    · -- an empty block collides with nothing at the start
      have hfree₀ : ∀ p ∈ earlier, collides x 0 p = false := fun p _ => by
        simp [← Bool.not_eq_true, collides_iff, hzero]
      have h := fit_le hfree₀ earlier.length 0 (Nat.le_refl 0)
      omega
    · refine fit_le (fun p hp => ?_) earlier.length 0 (Nat.zero_le n)
      rw [← Bool.not_eq_true, collides_iff]
      rintro ⟨hmeets, h⟩
      exact hn p hp hmeets ((share_iff hpos (Nat.lt_of_lt_of_le hpos (hsize p hp))).mpr h)

/-- The search ends at an end of a block, unless it stays where it started. -/
theorem fit_end (fuel : ℕ) : ∀ off, fit placed x fuel off = off ∨
    ∃ p ∈ placed, fit placed x fuel off = p.2 + p.1.size := by
  induction fuel with
  | zero => exact fun off => .inl rfl
  | succ fuel ih =>
    intro off
    cases hf : furthest placed x off with
    | none => exact .inl (by simp [fit, hf])
    | some next =>
      obtain ⟨_, p, hp, hnext⟩ := furthest_eq_some hf
      have hfit : fit placed x (fuel + 1) off = fit placed x fuel next := by simp [fit, hf]
      rw [hfit]
      rcases ih next with h | h
      · exact .inr ⟨p, hp, h.trans hnext⟩
      · exact .inr h

theorem end_le_sum {items : List Item} (h : ∀ p ∈ placed,
    p.2 + p.1.size ≤ ((placed.map Prod.fst).map Item.size).sum) :
    ∀ p ∈ placeAll placed items,
      p.2 + p.1.size ≤ (((placeAll placed items).map Prod.fst).map Item.size).sum := by
  induction items generalizing placed with
  | nil => exact h
  | cons x xs ih =>
    refine ih fun p hp => ?_
    simp only [List.map_append, List.map_cons, List.map_nil, List.sum_append, List.sum_cons,
      List.sum_nil, Nat.add_zero]
    rcases List.mem_append.mp hp with hp | hp
    · exact Nat.le_trans (h p hp) (Nat.le_add_right _ _)
    · rw [List.mem_singleton.mp hp]
      have hoff : fit placed x placed.length 0 ≤ ((placed.map Prod.fst).map Item.size).sum := by
        rcases fit_end placed.length 0 with hfit | ⟨q, hq, hfit⟩
        · rw [hfit]
          exact Nat.zero_le _
        · rw [hfit]
          exact h q hq
      exact Nat.add_le_add_right hoff _

theorem arena_le {n : ℕ} (h : ∀ p ∈ placed, p.2 + p.1.size ≤ n) : arena placed ≤ n := by
  induction placed with
  | nil => exact Nat.zero_le n
  | cons p ps ih =>
    have h₁ := h p List.mem_cons_self
    have h₂ := ih fun q hq => h q (List.mem_cons_of_mem _ hq)
    simpa [arena] using ⟨h₁, h₂⟩

theorem exists_end_arena (h : placed ≠ []) : ∃ p ∈ placed, p.2 + p.1.size = arena placed := by
  induction placed with
  | nil => exact absurd rfl h
  | cons p ps ih =>
    have harena : arena (p :: ps) = max (p.2 + p.1.size) (arena ps) := rfl
    rcases Nat.le_total (arena ps) (p.2 + p.1.size) with hle | hle
    · exact ⟨p, List.mem_cons_self, by rw [harena, Nat.max_eq_left hle]⟩
    · by_cases hps : ps = []
      · subst hps
        exact ⟨p, List.mem_cons_self, by simp [arena]⟩
      · obtain ⟨q, hq, hend⟩ := ih hps
        exact ⟨q, List.mem_cons_of_mem _ hq, by rw [harena, Nat.max_eq_right hle, hend]⟩

theorem tight_packInterval (items : List Item) : Tight items (packInterval items) := by
  have hstep : ∀ earlier x off, Step (packInterval items) earlier x off →
      off = fit earlier x earlier.length 0 := fun earlier x off h =>
    placeAll_step (Nat.zero_le _) h
  have hends : ∀ p ∈ packInterval items,
      p.2 + p.1.size ≤ (((packInterval items).map Prod.fst).map Item.size).sum :=
    end_le_sum (by simp)
  refine ⟨packInterval_perm items, packInterval_separated items, ?_, ?_, ?_, ?_, ?_⟩
  · intro earlier x off h
    rw [hstep earlier x off h]
    refine ⟨furthest_none_iff.mpr fun p hp => fit_free (List.countP_le_length ..) hp, ?_⟩
    exact fun fuel hfuel =>
      fit_fuel fuel _ 0 (Nat.le_trans List.countP_le_length hfuel) List.countP_le_length
  · intro earlier x off h
    rw [hstep earlier x off h]
    refine isLeast_fit fun p hp => ?_
    obtain ⟨later, h⟩ := h
    have hsorted := packInterval_sorted items
    rw [h, List.map_append, List.pairwise_append] at hsorted
    exact hsorted.2.2 p.1 (List.mem_map_of_mem hp) x (by simp)
  · intro h
    refine ⟨exists_end_arena h, ?_⟩
    rintro n ⟨p, hp, rfl⟩
    exact le_arena hp
  · intro h
    rw [h]
    rfl
  · rw [← ((packInterval_perm items).map Item.size).sum_eq]
    exact arena_le hends

end tight

section check

variable (g : Graph) (comp : List ℕ)

def prodOf (t : ℕ) : Option ℕ := comp.findIdx? fun p => p == producer g t

/-- The first reader met, from the last node on, stays. -/
def noteUse (c : ℕ) (last : ℕ → Option ℕ) (t : ℕ) : ℕ → Option ℕ :=
  match prodOf g comp t with
  | some p => if p < c ∧ last p = none then Function.update last p (some c) else last
  | none => last

def lastUse : ℕ → Option ℕ :=
  (List.range comp.length).reverse.foldl
    (fun last c => ((g.tensor (comp.getD c 0)).sources).foldl (noteUse g comp c) last) fun _ => none

def lastTime (i : ℕ) : ℕ := (lastUse g comp i).getD comp.length

/-- The blocks `pack_interval` is given: `pstart` and `pend`. -/
def resultItems : List Item :=
  comp.zipIdx.map fun x =>
    { index := x.2, size := g.nbytes x.1, start := x.2, stop := lastTime g comp x.2 }

def resultOff (i : ℕ) : ℕ := outOff (packInterval (resultItems g comp)) i

def resultBytes : ℕ := arena (packInterval (resultItems g comp))

/-- The check of a pair: alive at different times, or apart. -/
def pairOk (off : ℕ → ℕ) (a b : ℕ) : Bool :=
  let sa := g.nbytes (comp.getD a 0)
  let sb := g.nbytes (comp.getD b 0)
  !(!(decide (a > lastTime g comp b) || decide (b > lastTime g comp a))) ||
    !(!(decide (off a + sa ≤ off b) || decide (off b + sb ≤ off a)))

def layoutOk (off : ℕ → ℕ) : Bool :=
  (List.range comp.length).all fun a =>
    (List.range' (a + 1) (comp.length - (a + 1))).all fun b => pairOk g comp off a b

variable {g comp}

theorem mem_resultItems {i : ℕ} (hi : i < comp.length) :
    (⟨i, g.nbytes (comp.getD i 0), i, lastTime g comp i⟩ : Item) ∈ resultItems g comp := by
  have hget : comp.getD i 0 = comp[i] := List.getD_eq_getElem _ _ hi
  rw [hget]
  exact List.mem_map.mpr ⟨(comp[i], i), List.mem_zipIdx_iff_getElem?.mpr (by simp [hi]), rfl⟩

theorem nodup_resultItems : ((resultItems g comp).map Item.index).Nodup :=
  nodup_zipIdx_index _ _ fun _ => rfl

theorem resultOff_apart {a b : ℕ} (ha : a < comp.length) (hb : b < comp.length) (hne : a ≠ b)
    (hmeets : a ≤ lastTime g comp b ∧ b ≤ lastTime g comp a) :
    Apart (resultOff g comp a) (g.nbytes (comp.getD a 0)) (resultOff g comp b)
      (g.nbytes (comp.getD b 0)) :=
  outOff_apart nodup_resultItems (mem_resultItems ha) (mem_resultItems hb) hne
    (by simpa [Item.meets] using hmeets)

theorem resultOff_le {a : ℕ} (ha : a < comp.length) :
    resultOff g comp a + g.nbytes (comp.getD a 0) ≤ resultBytes g comp :=
  outOff_le_arena nodup_resultItems (mem_resultItems ha)

theorem layoutOk_resultOff : layoutOk g comp (resultOff g comp) = true := by
  simp only [layoutOk, List.all_eq_true, List.mem_range, List.mem_range'_1]
  rintro a ha b ⟨hab, hb⟩
  have hb : b < comp.length := by omega
  by_cases hmeets : a ≤ lastTime g comp b ∧ b ≤ lastTime g comp a
  · rcases resultOff_apart ha hb (by omega) hmeets with h | h <;> simp only [pairOk, h] <;> simp
  · have hdisjoint : lastTime g comp b < a ∨ lastTime g comp a < b := by omega
    simp [pairOk, hdisjoint]

end check

/-- Interval packing is sound and tight, and the check of a closure's layout always succeeds. -/
theorem packInterval_tight (items : List Item) : Tight items (packInterval items) ∧
    ∀ (g : Graph) (comp : List ℕ), layoutOk g comp (resultOff g comp) = true :=
  ⟨tight_packInterval items, fun _ _ => layoutOk_resultOff⟩

end ClosureLayout
end StreamMoE
