import Mathlib.Data.List.Sort
import Mathlib.Data.Nat.Notation
import Mathlib.Logic.Function.Basic
import StreamMoE.ByteMemory

/-! Two ways to pack blocks into a byte range: running offsets with alignment, one cursor for
each key, and placement of blocks by size so that blocks alive together do not meet. -/
namespace StreamMoE
namespace Packing

open ByteMemory

def roundUp (align n : ℕ) : ℕ := (n + (align - 1)) / align * align

theorem le_roundUp {align : ℕ} (h : 0 < align) (n : ℕ) : n ≤ roundUp align n := by
  have hdiv := Nat.div_add_mod (n + (align - 1)) align
  have hmod := Nat.mod_lt (n + (align - 1)) h
  rw [Nat.mul_comm] at hdiv
  unfold roundUp
  omega

theorem roundUp_of_dvd {align n : ℕ} (h : 0 < align) (hn : align ∣ n) : roundUp align n = n := by
  obtain ⟨k, rfl⟩ := hn
  rw [roundUp, Nat.mul_add_div h, Nat.div_eq_of_lt (by omega), Nat.add_zero, Nat.mul_comm]

section bump

variable {α κ : Type*} [DecidableEq κ] (align : ℕ) (key : α → κ) (size : α → ℕ)

/-- Every element at the cursor of its key, rounded up; the cursor moves behind it. -/
def bump (cur : κ → ℕ) : List α → List (α × ℕ)
  | [] => []
  | a :: l =>
      (a, roundUp align (cur (key a))) ::
        bump (Function.update cur (key a) (roundUp align (cur (key a)) + size a)) l

/-- The cursor behind blocks of these sizes. -/
def bumpEnd (start : ℕ) (sizes : List ℕ) : ℕ :=
  sizes.foldl (fun cur n => roundUp align cur + n) start

def keySizes (k : κ) (l : List α) : List ℕ := (l.filter fun a => decide (key a = k)).map size

variable {align key size}

@[simp] theorem map_fst_bump (cur : κ → ℕ) (l : List α) :
    (bump align key size cur l).map Prod.fst = l := by
  induction l generalizing cur with
  | nil => rfl
  | cons a l ih => simp only [bump, List.map_cons, ih]

theorem keySizes_cons_self (a : α) (l : List α) :
    keySizes key size (key a) (a :: l) = size a :: keySizes key size (key a) l := by
  simp only [keySizes, List.filter_cons_of_pos, decide_true, List.map_cons]

theorem keySizes_cons_of_ne {a : α} {k : κ} (h : key a ≠ k) (l : List α) :
    keySizes key size k (a :: l) = keySizes key size k l := by
  simp only [keySizes, List.filter_cons, h, decide_false, Bool.false_eq_true, if_false]

theorem le_bumpEnd (halign : 0 < align) (start : ℕ) (sizes : List ℕ) :
    start ≤ bumpEnd align start sizes := by
  induction sizes generalizing start with
  | nil => exact Nat.le_refl _
  | cons n ns ih =>
    have hround := le_roundUp halign start
    have hrest := ih (roundUp align start + n)
    simp only [bumpEnd, List.foldl_cons] at hrest ⊢
    omega

/-- A placed element lies between the cursor of its key and the end of the key's blocks. -/
theorem bump_bounds (halign : 0 < align) {cur : κ → ℕ} {l : List α} {a : α} {off : ℕ}
    (h : (a, off) ∈ bump align key size cur l) :
    cur (key a) ≤ off ∧ off + size a ≤ bumpEnd align (cur (key a)) (keySizes key size (key a) l) := by
  induction l generalizing cur with
  | nil => cases h
  | cons b l ih =>
    rcases List.mem_cons.mp h with heq | hmem
    · obtain ⟨rfl, rfl⟩ := Prod.mk.inj heq
      rw [keySizes_cons_self]
      exact ⟨le_roundUp halign _, le_bumpEnd halign _ _⟩
    · obtain ⟨hlo, hhi⟩ := ih hmem
      by_cases hkey : key b = key a
      · rw [hkey, Function.update_self] at hlo hhi
        rw [← hkey, keySizes_cons_self, hkey]
        have hround := le_roundUp halign (cur (key a))
        have hsize : roundUp align (cur (key a)) ≤ roundUp align (cur (key a)) + size b :=
          Nat.le_add_right _ _
        exact ⟨by omega, hhi⟩
      · rw [Function.update_of_ne (Ne.symm hkey)] at hlo hhi
        rw [keySizes_cons_of_ne hkey]
        exact ⟨hlo, hhi⟩

theorem exists_bump_end (cur : κ → ℕ) {l : List α} {k : κ} (h : ∃ a ∈ l, key a = k) :
    ∃ a off, (a, off) ∈ bump align key size cur l ∧ key a = k ∧
      off + size a = bumpEnd align (cur k) (keySizes key size k l) := by
  induction l generalizing cur with
  | nil =>
    obtain ⟨a, ha, _⟩ := h
    cases ha
  | cons b l ih =>
    by_cases hrest : ∃ a ∈ l, key a = k
    · obtain ⟨a, off, hmem, hkey, hend⟩ :=
        ih (Function.update cur (key b) (roundUp align (cur (key b)) + size b)) hrest
      refine ⟨a, off, List.mem_cons_of_mem _ hmem, hkey, ?_⟩
      by_cases hb : key b = k
      · subst hb
        rw [keySizes_cons_self]
        rw [Function.update_self] at hend
        exact hend
      · rw [Function.update_of_ne (Ne.symm hb)] at hend
        rw [keySizes_cons_of_ne hb]
        exact hend
    · obtain ⟨a, ha, hkey⟩ := h
      rcases List.mem_cons.mp ha with rfl | ha
      · subst hkey
        refine ⟨a, _, List.mem_cons_self .., rfl, ?_⟩
        have hnil : keySizes key size (key a) l = [] := by
          simp only [keySizes, List.map_eq_nil_iff, List.filter_eq_nil_iff, decide_eq_true_eq]
          intro x hx hxk
          exact hrest ⟨x, hx, hxk⟩
        rw [keySizes_cons_self, hnil]
        rfl
      · exact absurd ⟨a, ha, hkey⟩ hrest

/-- Elements of one key follow one another. -/
theorem bump_pairwise (halign : 0 < align) (cur : κ → ℕ) (l : List α) :
    (bump align key size cur l).Pairwise fun x y =>
      key x.1 = key y.1 → x.2 + size x.1 ≤ y.2 := by
  induction l generalizing cur with
  | nil => exact List.Pairwise.nil
  | cons a l ih =>
    refine List.Pairwise.cons ?_ (ih _)
    rintro ⟨b, off⟩ hb hkey
    have hlo := (bump_bounds halign hb).1
    simp only at hkey
    rw [← hkey, Function.update_self] at hlo
    exact hlo

theorem roundUp_add {align : ℕ} (h : 0 < align) (n k : ℕ) :
    roundUp align (roundUp align n + k) = roundUp align n + roundUp align k := by
  unfold roundUp
  rw [Nat.add_assoc, Nat.add_comm, Nat.add_mul_div_right _ _ h, Nat.add_mul, Nat.add_comm]

/-- An element lies behind those of its key ahead of it, each rounded up. -/
theorem bump_offset [DecidableEq α] (halign : 0 < align) {l : List α} (hl : l.Nodup) {cur : κ → ℕ} {a : α}
    {off : ℕ} (h : (a, off) ∈ bump align key size cur l) :
    off = roundUp align (cur (key a)) +
      (((l.takeWhile fun b => decide (b ≠ a)).filter fun b => decide (key b = key a)).map fun b =>
        roundUp align (size b)).sum := by
  induction l generalizing cur with
  | nil => cases h
  | cons b l ih =>
    obtain ⟨hb, hrest⟩ := List.nodup_cons.mp hl
    rcases List.mem_cons.mp h with heq | h
    · cases heq
      simp
    · have ha : a ∈ l := by
        have hfst := List.mem_map_of_mem (f := Prod.fst) h
        rwa [map_fst_bump] at hfst
      have hne : b ≠ a := by
        rintro rfl
        exact hb ha
      rw [ih hrest h, List.takeWhile_cons_of_pos (by simpa using hne), List.filter_cons]
      by_cases hkey : key b = key a
      · rw [if_pos (by simpa using hkey), hkey, Function.update_self, roundUp_add halign, List.map_cons,
          List.sum_cons, Nat.add_assoc]
      · rw [if_neg (by simpa using hkey), Function.update_of_ne (Ne.symm hkey)]

/-- What follows only empty elements of its key begins at the start. -/
theorem bump_start [DecidableEq α] (halign : 0 < align) {l : List α} (hl : l.Nodup) {a : α} {off : ℕ}
    (h : (a, off) ∈ bump align key size (fun _ => 0) l)
    (hempty : ∀ b ∈ l, b ≠ a → key b = key a → size b = 0) : off = 0 := by
  have hround : roundUp align 0 = 0 := roundUp_of_dvd halign (Nat.dvd_zero align)
  rw [bump_offset halign hl h, hround, Nat.zero_add]
  refine List.sum_eq_zero_iff_forall_eq_nat.mpr fun n hn => ?_
  obtain ⟨b, hb, rfl⟩ := List.mem_map.mp hn
  obtain ⟨htake, hkey⟩ := List.mem_filter.mp hb
  have hne : b ≠ a := of_decide_eq_true (List.all_eq_true.mp List.all_takeWhile b htake)
  rw [hempty b ((List.takeWhile_sublist _).subset htake) hne (of_decide_eq_true hkey), hround]

/-- Multiples of the alignment need no padding. -/
theorem bumpEnd_aligned (halign : 0 < align) {sizes : List ℕ} (h : ∀ n ∈ sizes, align ∣ n) :
    ∀ start, align ∣ start → bumpEnd align start sizes = start + sizes.sum := by
  induction sizes with
  | nil => exact fun _ _ => rfl
  | cons n ns ih =>
    intro start hstart
    obtain ⟨hn, hns⟩ := List.forall_mem_cons.mp h
    have hrest := ih hns (start + n) (Nat.dvd_add hstart hn)
    rw [List.sum_cons, ← Nat.add_assoc, ← hrest, bumpEnd, List.foldl_cons, roundUp_of_dvd halign hstart]
    rfl

end bump

section interval

/-- A block of `size` bytes alive over `[start, stop]`. -/
structure Item where
  index : ℕ
  size : ℕ
  start : ℤ
  stop : ℤ
  deriving DecidableEq, Repr

/-- Alive at a common time. -/
def Item.meets (x y : Item) : Bool := decide (x.start ≤ y.stop ∧ y.start ≤ x.stop)

theorem Item.meets_comm (x y : Item) : x.meets y = y.meets x := by
  simp only [Item.meets, and_comm]

abbrev Placed := Item × ℕ

/-- `x` at `off` meets the placed block `p` in time and in space. -/
def collides (x : Item) (off : ℕ) (p : Placed) : Bool :=
  x.meets p.1 && decide (off < p.2 + p.1.size ∧ p.2 < off + x.size)

/-- The furthest end of the placed blocks `x` collides with. -/
def furthest (placed : List Placed) (x : Item) (off : ℕ) : Option ℕ :=
  ((placed.filter (collides x off)).map fun p => p.2 + p.1.size).max?

/-- Move behind the collisions until there are none. -/
def fit (placed : List Placed) (x : Item) : ℕ → ℕ → ℕ
  | 0, off => off
  | fuel + 1, off =>
      match furthest placed x off with
      | none => off
      | some next => fit placed x fuel next

/-- Every item at the lowest offset its predecessors leave it. -/
def placeAll (placed : List Placed) : List Item → List Placed
  | [] => placed
  | x :: xs => placeAll (placed ++ [(x, fit placed x placed.length 0)]) xs

/-- Larger blocks first, equal ones by index. -/
def before (x y : Item) : Bool := decide (y.size < x.size ∨ (x.size = y.size ∧ x.index ≤ y.index))

def packInterval (items : List Item) : List Placed :=
  placeAll [] (items.insertionSort fun x y => before x y = true)

/-- The bytes the placed blocks take. -/
def arena (placed : List Placed) : ℕ := (placed.map fun p => p.2 + p.1.size).foldr max 0

theorem furthest_eq_none {placed : List Placed} {x : Item} {off : ℕ}
    (h : furthest placed x off = none) {p : Placed} (hp : p ∈ placed) : collides x off p = false := by
  simp only [furthest, List.max?_eq_none_iff, List.map_eq_nil_iff, List.filter_eq_nil_iff] at h
  exact Bool.not_eq_true _ ▸ h p hp

theorem furthest_eq_some {placed : List Placed} {x : Item} {off next : ℕ}
    (h : furthest placed x off = some next) :
    off < next ∧ ∃ p ∈ placed, next = p.2 + p.1.size := by
  have hmem := List.max?_mem h
  obtain ⟨p, hp, hnext⟩ := List.mem_map.mp hmem
  obtain ⟨hp, hcol⟩ := List.mem_filter.mp hp
  simp only [collides, Bool.and_eq_true, decide_eq_true_eq] at hcol
  exact ⟨by omega, p, hp, hnext.symm⟩

/-- The placed blocks that end behind `off`. -/
def behind (placed : List Placed) (off : ℕ) : ℕ :=
  placed.countP fun p => decide (off < p.2 + p.1.size)

theorem behind_lt {placed : List Placed} {off next : ℕ} (hlt : off < next)
    (h : ∃ p ∈ placed, next = p.2 + p.1.size) : behind placed next < behind placed off := by
  obtain ⟨p, hp, hnext⟩ := h
  obtain ⟨l₁, l₂, rfl⟩ := List.append_of_mem hp
  have hmono : ∀ l : List Placed, behind l next ≤ behind l off := by
    intro l
    refine List.countP_mono_left fun q _ hq => ?_
    simp only [decide_eq_true_eq] at hq ⊢
    omega
  have h₁ := hmono l₁
  have h₂ := hmono l₂
  simp only [behind, List.countP_append, List.countP_cons] at h₁ h₂ ⊢
  have hin : decide (off < p.2 + p.1.size) = true := decide_eq_true (by omega)
  have hout : decide (next < p.2 + p.1.size) = false := decide_eq_false (by omega)
  simp only [hin, hout, if_true, Bool.false_eq_true, if_false]
  omega

/-- With as many steps as there are blocks the search ends without a collision. -/
theorem fit_free {placed : List Placed} {x : Item} {fuel off : ℕ} (h : behind placed off ≤ fuel)
    {p : Placed} (hp : p ∈ placed) : collides x (fit placed x fuel off) p = false := by
  induction fuel generalizing off with
  | zero =>
    have hzero : behind placed off = 0 := Nat.le_zero.mp h
    have hend := (List.countP_eq_zero.mp hzero) p hp
    simp only [decide_eq_true_eq, not_lt] at hend
    have hnot : ¬ (off < p.2 + p.1.size ∧ p.2 < off + x.size) := by omega
    simp only [fit, collides, hnot, decide_false, Bool.and_false]
  | succ fuel ih =>
    unfold fit
    cases hf : furthest placed x off with
    | none => exact furthest_eq_none hf hp
    | some next =>
      obtain ⟨hlt, hex⟩ := furthest_eq_some hf
      have hless := behind_lt hlt hex
      exact ih (by omega)

/-- Blocks alive together do not meet. -/
def Separated (x y : Placed) : Prop := x.1.meets y.1 = true → Apart x.2 x.1.size y.2 y.1.size

theorem separated_of_collides {x : Item} {off : ℕ} {p : Placed} (h : collides x off p = false) :
    Separated p (x, off) := by
  intro hmeets
  rw [Item.meets_comm] at hmeets
  simp only [collides, hmeets, Bool.true_and, decide_eq_false_iff_not] at h
  simp only [Apart]
  omega

theorem placeAll_separated {placed : List Placed} (items : List Item)
    (h : placed.Pairwise Separated) : (placeAll placed items).Pairwise Separated := by
  induction items generalizing placed with
  | nil => exact h
  | cons x xs ih =>
    refine ih (List.pairwise_append.mpr ⟨h, List.pairwise_singleton _ _, ?_⟩)
    intro p hp q hq
    rw [List.mem_singleton.mp hq]
    exact separated_of_collides (fit_free (List.countP_le_length ..) hp)

theorem map_fst_placeAll (placed : List Placed) (items : List Item) :
    (placeAll placed items).map Prod.fst = placed.map Prod.fst ++ items := by
  induction items generalizing placed with
  | nil => simp only [placeAll, List.append_nil]
  | cons x xs ih =>
    simp only [placeAll, ih, List.map_append, List.map_cons, List.map_nil, List.append_assoc,
      List.singleton_append]

theorem packInterval_separated (items : List Item) : (packInterval items).Pairwise Separated :=
  placeAll_separated _ List.Pairwise.nil

theorem packInterval_perm (items : List Item) : ((packInterval items).map Prod.fst).Perm items := by
  simp only [packInterval, map_fst_placeAll, List.map_nil, List.nil_append]
  exact List.perm_insertionSort ..

theorem le_arena {placed : List Placed} {p : Placed} (h : p ∈ placed) :
    p.2 + p.1.size ≤ arena placed := by
  induction placed with
  | nil => cases h
  | cons q qs ih =>
    simp only [arena, List.map_cons, List.foldr_cons] at ih ⊢
    rcases List.mem_cons.mp h with rfl | h
    · exact Nat.le_max_left _ _
    · exact Nat.le_trans (ih h) (Nat.le_max_right _ _)

/-- Blocks of which no two have bytes and are alive together all begin at the start. -/
theorem packInterval_start {items : List Item}
    (h : items.Pairwise fun x y => x.size = 0 ∨ y.size = 0 ∨ x.meets y = false) :
    ∀ p ∈ packInterval items, p.2 = 0 := by
  have hplace : ∀ (xs : List Item) (placed : List Placed), (∀ p ∈ placed, p.2 = 0) →
      ((placed.map Prod.fst) ++ xs).Pairwise (fun x y => x.size = 0 ∨ y.size = 0 ∨ x.meets y = false) →
      ∀ p ∈ placeAll placed xs, p.2 = 0 := by
    intro xs
    induction xs with
    | nil => exact fun placed hzero _ => hzero
    | cons x xs ih =>
      intro placed hzero hpair
      have hfree : furthest placed x 0 = none := by
        refine List.max?_eq_none_iff.mpr (List.map_eq_nil_iff.mpr (List.filter_eq_nil_iff.mpr ?_))
        intro p hp hcol
        simp only [collides, hzero p hp, Bool.and_eq_true, decide_eq_true_eq] at hcol
        rw [List.pairwise_append] at hpair
        have hsep := hpair.2.2 p.1 (List.mem_map_of_mem hp) x List.mem_cons_self
        rw [Item.meets_comm] at hsep
        rcases hsep with hsize | hsize | hmeets
        · omega
        · omega
        · rw [hmeets] at hcol
          exact absurd hcol.1 Bool.false_ne_true
      have hfit : fit placed x placed.length 0 = 0 := by
        cases placed.length with
        | zero => rfl
        | succ n => simp only [fit, hfree]
      rw [placeAll, hfit]
      refine ih _ (fun p hp => ?_) (by simpa using hpair)
      rcases List.mem_append.mp hp with hp | hp
      · exact hzero p hp
      · rw [List.mem_singleton.mp hp]
  refine hplace _ [] (fun p hp => absurd hp List.not_mem_nil) ?_
  rw [List.map_nil, List.nil_append]
  refine (List.Perm.pairwise_iff ?_ (List.perm_insertionSort _ items)).mpr h
  intro x y hxy
  rw [Item.meets_comm]
  tauto

end interval

end Packing
end StreamMoE
