import Mathlib.Algebra.Group.Action.Defs
import Mathlib.Algebra.BigOperators.Field
import Mathlib.Algebra.BigOperators.Fin
import Mathlib.Data.Fintype.Fin
import Mathlib.Data.List.GetD
import Mathlib.Data.Nat.Notation
import Mathlib.Data.Rat.Floor
import Mathlib.Tactic.FieldSimp
import Mathlib.Tactic.Ring
import StreamMoE.LargestRemainder

/-! `sm_split_blocks`: the 4K blocks of a unit are split over the files of a chunk set, with the
remainder to the front or by the largest remainders of a ratio list. -/
namespace StreamMoE
namespace BlockSplit

open LargestRemainder

/-- A `runtime_error`, or a step that the language does not define. -/
inductive Failure
  | thrown (what : String)
  | undefined
  deriving DecidableEq, Repr

def intMax : ℤ := 2 ^ 31 - 1

/-- `static_cast<int>` of a number of 64 bits -/
def toInt (x : ℕ) : ℤ := (x : ℤ).bmod (2 ^ 32)

/-- A cast to an integer drops the fraction. -/
def trunc (q : ℚ) : ℤ := if 0 ≤ q then ⌊q⌋ else ⌈q⌉

/-- The whole part of `q` is an `int`; the cast of any other number is not defined. -/
def Castable (q : ℚ) : Prop := -2 ^ 31 ≤ trunc q ∧ trunc q ≤ intMax

instance (q : ℚ) : Decidable (Castable q) := inferInstanceAs (Decidable (_ ∧ _))

section split

variable {N : ℕ}

def part (B N : ℕ) (i : Fin N) : ℕ := B / N + if (i : ℕ) < B % N then 1 else 0

def quota (B N : ℕ) (ratio : List ℤ) (i : Fin N) : ℚ := B * (ratio.getD i 0 : ℤ) / (ratio.sum : ℤ)

def cut (B N : ℕ) (ratio : List ℤ) (i : Fin N) : ℤ := trunc (quota B N ratio i)

def fraction (B N : ℕ) (ratio : List ℤ) (i : Fin N) : ℚ := quota B N ratio i - cut B N ratio i

/-- `out[order[k]]++` for every `k` below the difference -/
def bump : ℕ → List (Fin N) → (Fin N → ℤ) → Except Failure (Fin N → ℤ)
  | 0, _, out => .ok out
  | _ + 1, [], _ => .error .undefined
  | k + 1, i :: order, out =>
      if out i = intMax then .error .undefined
      else bump k order (Function.update out i (out i + 1))

/-- The counts of a ratio list: cast quotas, and one more for the largest fractions. -/
def byRatio (B N : ℕ) (ratio : List ℤ) : Except Failure (Fin N → ℤ) :=
  if ratio.length ≠ N then .error (.thrown "split_blocks: ratio length != N")
  else if ratio.sum ≤ 0 then .error (.thrown "split_blocks: ratio sum <= 0")
  else if ∀ i, Castable (quota B N ratio i) then
    let total := (∑ i, cut B N ratio i) % 2 ^ 64
    let diff := ((B - total) % 2 ^ 64).toNat
    bump diff (ordered (fraction B N ratio)) (cut B N ratio)
  else .error .undefined

/-- The sum of the counts in 64 bits must be `B`. -/
def checkSum (B : ℕ) (out : Fin N → ℤ) : Except Failure (Fin N → ℤ) :=
  if (∑ i, out i) % 2 ^ 64 ≠ B then .error (.thrown "split_blocks: strip sum != block count")
  else .ok out

def smSplitBlocks (B N : ℕ) (ratio : List ℤ) : Except Failure (Fin N → ℤ) :=
  (if ratio = [] then .ok fun i => toInt (part B N i) else byRatio B N ratio).bind (checkSum B)

/-- The exact share of file `i`; without a list all files have the same ratio. -/
def exactQuota (B N : ℕ) (ratio : List ℤ) (i : Fin N) : ℚ :=
  if ratio = [] then B / N else quota B N ratio i

structure Fair (B N : ℕ) (ratio : List ℤ) (out : Fin N → ℤ) : Prop where
  nonneg : ∀ i, 0 ≤ out i
  sum : ∑ i, out i = B
  near : ∀ i, out i = ⌊exactQuota B N ratio i⌋ ∨ out i = ⌈exactQuota B N ratio i⌉
  even : (∀ r ∈ ratio, ∀ s ∈ ratio, r = s) → ∀ i j, out i ≤ out j + 1

def ThrowsOrFair (B N : ℕ) (ratio : List ℤ) : Prop :=
  match smSplitBlocks B N ratio with
  | .ok out => Fair B N ratio out
  | .error (.thrown _) => True
  | .error .undefined => False

/-- How often the casts of the even parts lose `2 ^ 32`. -/
def lost (B N : ℕ) : ℕ := ∑ i : Fin N, (part B N i + 2 ^ 31) / 2 ^ 32

/-- No quota is `-1` or less, the whole parts do not exceed `B`, and the largest remainder shares are
`int`s. -/
structure Proportional (B N : ℕ) (ratio : List ℤ) : Prop where
  above : ∀ i, -1 < quota B N ratio i
  whole : ∑ i, cut B N ratio i ≤ B
  fits : ∀ i, share (cut B N ratio) (fraction B N ratio) (B - ∑ i, cut B N ratio i).toNat i ≤ intMax

/-- The inputs that are split fairly or refused. -/
def Splittable (B N : ℕ) (ratio : List ℤ) : Prop :=
  if ratio = [] then lost B N ≠ 2 ^ 32
  else ratio.length ≠ N ∨ ratio.sum ≤ 0 ∨ Proportional B N ratio

end split

section parse

def isSpace (c : Char) : Bool := c = ' ' || (9 ≤ c.toNat && c.toNat ≤ 13)

def digits (cs : List Char) : ℕ :=
  (cs.takeWhile Char.isDigit).foldl (fun n c => 10 * n + (c.toNat - 48)) 0

/-- `atoi`: blanks, a sign and digits. A number that is no `int` has no defined value. -/
def atoi (cs : List Char) : Option ℤ :=
  let body := cs.dropWhile isSpace
  let v : ℤ := match body with
    | '-' :: ds => -(digits ds : ℤ)
    | '+' :: ds => digits ds
    | ds => digits ds
  if -2 ^ 31 ≤ v ∧ v ≤ intMax then some v else none

/-- `parse_ratio`: the numbers between the colons, where empty places are skipped -/
def parseRatio (s : List Char) : Option (List ℤ) :=
  ((s.splitOn ':').filter fun tok => tok ≠ []).mapM atoi

end parse

section bump

variable {N : ℕ}

theorem bump_eq (k : ℕ) {order : List (Fin N)} (hnodup : order.Nodup) (out : Fin N → ℤ) :
    bump k order out = if k ≤ order.length ∧ ∀ i ∈ order.take k, out i ≠ intMax then
      .ok fun i => out i + if i ∈ order.take k then 1 else 0 else .error .undefined := by
  induction order generalizing k out with
  | nil => cases k <;> simp [bump]
  | cons a order ih =>
    obtain ⟨ha, hnodup⟩ := List.nodup_cons.mp hnodup
    cases k with
    | zero => simp [bump]
    | succ k =>
      rw [bump, List.take_succ_cons]
      by_cases hmax : out a = intMax
      · rw [if_pos hmax, if_neg]
        rintro ⟨_, h⟩
        exact h a (List.mem_cons_self ..) hmax
      · have hne : ∀ i ∈ order.take k, i ≠ a := by
          rintro i hi rfl
          exact ha (List.mem_of_mem_take hi)
        have hsame : ∀ i ∈ order.take k, Function.update out a (out a + 1) i = out i :=
          fun i hi => Function.update_of_ne (hne i hi) ..
        have hcond : (k ≤ order.length ∧
            ∀ i ∈ order.take k, Function.update out a (out a + 1) i ≠ intMax) ↔
            k + 1 ≤ (a :: order).length ∧ ∀ i ∈ a :: order.take k, out i ≠ intMax := by
          simp only [List.length_cons, Nat.add_le_add_iff_right, List.forall_mem_cons]
          refine and_congr_right fun _ => ?_
          constructor
          · exact fun h => ⟨hmax, fun i hi => hsame i hi ▸ h i hi⟩
          · exact fun h i hi => (hsame i hi).symm ▸ h.2 i hi
        rw [if_neg hmax, ih k hnodup]
        refine if_congr hcond ?_ rfl
        refine congrArg _ (funext fun i => ?_)
        by_cases hi : i = a
        · subst hi
          have hnot : i ∉ order.take k := fun h => ha (List.mem_of_mem_take h)
          simp [hnot]
        · simp [hi]

end bump

section uniform

variable {B N : ℕ}

theorem toInt_eq (x : ℕ) : toInt x = x - 2 ^ 32 * ((x + 2 ^ 31) / 2 ^ 32 : ℕ) := by
  have h : toInt x = if (x : ℤ) % 4294967296 < 2147483648 then (x : ℤ) % 4294967296
      else (x : ℤ) % 4294967296 - 4294967296 := Int.bmod_def ..
  rw [h]
  split <;> omega

theorem toInt_of_lt {x : ℕ} (h : x < 2 ^ 31) : toInt x = x := by
  have hzero : (x + 2 ^ 31) / 2 ^ 32 = 0 := by omega
  rw [toInt_eq, hzero]
  omega

theorem sum_part (hN : 0 < N) : ∑ i : Fin N, part B N i = B := by
  have hlow : (Finset.univ.filter fun i : Fin N => (i : ℕ) < B % N).card = B % N := by
    rw [Fin.card_filter_val_lt, min_eq_right (Nat.mod_lt B hN).le]
  have hsum : ∑ i : Fin N, part B N i = N * (B / N) + B % N := by
    simp [part, Finset.sum_add_distrib, hlow]
  rw [hsum, Nat.div_add_mod]

theorem sum_toInt (hN : 0 < N) : ∑ i : Fin N, toInt (part B N i) = B - 2 ^ 32 * (lost B N : ℤ) := by
  simp only [toInt_eq]
  rw [Finset.sum_sub_distrib, ← Finset.mul_sum, ← Nat.cast_sum, ← Nat.cast_sum, sum_part hN, lost]

theorem lost_lt (hB : B < 2 ^ 64) (hN : 0 < N) (hN' : N < 2 ^ 31) : lost B N < 2 ^ 33 := by
  have hle : ∀ i : Fin N, 2 ^ 32 * ((part B N i + 2 ^ 31) / 2 ^ 32) ≤ part B N i + 2 ^ 31 :=
    fun i => Nat.mul_div_le ..
  have hsum := Finset.sum_le_sum fun i (_ : i ∈ Finset.univ) => hle i
  rw [← Finset.mul_sum, Finset.sum_add_distrib, sum_part hN] at hsum
  simp only [Finset.sum_const, Finset.card_univ, Fintype.card_fin, smul_eq_mul] at hsum
  unfold lost
  omega

theorem part_lt_of_lost (h : lost B N = 0) (i : Fin N) : part B N i < 2 ^ 31 := by
  have hzero := Finset.sum_eq_zero_iff.mp h i (Finset.mem_univ i)
  omega

/-- A count between `x - 1` and `x + 1` that leaves no whole unit is a rounding of `x`. -/
theorem floor_or_ceil {x : ℚ} {v : ℤ} (hlow : (v : ℚ) < x + 1) (hhigh : x < v + 1) :
    v = ⌊x⌋ ∨ v = ⌈x⌉ := by
  rcases le_total (v : ℚ) x with h | h
  · exact .inl (Int.floor_eq_iff.mpr ⟨h, hhigh⟩).symm
  · exact .inr (Int.ceil_eq_iff.mpr ⟨by linarith, h⟩).symm

/-- Roundings of one number differ by at most one. -/
theorem le_add_one {x : ℚ} {v w : ℤ} (hv : v = ⌊x⌋ ∨ v = ⌈x⌉) (hw : w = ⌊x⌋ ∨ w = ⌈x⌉) : v ≤ w + 1 := by
  have h₁ := Int.floor_le_ceil x
  have h₂ := Int.ceil_le_floor_add_one x
  omega

theorem fair_part (hN : 0 < N) : Fair B N [] fun i => (part B N i : ℤ) := by
  have hnear : ∀ i : Fin N, (part B N i : ℤ) = ⌊(B / N : ℚ)⌋ ∨ (part B N i : ℤ) = ⌈(B / N : ℚ)⌉ := by
    intro i
    have hpos : (0 : ℚ) < N := by exact_mod_cast hN
    have hdiv := Nat.div_add_mod B N
    have hmod := Nat.mod_lt B hN
    have hlow : part B N i * N < B + N := by
      rw [part, Nat.add_mul, Nat.mul_comm (B / N)]
      split <;> omega
    have hhigh : B < (part B N i + 1) * N := by
      rw [part, Nat.add_mul, Nat.add_mul, Nat.mul_comm (B / N)]
      split <;> omega
    apply floor_or_ceil
    · rw [div_add_one hpos.ne', Int.cast_natCast, lt_div_iff₀ hpos]
      exact_mod_cast hlow
    · rw [div_lt_iff₀ hpos, Int.cast_natCast]
      exact_mod_cast hhigh
  exact
    { nonneg := fun i => Int.natCast_nonneg _
      sum := by rw [← Nat.cast_sum, sum_part hN]
      near := by simpa [exactQuota] using hnear
      even := fun _ i j => le_add_one (hnear i) (hnear j) }

theorem throwsOrFair_uniform (hB : B < 2 ^ 64) (hN : 0 < N) (hN' : N < 2 ^ 31) :
    ThrowsOrFair B N [] ↔ lost B N ≠ 2 ^ 32 := by
  have hsum := sum_toInt (B := B) hN
  have hlost := lost_lt hB hN hN'
  unfold ThrowsOrFair smSplitBlocks
  simp only [if_true, Except.bind, checkSum, hsum]
  by_cases hcheck : ((B : ℤ) - 2 ^ 32 * (lost B N : ℤ)) % 2 ^ 64 = B
  · simp only [hcheck, ne_eq, not_true_eq_false, if_false]
    constructor
    · intro hfair
      have hexact := hsum.symm.trans hfair.sum
      omega
    · intro hne
      have hzero : lost B N = 0 := by omega
      have hout : (fun i => toInt (part B N i)) = fun i => (part B N i : ℤ) :=
        funext fun i => toInt_of_lt (part_lt_of_lost hzero i)
      rw [hout]
      exact fair_part hN
  · simp only [hcheck, ne_eq, not_false_eq_true, if_true, true_iff]
    omega

end uniform

section proportional

theorem trunc_nonneg {q : ℚ} : 0 ≤ trunc q ↔ -1 < q := by
  unfold trunc
  split
  · rename_i h
    exact ⟨fun _ => by linarith, fun _ => Int.floor_nonneg.mpr h⟩
  · rw [← Int.sub_one_lt_iff, Int.lt_ceil]
    norm_num

theorem sub_trunc_lt (q : ℚ) : q - trunc q < 1 := by
  unfold trunc
  split
  · linarith [Int.lt_floor_add_one q]
  · linarith [Int.le_ceil q]

theorem lt_sub_trunc (q : ℚ) : -1 < q - trunc q := by
  unfold trunc
  split
  · linarith [Int.floor_le q]
  · linarith [Int.ceil_lt_add_one q]

theorem nonneg_of_sub_trunc_pos {q : ℚ} (h : 0 < q - trunc q) : 0 ≤ q := by
  by_contra hneg
  rw [trunc, if_neg hneg] at h
  linarith [Int.le_ceil q]

theorem trunc_near (q : ℚ) : trunc q = ⌊q⌋ ∨ trunc q = ⌈q⌉ := by
  unfold trunc
  split <;> simp

/-- One more than the whole part is the ceiling if there is a fraction. -/
theorem trunc_add_one {q : ℚ} (h : 0 < q - trunc q) : trunc q + 1 = ⌈q⌉ := by
  have hlt := sub_trunc_lt q
  refine (Int.ceil_eq_iff.mpr ⟨?_, ?_⟩).symm <;> push_cast <;> linarith

variable {B N : ℕ} {ratio : List ℤ}

theorem sum_quota (hlen : ratio.length = N) (hsum : 0 < ratio.sum) : ∑ i, quota B N ratio i = B := by
  subst hlen
  have hget : ∑ i : Fin ratio.length, ((ratio.getD i 0 : ℤ) : ℚ) = (ratio.sum : ℤ) := by
    rw [← Int.cast_sum, ← Fin.sum_univ_getElem ratio]
    simp
  have hne : ((ratio.sum : ℤ) : ℚ) ≠ 0 := by exact_mod_cast hsum.ne'
  simp only [quota]
  rw [← Finset.sum_div, ← Finset.mul_sum, hget, mul_div_cancel_right₀ _ hne]

theorem sum_fraction (hlen : ratio.length = N) (hsum : 0 < ratio.sum) :
    ∑ i, fraction B N ratio i = ((B - ∑ i, cut B N ratio i : ℤ) : ℚ) := by
  simp [fraction, sum_quota hlen hsum]

/-- The whole parts miss `B` by at most `N`. -/
theorem cut_bounds (hlen : ratio.length = N) (hsum : 0 < ratio.sum) :
    -(N : ℤ) ≤ B - ∑ i, cut B N ratio i ∧ B - ∑ i, cut B N ratio i ≤ (N : ℤ) := by
  have hfrac := sum_fraction (B := B) hlen hsum
  have hhigh : ∑ i, fraction B N ratio i ≤ ∑ _i : Fin N, (1 : ℚ) :=
    Finset.sum_le_sum fun i _ => (sub_trunc_lt _).le
  have hlow : ∑ _i : Fin N, (-1 : ℚ) ≤ ∑ i, fraction B N ratio i :=
    Finset.sum_le_sum fun i _ => (lt_sub_trunc _).le
  simp only [Finset.sum_const, Finset.card_univ, Fintype.card_fin, nsmul_eq_mul, mul_one,
    mul_neg] at hhigh hlow
  rw [hfrac] at hhigh hlow
  exact ⟨by exact_mod_cast hlow, by exact_mod_cast hhigh⟩

section shares

variable (hlen : ratio.length = N) (hsum : 0 < ratio.sum) (hwhole : ∑ i, cut B N ratio i ≤ B)

/-- The largest remainder share of file `i` -/
def ratioShare (B N : ℕ) (ratio : List ℤ) (i : Fin N) : ℤ :=
  share (cut B N ratio) (fraction B N ratio) (B - ∑ i, cut B N ratio i).toNat i

include hlen hsum hwhole

theorem fraction_pos {i : Fin N} (hi : rank (fraction B N ratio) i < (B - ∑ i, cut B N ratio i).toNat) :
    0 < fraction B N ratio i := by
  refine pos_of_rank_lt (f := fraction B N ratio) (fun i => sub_trunc_lt _) ?_ hi
  have hd : (((B - ∑ i, cut B N ratio i).toNat : ℤ) : ℚ) = ((B - ∑ i, cut B N ratio i : ℤ) : ℚ) := by
    rw [Int.toNat_of_nonneg (by omega)]
  rw [sum_fraction hlen hsum, ← hd, Int.cast_natCast]

theorem ratioShare_near (i : Fin N) :
    ratioShare B N ratio i = ⌊quota B N ratio i⌋ ∨ ratioShare B N ratio i = ⌈quota B N ratio i⌉ := by
  unfold ratioShare share
  split
  · rename_i hi
    exact .inr (trunc_add_one (fraction_pos hlen hsum hwhole hi))
  · rw [add_zero]
    exact trunc_near _

theorem ratioShare_nonneg : (∀ i, 0 ≤ ratioShare B N ratio i) ↔ ∀ i, -1 < quota B N ratio i := by
  refine forall_congr' fun i => ?_
  unfold ratioShare share
  split
  · rename_i hi
    have hquota := nonneg_of_sub_trunc_pos (fraction_pos hlen hsum hwhole hi)
    have habove : -1 < quota B N ratio i := by linarith
    have hcut := trunc_nonneg.mpr habove
    exact iff_of_true (by rw [cut]; omega) habove
  · rw [add_zero]
    exact trunc_nonneg

theorem sum_ratioShare : ∑ i, ratioShare B N ratio i = B := by
  have hbounds := cut_bounds (B := B) hlen hsum
  have hshare := sum_share (cut B N ratio) (fraction B N ratio)
    (k := (B - ∑ i, cut B N ratio i).toNat) (by omega)
  unfold ratioShare
  omega

theorem fair_ratioShare : Fair B N ratio (ratioShare B N ratio) ↔ ∀ i, -1 < quota B N ratio i := by
  have hne : ratio ≠ [] := by
    rintro rfl
    simp at hsum
  have hnear := ratioShare_near hlen hsum hwhole
  constructor
  · exact fun h => (ratioShare_nonneg hlen hsum hwhole).mp h.nonneg
  · intro habove
    exact
      { nonneg := (ratioShare_nonneg hlen hsum hwhole).mpr habove
        sum := sum_ratioShare hlen hsum hwhole
        near := by simpa [exactQuota, hne] using hnear
        even := by
          intro heq i j
          have hmem : ∀ i : Fin N, ratio.getD i 0 ∈ ratio := by
            intro i
            rw [List.getD_eq_getElem _ _ (hlen ▸ i.isLt)]
            exact List.getElem_mem _
          have hquota : quota B N ratio i = quota B N ratio j := by
            rw [quota, quota, heq _ (hmem i) _ (hmem j)]
          exact le_add_one (hnear i) (hquota ▸ hnear j) }

/-- With whole parts that do not exceed `B` the counts are the largest remainder shares. -/
theorem byRatio_eq (hN' : N < 2 ^ 31) (hcast : ∀ i, Castable (quota B N ratio i)) :
    byRatio B N ratio = if ∀ i, ratioShare B N ratio i ≤ intMax then .ok (ratioShare B N ratio)
      else .error .undefined := by
  have hbounds := cut_bounds (B := B) hlen hsum
  have hdiff : ((B - (∑ i, cut B N ratio i) % 2 ^ 64) % 2 ^ 64).toNat =
      (B - ∑ i, cut B N ratio i).toNat := by omega
  rw [byRatio, if_neg (not_not.mpr hlen), if_neg (not_le.mpr hsum), if_pos hcast]
  simp only [hdiff]
  rw [bump_eq _ nodup_ordered]
  refine if_congr ?_ ?_ rfl
  · constructor
    · rintro ⟨_, hfit⟩ i
      unfold ratioShare share
      have hle := (hcast i).2
      split
      · rename_i hi
        have hne := hfit i (mem_take_ordered.mpr hi)
        rw [cut] at hne ⊢
        omega
      · simpa [cut] using hle
    · refine fun hfit => ⟨by rw [length_ordered]; omega, fun i hi hmax => ?_⟩
      have hle := hfit i
      rw [ratioShare, share, if_pos (mem_take_ordered.mp hi), hmax] at hle
      omega
  · refine congrArg _ (funext fun i => ?_)
    simp only [ratioShare, share, mem_take_ordered]

end shares

/-- Whole parts beyond `B` make the difference wrap, and the loop leaves the order. -/
theorem byRatio_excess (hN' : N < 2 ^ 31) (hlen : ratio.length = N) (hsum : 0 < ratio.sum)
    (hwhole : ¬ ∑ i, cut B N ratio i ≤ B) : byRatio B N ratio = .error .undefined := by
  have hbounds := cut_bounds (B := B) hlen hsum
  rw [byRatio, if_neg (not_not.mpr hlen), if_neg (not_le.mpr hsum)]
  split
  · simp only
    rw [bump_eq _ nodup_ordered, if_neg]
    rintro ⟨hle, _⟩
    rw [length_ordered] at hle
    omega
  · rfl

theorem throwsOrFair_ratio (hB : B < 2 ^ 64) (hN' : N < 2 ^ 31) (hlen : ratio.length = N)
    (hsum : 0 < ratio.sum) : ThrowsOrFair B N ratio ↔ Proportional B N ratio := by
  have hne : ratio ≠ [] := by
    rintro rfl
    simp at hsum
  unfold ThrowsOrFair smSplitBlocks
  rw [if_neg hne]
  by_cases hwhole : ∑ i, cut B N ratio i ≤ B
  · by_cases hcast : ∀ i, Castable (quota B N ratio i)
    · rw [byRatio_eq hlen hsum hwhole hN' hcast]
      by_cases hfit : ∀ i, ratioShare B N ratio i ≤ intMax
      · have hcheck : (∑ i, ratioShare B N ratio i) % 2 ^ 64 = B := by
          rw [sum_ratioShare hlen hsum hwhole]
          omega
        rw [if_pos hfit, Except.bind, checkSum, if_neg (not_not.mpr hcheck)]
        refine (fair_ratioShare hlen hsum hwhole).trans ⟨fun h => ⟨h, hwhole, hfit⟩, fun h => h.above⟩
      · rw [if_neg hfit]
        exact iff_of_false id fun h => hfit h.fits
    · have hout : byRatio B N ratio = .error .undefined := by
        rw [byRatio, if_neg (not_not.mpr hlen), if_neg (not_le.mpr hsum), if_neg hcast]
      rw [hout]
      refine iff_of_false id fun h => hcast fun i => ?_
      have hnonneg : 0 ≤ cut B N ratio i := trunc_nonneg.mpr (h.above i)
      have hle := h.fits i
      unfold share at hle
      rw [cut] at hnonneg hle
      refine ⟨by omega, ?_⟩
      split at hle <;> omega
  · rw [byRatio_excess hN' hlen hsum hwhole]
    exact iff_of_false id fun h => hwhole h.whole

end proportional

section main

/-- The call throws or splits fairly exactly on the splittable inputs. -/
theorem smSplitBlocks_fair_iff {B N : ℕ} (hB : B < 2 ^ 64) (hN : 0 < N) (hN' : N < 2 ^ 31)
    (ratio : List ℤ) : ThrowsOrFair B N ratio ↔ Splittable B N ratio := by
  unfold Splittable
  by_cases hnil : ratio = []
  · rw [if_pos hnil, hnil]
    exact throwsOrFair_uniform hB hN hN'
  · rw [if_neg hnil]
    by_cases hlen : ratio.length = N
    · by_cases hsum : 0 < ratio.sum
      · rw [throwsOrFair_ratio hB hN' hlen hsum]
        constructor
        · exact fun h => .inr (.inr h)
        · rintro (h | h | h)
          · exact absurd hlen h
          · omega
          · exact h
      · have hthrow : ThrowsOrFair B N ratio := by
          simp [ThrowsOrFair, smSplitBlocks, hnil, byRatio, hlen, not_lt.mp hsum, Except.bind]
        exact iff_of_true hthrow (.inr (.inl (not_lt.mp hsum)))
    · have hthrow : ThrowsOrFair B N ratio := by
        simp [ThrowsOrFair, smSplitBlocks, hnil, byRatio, hlen, Except.bind]
      exact iff_of_true hthrow (.inl hlen)

theorem smSplitBlocks_fair_iff_thirds : (parseRatio "1:2".toList = some [1, 2]) ∧ ThrowsOrFair 10 2 [1, 2] :=
  ⟨by decide, (smSplitBlocks_fair_iff (by decide) (by decide) (by decide) [1, 2]).mpr
    (.inr (.inr ⟨by decide +kernel, by decide +kernel, by decide +kernel⟩))⟩

/-- `--ratio -1:2` gives the first of two files `-10` of `10` blocks. -/
theorem not_throwsOrFair_negative :
    (parseRatio "-1:2".toList = some [-1, 2]) ∧ ¬ ThrowsOrFair 10 2 [-1, 2] := by
  refine ⟨by decide, fun h => ?_⟩
  have hiff : ThrowsOrFair 10 2 [-1, 2] ↔ Proportional 10 2 [-1, 2] :=
    throwsOrFair_ratio (by decide) (by decide) rfl (by decide)
  have hquota : (-1 : ℚ) < 10 * ((-1 : ℤ) : ℚ) / ((1 : ℤ) : ℚ) := (hiff.mp h).above 0
  norm_num at hquota

end main

end BlockSplit
end StreamMoE
