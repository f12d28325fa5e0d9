import StreamMoE.ConvertRead
import StreamMoE.ConvertUnits

/-! `write_v3_chunk`: how the units are split, what lies in a strip file, and the bytes that a range of a unit is
read as. -/
namespace StreamMoE
namespace ConvertModel

open BlockSplit (Failure Fair smSplitBlocks)
open ByteFiles (File writes)
open ChunkSet (Query mapQuery)
open DenseFill (SrcSeg)
open FileCopies
open Gaps
open Spans (Tiles)
open StripPartition
open StripRange (ChunkFile before coverage endPage Placed)
open WriterPlan (Category Target alignUp Cuts CopyOp ContentItem ChunkUnit Region opHits fillHits chunkRegions strip
  contentToOps copyPart Laid)

section split

variable {B N : ℕ} {ratio : List ℤ}

/-- A ratio list that is not refused and has no negative number in it. -/
structure Splits (N : ℕ) (ratio : List ℤ) : Prop where
  pos : 0 < N
  files : N < 2 ^ 31
  ratio : ratio ≠ [] → ratio.length = N ∧ 0 < ratio.sum ∧ ∀ r ∈ ratio, 0 ≤ r

theorem getD_le_sum (hratio : ∀ r ∈ ratio, 0 ≤ r) (i : ℕ) : 0 ≤ ratio.getD i 0 ∧ ratio.getD i 0 ≤ ratio.sum := by
  have hnonneg := List.sum_nonneg hratio
  rcases Nat.lt_or_ge i ratio.length with hi | hi
  · rw [List.getD_eq_getElem _ _ hi]
    have hmem := List.getElem_mem hi
    exact ⟨hratio _ hmem, List.single_le_sum hratio _ hmem⟩
  · rw [List.getD_eq_default _ _ hi]
    exact ⟨le_refl _, hnonneg⟩

theorem quota_bounds (hsum : 0 < ratio.sum) (hratio : ∀ r ∈ ratio, 0 ≤ r) (i : Fin N) :
    0 ≤ BlockSplit.quota B N ratio i ∧ BlockSplit.quota B N ratio i ≤ B := by
  obtain ⟨hlow, hhigh⟩ := getD_le_sum hratio i
  have hpos : (0 : ℚ) < (ratio.sum : ℤ) := by exact_mod_cast hsum
  have hlow' : (0 : ℚ) ≤ (ratio.getD i 0 : ℤ) := by exact_mod_cast hlow
  have hhigh' : ((ratio.getD i 0 : ℤ) : ℚ) ≤ (ratio.sum : ℤ) := by exact_mod_cast hhigh
  constructor
  · exact div_nonneg (mul_nonneg (Nat.cast_nonneg _) hlow') hpos.le
  · rw [BlockSplit.quota, div_le_iff₀ hpos]
    exact mul_le_mul_of_nonneg_left hhigh' (Nat.cast_nonneg _)

/-- The pages of a unit of `B` pages that file `i` gets -/
def pageShare (B N : ℕ) (ratio : List ℤ) (i : Fin N) : ℤ :=
  if ratio = [] then BlockSplit.part B N i else BlockSplit.ratioShare B N ratio i

/-- The pages of every file are counted in an `int`. -/
def FitsInt (B N : ℕ) (ratio : List ℤ) : Prop := ∀ i : Fin N, pageShare B N ratio i ≤ BlockSplit.intMax

theorem cut_le_quota (hsum : 0 < ratio.sum) (hratio : ∀ r ∈ ratio, 0 ≤ r) (i : Fin N) :
    (BlockSplit.cut B N ratio i : ℚ) ≤ BlockSplit.quota B N ratio i := by
  rw [BlockSplit.cut, BlockSplit.trunc, if_pos (quota_bounds hsum hratio i).1]
  exact Int.floor_le _

theorem sum_cut_le (hlen : ratio.length = N) (hsum : 0 < ratio.sum) (hratio : ∀ r ∈ ratio, 0 ≤ r) :
    ∑ i : Fin N, BlockSplit.cut B N ratio i ≤ B := by
  have hle := Finset.sum_le_sum fun i (_ : i ∈ Finset.univ) => cut_le_quota (B := B) (N := N) hsum hratio i
  rw [BlockSplit.sum_quota hlen hsum, ← Int.cast_sum] at hle
  exact_mod_cast hle

theorem fair_pageShare (h : Splits N ratio) : Fair B N ratio (pageShare B N ratio) := by
  by_cases hne : ratio = []
  · subst hne
    have hshare : pageShare B N [] = fun i => (BlockSplit.part B N i : ℤ) := funext fun i => if_pos rfl
    rw [hshare]
    exact BlockSplit.fair_part h.pos
  · obtain ⟨hlen, hsum, hratio⟩ := h.ratio hne
    have habove : ∀ i, -1 < BlockSplit.quota B N ratio i :=
      fun i => by linarith [(quota_bounds (B := B) (N := N) hsum hratio i).1]
    have hshare : pageShare B N ratio = BlockSplit.ratioShare B N ratio := by
      funext i
      rw [pageShare, if_neg hne]
    rw [hshare]
    exact (BlockSplit.fair_ratioShare hlen hsum (sum_cut_le hlen hsum hratio)).mpr habove

theorem fitsInt_of_lt (h : Splits N ratio) (hB : B < 2 ^ 31) : FitsInt B N ratio := by
  intro i
  have hfair := fair_pageShare (B := B) h
  have hle := Finset.single_le_sum (fun j _ => hfair.nonneg j) (Finset.mem_univ i)
  rw [hfair.sum] at hle
  unfold BlockSplit.intMax
  omega

/-- Counts that are `int`s are those that are returned. -/
theorem smSplitBlocks_eq (h : Splits N ratio) (hB : B < 2 ^ 63) (hfits : FitsInt B N ratio) :
    smSplitBlocks B N ratio = .ok (pageShare B N ratio) := by
  have hcheck : (∑ i, pageShare B N ratio i) % 2 ^ 64 = B := by
    rw [(fair_pageShare h).sum]
    omega
  by_cases hne : ratio = []
  · subst hne
    have hcast : (fun i : Fin N => BlockSplit.toInt (BlockSplit.part B N i)) = pageShare B N [] := by
      funext i
      have hle := hfits i
      rw [pageShare, if_pos rfl] at hle ⊢
      unfold BlockSplit.intMax at hle
      exact BlockSplit.toInt_of_lt (by omega)
    rw [smSplitBlocks, if_pos rfl, hcast, Except.bind, BlockSplit.checkSum, if_neg (not_not.mpr hcheck)]
  · obtain ⟨hlen, hsum, hratio⟩ := h.ratio hne
    have hshare : BlockSplit.ratioShare B N ratio = pageShare B N ratio := by
      funext i
      rw [pageShare, if_neg hne]
    have hfit : ∀ i, BlockSplit.ratioShare B N ratio i ≤ BlockSplit.intMax := hshare ▸ hfits
    have hcast : ∀ i, BlockSplit.Castable (BlockSplit.quota B N ratio i) := by
      intro i
      have hlow := BlockSplit.trunc_nonneg.mpr (by linarith [(quota_bounds (B := B) (N := N) hsum hratio i).1] :
        -1 < BlockSplit.quota B N ratio i)
      have hhigh : BlockSplit.cut B N ratio i ≤ BlockSplit.ratioShare B N ratio i := by
        unfold BlockSplit.ratioShare LargestRemainder.share
        split <;> omega
      have hmax := hfit i
      rw [BlockSplit.cut] at hhigh
      unfold BlockSplit.Castable
      omega
    rw [smSplitBlocks, if_neg hne, BlockSplit.byRatio_eq hlen hsum (sum_cut_le hlen hsum hratio) h.files hcast,
      if_pos hfit, hshare, Except.bind, BlockSplit.checkSum, if_neg (not_not.mpr hcheck)]

variable {units : List ChunkUnit} {splits : List (Fin N → ℤ)}

/-- Every page of a unit is given to one file. -/
def Shared (N : ℕ) (unit : ChunkUnit) (sp : Fin N → ℤ) : Prop :=
  unit.size % 4096 = 0 ∧ (∀ i, 0 ≤ sp i) ∧ ∑ i, sp i = (unit.size / 4096 : ℕ)

theorem splitUnits_shared (h : Splits N ratio) (hunits : ∀ u ∈ units, u.size % 4096 = 0 ∧ u.size < 2 ^ 63)
    (hfits : ∀ u ∈ units, FitsInt (u.size / 4096) N ratio) :
    ∃ splits, splitUnits N ratio units = .ok splits ∧ List.Forall₂ (Shared N) units splits := by
  refine exists_mapM fun u hu => ?_
  obtain ⟨hmod, hsize⟩ := hunits u hu
  have hfair := fair_pageShare (B := u.size / 4096) h
  refine ⟨pageShare (u.size / 4096) N ratio, ?_, hmod, hfair.nonneg, hfair.sum⟩
  rw [if_neg (not_not.mpr hmod)]
  exact smSplitBlocks_eq h (by omega) (hfits u hu)

end split

section counts

variable {N : ℕ} {units : List ChunkUnit} {splits : List (Fin N → ℤ)} {G : Gguf} {m : Model} {u i : ℕ}
  {unit : ChunkUnit}

/-- The pages of a unit in the files before `i` -/
def pagesBefore (splits : List (Fin N → ℤ)) (i u : ℕ) : ℕ := ((List.range i).map fun f => sliceCount splits f u).sum

def pagesAbove (splits : List (Fin N → ℤ)) (i u : ℕ) : ℕ := ((List.range u).map fun v => sliceCount splits i v).sum

theorem getElem?_of_forall₂ {α β : Type} {R : α → β → Prop} {xs : List α} {ys : List β} (h : List.Forall₂ R xs ys)
    {k : ℕ} {x : α} (hx : xs[k]? = some x) : ∃ y, ys[k]? = some y ∧ R x y := by
  induction h generalizing k with
  | nil => cases hx
  | cons hab _ ih =>
    cases k with
    | zero =>
      cases hx
      exact ⟨_, rfl, hab⟩
    | succ k => exact ih hx

variable (hshared : List.Forall₂ (Shared N) units splits) (hsmall : (units.map ChunkUnit.size).sum < 2 ^ 63)

include hshared hsmall

theorem sliceCount_eq (hu : units[u]? = some unit) : ∃ sp : Fin N → ℤ, Shared N unit sp ∧
    ∀ i, sliceCount splits i u = if h : i < N then (sp ⟨i, h⟩).toNat else 0 := by
  obtain ⟨sp, hsp, hsh⟩ := getElem?_of_forall₂ hshared hu
  have hmem : unit.size ∈ units.map ChunkUnit.size := List.mem_map_of_mem (List.mem_of_getElem? hu)
  have hsize := List.le_sum_of_mem hmem
  refine ⟨sp, hsh, fun i => ?_⟩
  rw [sliceCount, hsp]
  dsimp only
  split
  · rename_i hi
    have hle := Finset.single_le_sum (fun j _ => hsh.2.1 j) (Finset.mem_univ (⟨i, hi⟩ : Fin N))
    have hnonneg := hsh.2.1 ⟨i, hi⟩
    rw [hsh.2.2] at hle
    congr 1
    omega
  · rfl

theorem sum_sliceCount (hu : units[u]? = some unit) : 4096 * pagesBefore splits N u = unit.size := by
  obtain ⟨sp, ⟨hmod, hnonneg, hsum⟩, hcount⟩ := sliceCount_eq hshared hsmall hu
  have hlist : ((List.range N).map fun f => sliceCount splits f u) = List.ofFn fun f : Fin N => (sp f).toNat := by
    refine List.ext_getElem (by simp) fun f hf _ => ?_
    have hlt : f < N := by simpa using hf
    rw [List.getElem_map, List.getElem_range, List.getElem_ofFn, hcount, dif_pos hlt]
  have hall : (pagesBefore splits N u : ℤ) = ∑ i, sp i := by
    rw [pagesBefore, hlist, List.sum_ofFn, Nat.cast_sum]
    exact Finset.sum_congr rfl fun f _ => Int.toNat_of_nonneg (hnonneg f)
  omega

omit hshared hsmall in
theorem pagesBefore_succ : pagesBefore splits (i + 1) u = pagesBefore splits i u + sliceCount splits i u := by
  simp [pagesBefore, List.range_succ]

omit hshared hsmall in
theorem pagesAbove_succ : pagesAbove splits i (u + 1) = pagesAbove splits i u + sliceCount splits i u := by
  simp [pagesAbove, List.range_succ]

omit hshared hsmall in
theorem pagesBefore_mono {j : ℕ} (h : i ≤ j) : pagesBefore splits i u ≤ pagesBefore splits j u := by
  induction h with
  | refl => exact le_refl _
  | step _ ih => exact ih.trans (by rw [pagesBefore_succ]; omega)

theorem sliceCount_le (hi : i < N) (hu : units[u]? = some unit) : 4096 * sliceCount splits i u ≤ unit.size := by
  have hall := sum_sliceCount hshared hsmall hu
  have hmono : pagesBefore splits (i + 1) u ≤ pagesBefore splits N u := pagesBefore_mono hi
  rw [pagesBefore_succ] at hmono
  omega

theorem pagesAbove_take (hi : i < N) (hu : u ≤ units.length) :
    4096 * pagesAbove splits i u ≤ ((units.take u).map ChunkUnit.size).sum := by
  induction u with
  | zero => simp [pagesAbove]
  | succ u ih =>
    have hget : units[u]? = some units[u] := List.getElem?_eq_getElem (by omega)
    have hle := sliceCount_le hshared hsmall hi hget
    have hrest := ih (by omega)
    rw [pagesAbove_succ, List.take_add_one, hget, Option.toList_some, List.map_append, List.sum_append,
      List.map_singleton, List.sum_singleton]
    omega

/-- A strip file is not larger than all units. -/
theorem pagesAbove_le (hi : i < N) (hu : u ≤ units.length) :
    4096 * pagesAbove splits i u ≤ (units.map ChunkUnit.size).sum := by
  have htake := pagesAbove_take hshared hsmall hi hu
  have hsum := List.sum_take_add_sum_drop (units.map ChunkUnit.size) u
  rw [← List.map_take] at hsum
  omega

end counts

section strips

variable {N : ℕ} {units : List ChunkUnit} {splits : List (Fin N → ℤ)} {G : Gguf} {m : Model} {u i : ℕ}
  {unit : ChunkUnit}

def slicesOf (units : List ChunkUnit) (splits : List (Fin N → ℤ)) (i : ℕ) : List UInt64 :=
  (List.range units.length).map fun u => UInt64.ofNat (sliceCount splits i u)

def stripHeader (m : Model) (units : List ChunkUnit) (splits : List (Fin N → ℤ)) (i : ℕ) : Header :=
  makeHeader m .v3 (some ⟨i, N, slicesOf units splits i⟩)

def stripStart (G : Gguf) (m : Model) (units : List ChunkUnit) (splits : List (Fin N → ℤ)) (i : ℕ) : ℕ :=
  alignUp (G.write (stripHeader m units splits i)).len

/-- What the reader takes from the strip files. -/
def stripsOf (G : Gguf) (m : Model) (units : List ChunkUnit) (splits : List (Fin N → ℤ)) : List ChunkFile :=
  (List.range N).map fun i => ⟨slicesOf units splits i, UInt64.ofNat (stripStart G m units splits i)⟩

theorem getElem?_strips (hi : i < N) : (stripsOf G m units splits)[i]? =
    some ⟨slicesOf units splits i, UInt64.ofNat (stripStart G m units splits i)⟩ := by
  rw [stripsOf, List.getElem?_map, List.getElem?_range hi]
  rfl

theorem strips_getElem? {f : ChunkFile} (h : (stripsOf G m units splits)[i]? = some f) : i < N ∧
    f = ⟨slicesOf units splits i, UInt64.ofNat (stripStart G m units splits i)⟩ := by
  have hi : i < N := by
    have hlt := (List.getElem?_eq_some_iff.mp h).1
    simpa [stripsOf] using hlt
  rw [getElem?_strips hi] at h
  exact ⟨hi, (Option.some.inj h).symm⟩

variable (hshared : List.Forall₂ (Shared N) units splits) (hsmall : (units.map ChunkUnit.size).sum < 2 ^ 63)

include hshared hsmall

theorem toNat_sliceCount (hi : i < N) (hu : units[u]? = some unit) :
    (UInt64.ofNat (sliceCount splits i u)).toNat = sliceCount splits i u := by
  have hle := sliceCount_le hshared hsmall hi hu
  have hmem : unit.size ∈ units.map ChunkUnit.size := List.mem_map_of_mem (List.mem_of_getElem? hu)
  have hsize := List.le_sum_of_mem hmem
  refine UInt64.toNat_ofNat_of_lt' ?_
  have hword : UInt64.size = 2 ^ 64 := rfl
  omega

theorem count_slices (hi : i < N) (hu : units[u]? = some unit) (dataOff : UInt64) :
    ((⟨slicesOf units splits i, dataOff⟩ : ChunkFile).count u).toNat = sliceCount splits i u := by
  have hlt : u < units.length := (List.getElem?_eq_some_iff.mp hu).1
  rw [ChunkFile.count, slicesOf, List.getD_eq_getElem?_getD, List.getElem?_map, List.getElem?_range hlt]
  exact toNat_sliceCount hshared hsmall hi hu

theorem before_strips (hi : i ≤ N) (hu : units[u]? = some unit) :
    before (stripsOf G m units splits) u i = pagesBefore splits i u := by
  rw [before, stripsOf, ← List.map_take, List.take_range, Nat.min_eq_left hi, List.map_map, pagesBefore]
  congr 1
  refine List.map_congr_left fun f hf => ?_
  have hf : f < i := List.mem_range.mp hf
  exact count_slices hshared hsmall (by omega) hu _

theorem above_slices (hi : i < N) (hu : u ≤ units.length) (dataOff : UInt64) :
    (⟨slicesOf units splits i, dataOff⟩ : ChunkFile).above u = pagesAbove splits i u := by
  rw [ChunkFile.above, slicesOf, ← List.map_take, List.take_range, Nat.min_eq_left hu, List.map_map, pagesAbove]
  congr 1
  refine List.map_congr_left fun v hv => ?_
  have hv : v < u := List.mem_range.mp hv
  exact toNat_sliceCount hshared hsmall hi (List.getElem?_eq_getElem (show v < units.length by omega))

end strips

section files

variable {N : ℕ} {units : List ChunkUnit} {splits : List (Fin N → ℤ)} {G : Gguf} {m : Model} {disk : Disk}
  {u i : ℕ} {unit : ChunkUnit}

/-- The strip of a unit is one of the regions of the file, behind the strips of the units before it. -/
theorem mem_chunkRegions_of {slices : ℕ → ℕ → ℕ} {us : List ChunkUnit} {first cum k : ℕ} (hu : us[k]? = some unit)
    (hne : slices i (first + k) ≠ 0) :
    strip unit (((List.range i).map fun f => slices f (first + k)).sum * 4096) (slices i (first + k) * 4096)
      ((cum + ((List.range k).map fun v => slices i (first + v)).sum) * 4096) ∈ chunkRegions slices i first cum us := by
  induction us generalizing first cum k with
  | nil => cases hu
  | cons v us ih =>
    rw [chunkRegions]
    cases k with
    | zero =>
      obtain rfl : v = unit := Option.some.inj hu
      rw [Nat.add_zero] at hne
      rw [if_neg hne]
      exact List.mem_cons_self
    | succ k =>
      have hindex : first + (k + 1) = first + 1 + k := by omega
      rw [hindex] at hne ⊢
      have hmem := @ih (first + 1) (cum + slices i first) k hu hne
      have hsum : cum + ((List.range (k + 1)).map fun v => slices i (first + v)).sum =
          cum + slices i first + ((List.range k).map fun v => slices i (first + 1 + v)).sum := by
        rw [List.range_succ_eq_map, List.map_cons, List.map_map, List.sum_cons, Nat.add_zero, Nat.add_assoc]
        congr 3
        refine List.map_congr_left fun v _ => ?_
        have hv : first + (v + 1) = first + 1 + v := by omega
        exact congrArg _ hv
      rw [hsum]
      split
      · exact hmem
      · exact List.mem_cons_of_mem _ hmem

theorem copyPart_source {dst a b : ℕ} {s : SrcSeg} {o : CopyOp} (h : copyPart dst a b s = some o) :
    o.file = s.file ∧ (o.len ≠ 0 → s.len ≠ 0 ∧ o.srcOff + o.len ≤ s.off + s.len) := by
  unfold copyPart at h
  split at h
  · cases h
  · obtain rfl := Option.some.inj h
    dsimp only
    exact ⟨rfl, fun hne => by omega⟩

/-- The byte `p` of an item is copied from the segment it is in. -/
theorem exists_copy {content : List ContentItem} {item : ContentItem} (hitem : item ∈ content) {s : SrcSeg}
    (hs : s ∈ item.srcs) (hin : s.inOff + s.len ≤ item.len) {p start len : ℕ}
    (hsp : Covers SrcSeg.inOff (fun s => s.len) s p) (hlow : start ≤ item.logOff + p)
    (hhigh : item.logOff + p < start + len) (base : ℕ) :
    ∃ o ∈ contentToOps content start len base, o.file = s.file ∧
      Covers CopyOp.dstRel CopyOp.len o (base + (item.logOff + p - start)) ∧
        o.srcOff + (base + (item.logOff + p - start) - o.dstRel) = s.off + (p - s.inOff) := by
  simp only [Covers] at hsp
  obtain ⟨low, hlowEq⟩ : ∃ low, low = max start item.logOff := ⟨_, rfl⟩
  obtain ⟨high, hhighEq⟩ : ∃ high, high = min (start + len) (item.logOff + item.len) := ⟨_, rfl⟩
  obtain ⟨o, hcopy, hfile, hsrc, hlen, hdst⟩ : ∃ o,
      copyPart (base + (low - start)) (low - item.logOff) (high - item.logOff) s = some o ∧ o.file = s.file ∧
        o.srcOff = s.off + (max (low - item.logOff) s.inOff - s.inOff) ∧
        o.len = min (high - item.logOff) (s.inOff + s.len) - max (low - item.logOff) s.inOff ∧
        o.dstRel = base + (low - start) + (max (low - item.logOff) s.inOff - (low - item.logOff)) :=
    ⟨_, by rw [copyPart, if_neg (by omega)], rfl, rfl, rfl, rfl⟩
  refine ⟨o, List.mem_flatMap.mpr ⟨item, hitem, ?_⟩, hfile, ?_, by omega⟩
  · rw [if_neg (by omega)]
    refine List.mem_filterMap.mpr ⟨s, hs, ?_⟩
    rw [← hlowEq, ← hhighEq]
    exact hcopy
  · simp only [Covers]
    omega

def stripRegions (units : List ChunkUnit) (splits : List (Fin N → ℤ)) (i : ℕ) : List Region :=
  chunkRegions (sliceCount splits) i 0 0 units

/-- The file that is written for number `i`. -/
def stripFile (G : Gguf) (disk : Disk) (m : Model) (units : List ChunkUnit) (splits : List (Fin N → ℤ)) (i : ℕ) :
    File UInt8 :=
  writes (G.write (stripHeader m units splits i))
    (((stripRegions units splits i).flatMap Region.ops).map (copyWrite disk (stripStart G m units splits i)) ++
      ((stripRegions units splits i).flatMap Region.fills).map (fillWrite (stripStart G m units splits i)))

variable (hlaid : ∀ u ∈ units, Laid u.content) (hstored : ∀ u ∈ units, ∀ x ∈ u.content, FileCopies.Stored disk x.srcs)

include hstored in
theorem strips_readable : ∀ o ∈ (stripRegions units splits i).flatMap Region.ops, Readable disk o := by
  intro o ho
  obtain ⟨r, hr, ho⟩ := List.mem_flatMap.mp ho
  obtain ⟨_, unit, hunit, start, len, base, rfl⟩ := WriterPlan.mem_chunkRegions hr
  obtain ⟨item, hitem, ho⟩ := List.mem_flatMap.mp (show o ∈ contentToOps unit.content start len base from ho)
  split at ho
  · cases ho
  · obtain ⟨s, hs, hso⟩ := List.mem_filterMap.mp ho
    obtain ⟨f, hf, hend⟩ := hstored unit hunit item hitem s hs
    obtain ⟨hfile, hlen⟩ := copyPart_source hso
    refine ⟨f, hfile ▸ hf, fun hne => ?_⟩
    obtain ⟨hpos, hle⟩ := hlen hne
    exact hle.trans (hend hpos)

include hstored in
theorem writeStrips_ok (i : ℕ) :
    writeStrips G disk m units splits i = .ok (stripFile G disk m units splits i) :=
  writeFile_ok (strips_readable hstored)

include hlaid in
theorem strips_once {r : Region} (hr : r ∈ stripRegions units splits i) {p : ℕ} (hle : r.base ≤ p)
    (hlt : p < r.base + r.len) :
    opHits ((stripRegions units splits i).flatMap Region.ops) p +
      fillHits ((stripRegions units splits i).flatMap Region.fills) p = 1 := by
  have hsound : ∀ r ∈ stripRegions units splits i, r.Sound := by
    intro r hr
    obtain ⟨_, unit, hunit, start, len, base, rfl⟩ := WriterPlan.mem_chunkRegions hr
    exact WriterPlan.strip_sound (hlaid unit hunit)
  rw [WriterPlan.hits_regions hsound]
  exact WriterPlan.hits_eq_one (WriterPlan.chunkRegions_ordered units 0 0) hr hle hlt

include hlaid hstored in
/-- A byte of an item lies in the file that its page is given to. -/
theorem read_strip (hu : units[u]? = some unit) {item : ContentItem} (hitem : item ∈ unit.content) {p : ℕ}
    (hlow : 4096 * pagesBefore splits i u ≤ item.logOff + p)
    (hhigh : item.logOff + p < 4096 * pagesBefore splits (i + 1) u) (hp : p < item.len) :
    (stripFile G disk m units splits i).read (stripStart G m units splits i +
      (4096 * pagesAbove splits i u + (item.logOff + p - 4096 * pagesBefore splits i u))) =
      srcByte disk item.srcs p := by
  have hunit := List.mem_of_getElem? hu
  have hcuts := (hlaid unit hunit).cuts item hitem
  rw [pagesBefore_succ] at hhigh
  have hregion : strip unit (pagesBefore splits i u * 4096) (sliceCount splits i u * 4096)
      (pagesAbove splits i u * 4096) ∈ stripRegions units splits i := by
    have hne : sliceCount splits i (0 + u) ≠ 0 := by
      rw [Nat.zero_add]
      omega
    have hmem := @mem_chunkRegions_of i unit (sliceCount splits) units 0 0 u hu hne
    simp only [Nat.zero_add] at hmem
    exact hmem
  obtain ⟨s, hs, hsp⟩ := exists_seg hcuts hp
  have hin := hcuts.inside s hs
  have hindex : 4096 * pagesAbove splits i u + (item.logOff + p - 4096 * pagesBefore splits i u) =
      pagesAbove splits i u * 4096 + (item.logOff + p - pagesBefore splits i u * 4096) := by omega
  obtain ⟨o, ho, hfile, hcovers, hoff⟩ := exists_copy hitem hs (hcuts.inside s hs) hsp
    (show pagesBefore splits i u * 4096 ≤ item.logOff + p by omega)
    (show item.logOff + p < pagesBefore splits i u * 4096 + sliceCount splits i u * 4096 by omega)
    (pagesAbove splits i u * 4096)
  have hop : o ∈ (stripRegions units splits i).flatMap Region.ops := List.mem_flatMap.mpr ⟨_, hregion, ho⟩
  have honce := strips_once hlaid hregion
    (p := pagesAbove splits i u * 4096 + (item.logOff + p - pagesBefore splits i u * 4096))
    (by simp only [strip]; omega) (by simp only [strip]; omega)
  rw [hindex, srcByte_eq hcuts hs hsp, stripFile, read_copied (strips_readable hstored) hop hcovers honce, hfile, hoff]

end files

section serve

variable {N : ℕ} {units : List ChunkUnit} {splits : List (Fin N → ℤ)} {G : Gguf} {m : Model} {disk disk' : Disk}
  {unit : ChunkUnit} {q : Query}

/-- What the reader needs of the numbers: units split in whole pages, and files whose size is a number of 63
bits. -/
structure Fits (G : Gguf) (m : Model) (units : List ChunkUnit) (splits : List (Fin N → ℤ)) : Prop where
  shared : List.Forall₂ (Shared N) units splits
  small : (units.map ChunkUnit.size).sum < 2 ^ 63
  files : ∀ i < N, stripStart G m units splits i + (units.map ChunkUnit.size).sum < 2 ^ 63

theorem coverage_strips (h : Fits G m units splits) (hu : units[q.unit]? = some unit) :
    coverage (stripsOf G m units splits) q.unit = unit.size := by
  have hlen : (stripsOf G m units splits).length = N := by simp [stripsOf]
  rw [coverage, hlen, before_strips h.shared h.small (le_refl _) hu]
  exact sum_sliceCount h.shared h.small hu

/-- A range of whole pages, or one that begins at a page, is cut at the ends of the strips. -/
theorem mapQuery_strips (h : Fits G m units splits) (hu : units[q.unit]? = some unit)
    (hrel : q.rel.toNat % 4096 = 0) (hend : q.rel.toNat + q.len.toNat ≤ unit.size) :
    ∃ segs, mapQuery (stripsOf G m units splits) q = .ok segs ∧
      Tiles SrcSeg.inOff (fun s => s.len) 0 segs q.len.toNat ∧
        ∀ s ∈ segs, Placed (stripsOf G m units splits) q.unit q.rel.toNat s := by
  have hlt : q.unit < units.length := (List.getElem?_eq_some_iff.mp hu).1
  have hmem : unit.size ∈ units.map ChunkUnit.size := List.mem_map_of_mem (List.mem_of_getElem? hu)
  have hsize := List.le_sum_of_mem hmem
  have hsmall := h.small
  have hcover := coverage_strips h hu
  have hlast : (endPage q.rel q.len).toNat = _ := endPage_toNat
  rw [Nat.mod_eq_of_lt (by omega)] at hlast
  by_cases hlen : q.len = 0
  · refine ⟨[], loop_done ?_, ?_, by simp⟩
    · rw [UInt64.lt_iff_toNat_lt, startPage_toNat, hlast, hlen, UInt64.toNat_zero]
      omega
    · rw [hlen, UInt64.toNat_zero]
      exact .nil 0
  · have hpos : q.len.toNat ≠ 0 := fun hzero => hlen (UInt64.toNat_inj.mp hzero)
    have haddr : Addressable (stripsOf G m units splits) q.unit q.rel q.len := by
      intro i f hf _ _ hhigh
      obtain ⟨hi, rfl⟩ := strips_getElem? hf
      have hbefore := before_strips (G := G) (m := m) h.shared h.small (Nat.succ_le_of_lt hi) hu
      have hbefore' := before_strips (G := G) (m := m) h.shared h.small hi.le hu
      rw [hbefore, pagesBefore_succ] at hhigh
      have habove := above_slices h.shared h.small hi hlt.le (UInt64.ofNat (stripStart G m units splits i))
      have hle := pagesAbove_le h.shared h.small hi (Nat.succ_le_of_lt hlt)
      rw [pagesAbove_succ] at hle
      have hstart := h.files i hi
      have hword : (UInt64.ofNat (stripStart G m units splits i)).toNat = stripStart G m units splits i :=
        UInt64.toNat_ofNat_of_lt' (by
          have hword : UInt64.size = 2 ^ 64 := rfl
          omega)
      rw [habove, hbefore']
      dsimp only
      omega
    have hclear : Clear (stripsOf G m units splits) q.unit q.rel q.len := by
      refine clear_of_lt ?_
      unfold coverage at hcover
      omega
    obtain ⟨segs, hok, htiles, hplaced, _⟩ :=
      loop_partition hclear hlen (by omega) haddr (by omega) front_start (by rw [startPage_toNat]; omega)
    refine ⟨segs, hok, ?_, hplaced⟩
    rw [startPage_toNat] at htiles
    convert htiles using 1
    omega

theorem cuts_of_tiles {segs : List SrcSeg} {size : ℕ} (h : Tiles SrcSeg.inOff (fun s => s.len) 0 segs size) :
    Cuts segs size where
  inside s hs := (h.bounds hs).2.1
  once p hp := by
    rw [hits_of_ordered h.ordered]
    exact if_pos (h.covers (Nat.zero_le p) hp)

theorem holds_strips (h : Fits G m units splits) (hlaid : ∀ u ∈ units, Laid u.content)
    (hstored : ∀ u ∈ units, ∀ x ∈ u.content, FileCopies.Stored disk x.srcs)
    (hfiles : ∀ i < N, ∃ name, disk'[i]? = some (name, stripFile G disk m units splits i))
    (hu : units[q.unit]? = some unit) {item : ContentItem} (hitem : item ∈ unit.content)
    (hlog : item.logOff = q.rel.toNat) (hlen : item.len = q.len.toNat) (hrel : q.rel.toNat % 4096 = 0)
    (hend : q.rel.toNat + q.len.toNat ≤ unit.size) :
    ∃ segs, mapQuery (stripsOf G m units splits) q = .ok segs ∧ Holds disk disk' item.srcs item.len segs := by
  have hunit := List.mem_of_getElem? hu
  have hlt : q.unit < units.length := (List.getElem?_eq_some_iff.mp hu).1
  obtain ⟨segs, hok, htiles, hplaced⟩ := mapQuery_strips h hu hrel hend
  have hread : ∀ s ∈ segs, ∀ p, Covers SrcSeg.inOff (fun s => s.len) s p → ∃ f, disk'[s.file]? = some f ∧
      f.2.read (s.off + (p - s.inOff)) = srcByte disk item.srcs p := by
    intro s hs p hp
    obtain ⟨f, hf, hoff⟩ := (hplaced s hs).off
    obtain ⟨hi, rfl⟩ := strips_getElem? hf
    obtain ⟨name, hfile⟩ := hfiles s.file hi
    have hlow := (hplaced s hs).low
    have hhigh := (hplaced s hs).high
    rw [before_strips h.shared h.small hi.le hu] at hlow hoff
    rw [before_strips h.shared h.small (show s.file + 1 ≤ N from hi) hu] at hhigh
    rw [above_slices h.shared h.small hi hlt.le] at hoff
    have hin := (htiles.bounds hs).2.1
    have hstart := h.files s.file hi
    have hword : (UInt64.ofNat (stripStart G m units splits s.file)).toNat = stripStart G m units splits s.file :=
      UInt64.toNat_ofNat_of_lt' (by
        have hword : UInt64.size = 2 ^ 64 := rfl
        omega)
    simp only [Covers] at hp
    have hbyte : (stripFile G disk m units splits s.file).read (stripStart G m units splits s.file +
        (4096 * pagesAbove splits s.file q.unit + (item.logOff + p - 4096 * pagesBefore splits s.file q.unit))) =
        srcByte disk item.srcs p := read_strip hlaid hstored hu hitem (by omega) (by omega) (by omega)
    refine ⟨_, hfile, ?_⟩
    rw [← hbyte]
    dsimp only at hoff ⊢
    rw [hword] at hoff
    congr 1
    omega
  have hcuts := cuts_of_tiles htiles
  rw [← hlen] at hcuts
  have hgapless : Gapless segs item.len := by
    rw [Gapless, List.filter_eq_self.mpr fun s hs => decide_eq_true (htiles.bounds hs).2.2, hlen]
    exact htiles
  refine ⟨segs, hok, hcuts, hgapless, fun s hs => ?_, fun p hp => ?_⟩
  · have hpos := (htiles.bounds hs).2.2
    have hin := (htiles.bounds hs).2.1
    obtain ⟨f, hf, hlast⟩ := hread s hs (s.inOff + s.len - 1) (by simp only [Covers]; omega)
    obtain ⟨b, hb⟩ := exists_srcByte ((hlaid unit hunit).cuts item hitem) (hstored unit hunit item hitem)
      (show s.inOff + s.len - 1 < item.len by omega)
    refine ⟨f, hf, fun _ => ?_⟩
    rw [hb, File.read] at hlast
    split at hlast
    · omega
    · cases hlast
  · obtain ⟨s, hs, hsp⟩ := exists_seg hcuts hp
    obtain ⟨f, hf, heq⟩ := hread s hs p hsp
    rw [srcByte_eq hcuts hs hsp, hf]
    exact heq

end serve

end ConvertModel
end StreamMoE
