import Mathlib.Algebra.Order.Group.Nat
import StreamMoE.StripRange

/-! When `strip_range_to_segs` partitions a range or refuses it: the search finds the strip of a page
unless a running offset wraps, and the loop follows the strips. -/
namespace StreamMoE
namespace StripPartition

open BlockSplit (Failure)
open DenseFill (SrcSeg)
open Spans (Tiles)
open StripRange

section before

variable {files : List ChunkFile} {unit : ℕ}

@[simp] theorem before_zero : before files unit 0 = 0 := by simp [before]

theorem before_cons (f : ChunkFile) (fs : List ChunkFile) (i : ℕ) :
    before (f :: fs) unit (i + 1) = (f.count unit).toNat + before fs unit i := by simp [before]

theorem before_succ (unit : ℕ) {i : ℕ} {f : ChunkFile} (h : files[i]? = some f) :
    before files unit (i + 1) = before files unit i + (f.count unit).toNat := by
  simp [before, List.take_add_one, h]

theorem before_mono {i j : ℕ} (h : i ≤ j) : before files unit i ≤ before files unit j := by
  induction h with
  | refl => exact Nat.le_refl _
  | @step j _ ih =>
    refine ih.trans ?_
    cases hf : files[j]? with
    | none => simp [before, List.take_add_one, hf]
    | some f =>
      rw [before_succ unit hf]
      omega

/-- The strip that holds block `b` of the unit. -/
theorem exists_strip {b : ℕ} (h : b < before files unit files.length) :
    ∃ i < files.length, before files unit i ≤ b ∧ b < before files unit (i + 1) := by
  have hex : ∃ i, b < before files unit i := ⟨_, h⟩
  obtain ⟨i, hi⟩ : ∃ i, Nat.find hex = i + 1 := by
    refine Nat.exists_eq_succ_of_ne_zero fun hzero => ?_
    have hspec := Nat.find_spec hex
    simp [hzero] at hspec
  have hlt : b < before files unit (i + 1) := hi ▸ Nat.find_spec hex
  have hle : before files unit i ≤ b := not_lt.mp (Nat.find_min hex (by omega))
  have hlen : Nat.find hex ≤ files.length := Nat.find_min' hex h
  exact ⟨i, by omega, hle, hlt⟩

theorem strip_unique {b i j : ℕ} (hi : before files unit i ≤ b) (hi' : b < before files unit (i + 1))
    (hj : before files unit j ≤ b) (hj' : b < before files unit (j + 1)) : i = j := by
  rcases Nat.lt_trichotomy i j with h | h | h
  · have hmono : before files unit (i + 1) ≤ before files unit j := before_mono h
    omega
  · exact h
  · have hmono : before files unit (j + 1) ≤ before files unit i := before_mono h
    omega

end before

section search

variable (unit : ℕ) (cur : UInt64)

theorem seek_spec (fs : List ChunkFile) (fi : ℕ) (cum : UInt64) (hne : fs ≠ []) :
    ∃ x k, seek unit cur fi cum fs = some x ∧ x.index = fi + k ∧ fs[k]? = some x.file ∧
      x.cum.toNat = (cum.toNat + before fs unit k) % 2 ^ 64 ∧
      (∀ j < k, (cum.toNat + before fs unit (j + 1)) % 2 ^ 64 ≤ cur.toNat) ∧
      (k + 1 < fs.length → cur.toNat < (cum.toNat + before fs unit (k + 1)) % 2 ^ 64) := by
  induction fs generalizing fi cum with
  | nil => exact absurd rfl hne
  | cons f fs ih =>
    cases fs with
    | nil =>
      exact ⟨⟨fi, f, cum⟩, 0, rfl, rfl, rfl, by simp, by simp, by simp⟩
    | cons g fs =>
      rw [seek]
      by_cases hge : cur ≥ cum + f.count unit
      · obtain ⟨x, k, hseek, hindex, hfile, hx, hpassed, hstop⟩ :=
          ih (fi + 1) (cum + f.count unit) (by simp)
        have hge' := UInt64.le_iff_toNat_le.mp hge
        have hsum := UInt64.toNat_add cum (f.count unit)
        refine ⟨x, k + 1, by rw [if_pos hge, hseek], by omega, by simpa using hfile, ?_, ?_, ?_⟩
        · rw [before_cons]
          omega
        · intro j hj
          rw [before_cons]
          cases j with
          | zero =>
            rw [before_zero]
            omega
          | succ j =>
            have h := hpassed j (by omega)
            omega
        · intro hlen
          have h := hstop (by simpa using hlen)
          rw [before_cons]
          omega
      · refine ⟨⟨fi, f, cum⟩, 0, if_neg hge, rfl, rfl, by simp, by simp, fun _ => ?_⟩
        have hlt := UInt64.lt_iff_toNat_lt.mp (UInt64.not_le.mp hge)
        rw [before_cons, before_zero]
        simpa [UInt64.toNat_add] using hlt

variable {files : List ChunkFile}

/-- Where the search stops: the running offsets before are at most `cur`, the next one is above. -/
theorem seek_files (hne : files ≠ []) : ∃ x, seek unit cur 0 0 files = some x ∧
    files[x.index]? = some x.file ∧ x.cum.toNat = before files unit x.index % 2 ^ 64 ∧
    (∀ j < x.index, before files unit (j + 1) % 2 ^ 64 ≤ cur.toNat) ∧
    (x.index + 1 < files.length → cur.toNat < before files unit (x.index + 1) % 2 ^ 64) := by
  obtain ⟨x, k, hseek, hindex, hfile, hx, hpassed, hstop⟩ := seek_spec unit cur files 0 0 hne
  obtain rfl : x.index = k := by omega
  exact ⟨x, hseek, hfile, by simpa using hx, by simpa using hpassed, by simpa using hstop⟩

variable {unit cur}

/-- The search finds the strip of a page whose end does not wrap below the page. -/
theorem seek_strip {i : ℕ} (hi : i < files.length) (hlow : before files unit i ≤ cur.toNat)
    (hhigh : cur.toNat < before files unit (i + 1))
    (hclear : i + 1 < files.length → 2 ^ 64 ≤ before files unit (i + 1) →
      cur.toNat + 2 ^ 64 < before files unit (i + 1)) :
    ∃ x, seek unit cur 0 0 files = some x ∧ x.index = i ∧ files[i]? = some x.file ∧
      x.cum.toNat = before files unit i := by
  have hcur := cur.toNat_lt
  have hne : files ≠ [] := List.ne_nil_of_length_pos (by omega)
  obtain ⟨x, hseek, hfile, hx, hpassed, hstop⟩ := seek_files unit cur hne
  have hlen : x.index < files.length := (List.getElem?_eq_some_iff.mp hfile).1
  have hindex : x.index = i := by
    rcases Nat.lt_trichotomy x.index i with h | h | h
    · have hmono : before files unit (x.index + 1) ≤ before files unit i := before_mono h
      have hlt := hstop (by omega)
      omega
    · exact h
    · have hle := hpassed i h
      have hcount : before files unit (i + 1) < 2 ^ 65 := by
        obtain ⟨f, hf⟩ : ∃ f, files[i]? = some f := ⟨_, List.getElem?_eq_getElem hi⟩
        have hc := (f.count unit).toNat_lt
        rw [before_succ unit hf]
        omega
      by_cases hwrap : 2 ^ 64 ≤ before files unit (i + 1)
      · have hroom := hclear (by omega) hwrap
        omega
      · omega
  subst hindex
  exact ⟨x, hseek, rfl, hfile, by rw [hx]; omega⟩

end search

section turns

variable {files : List ChunkFile} {unit : ℕ} {rel len cur : UInt64} {t : Turn}

theorem loop_done (h : ¬ cur < endPage rel len) : loop unit files rel len cur = .ok [] := by
  rw [loop, dif_neg h]

theorem loop_none (h : cur < endPage rel len) (hnone : turn unit files rel len cur = none) :
    loop unit files rel len cur = .error .undefined := by
  rw [loop, dif_pos h]
  split
  · rfl
  · rename_i hsome
    cases hnone.symm.trans hsome

theorem loop_thrown (h : cur < endPage rel len) (ht : turn unit files rel len cur = some t)
    (hzero : t.avail = 0) : ∃ what, loop unit files rel len cur = .error (.thrown what) := by
  rw [loop, dif_pos h]
  split
  · rename_i hnone
    cases hnone.symm.trans ht
  · rename_i hsome
    cases hsome.symm.trans ht
    exact ⟨_, dif_pos hzero⟩

theorem loop_turn (h : cur < endPage rel len) (ht : turn unit files rel len cur = some t)
    (hpos : t.avail ≠ 0) : loop unit files rel len cur =
      (loop unit files rel len (cur + t.avail)).map (t.segs unit rel cur ++ ·) := by
  rw [loop, dif_pos h]
  split
  · rename_i hnone
    cases hnone.symm.trans ht
  · rename_i hsome
    cases hsome.symm.trans ht
    exact dif_neg hpos

/-- The loop as an induction over its pages. -/
theorem page_induction {motive : UInt64 → Prop} (done : ∀ cur, ¬ cur < endPage rel len → motive cur)
    (stop : ∀ cur, cur < endPage rel len →
      (∀ t, turn unit files rel len cur = some t → t.avail = 0) → motive cur)
    (step : ∀ cur t, cur < endPage rel len → turn unit files rel len cur = some t → t.avail ≠ 0 →
      motive (cur + t.avail) → motive cur) (cur : UInt64) : motive cur := by
  obtain ⟨n, hn⟩ : ∃ n, n = (endPage rel len).toNat - cur.toNat := ⟨_, rfl⟩
  induction n using Nat.strong_induction_on generalizing cur with
  | _ n ih =>
    by_cases hlt : cur < endPage rel len
    · by_cases hgo : ∃ t, turn unit files rel len cur = some t ∧ t.avail ≠ 0
      · obtain ⟨t, ht, hpos⟩ := hgo
        have hdec := turn_decreases unit files rel len hlt ht hpos
        exact step cur t hlt ht hpos (ih _ (by omega) _ rfl)
      · exact stop cur hlt fun t ht => not_not.mp fun hpos => hgo ⟨t, ht, hpos⟩
    · exact done cur hlt

/-- Every segment is that of a pass at or behind the page the loop starts from. -/
theorem mem_loop {segs : List SrcSeg} (h : loop unit files rel len cur = .ok segs) {s : SrcSeg}
    (hs : s ∈ segs) : ∃ page t, cur.toNat ≤ page.toNat ∧ turn unit files rel len page = some t ∧
      s ∈ t.segs unit rel page := by
  induction cur using page_induction generalizing segs with
  | done cur hlt =>
    rw [loop_done hlt] at h
    cases h
    cases hs
  | stop cur hlt hstop =>
    cases ht : turn unit files rel len cur with
    | none =>
      rw [loop_none hlt ht] at h
      cases h
    | some t =>
      obtain ⟨what, hthrown⟩ := loop_thrown hlt ht (hstop t ht)
      rw [hthrown] at h
      cases h
  | step cur t hlt ht hpos ih =>
    rw [loop_turn hlt ht hpos] at h
    cases hrest : loop unit files rel len (cur + t.avail) with
    | error e =>
      rw [hrest] at h
      cases h
    | ok rest =>
      rw [hrest] at h
      cases h
      rcases List.mem_append.mp hs with hs | hs
      · exact ⟨cur, t, Nat.le_refl _, ht, hs⟩
      · obtain ⟨page, t', hle, ht', hs'⟩ := ih hrest hs
        have hdec := turn_decreases unit files rel len hlt ht hpos
        exact ⟨page, t', by omega, ht', hs'⟩

theorem toNat_align : (4096 : UInt64).toNat = 4096 := rfl

theorem endPage_toNat : (endPage rel len).toNat = (rel.toNat + len.toNat + 4095) % 2 ^ 64 / 4096 := by
  have hone : (1 : UInt64).toNat = 1 := rfl
  rw [endPage, UInt64.toNat_div, UInt64.toNat_sub, UInt64.toNat_add, UInt64.toNat_add, toNat_align, hone]
  omega

theorem startPage_toNat : (rel / 4096).toNat = rel.toNat / 4096 := by
  simp [UInt64.toNat_div]

theorem turn_values {x : Found} (hseek : seek unit cur 0 0 files = some x) (hcum : x.cum.toNat ≤ cur.toNat)
    (hlt : cur < endPage rel len) :
    ∃ t, turn unit files rel len cur = some t ∧ t.found = x ∧ t.loc.toNat = cur.toNat - x.cum.toNat ∧
      t.avail.toNat = min ((2 ^ 64 - (cur.toNat - x.cum.toNat) + (x.file.count unit).toNat) % 2 ^ 64)
        ((endPage rel len).toNat - cur.toNat) ∧
      t.segStart.toNat = max rel.toNat (4096 * cur.toNat) ∧
      t.segEnd.toNat = min ((rel.toNat + len.toNat) % 2 ^ 64) (4096 * (cur.toNat + t.avail.toNat)) := by
  have hlt' := UInt64.lt_iff_toNat_lt.mp hlt
  have hloc := UInt64.toNat_sub_of_le _ _ (UInt64.le_iff_toNat_le.mpr hcum)
  have hroom := UInt64.toNat_sub (x.file.count unit) (cur - x.cum)
  have hmore := UInt64.toNat_sub_of_le _ _ (UInt64.le_of_lt hlt)
  have hend : (endPage rel len).toNat = _ := endPage_toNat
  obtain ⟨a, ha⟩ : ∃ a, a = min (x.file.count unit - (cur - x.cum)) (endPage rel len - cur) := ⟨_, rfl⟩
  have havail : a.toNat = _ := ha ▸ StripRange.toNat_min ..
  rw [hroom, hloc, hmore] at havail
  refine ⟨⟨x, cur - x.cum, a, max rel (cur * 4096), min (rel + len) ((cur + a) * 4096)⟩,
    by rw [turn, hseek, ha]; rfl, rfl, hloc, havail, ?_, ?_⟩
  · rw [StripRange.toNat_max, UInt64.toNat_mul, toNat_align]
    omega
  · change (min (rel + len) ((cur + a) * 4096)).toNat = min _ (4096 * (cur.toNat + a.toNat))
    rw [StripRange.toNat_min, UInt64.toNat_mul, UInt64.toNat_add, UInt64.toNat_add, toNat_align]
    omega

/-- The values of a pass that finds a strip with its page inside or just behind. -/
theorem turn_eq {x : Found} (hseek : seek unit cur 0 0 files = some x) (hcum : x.cum.toNat ≤ cur.toNat)
    (hcount : cur.toNat ≤ x.cum.toNat + (x.file.count unit).toNat) (hlt : cur < endPage rel len) :
    ∃ t, turn unit files rel len cur = some t ∧ t.found = x ∧ t.loc.toNat = cur.toNat - x.cum.toNat ∧
      t.avail.toNat = min (x.cum.toNat + (x.file.count unit).toNat - cur.toNat)
        ((endPage rel len).toNat - cur.toNat) ∧
      t.segStart.toNat = max rel.toNat (4096 * cur.toNat) ∧
      t.segEnd.toNat = min ((rel.toNat + len.toNat) % 2 ^ 64) (4096 * (cur.toNat + t.avail.toNat)) := by
  obtain ⟨t, hturn, hfound, hloc, havail, hsegs⟩ := turn_values hseek hcum hlt
  have hcount' := (x.file.count unit).toNat_lt
  have hroom : (2 ^ 64 - (cur.toNat - x.cum.toNat) + (x.file.count unit).toNat) % 2 ^ 64 =
      x.cum.toNat + (x.file.count unit).toNat - cur.toNat := by omega
  exact ⟨t, hturn, hfound, hloc, hroom ▸ havail, hsegs⟩

end turns

section walk

variable {files : List ChunkFile} {unit : ℕ} {rel len cur : UInt64} {t : Turn}

/-- A pass forms its differences without a wrap if the strip found begins at or before the page and
the page is at most its end. -/
theorem differences_fit (ht : turn unit files rel len cur = some t) (hlt : cur < endPage rel len) :
    (∀ p ∈ t.differences unit rel len cur, p.2 ≤ p.1) ↔
      t.found.cum ≤ cur ∧ t.loc ≤ t.found.file.count unit := by
  have hstart : t.segStart.toNat = max rel.toNat (cur * 4096).toNat := by
    obtain ⟨x, _, rfl⟩ := Option.map_eq_some_iff.mp ht
    exact StripRange.toNat_max ..
  have hleft : rel ≤ t.segStart := UInt64.le_iff_toNat_le.mpr (by omega)
  have hright : cur * 4096 ≤ t.segStart := UInt64.le_iff_toNat_le.mpr (by omega)
  have hpage := UInt64.le_of_lt hlt
  rw [Turn.differences, List.forall_mem_append]
  constructor
  · intro h
    simpa [hpage] using h.1
  · intro h
    refine ⟨by simpa [hpage] using h, ?_⟩
    split
    · rename_i hseg
      simpa using ⟨hright, UInt64.le_of_lt hseg.2, hleft⟩
    · simp

variable (files unit rel len) in
/-- No end of a strip before the last one wraps to a page of the range that the strip is read from. -/
def Clear : Prop := ∀ i, i + 1 < files.length → before files unit i < (endPage rel len).toNat →
  2 ^ 64 ≤ before files unit (i + 1) →
    max (before files unit i) (rel.toNat / 4096) + 2 ^ 64 < before files unit (i + 1)

variable (files unit rel len) in
/-- The loop is at its first page or at the start of a strip. -/
structure Front (cur : ℕ) : Prop where
  ge : rel.toNat / 4096 ≤ cur
  eq : ∀ i, before files unit i ≤ cur → cur < before files unit (i + 1) →
    cur < (endPage rel len).toNat → cur = max (before files unit i) (rel.toNat / 4096)

variable (files unit rel len) in
structure OnStrip (cur : UInt64) (t : Turn) (i : ℕ) : Prop where
  lt : i < files.length
  page : cur.toNat < (endPage rel len).toNat
  turn : turn unit files rel len cur = some t
  index : t.found.index = i
  file : files[i]? = some t.found.file
  low : before files unit i ≤ cur.toNat
  high : cur.toNat < before files unit (i + 1)
  cum : t.found.cum.toNat = before files unit i
  loc : t.loc.toNat = cur.toNat - before files unit i
  pos : t.avail ≠ 0
  next : (cur + t.avail).toNat = min (before files unit (i + 1)) (endPage rel len).toNat
  segStart : t.segStart.toNat = max rel.toNat (4096 * cur.toNat)
  segEnd : t.segEnd.toNat = min ((rel.toNat + len.toNat) % 2 ^ 64)
    (4096 * min (before files unit (i + 1)) (endPage rel len).toNat)

theorem front_start : Front files unit rel len (rel / 4096).toNat := by
  rw [startPage_toNat]
  exact ⟨Nat.le_refl _, fun i hi _ _ => (max_eq_right hi).symm⟩

theorem onStrip (hclear : Clear files unit rel len) (hfront : Front files unit rel len cur.toNat)
    (hlt : cur < endPage rel len) (hin : cur.toNat < before files unit files.length) :
    ∃ t i, OnStrip files unit rel len cur t i := by
  have hlt' := UInt64.lt_iff_toNat_lt.mp hlt
  obtain ⟨i, hi, hlow, hhigh⟩ := exists_strip hin
  have hcur := hfront.eq i hlow hhigh hlt'
  obtain ⟨x, hseek, hindex, hfile, hcum⟩ := seek_strip hi hlow hhigh fun hnext hwrap =>
    hcur ▸ hclear i hnext (by omega) hwrap
  have hsucc := before_succ unit hfile
  obtain ⟨t, hturn, rfl, hloc, havail, hstart, hend⟩ := turn_eq hseek (by omega) (by omega) hlt
  have hpos : t.avail ≠ 0 := by
    intro hzero
    rw [hzero] at havail
    simp only [UInt64.toNat_zero] at havail
    omega
  have hnext := (turn_decreases unit files rel len hlt hturn hpos).1
  have hsum : cur.toNat + t.avail.toNat = min (before files unit (i + 1)) (endPage rel len).toNat := by
    omega
  exact ⟨t, i,
    { lt := hi, page := hlt', turn := hturn, index := hindex, file := hfile, low := hlow, high := hhigh, cum := hcum
      loc := hcum ▸ hloc, pos := hpos, next := hnext.trans hsum, segStart := hstart
      segEnd := hsum ▸ hend }⟩

theorem OnStrip.front {i : ℕ} (h : OnStrip files unit rel len cur t i)
    (hfront : Front files unit rel len cur.toNat) : Front files unit rel len (cur + t.avail).toNat := by
  have hge := hfront.ge
  have hpage := h.page
  have hhigh := h.high
  rw [h.next]
  refine ⟨by omega, fun k hk hk' hend => ?_⟩
  have hik : i + 1 ≤ k := by
    by_contra hlt
    have hmono : before files unit (k + 1) ≤ before files unit (i + 1) := before_mono (by omega)
    omega
  have hmono : before files unit (i + 1) ≤ before files unit k := before_mono hik
  omega

end walk

section partition

variable {files : List ChunkFile} {unit : ℕ} {rel len cur : UInt64} {t : Turn}

theorem base_toNat (f : ChunkFile) : (f.base unit).toNat = f.above unit % 2 ^ 64 := by
  have hfold : ∀ (cs : List UInt64) (a : UInt64),
      (cs.foldl (· + ·) a).toNat = (a.toNat + (cs.map UInt64.toNat).sum) % 2 ^ 64 := by
    intro cs
    induction cs with
    | nil => simp
    | cons c cs ih =>
      intro a
      rw [List.foldl_cons, ih, UInt64.toNat_add, List.map_cons, List.sum_cons]
      omega
  simpa [ChunkFile.base, ChunkFile.above] using hfold (f.slices.take unit) 0

variable (files unit rel len) in
/-- The file offset of the first byte of the range in every strip it meets is a number of 64 bits. -/
def Addressable : Prop := ∀ i f, files[i]? = some f → before files unit i < before files unit (i + 1) →
  4096 * before files unit i < rel.toNat + len.toNat → rel.toNat < 4096 * before files unit (i + 1) →
    f.dataOff.toNat + 4096 * f.above unit +
      (max rel.toNat (4096 * before files unit i) - 4096 * before files unit i) < 2 ^ 64

/-- An offset that is a number of 64 bits is summed without a wrap. -/
theorem offset_mod {a b c d : ℕ} (h : a + 4096 * b + 4096 * c + d < 2 ^ 64) :
    (((a + b % 2 ^ 64 * 4096 % 2 ^ 64) % 2 ^ 64 + c * 4096 % 2 ^ 64) % 2 ^ 64 + d) % 2 ^ 64 =
      a + 4096 * b + (4096 * c + d) := by
  rw [Nat.mod_eq_of_lt (a := b) (by omega), Nat.mod_eq_of_lt (a := b * 4096) (by omega),
    Nat.mod_eq_of_lt (a := a + b * 4096) (by omega), Nat.mod_eq_of_lt (a := c * 4096) (by omega),
    Nat.mod_eq_of_lt (a := a + b * 4096 + c * 4096) (by omega), Nat.mod_eq_of_lt (by omega)]
  omega

/-- The segment of a pass in strip `i` -/
theorem OnStrip.segs {i : ℕ} (h : OnStrip files unit rel len cur t i)
    (hcur : cur.toNat = max (before files unit i) (rel.toNat / 4096)) (hpos : len ≠ 0)
    (hround : rel.toNat + len.toNat + 4095 < 2 ^ 64) (haddr : Addressable files unit rel len) :
    ∃ s, t.segs unit rel cur = [s] ∧ s.file = i ∧ s.inOff = max rel.toNat (4096 * cur.toNat) - rel.toNat ∧
      s.len = min (rel.toNat + len.toNat) (4096 * (cur + t.avail).toNat) -
        max rel.toNat (4096 * cur.toNat) ∧ 0 < s.len ∧ Placed files unit rel.toNat s := by
  have hlen : len.toNat ≠ 0 := fun hzero => hpos (UInt64.toNat_inj.mp hzero)
  have hlast : (endPage rel len).toNat = _ := endPage_toNat
  rw [Nat.mod_eq_of_lt hround] at hlast
  have hlow := h.low
  have hhigh := h.high
  have hpage := h.page
  have hnext := h.next
  have hstart := h.segStart
  have hend := h.segEnd
  rw [Nat.mod_eq_of_lt (by omega)] at hend
  have hlt : t.segEnd > t.segStart := UInt64.lt_iff_toNat_lt.mpr (by omega)
  have hsize := UInt64.toNat_sub_of_le _ _ (UInt64.le_of_lt hlt)
  have hin := UInt64.toNat_sub_of_le t.segStart rel (UInt64.le_iff_toNat_le.mpr (by omega))
  have hpageStart : (cur * 4096).toNat = 4096 * cur.toNat := by
    rw [UInt64.toNat_mul, toNat_align]
    omega
  have hshift := UInt64.toNat_sub_of_le t.segStart (cur * 4096) (UInt64.le_iff_toNat_le.mpr (by omega))
  have hfits := haddr i _ h.file (by omega) (by omega) (by omega)
  refine ⟨_, if_pos hlt, h.index, by simp only [hin]; omega, by simp only [hsize]; omega, by simp only [hsize]; omega,
    ?_, ?_, t.found.file, ?_, ?_⟩
  · simp only [h.index, hin]
    omega
  · simp only [h.index, hin, hsize]
    omega
  · simpa only [h.index] using h.file
  · simp only [h.index, hin]
    rw [UInt64.toNat_add, UInt64.toNat_add, UInt64.toNat_add, UInt64.toNat_mul, UInt64.toNat_mul, base_toNat,
      toNat_align, h.loc, hshift, hpageStart, hstart, offset_mod (by omega)]
    omega

theorem file_gt_of_placed {r i : ℕ} {s : SrcSeg} (h : Placed files unit r s) (hlen : 0 < s.len)
    (hend : 4096 * before files unit (i + 1) ≤ r + s.inOff) : i < s.file := by
  have hhigh := h.high
  by_contra hle
  have hmono : before files unit (s.file + 1) ≤ before files unit (i + 1) := before_mono (by omega)
  omega

/-- The loop cuts the rest of a range inside the coverage at the ends of the strips. -/
theorem loop_partition (hclear : Clear files unit rel len) (hpos : len ≠ 0)
    (hround : rel.toNat + len.toNat + 4095 < 2 ^ 64) (haddr : Addressable files unit rel len)
    (hin : rel.toNat + len.toNat ≤ coverage files unit) (hfront : Front files unit rel len cur.toNat)
    (hcur : cur.toNat ≤ (endPage rel len).toNat) :
    ∃ segs, loop unit files rel len cur = .ok segs ∧
      Tiles SrcSeg.inOff (fun s => s.len)
        (min (rel.toNat + len.toNat) (max rel.toNat (4096 * cur.toNat)) - rel.toNat) segs len.toNat ∧
      (∀ s ∈ segs, Placed files unit rel.toNat s) ∧ segs.Pairwise fun a b => a.file < b.file := by
  have hlen : len.toNat ≠ 0 := fun hzero => hpos (UInt64.toNat_inj.mp hzero)
  have hlast : (endPage rel len).toNat = _ := endPage_toNat
  rw [Nat.mod_eq_of_lt hround] at hlast
  unfold coverage at hin
  obtain ⟨n, hn⟩ : ∃ n, n = (endPage rel len).toNat - cur.toNat := ⟨_, rfl⟩
  induction n using Nat.strong_induction_on generalizing cur with
  | _ n ih =>
    by_cases hlt : cur < endPage rel len
    · have hlt' := UInt64.lt_iff_toNat_lt.mp hlt
      obtain ⟨t, i, h⟩ := onStrip hclear hfront hlt (by omega)
      have hat := hfront.eq i h.low h.high hlt'
      obtain ⟨s, hs, hfile, hinOff, hsize, hsome, hplaced⟩ := h.segs hat hpos hround haddr
      have hnext := h.next
      have hhigh := h.high
      have hge := hfront.ge
      obtain ⟨segs, hloop, htiles, hall, hfiles⟩ := ih _ (by omega) (h.front hfront) (by omega) rfl
      refine ⟨s :: segs, by rw [loop_turn hlt h.turn h.pos, hloop, hs]; rfl, ?_,
        List.forall_mem_cons.mpr ⟨hplaced, hall⟩, List.pairwise_cons.mpr ⟨fun s' hs' => ?_, hfiles⟩⟩
      · refine .cons (by omega) hsome ?_
        convert htiles using 1
        omega
      · -- the next segment begins where the strip ends
        obtain ⟨hge', hle', hsome'⟩ := htiles.bounds hs'
        have hend : 4096 * before files unit (i + 1) ≤ rel.toNat + s'.inOff := by
          rw [hnext] at hge'
          clear * - hge' hle' hsome' hlast
          omega
        exact hfile ▸ file_gt_of_placed (hall s' hs') hsome' hend
    · have hge := UInt64.le_iff_toNat_le.mp (UInt64.not_lt.mp hlt)
      refine ⟨[], loop_done hlt, ?_, by simp, .nil⟩
      have hdone : min (rel.toNat + len.toNat) (max rel.toNat (4096 * cur.toNat)) - rel.toNat =
          len.toNat := by omega
      rw [hdone]
      exact .nil _

end partition

section refuse

variable {files : List ChunkFile} {unit : ℕ} {rel len cur : UInt64} {t : Turn}

variable (unit) in
theorem turn_end (hne : files ≠ []) (hlt : cur < endPage rel len)
    (hcur : cur.toNat = before files unit files.length) :
    ∃ t, turn unit files rel len cur = some t ∧ t.avail = 0 ∧
      t.found.cum ≤ cur ∧ t.loc ≤ t.found.file.count unit := by
  have hbound := cur.toNat_lt
  obtain ⟨x, hseek, hfile, hcum, hpassed, hstop⟩ := seek_files unit cur hne
  have hsucc := before_succ unit hfile
  have hindex := (List.getElem?_eq_some_iff.mp hfile).1
  have hmono : before files unit (x.index + 1) ≤ before files unit files.length := before_mono hindex
  have hlast : x.index + 1 = files.length := by
    by_contra h
    have habove := hstop (by omega)
    omega
  rw [hlast] at hsucc
  obtain ⟨t, hturn, rfl, hloc, havail, _⟩ := turn_eq hseek (by omega) (by omega) hlt
  refine ⟨t, hturn, UInt64.toNat_inj.mp ?_, UInt64.le_iff_toNat_le.mpr (by omega),
    UInt64.le_iff_toNat_le.mpr (by omega)⟩
  rw [havail]
  simp only [UInt64.toNat_zero]
  omega

/-- A range whose last page is behind the coverage is refused, from any page inside. -/
theorem loop_refused (hclear : Clear files unit rel len) (hne : files ≠ [])
    (hend : before files unit files.length < (endPage rel len).toNat)
    (hfront : Front files unit rel len cur.toNat) (hcur : cur.toNat ≤ before files unit files.length) :
    ∃ what, loop unit files rel len cur = .error (.thrown what) := by
  obtain ⟨n, hn⟩ : ∃ n, n = (endPage rel len).toNat - cur.toNat := ⟨_, rfl⟩
  induction n using Nat.strong_induction_on generalizing cur with
  | _ n ih =>
    have hlt : cur < endPage rel len := UInt64.lt_iff_toNat_lt.mpr (by omega)
    rcases Nat.lt_or_ge cur.toNat (before files unit files.length) with hin | hout
    · obtain ⟨t, i, h⟩ := onStrip hclear hfront hlt hin
      have hnext := h.next
      have hhigh := h.high
      have hmono : before files unit (i + 1) ≤ before files unit files.length := before_mono h.lt
      obtain ⟨what, hloop⟩ := ih _ (by omega) (h.front hfront) (by omega) rfl
      exact ⟨what, by rw [loop_turn hlt h.turn h.pos, hloop]; rfl⟩
    · obtain ⟨t, hturn, hzero, _⟩ := turn_end unit hne hlt (by omega)
      exact loop_thrown hlt hturn hzero

/-- A range whose pages are all covered is not refused. -/
theorem loop_accepted (hclear : Clear files unit rel len)
    (hend : (endPage rel len).toNat ≤ before files unit files.length)
    (hfront : Front files unit rel len cur.toNat) : ∃ segs, loop unit files rel len cur = .ok segs := by
  obtain ⟨n, hn⟩ : ∃ n, n = (endPage rel len).toNat - cur.toNat := ⟨_, rfl⟩
  induction n using Nat.strong_induction_on generalizing cur with
  | _ n ih =>
    by_cases hlt : cur < endPage rel len
    · have hlt' := UInt64.lt_iff_toNat_lt.mp hlt
      obtain ⟨t, i, h⟩ := onStrip hclear hfront hlt (by omega)
      have hnext := h.next
      have hhigh := h.high
      obtain ⟨segs, hloop⟩ := ih _ (by omega) (h.front hfront) rfl
      exact ⟨t.segs unit rel cur ++ segs, by rw [loop_turn hlt h.turn h.pos, hloop]; rfl⟩
    · exact ⟨[], loop_done hlt⟩

/-- A pass from a page inside the coverage is one in a strip, or finds nothing left. -/
theorem turn_cases (hclear : Clear files unit rel len) (hfront : Front files unit rel len cur.toNat)
    (hcur : cur.toNat ≤ before files unit files.length) (hlt : cur < endPage rel len)
    (hturn : turn unit files rel len cur = some t) :
    (∃ i, OnStrip files unit rel len cur t i) ∨
      (t.avail = 0 ∧ t.found.cum ≤ cur ∧ t.loc ≤ t.found.file.count unit) := by
  rcases Nat.lt_or_ge cur.toNat (before files unit files.length) with hin | hout
  · obtain ⟨t', i, h⟩ := onStrip hclear hfront hlt hin
    cases hturn.symm.trans h.turn
    exact .inl ⟨i, h⟩
  · have hne : files ≠ [] := by
      rintro rfl
      cases hturn
    obtain ⟨t', hturn', hleft⟩ := turn_end unit hne hlt (by omega)
    cases hturn.symm.trans hturn'
    exact .inr hleft

/-- Pages inside the coverage are the only ones the loop comes to. -/
theorem visits_front (hclear : Clear files unit rel len)
    (hstart : rel.toNat / 4096 ≤ before files unit files.length) (h : Visits unit files rel len cur) :
    Front files unit rel len cur.toNat ∧ cur.toNat ≤ before files unit files.length := by
  induction h with
  | start => exact ⟨front_start, startPage_toNat ▸ hstart⟩
  | @next cur t _ hlt hturn hpos ih =>
    obtain ⟨hfront, hcur⟩ := ih
    obtain ⟨i, h⟩ | ⟨hzero, _⟩ := turn_cases hclear hfront hcur hlt hturn
    · have hnext := h.next
      have hmono : before files unit (i + 1) ≤ before files unit files.length := before_mono h.lt
      exact ⟨h.front hfront, by omega⟩
    · exact absurd hzero hpos

theorem noWrap_of_clear (hclear : Clear files unit rel len) (hfirst : 1 ≤ rel + len + 4096)
    (hstart : rel.toNat / 4096 ≤ before files unit files.length) : NoWrap unit files rel len := by
  refine ⟨hfirst, fun cur t hvisit hlt hturn => (differences_fit hturn hlt).mpr ?_⟩
  obtain ⟨hfront, hcur⟩ := visits_front hclear hstart hvisit
  obtain ⟨i, h⟩ | ⟨_, hfits⟩ := turn_cases hclear hfront hcur hlt hturn
  · have hcum := h.cum
    have hlow := h.low
    have hhigh := h.high
    have hloc := h.loc
    have hsucc := before_succ unit h.file
    exact ⟨UInt64.le_iff_toNat_le.mpr (by omega), UInt64.le_iff_toNat_le.mpr (by omega)⟩
  · exact hfits

/-- Sums that are no numbers of 64 bits are needed to hide a strip. -/
theorem clear_of_lt (h : before files unit files.length < 2 ^ 64) : Clear files unit rel len := by
  intro i hi _ hwrap
  have hmono : before files unit (i + 1) ≤ before files unit files.length := before_mono (by omega)
  omega

end refuse

end StripPartition
end StreamMoE
