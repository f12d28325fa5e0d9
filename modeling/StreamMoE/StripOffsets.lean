import StreamMoE.StripLimits

/-! Which intervals `strip_range_to_segs` refuses, and for which its offsets are the exact ones. -/
namespace StreamMoE
namespace StripOffsets

open BlockSplit (Failure)
open DenseFill (SrcSeg)
open StripRange StripPartition StripLimits

section search

variable {unit : ℕ} {cur p : UInt64} {x y : Found} {files : List ChunkFile}

theorem seek_later {fs : List ChunkFile} {fi : ℕ} {cum : UInt64} (h : seek unit cur fi cum fs = some x)
    (hle : cur ≤ p) (hin : x.index + 1 = fi + fs.length ∨ p < x.cum + x.file.count unit) :
    seek unit p fi cum fs = some x := by
  induction fs generalizing fi cum with
  | nil => cases h
  | cons f fs ih =>
    cases fs with
    | nil => exact h
    | cons g fs =>
      rw [seek] at h ⊢
      split at h
      · rename_i hge
        rw [if_pos (UInt64.le_trans hge hle)]
        refine ih h (hin.imp_left fun hlast => ?_)
        simp only [List.length_cons] at hlast ⊢
        omega
      · cases h
        refine if_neg (UInt64.not_le.mpr (hin.resolve_left ?_))
        simp only [List.length_cons]
        omega

/-- Where the search for a page stops. -/
structure Stops (files : List ChunkFile) (unit : ℕ) (cur : UInt64) (x : Found) : Prop where
  seek : seek unit cur 0 0 files = some x
  file : files[x.index]? = some x.file
  cum : x.cum.toNat = before files unit x.index % 2 ^ 64
  le : x.cum.toNat ≤ cur.toNat
  lt : x.index + 1 < files.length → cur.toNat < x.cum.toNat + (x.file.count unit).toNat ∧
    x.cum.toNat + (x.file.count unit).toNat < 2 ^ 64

theorem exists_stops (hne : files ≠ []) (unit : ℕ) (cur : UInt64) : ∃ x, Stops files unit cur x := by
  obtain ⟨x, hseek, hfile, hcum, hpassed, hstop⟩ := seek_files unit cur hne
  have hle : x.cum.toNat ≤ cur.toNat := by
    rcases Nat.eq_zero_or_pos x.index with hzero | hpos
    · rw [hcum, hzero]
      simp
    · have h := hpassed (x.index - 1) (by omega)
      rwa [Nat.sub_add_cancel hpos, ← hcum] at h
  refine ⟨x, hseek, hfile, hcum, hle, fun hlast => ?_⟩
  have habove := hstop hlast
  have hcount := (x.file.count unit).toNat_lt
  rw [before_succ unit hfile] at habove
  omega

theorem Stops.index_lt (h : Stops files unit cur x) : x.index < files.length :=
  (List.getElem?_eq_some_iff.mp h.file).1

/-- Pages from `cur` up to the end of the strip, or all of them if it is the last one. -/
theorem Stops.later (h : Stops files unit cur x) (hle : cur ≤ p)
    (hin : x.index + 1 = files.length ∨ p.toNat < x.cum.toNat + (x.file.count unit).toNat) :
    StripRange.seek unit p 0 0 files = some x := by
  refine seek_later h.seek hle ?_
  rcases hin with hlast | hlt
  · exact .inl (by omega)
  · have hindex := h.index_lt
    by_cases hlast : x.index + 1 = files.length
    · exact .inl (by omega)
    · have hroom := (h.lt (by omega)).2
      refine .inr (UInt64.lt_iff_toNat_lt.mpr ?_)
      rw [UInt64.toNat_add]
      omega

/-- Just behind a strip the search goes on, unless it is the last one. -/
theorem Stops.behind (h : Stops files unit cur x) (hp : p.toNat = x.cum.toNat + (x.file.count unit).toNat)
    (hy : Stops files unit p y) : x.index ≠ y.index ∨ p.toNat = y.cum.toNat + (y.file.count unit).toNat := by
  by_cases heq : x.index = y.index
  · right
    have hfile := h.file.symm.trans (heq ▸ hy.file)
    have hcum := h.cum.trans (heq ▸ hy.cum.symm)
    rw [← Option.some.inj hfile, ← hcum, hp]
  · exact .inl heq

end search

section walk

variable {unit : ℕ} {files : List ChunkFile} {rel len cur p : UInt64} {x : Found} {t : Turn} {segs : List SrcSeg}

structure Pass (unit : ℕ) (files : List ChunkFile) (rel len cur : UInt64) (x : Found) (t : Turn) : Prop where
  visits : Visits unit files rel len cur
  page : cur < endPage rel len
  stops : Stops files unit cur x
  turn : StripRange.turn unit files rel len cur = some t
  found : t.found = x
  loc : t.loc.toNat = cur.toNat - x.cum.toNat
  avail : t.avail.toNat = min (x.cum.toNat + (x.file.count unit).toNat - cur.toNat)
      ((endPage rel len).toNat - cur.toNat) ∧ cur.toNat ≤ x.cum.toNat + (x.file.count unit).toNat ∨
    x.index + 1 = files.length ∧ x.cum.toNat + (x.file.count unit).toNat < cur.toNat ∧
      t.avail.toNat = (endPage rel len).toNat - cur.toNat
  segStart : t.segStart.toNat = max rel.toNat (4096 * cur.toNat)
  segEnd : t.segEnd.toNat = min ((rel.toNat + len.toNat) % 2 ^ 64) (4096 * (cur.toNat + t.avail.toNat))

theorem exists_pass (hne : files ≠ []) (hvisit : Visits unit files rel len cur) (hlt : cur < endPage rel len) :
    ∃ x t, Pass unit files rel len cur x t := by
  have hlt' := UInt64.lt_iff_toNat_lt.mp hlt
  have hend : (endPage rel len).toNat = _ := endPage_toNat
  obtain ⟨x, hx⟩ := exists_stops hne unit cur
  obtain ⟨t, hturn, hfound, hloc, havail, hstart, hlast⟩ := turn_values hx.seek hx.le hlt
  have hcount := (x.file.count unit).toNat_lt
  have hle := hx.le
  refine ⟨x, t, hvisit, hlt, hx, hturn, hfound, hloc, ?_, hstart, hlast⟩
  by_cases hin : cur.toNat ≤ x.cum.toNat + (x.file.count unit).toNat
  · left
    omega
  · have hindex := hx.index_lt
    have hlast : x.index + 1 = files.length := by
      by_contra hnot
      exact hin (Nat.le_of_lt (hx.lt (by omega)).1)
    exact .inr ⟨hlast, by omega, by omega⟩

variable (h : Pass unit files rel len cur x t)
include h

theorem Pass.ge : (rel / 4096).toNat ≤ cur.toNat := by
  rcases visits_start h.visits with hcur | hcur
  · exact Nat.le_of_eq (congrArg UInt64.toNat hcur).symm
  · exact Nat.le_of_lt hcur

theorem Pass.next (hpos : t.avail ≠ 0) : Visits unit files rel len (cur + t.avail) ∧
    (cur + t.avail).toNat = cur.toNat + t.avail.toNat ∧ 0 < t.avail.toNat ∧
    cur.toNat + t.avail.toNat ≤ (endPage rel len).toNat :=
  ⟨.next h.visits h.page h.turn hpos, turn_decreases unit files rel len h.page h.turn hpos⟩

/-- A pass without pages stands just behind the strip found. -/
theorem Pass.stuck : t.avail = 0 ↔ cur.toNat = x.cum.toNat + (x.file.count unit).toNat := by
  have hpage := UInt64.lt_iff_toNat_lt.mp h.page
  have havail := h.avail
  have hle := h.stops.le
  rw [← UInt64.toNat_inj, UInt64.toNat_zero]
  omega

theorem Pass.same (hle : cur ≤ p) (hlt : p.toNat < cur.toNat + t.avail.toNat) :
    StripRange.seek unit p 0 0 files = some x := by
  refine h.stops.later hle ?_
  rcases h.avail with ⟨havail, _⟩ | ⟨hlast, _⟩
  · exact .inr (by omega)
  · exact .inl hlast

/-- A pass that does not reach the end of the interval ends just behind its strip. -/
theorem Pass.full (hmore : cur.toNat + t.avail.toNat < (endPage rel len).toNat) :
    cur.toNat + t.avail.toNat = x.cum.toNat + (x.file.count unit).toNat := by
  have havail := h.avail
  omega

omit h

theorem passes_of_ok (hne : files ≠ []) (hvisit : Visits unit files rel len cur)
    (hok : loop unit files rel len cur = .ok segs) :
    (∀ s ∈ segs, ∃ c x t, Pass unit files rel len c x t ∧ t.avail ≠ 0 ∧ s ∈ t.segs unit rel c) ∧
      ∀ p, cur ≤ p → p < endPage rel len → ∃ c x t, Pass unit files rel len c x t ∧ t.avail ≠ 0 ∧
        c ≤ p ∧ p.toNat < c.toNat + t.avail.toNat ∧ ∀ s ∈ t.segs unit rel c, s ∈ segs := by
  induction cur using @page_induction files unit rel len generalizing segs with
  | done cur hlt =>
    rw [loop_done hlt] at hok
    cases hok
    refine ⟨fun s hs => absurd hs List.not_mem_nil, fun p hle hp => ?_⟩
    exact absurd (UInt64.lt_of_le_of_lt hle hp) hlt
  | stop cur hlt hstop =>
    obtain ⟨x, t, hpass⟩ := exists_pass hne hvisit hlt
    obtain ⟨what, hthrown⟩ := loop_thrown hlt hpass.turn (hstop t hpass.turn)
    cases hthrown.symm.trans hok
  | step cur t hlt hturn hpos ih =>
    obtain ⟨x, t', hpass⟩ := exists_pass hne hvisit hlt
    cases hturn.symm.trans hpass.turn
    obtain ⟨hnext, hsum, hsome, -⟩ := hpass.next hpos
    rw [loop_turn hlt hturn hpos] at hok
    cases hrest : loop unit files rel len (cur + t.avail) with
    | error e =>
      rw [hrest] at hok
      cases hok
    | ok rest =>
      rw [hrest] at hok
      cases hok
      obtain ⟨hsegs, hpages⟩ := ih hnext hrest
      refine ⟨fun s hs => ?_, fun p hle hp => ?_⟩
      · rcases List.mem_append.mp hs with hs | hs
        · exact ⟨cur, x, t, hpass, hpos, hs⟩
        · exact hsegs s hs
      · rcases Nat.lt_or_ge p.toNat (cur.toNat + t.avail.toNat) with hin | hout
        · exact ⟨cur, x, t, hpass, hpos, hle, hin, fun s hs => List.mem_append_left _ hs⟩
        · obtain ⟨c, y, u, hc, hu, hcp, hpc, hmem⟩ := hpages p (UInt64.le_iff_toNat_le.mpr (by omega)) hp
          exact ⟨c, y, u, hc, hu, hcp, hpc, fun s hs => List.mem_append_right _ (hmem s hs)⟩

/-- A loop that does not return stands at a page just behind the strip found. -/
theorem pass_of_error (hne : files ≠ []) (hvisit : Visits unit files rel len cur) {e : Failure}
    (herr : loop unit files rel len cur = .error e) :
    (∃ what, e = .thrown what) ∧ ∃ c x t, Pass unit files rel len c x t ∧ t.avail = 0 := by
  induction cur using @page_induction files unit rel len with
  | done cur hlt =>
    rw [loop_done hlt] at herr
    cases herr
  | stop cur hlt hstop =>
    obtain ⟨x, t, hpass⟩ := exists_pass hne hvisit hlt
    have hzero := hstop t hpass.turn
    obtain ⟨what, hthrown⟩ := loop_thrown hlt hpass.turn hzero
    cases hthrown.symm.trans herr
    exact ⟨⟨what, rfl⟩, cur, x, t, hpass, hzero⟩
  | step cur t hlt hturn hpos ih =>
    obtain ⟨x, t', hpass⟩ := exists_pass hne hvisit hlt
    cases hturn.symm.trans hpass.turn
    rw [loop_turn hlt hturn hpos] at herr
    cases hrest : loop unit files rel len (cur + t.avail) with
    | error e' =>
      rw [hrest] at herr
      cases herr
      exact ih (hpass.next hpos).1 hrest
    | ok rest =>
      rw [hrest] at herr
      cases herr

end walk

section offsets

variable (files : List ChunkFile) (unit : ℕ) (rel len : UInt64)

/-- A page of the interval lies just behind the strip that the search for it stops at. -/
def Refused : Prop := ∃ p x, rel / 4096 ≤ p ∧ p < endPage rel len ∧ seek unit p 0 0 files = some x ∧
  p.toNat = x.cum.toNat + (x.file.count unit).toNat

/-- The interval comes to a strip: its first page, or one that is not found in the strip of the page before. -/
structure Begins (p : UInt64) (x : Found) : Prop where
  ge : rel / 4096 ≤ p
  lt : p < endPage rel len
  seek : seek unit p 0 0 files = some x
  new : p = rel / 4096 ∨ ∀ y, StripRange.seek unit (p - 1) 0 0 files = some y → y.index ≠ x.index

/-- The file offset of byte `b` of a unit in a strip, by sums of unbounded numbers; `start` is the exact start
of the interval that `rel` stands for. -/
def exactOff (start : ℤ) (file inOff : ℕ) : ℤ :=
  let f := files.getD file ⟨[], 0⟩
  f.dataOff.toNat + 4096 * f.above unit + (start + inOff) - 4096 * before files unit file

/-- The rounded end of an interval with bytes is a number of 64 bits, and so is the exact offset wherever it
comes to a strip. -/
def Fits (start : ℤ) : Prop := len ≠ 0 → rel.toNat + len.toNat + 4095 < 2 ^ 64 ∧
  ∀ p x, Begins files unit rel len p x →
    0 ≤ exactOff files unit start x.index (max rel.toNat (4096 * p.toNat) - rel.toNat) ∧
      exactOff files unit start x.index (max rel.toNat (4096 * p.toNat) - rel.toNat) < 2 ^ 64

/-- The offsets are the exact ones, and the lengths add up to that of the interval. -/
structure Exact (start : ℤ) (segs : List SrcSeg) : Prop where
  off : ∀ s ∈ segs, (s.off : ℤ) = exactOff files unit start s.file s.inOff
  total : (segs.map fun s => s.len).sum = len.toNat

variable {files unit rel len} {cur p : UInt64} {x : Found} {t : Turn} {segs : List SrcSeg} {start : ℤ}

theorem getD_file (h : Stops files unit cur x) : files.getD x.index ⟨[], 0⟩ = x.file := by
  simp [List.getD, h.file]

/-- The sum of a file offset in 64 bits and in unbounded numbers. -/
theorem exactOff_emod {d a l b page seg first : ℕ} (hstart : start % 2 ^ 64 = first)
    (hl : l = page - b % 2 ^ 64) (hcum : b % 2 ^ 64 ≤ page) (hpage : 4096 * page ≤ seg) (hfirst : first ≤ seg) :
    (((((d + a % 2 ^ 64 * 4096 % 2 ^ 64) % 2 ^ 64 + l * 4096 % 2 ^ 64) % 2 ^ 64 + (seg - 4096 * page)) %
      2 ^ 64 : ℕ) : ℤ) = (d + 4096 * a + (start + (seg - first : ℕ)) - 4096 * b) % 2 ^ 64 := by
  omega

theorem Pass.seg (h : Pass unit files rel len cur x t) (hstart : start % 2 ^ 64 = rel.toNat) {s : SrcSeg}
    (hs : s ∈ t.segs unit rel cur) : s.file = x.index ∧
      s.inOff = max rel.toNat (4096 * cur.toNat) - rel.toNat ∧
      (s.off : ℤ) = exactOff files unit start s.file s.inOff % 2 ^ 64 := by
  have hpage := UInt64.lt_iff_toNat_lt.mp h.page
  have hend : (endPage rel len).toNat = _ := endPage_toNat
  have hsegStart := h.segStart
  have hsegEnd := h.segEnd
  have hle := h.stops.le
  unfold Turn.segs at hs
  split at hs
  · rename_i hlt
    obtain rfl := List.mem_singleton.mp hs
    have hlt' := UInt64.lt_iff_toNat_lt.mp hlt
    have hin := UInt64.toNat_sub_of_le t.segStart rel (UInt64.le_iff_toNat_le.mpr (by omega))
    have hcur : (cur * 4096).toNat = 4096 * cur.toNat := by
      rw [UInt64.toNat_mul, toNat_align]
      omega
    have hshift := UInt64.toNat_sub_of_le t.segStart (cur * 4096) (UInt64.le_iff_toNat_le.mpr (by omega))
    have hrel := rel.toNat_lt
    have hlen := len.toNat_lt
    have hcum := h.stops.cum
    have hfile := getD_file h.stops
    refine ⟨congrArg Found.index h.found, by simp only [hin]; omega, ?_⟩
    simp only [exactOff, h.found, hfile, hin]
    rw [UInt64.toNat_add, UInt64.toNat_add, UInt64.toNat_add, UInt64.toNat_mul, UInt64.toNat_mul, base_toNat,
      toNat_align, h.loc, hshift, hcur]
    exact exactOff_emod hstart (by rw [hcum]) (hcum ▸ hle) (by omega) (by omega)
  · cases hs

/-- A pass of an interval with bytes whose pages do not wrap makes a segment. -/
theorem Pass.one_seg (h : Pass unit files rel len cur x t) (hpos : t.avail ≠ 0) (hlen : len ≠ 0)
    (hround : rel.toNat + len.toNat + 4095 < 2 ^ 64) : ∃ s, t.segs unit rel cur = [s] ∧
      s.len = min (rel.toNat + len.toNat) (4096 * (cur.toNat + t.avail.toNat)) -
        max rel.toNat (4096 * cur.toNat) := by
  have hpage := UInt64.lt_iff_toNat_lt.mp h.page
  have hend : (endPage rel len).toNat = _ := endPage_toNat
  have hge := h.ge
  have hsegStart := h.segStart
  have hsegEnd := h.segEnd
  have hsome := (h.next hpos).2.2.1
  have hlen' : len.toNat ≠ 0 := fun hzero => hlen (UInt64.toNat_inj.mp hzero)
  rw [startPage_toNat] at hge
  rw [Nat.mod_eq_of_lt hround] at hend
  rw [Nat.mod_eq_of_lt (by omega)] at hsegEnd
  have hlt : t.segEnd > t.segStart := UInt64.lt_iff_toNat_lt.mpr (by omega)
  have hsize := UInt64.toNat_sub_of_le _ _ (UInt64.le_of_lt hlt)
  exact ⟨_, if_pos hlt, by rw [hsize, hsegStart, hsegEnd]⟩

/-- A segment comes of an interval with bytes whose pages do not wrap. -/
theorem Pass.bytes (h : Pass unit files rel len cur x t) {s : SrcSeg} (hs : s ∈ t.segs unit rel cur) :
    len ≠ 0 ∧ rel.toNat + len.toNat + 4095 < 2 ^ 64 := by
  have hpage := UInt64.lt_iff_toNat_lt.mp h.page
  have hend : (endPage rel len).toNat = _ := endPage_toNat
  have hsegStart := h.segStart
  have hsegEnd := h.segEnd
  have hrel := rel.toNat_lt
  have hlen := len.toNat_lt
  unfold Turn.segs at hs
  split at hs
  · rename_i hlt
    have hlt' := UInt64.lt_iff_toNat_lt.mp hlt
    refine ⟨?_, by omega⟩
    rintro rfl
    rw [UInt64.toNat_zero] at hsegEnd
    omega
  · cases hs

/-- The segments from a page on hold the rest of the interval. -/
theorem sum_len (hne : files ≠ []) (hlen : len ≠ 0) (hround : rel.toNat + len.toNat + 4095 < 2 ^ 64)
    (hvisit : Visits unit files rel len cur) (hok : loop unit files rel len cur = .ok segs) :
    (segs.map fun s => s.len).sum =
      rel.toNat + len.toNat - min (rel.toNat + len.toNat) (max rel.toNat (4096 * cur.toNat)) := by
  have hend : (endPage rel len).toNat = _ := endPage_toNat
  rw [Nat.mod_eq_of_lt hround] at hend
  induction cur using @page_induction files unit rel len generalizing segs with
  | done cur hlt =>
    rw [loop_done hlt] at hok
    cases hok
    have hge := UInt64.le_iff_toNat_le.mp (UInt64.not_lt.mp hlt)
    simp only [List.map_nil, List.sum_nil]
    omega
  | stop cur hlt hstop =>
    obtain ⟨x, t, hpass⟩ := exists_pass hne hvisit hlt
    obtain ⟨what, hthrown⟩ := loop_thrown hlt hpass.turn (hstop t hpass.turn)
    cases hthrown.symm.trans hok
  | step cur t hlt hturn hpos ih =>
    obtain ⟨x, t', hpass⟩ := exists_pass hne hvisit hlt
    cases hturn.symm.trans hpass.turn
    obtain ⟨hnext, hsum, hsome, hlast⟩ := hpass.next hpos
    rw [loop_turn hlt hturn hpos] at hok
    cases hrest : loop unit files rel len (cur + t.avail) with
    | error e =>
      rw [hrest] at hok
      cases hok
    | ok rest =>
      rw [hrest] at hok
      cases hok
      obtain ⟨s, hs, hsize⟩ := hpass.one_seg hpos hlen hround
      have hmore := ih hnext hrest
      have hpage := UInt64.lt_iff_toNat_lt.mp hlt
      rw [hsum] at hmore
      simp only [hs, List.singleton_append, List.map_cons, List.sum_cons, hsize, hmore]
      omega

theorem Pass.begins (h : Pass unit files rel len cur x t) (hne : files ≠ []) (hpos : t.avail ≠ 0) :
    Begins files unit rel len cur x := by
  refine ⟨UInt64.le_iff_toNat_le.mpr h.ge, h.page, h.stops.seek, ?_⟩
  obtain ⟨hvisits, hpage⟩ := And.intro h.visits h.page
  cases hvisits with
  | start => exact .inl rfl
  | @next c u hc hlt hturn hu =>
    right
    intro y hy hindex
    obtain ⟨z, u', hpass⟩ := exists_pass hne hc hlt
    cases hturn.symm.trans hpass.turn
    obtain ⟨-, hsum, hsome, -⟩ := hpass.next hu
    have hmore := UInt64.lt_iff_toNat_lt.mp hpage
    have hone : (1 : UInt64).toNat = 1 := rfl
    have hprev : (c + u.avail - 1).toNat = c.toNat + u.avail.toNat - 1 := by
      rw [UInt64.toNat_sub_of_le _ _ (UInt64.le_iff_toNat_le.mpr (by omega)), hsum, hone]
    have hsame := hpass.same (p := c + u.avail - 1) (UInt64.le_iff_toNat_le.mpr (by omega)) (by omega)
    cases hsame.symm.trans hy
    -- the page before is in the strip that ends here
    have hfull := hpass.full (by omega)
    rcases hpass.stops.behind (hsum.trans hfull) h.stops with hnew | hstuck
    · exact hnew hindex
    · exact hpos (h.stuck.mpr hstuck)

theorem pass_of_begins (hne : files ≠ []) (hok : stripRangeToSegs unit files rel len = .ok segs)
    (h : Begins files unit rel len p x) :
    ∃ t, Pass unit files rel len p x t ∧ t.avail ≠ 0 ∧ ∀ s ∈ t.segs unit rel p, s ∈ segs := by
  obtain ⟨c, y, t, hpass, hpos, hle, hlt, hmem⟩ := (passes_of_ok hne .start hok).2 p h.ge h.lt
  have hle' := UInt64.le_iff_toNat_le.mp hle
  cases (hpass.same hle hlt).symm.trans h.seek
  rcases Nat.lt_or_ge c.toNat p.toNat with hbehind | hat
  · have hone : (1 : UInt64).toNat = 1 := rfl
    have hprev : (p - 1).toNat = p.toNat - 1 := by
      rw [UInt64.toNat_sub_of_le _ _ (UInt64.le_iff_toNat_le.mpr (by omega)), hone]
    have hsame := hpass.same (p := p - 1) (UInt64.le_iff_toNat_le.mpr (by omega)) (by omega)
    rcases h.new with hfirst | hnew
    · have hge := hpass.ge
      rw [hfirst] at hbehind
      omega
    · exact absurd rfl (hnew x hsame)
  · obtain rfl : c = p := UInt64.toNat_inj.mp (by omega)
    exact ⟨t, hpass, hpos, hmem⟩

theorem refused_iff (hne : files ≠ []) : (∃ what, stripRangeToSegs unit files rel len = .error (.thrown what)) ↔
    Refused files unit rel len := by
  constructor
  · rintro ⟨what, hthrown⟩
    obtain ⟨-, c, x, t, hpass, hzero⟩ := pass_of_error hne .start hthrown
    exact ⟨c, x, UInt64.le_iff_toNat_le.mpr hpass.ge, hpass.page, hpass.stops.seek, hpass.stuck.mp hzero⟩
  · rintro ⟨p, x, hge, hlt, hseek, hbehind⟩
    cases hloop : stripRangeToSegs unit files rel len with
    | error e =>
      obtain ⟨⟨what, rfl⟩, -⟩ := pass_of_error hne .start hloop
      exact ⟨what, rfl⟩
    | ok segs =>
      -- the pass that the page is in would end before it
      obtain ⟨c, y, t, hpass, hpos, hle, hin, -⟩ := (passes_of_ok hne .start hloop).2 p hge hlt
      cases (hpass.same hle hin).symm.trans hseek
      have hle' := UInt64.le_iff_toNat_le.mp hle
      have hstuck := fun h => hpos (hpass.stuck.mpr h)
      have havail := hpass.avail
      omega

theorem not_undefined (hne : files ≠ []) : stripRangeToSegs unit files rel len ≠ .error .undefined := by
  intro h
  obtain ⟨⟨what, hwhat⟩, -⟩ := pass_of_error hne .start h
  cases hwhat

/-- A mapped interval has the exact offsets and its length where these are numbers of 64 bits. -/
theorem exact_iff (hne : files ≠ []) (hok : stripRangeToSegs unit files rel len = .ok segs)
    (hstart : start % 2 ^ 64 = rel.toNat) :
    Exact files unit len start segs ↔ Fits files unit rel len start := by
  have hpasses := (passes_of_ok hne .start hok).1
  constructor
  · intro h hlen
    have hround : rel.toNat + len.toNat + 4095 < 2 ^ 64 := by
      have hsome : segs ≠ [] := by
        rintro rfl
        exact hlen (UInt64.toNat_inj.mp h.total.symm)
      obtain ⟨s, hs⟩ := List.exists_mem_of_ne_nil segs hsome
      obtain ⟨c, x, t, hpass, -, hmem⟩ := hpasses s hs
      exact (hpass.bytes hmem).2
    refine ⟨hround, fun p x hbegins => ?_⟩
    obtain ⟨t, hpass, hpos, hmem⟩ := pass_of_begins hne hok hbegins
    obtain ⟨s, hs, -⟩ := hpass.one_seg hpos hlen hround
    have hin : s ∈ t.segs unit rel p := by simp [hs]
    obtain ⟨hfile, hinOff, hoff⟩ := hpass.seg hstart hin
    have hexact := h.off s (hmem s hin)
    rw [hfile, hinOff] at hexact hoff
    omega
  · intro h
    refine ⟨fun s hs => ?_, ?_⟩
    · obtain ⟨c, x, t, hpass, hpos, hmem⟩ := hpasses s hs
      obtain ⟨hlow, hhigh⟩ := (h (hpass.bytes hmem).1).2 c x (hpass.begins hne hpos)
      obtain ⟨hfile, hinOff, hoff⟩ := hpass.seg hstart hmem
      rw [← hfile, ← hinOff] at hlow hhigh
      rw [hoff]
      exact Int.emod_eq_of_lt hlow hhigh
    · by_cases hlen : len = 0
      · have hnil : segs = [] := by
          by_contra hsome
          obtain ⟨s, hs⟩ := List.exists_mem_of_ne_nil segs hsome
          obtain ⟨c, x, t, hpass, -, hmem⟩ := hpasses s hs
          exact (hpass.bytes hmem).1 hlen
        simp [hnil, hlen]
      · have hstartPage : (rel / 4096).toNat = _ := startPage_toNat
        rw [sum_len hne hlen (h hlen).1 .start hok, hstartPage]
        omega

end offsets

end StripOffsets
end StreamMoE
