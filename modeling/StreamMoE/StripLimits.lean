import StreamMoE.StripPartition

/-! The ranges that `strip_range_to_segs` serves: exactly those for which it returns a partition or
throws, with no difference that wraps. -/
namespace StreamMoE
namespace StripLimits

open BlockSplit (Failure)
open DenseFill (SrcSeg)
open Spans (Tiles)
open StripRange StripPartition

section limits

variable (files : List ChunkFile) (unit : ℕ) (rel len : UInt64)

/-- The search in the running offsets of 64 bits ends in a strip with blocks behind the first page. -/
def Roomy : Prop :=
  (∃ j, j + 1 < files.length ∧ rel.toNat / 4096 < before files unit (j + 1) % 2 ^ 64) ∨
    ∃ f, files.getLast? = some f ∧
      rel.toNat / 4096 < before files unit (files.length - 1) % 2 ^ 64 + (f.count unit).toNat

/-- A range beyond the coverage begins at most at its end; of a range inside, the sums that are formed
are numbers of 64 bits. -/
structure Servable : Prop where
  first : (rel.toNat + len.toNat + 4096) % 2 ^ 64 ≠ 0
  beyond : coverage files unit < rel.toNat + len.toNat → files ≠ [] ∧
    rel.toNat / 4096 ≤ before files unit files.length ∧
    before files unit files.length < (rel.toNat + len.toNat + 4095) % 2 ^ 64 / 4096
  empty : rel.toNat + len.toNat ≤ coverage files unit → len = 0 →
    rel.toNat / 4096 < (rel.toNat + 4095) % 2 ^ 64 / 4096 → Roomy files unit rel
  covered : rel.toNat + len.toNat ≤ coverage files unit → len ≠ 0 →
    rel.toNat + len.toNat + 4095 < 2 ^ 64 ∧ Clear files unit rel len ∧ Addressable files unit rel len

end limits

section empty

variable {files : List ChunkFile} {unit : ℕ} {rel len cur : UInt64} {t : Turn}

theorem first_iff : 1 ≤ rel + len + 4096 ↔ (rel.toNat + len.toNat + 4096) % 2 ^ 64 ≠ 0 := by
  have hone : (1 : UInt64).toNat = 1 := rfl
  rw [UInt64.le_iff_toNat_le, UInt64.toNat_add, UInt64.toNat_add, toNat_align, hone]
  omega

/-- Where the search for the first page ends. -/
theorem seek_first (rel : UInt64) (unit : ℕ) (hne : files ≠ []) : ∃ x, seek unit (rel / 4096) 0 0 files = some x ∧
    x.cum.toNat ≤ (rel / 4096).toNat ∧
    (Roomy files unit rel ↔ (rel / 4096).toNat < x.cum.toNat + (x.file.count unit).toNat) := by
  have hstart : (rel / 4096).toNat = _ := startPage_toNat
  obtain ⟨x, hseek, hfile, hcum, hpassed, hstop⟩ := seek_files unit (rel / 4096) hne
  have hsucc := before_succ unit hfile
  have hindex := (List.getElem?_eq_some_iff.mp hfile).1
  refine ⟨x, hseek, ?_, ?_⟩
  · rcases Nat.eq_zero_or_pos x.index with hzero | hpos
    · rw [hcum, hzero]
      simp
    · have h := hpassed (x.index - 1) (by omega)
      rwa [Nat.sub_add_cancel hpos, ← hcum] at h
  · by_cases hlast : x.index + 1 < files.length
    · have habove := hstop hlast
      exact iff_of_true (.inl ⟨x.index, hlast, hstart ▸ habove⟩) (by omega)
    · have heq : files.length - 1 = x.index := by omega
      have hend : files.getLast? = some x.file := by rw [List.getLast?_eq_getElem?, heq, hfile]
      constructor
      · rintro (⟨j, hj, habove⟩ | ⟨f, hf, habove⟩)
        · have h := hpassed j (by omega)
          omega
        · cases hend.symm.trans hf
          rw [heq, ← hcum] at habove
          omega
      · intro h
        refine .inr ⟨x.file, hend, ?_⟩
        rw [heq, ← hcum]
        omega

/-- The pass of an empty range makes no segment and is the last one. -/
theorem turn_roomy (hne : files ≠ []) (hlt : rel / 4096 < endPage rel 0) (hroom : Roomy files unit rel) :
    ∃ t, turn unit files rel 0 (rel / 4096) = some t ∧ t.avail ≠ 0 ∧
      t.segs unit rel (rel / 4096) = [] ∧ t.found.cum ≤ rel / 4096 ∧
      t.loc ≤ t.found.file.count unit := by
  have hlt' := UInt64.lt_iff_toNat_lt.mp hlt
  obtain ⟨x, hseek, hle, hiff⟩ := seek_first rel unit hne
  have hr := hiff.mp hroom
  obtain ⟨t, hturn, rfl, hloc, havail, hsegStart, hsegEnd⟩ := turn_eq hseek hle (by omega) hlt
  refine ⟨t, hturn, fun hzero => ?_, if_neg fun h => ?_, UInt64.le_iff_toNat_le.mpr hle,
    UInt64.le_iff_toNat_le.mpr (by omega)⟩
  · rw [hzero] at havail
    simp only [UInt64.toNat_zero] at havail
    omega
  · have h := UInt64.lt_iff_toNat_lt.mp h
    have hrel := rel.toNat_lt
    simp only [UInt64.toNat_zero] at hsegEnd
    omega

/-- A search that ends without room is refused or forms a difference that wraps. -/
theorem turn_full (hne : files ≠ []) (hlt : rel / 4096 < endPage rel len)
    (hroom : ¬ Roomy files unit rel) : ∃ t, turn unit files rel len (rel / 4096) = some t ∧
      (t.avail = 0 ∨ ¬ (t.found.cum ≤ rel / 4096 ∧ t.loc ≤ t.found.file.count unit)) := by
  obtain ⟨x, hseek, hle, hiff⟩ := seek_first rel unit hne
  have hr : ¬ (rel / 4096).toNat < x.cum.toNat + (x.file.count unit).toNat := fun h => hroom (hiff.mpr h)
  rcases Nat.lt_or_ge (x.cum.toNat + (x.file.count unit).toNat) (rel / 4096).toNat with hover | heq
  · refine ⟨_, by rw [turn, hseek]; rfl, .inr fun h => ?_⟩
    have hloc := UInt64.toNat_sub_of_le _ _ (UInt64.le_iff_toNat_le.mpr hle)
    have hwrap : rel / 4096 - x.cum ≤ x.file.count unit := h.2
    rw [UInt64.le_iff_toNat_le] at hwrap
    omega
  · obtain ⟨t, hturn, rfl, hloc, havail, _⟩ := turn_eq hseek hle heq hlt
    refine ⟨t, hturn, .inl (UInt64.toNat_inj.mp ?_)⟩
    rw [havail]
    simp only [UInt64.toNat_zero]
    omega

end empty

section necessary

variable {files : List ChunkFile} {unit : ℕ} {rel len : UInt64}

theorem Placed.file_eq {s : SrcSeg} {i b : ℕ} (h : Placed files unit rel.toNat s)
    (hin : s.inOff ≤ b ∧ b < s.inOff + s.len) (hlow : 4096 * before files unit i ≤ rel.toNat + b)
    (hhigh : rel.toNat + b < 4096 * before files unit (i + 1)) : s.file = i := by
  have h₁ := h.low
  have h₂ := h.high
  have hpage : before files unit s.file ≤ (rel.toNat + b) / 4096 := by omega
  exact strip_unique hpage (by omega) (by omega) (by omega)

variable (hround : rel.toNat + len.toNat + 4095 < 2 ^ 64) {segs : List SrcSeg}
  (hloop : stripRangeToSegs unit files rel len = .ok segs)
  (htiles : Tiles SrcSeg.inOff (fun s => s.len) 0 segs len.toNat)
  (hplaced : ∀ s ∈ segs, Placed files unit rel.toNat s)

include htiles hplaced in
theorem segment_of_strip {i : ℕ} (hpos : len ≠ 0) (hsome : before files unit i < before files unit (i + 1))
    (hlow : 4096 * before files unit i < rel.toNat + len.toNat)
    (hhigh : rel.toNat < 4096 * before files unit (i + 1)) : ∃ s ∈ segs, s.file = i ∧
      rel.toNat + s.inOff = max rel.toNat (4096 * before files unit i) := by
  have hlen : len.toNat ≠ 0 := fun hzero => hpos (UInt64.toNat_inj.mp hzero)
  obtain ⟨s, hs, hin⟩ := htiles.covers
    (c := max rel.toNat (4096 * before files unit i) - rel.toNat) (by omega) (by omega)
  have hfile := Placed.file_eq (i := i) (hplaced s hs) hin (by omega) (by omega)
  have hstart := (hplaced s hs).low
  rw [hfile] at hstart
  exact ⟨s, hs, hfile, by omega⟩

include hloop htiles hplaced in
theorem addressable_of_placed (hpos : len ≠ 0) : Addressable files unit rel len := by
  intro i f hf hsome hlow hhigh
  obtain ⟨s, hs, rfl, hstart⟩ := segment_of_strip htiles hplaced hpos hsome hlow hhigh
  obtain ⟨f', hf', hoff⟩ := (hplaced s hs).off
  cases hf.symm.trans hf'
  obtain ⟨page, t, _, _, hmem⟩ := mem_loop hloop hs
  have hlt : s.off < 2 ^ 64 := by
    unfold Turn.segs at hmem
    split at hmem
    · rw [List.mem_singleton.mp hmem]
      exact UInt64.toNat_lt _
    · cases hmem
  omega

include hround hloop htiles hplaced in
theorem clear_of_placed (hpos : len ≠ 0) : Clear files unit rel len := by
  intro i hi hlow hwrap
  have hlast : (endPage rel len).toNat = _ := endPage_toNat
  rw [Nat.mod_eq_of_lt hround] at hlast
  obtain ⟨s, hs, hfile, _⟩ := segment_of_strip (i := i) htiles hplaced hpos (by omega) (by omega) (by omega)
  obtain ⟨page, t, hge, hturn, hmem⟩ := mem_loop hloop hs
  obtain ⟨x, hseek, rfl⟩ := Option.map_eq_some_iff.mp hturn
  have hne : files ≠ [] := List.ne_nil_of_length_pos (by omega)
  obtain ⟨x', hseek', hf, _, hpassed, hstop⟩ := seek_files unit page hne
  cases hseek.symm.trans hseek'
  have hindex : x.index = i := by
    unfold Turn.segs at hmem
    split at hmem
    · rw [List.mem_singleton.mp hmem] at hfile
      exact hfile
    · cases hmem
  subst hindex
  have habove := hstop hi
  have hcount := (x.file.count unit).toNat_lt
  have hsucc := before_succ unit hf
  rw [startPage_toNat] at hge
  have hpage : before files unit x.index ≤ page.toNat := by
    rcases Nat.eq_zero_or_pos x.index with hzero | hpos
    · simp [hzero]
    · have h := hpassed (x.index - 1) (by omega)
      rw [Nat.sub_add_cancel hpos] at h
      omega
  omega

end necessary

section main

variable {files : List ChunkFile} {unit : ℕ} {rel len : UInt64}

theorem not_thrown_nil (what : String) :
    stripRangeToSegs unit [] rel len ≠ .error (.thrown what) := by
  intro hthrown
  rw [stripRangeToSegs] at hthrown
  by_cases hlt : rel / 4096 < endPage rel len
  · rw [loop_none hlt rfl] at hthrown
    cases hthrown
  · rw [loop_done hlt] at hthrown
    cases hthrown

/-- A range beyond the coverage that is refused without a wrap begins at most at its end. -/
theorem beyond_of_refused (hout : coverage files unit < rel.toNat + len.toNat)
    (h : PartitionOrError files unit rel len) : files ≠ [] ∧
      rel.toNat / 4096 ≤ before files unit files.length ∧
      before files unit files.length < (endPage rel len).toNat := by
  obtain ⟨what, hthrown⟩ := h.outside hout
  have hrel := rel.toNat_lt
  have hlen := len.toNat_lt
  have hlt : rel / 4096 < endPage rel len := by
    by_contra hlt
    rw [stripRangeToSegs, loop_done hlt] at hthrown
    cases hthrown
  have hne : files ≠ [] := by
    rintro rfl
    exact not_thrown_nil what hthrown
  unfold coverage at hout
  have hclear : Clear files unit rel len := clear_of_lt (by omega)
  have hstart : rel.toNat / 4096 ≤ before files unit files.length := by
    obtain ⟨x, hseek, hfile, hcum, _, _⟩ := seek_files unit (rel / 4096) hne
    obtain ⟨t, hturn, hfound, hloc⟩ : ∃ t, turn unit files rel len (rel / 4096) = some t ∧
        t.found = x ∧ t.loc = rel / 4096 - x.cum := ⟨_, by rw [turn, hseek]; rfl, rfl, rfl⟩
    obtain ⟨hle, hcount⟩ := (differences_fit hturn hlt).mp (h.noWrap.passes _ t .start hlt hturn)
    rw [hfound] at hle hcount
    have hcount := UInt64.le_iff_toNat_le.mp hcount
    rw [hloc, UInt64.toNat_sub_of_le _ _ hle, startPage_toNat] at hcount
    have hsucc := before_succ unit hfile
    have hmono : before files unit (x.index + 1) ≤ before files unit files.length :=
      before_mono (List.getElem?_eq_some_iff.mp hfile).1
    omega
  refine ⟨hne, hstart, ?_⟩
  by_contra hend
  obtain ⟨segs, hok⟩ := loop_accepted hclear (not_lt.mp hend) front_start
  cases hok.symm.trans hthrown

theorem refused_of_beyond (hout : coverage files unit < rel.toNat + len.toNat) (hne : files ≠ [])
    (hfirst : 1 ≤ rel + len + 4096) (hstart : rel.toNat / 4096 ≤ before files unit files.length)
    (hend : before files unit files.length < (endPage rel len).toNat) :
    PartitionOrError files unit rel len := by
  have hrel := rel.toNat_lt
  have hlen := len.toNat_lt
  have hclear : Clear files unit rel len := clear_of_lt (by unfold coverage at hout; omega)
  exact
    { inside := fun hin => absurd hin (by omega)
      outside := fun _ => loop_refused hclear hne hend front_start (startPage_toNat ▸ hstart)
      noWrap := noWrap_of_clear hclear hfirst hstart }

theorem visits_start {cur : UInt64} (h : Visits unit files rel len cur) :
    cur = rel / 4096 ∨ (rel / 4096).toNat < cur.toNat := by
  induction h with
  | start => exact .inl rfl
  | @next cur t _ hlt hturn hpos ih =>
    obtain ⟨hsum, hsome, _⟩ := turn_decreases unit files rel len hlt hturn hpos
    rcases ih with rfl | hgt
    · exact .inr (by omega)
    · exact .inr (by omega)

/-- An empty range inside the coverage. -/
theorem empty_iff (hin : rel.toNat ≤ coverage files unit) (hfirst : 1 ≤ rel + 0 + 4096) :
    PartitionOrError files unit rel 0 ↔ (rel / 4096 < endPage rel 0 → Roomy files unit rel) := by
  have hin' : rel.toNat + (0 : UInt64).toNat ≤ coverage files unit := by simpa using hin
  by_cases hlt : rel / 4096 < endPage rel 0
  · have hne : files ≠ [] := by
      rintro rfl
      have hlt' := UInt64.lt_iff_toNat_lt.mp hlt
      rw [endPage_toNat, startPage_toNat] at hlt'
      simp [coverage] at hin
      simp [hin] at hlt'
    constructor
    · intro h _
      by_contra hroom
      obtain ⟨t, hturn, hbad⟩ := turn_full hne hlt hroom
      rcases hbad with hzero | hwrap
      · obtain ⟨segs, hok, _⟩ := h.inside hin'
        obtain ⟨what, hthrown⟩ := loop_thrown hlt hturn hzero
        cases hok.symm.trans hthrown
      · exact hwrap ((differences_fit hturn hlt).mp (h.noWrap.passes _ t .start hlt hturn))
    · intro hroom
      obtain ⟨t, hturn, hpos, hsegs, hfits⟩ := turn_roomy hne hlt (hroom hlt)
      have hend : (endPage rel 0).toNat ≤ (rel / 4096).toNat + 1 := by
        have hzero : (0 : UInt64).toNat = 0 := rfl
        rw [endPage_toNat, startPage_toNat, hzero]
        omega
      have hlast : ¬ rel / 4096 + t.avail < endPage rel 0 := by
        obtain ⟨hsum, hsome, _⟩ := turn_decreases unit files rel 0 hlt hturn hpos
        rw [UInt64.lt_iff_toNat_lt, hsum]
        omega
      refine ⟨fun _ => ⟨[], ?_, .nil _, by simp⟩, fun hout => absurd hin' (by omega), hfirst, ?_⟩
      · rw [stripRangeToSegs, loop_turn hlt hturn hpos, hsegs, loop_done hlast]
        rfl
      · intro cur t' hvisit hlt' hturn'
        rcases visits_start hvisit with rfl | hgt
        · cases hturn.symm.trans hturn'
          exact (differences_fit hturn hlt).mpr hfits
        · exact absurd (UInt64.lt_iff_toNat_lt.mp hlt') (by omega)
  · refine iff_of_true ⟨fun _ => ⟨[], loop_done hlt, .nil _, by simp⟩, fun hout => absurd hin' (by omega),
      hfirst, fun cur t hvisit hlt' _ => ?_⟩ fun h => absurd h hlt
    rw [UInt64.lt_iff_toNat_lt] at hlt hlt'
    rcases visits_start hvisit with rfl | hgt
    · exact absurd hlt' hlt
    · exact absurd hlt' (by omega)

/-- A range with bytes that is partitioned does not end so high that its last page wraps. -/
theorem round_of_partition (hin : rel.toNat + len.toNat ≤ coverage files unit) (hpos : len ≠ 0)
    (h : PartitionOrError files unit rel len) : rel.toNat + len.toNat + 4095 < 2 ^ 64 := by
  have hlen : len.toNat ≠ 0 := fun hzero => hpos (UInt64.toNat_inj.mp hzero)
  have hlen' := len.toNat_lt
  have hrel := rel.toNat_lt
  have hend : (endPage rel len).toNat = _ := endPage_toNat
  have hstart : (rel / 4096).toNat = _ := startPage_toNat
  by_contra hwrap
  obtain ⟨segs, hok, htiles, _⟩ := h.inside hin
  have htotal := htiles.total
  suffices hnil : segs = [] by
    rw [hnil] at htotal
    simp at htotal
    omega
  by_contra hsome
  obtain ⟨s, hs⟩ := List.exists_mem_of_ne_nil segs hsome
  obtain ⟨page, t, hge, hturn, hmem⟩ := mem_loop hok hs
  have hseg : t.segEnd > t.segStart := by
    by_contra hnot
    rw [Turn.segs, if_neg hnot] at hmem
    cases hmem
  have hbounds : rel.toNat ≤ t.segStart.toNat ∧
      t.segEnd.toNat ≤ (rel.toNat + len.toNat) % 2 ^ 64 := by
    obtain ⟨x, _, rfl⟩ := Option.map_eq_some_iff.mp hturn
    refine ⟨?_, ?_⟩
    · exact (StripRange.toNat_max ..).symm ▸ Nat.le_max_left ..
    · refine (StripRange.toNat_min ..).symm ▸ ?_
      rw [UInt64.toNat_add]
      exact Nat.min_le_left ..
  have hless := UInt64.lt_iff_toNat_lt.mp hseg
  rcases Nat.lt_or_ge (rel.toNat + len.toNat) (2 ^ 64) with hsmall | hlarge
  · have hdone : ¬ rel / 4096 < endPage rel len := by
      rw [UInt64.lt_iff_toNat_lt]
      omega
    rw [stripRangeToSegs, loop_done hdone] at hok
    cases hok
    cases hs
  · omega

/-- A range inside the coverage is cut into segments of strips that follow one another. -/
theorem served (hin : rel.toNat + len.toNat ≤ coverage files unit) (hpos : len ≠ 0)
    (hround : rel.toNat + len.toNat + 4095 < 2 ^ 64) (hclear : Clear files unit rel len)
    (haddr : Addressable files unit rel len) :
    ∃ segs, stripRangeToSegs unit files rel len = .ok segs ∧
      Tiles SrcSeg.inOff (fun s => s.len) 0 segs len.toNat ∧
      (∀ s ∈ segs, Placed files unit rel.toNat s) ∧ segs.Pairwise fun a b => a.file < b.file := by
  have hend : (endPage rel len).toNat = _ := endPage_toNat
  have hpage : (rel / 4096).toNat ≤ (endPage rel len).toNat := by
    rw [hend, startPage_toNat]
    omega
  obtain ⟨segs, hok, htiles, hrest⟩ := loop_partition hclear hpos hround haddr hin front_start hpage
  refine ⟨segs, hok, ?_, hrest⟩
  convert htiles using 1
  rw [startPage_toNat]
  omega

/-- The dense tensor whose bytes are a range of the unit. -/
def denseTensor (name : String) {segs : List SrcSeg} (hok : stripRangeToSegs unit files rel len = .ok segs)
    (hin : rel.toNat + len.toNat ≤ coverage files unit) (hpos : len ≠ 0)
    (hround : rel.toNat + len.toNat + 4095 < 2 ^ 64) (hclear : Clear files unit rel len)
    (haddr : Addressable files unit rel len) : DenseFill.DenseTensor where
  name := name
  size := len.toNat
  srcs := segs
  tiles := by
    obtain ⟨segs', hok', htiles, _⟩ := served hin hpos hround hclear haddr
    obtain rfl : segs = segs' := Except.ok.inj (hok.symm.trans hok')
    have hall : segs.filter (fun s => decide (0 < s.len)) = segs :=
      List.filter_eq_self.mpr fun s hs => decide_eq_true (htiles.bounds hs).2.2
    rwa [hall]
  files := by
    obtain ⟨segs', hok', _, _, hfiles⟩ := served hin hpos hround hclear haddr
    obtain rfl : segs = segs' := Except.ok.inj (hok.symm.trans hok')
    exact List.pairwise_map.mpr (hfiles.imp Nat.ne_of_lt)

/-- `strip_range_to_segs` partitions or refuses a range, without a difference that wraps, exactly if
the range is servable. -/
theorem stripRange_partition_iff (files : List ChunkFile) (unit : ℕ) (rel len : UInt64) :
    PartitionOrError files unit rel len ↔ Servable files unit rel len := by
  have hend : (endPage rel len).toNat = _ := endPage_toNat
  constructor
  · intro h
    refine ⟨first_iff.mp h.noWrap.first, fun hout => ?_, ?_, ?_⟩
    · rw [← hend]
      exact beyond_of_refused hout h
    · rintro hin rfl hlt
      have hzero : (0 : UInt64).toNat = 0 := rfl
      refine (empty_iff (by omega) h.noWrap.first).mp h ?_
      rw [UInt64.lt_iff_toNat_lt, hend, startPage_toNat]
      simpa using hlt
    · intro hin hpos
      have hround := round_of_partition hin hpos h
      obtain ⟨segs, hok, htiles, hplaced⟩ := h.inside hin
      exact ⟨hround, clear_of_placed hround hok htiles hplaced hpos,
        addressable_of_placed hok htiles hplaced hpos⟩
  · intro h
    have hfirst := first_iff.mpr h.first
    rcases Nat.lt_or_ge (coverage files unit) (rel.toNat + len.toNat) with hout | hin
    · obtain ⟨hne, hstart, hlast⟩ := h.beyond hout
      rw [← hend] at hlast
      exact refused_of_beyond hout hne hfirst hstart hlast
    · by_cases hpos : len = 0
      · subst hpos
        have hzero : (0 : UInt64).toNat = 0 := rfl
        refine (empty_iff (by omega) hfirst).mpr fun hlt => h.empty hin rfl ?_
        rw [UInt64.lt_iff_toNat_lt, hend, startPage_toNat] at hlt
        simpa using hlt
      · obtain ⟨hround, hclear, haddr⟩ := h.covered hin hpos
        have hstart : rel.toNat / 4096 ≤ before files unit files.length := by
          unfold coverage at hin
          omega
        refine ⟨fun _ => ?_, fun hout => absurd hin (by omega), noWrap_of_clear hclear hfirst hstart⟩
        obtain ⟨segs, hok, htiles, hplaced, _⟩ := served hin hpos hround hclear haddr
        exact ⟨segs, hok, htiles, hplaced⟩

/-- A range that begins two blocks behind a coverage of one gets a segment behind the strip. -/
theorem not_stripRange_partition_behind :
    stripRangeToSegs 0 [⟨[1], 4096⟩] 8192 1 =
      .ok [{ file := 0, off := 12288, len := 1, inOff := 0 }] ∧
    ¬ PartitionOrError [⟨[1], 4096⟩] 0 8192 1 := by
  refine ⟨?_, fun h => ?_⟩
  · obtain ⟨t, hturn, hpos, hlast, hsegs⟩ : ∃ t, turn 0 [⟨[1], 4096⟩] 8192 1 (8192 / 4096) = some t ∧
        t.avail ≠ 0 ∧ ¬ 8192 / 4096 + t.avail < endPage 8192 1 ∧
        t.segs 0 8192 (8192 / 4096) = [{ file := 0, off := 12288, len := 1, inOff := 0 }] :=
      ⟨_, rfl, by decide, by decide, by decide⟩
    rw [stripRangeToSegs, loop_turn (by decide) hturn hpos, loop_done hlast, hsegs]
    rfl
  · have hbeyond := beyond_of_refused (by decide) h
    exact absurd hbeyond.2.1 (by decide)

end main

end StripLimits
end StreamMoE
