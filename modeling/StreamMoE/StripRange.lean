import Mathlib.Data.List.GetD
import Mathlib.Data.Nat.Notation
import StreamMoE.BlockSplit
import StreamMoE.DenseFill

/-! `strip_range_to_segs`: an interval of a chunk unit is mapped to segments of the strip files. The
running offsets of the strips and all sizes are unsigned numbers of 64 bits. -/
namespace StreamMoE
namespace StripRange

open BlockSplit (Failure)
open DenseFill (SrcSeg)
open Spans (Tiles)

/-- One file of a chunk set: `chunk_slices` and the start of its data. -/
structure ChunkFile where
  slices : List UInt64
  dataOff : UInt64
  deriving DecidableEq, Repr

def ChunkFile.count (f : ChunkFile) (unit : ℕ) : UInt64 := f.slices.getD unit 0

def ChunkFile.base (f : ChunkFile) (unit : ℕ) : UInt64 := (f.slices.take unit).foldl (· + ·) 0

/-- The strip that the search stops at, with `cum[fi]`. -/
structure Found where
  index : ℕ
  file : ChunkFile
  cum : UInt64

section model

variable (unit : ℕ)

def seek (cur : UInt64) : ℕ → UInt64 → List ChunkFile → Option Found
  | _, _, [] => none
  | fi, cum, [f] => some ⟨fi, f, cum⟩
  | fi, cum, f :: g :: fs =>
      if cur ≥ cum + f.count unit then seek cur (fi + 1) (cum + f.count unit) (g :: fs)
      else some ⟨fi, f, cum⟩

/-- The values of one pass of the loop. -/
structure Turn where
  found : Found
  loc : UInt64
  avail : UInt64
  segStart : UInt64
  segEnd : UInt64

variable (files : List ChunkFile) (rel len : UInt64)

def endPage : UInt64 := (rel + len + 4096 - 1) / 4096

def turn (cur : UInt64) : Option Turn :=
  (seek unit cur 0 0 files).map fun x =>
    let loc := cur - x.cum
    let avail := min (x.file.count unit - loc) (endPage rel len - cur)
    { found := x, loc, avail
      segStart := max rel (cur * 4096)
      segEnd := min (rel + len) ((cur + avail) * 4096) }

/-- The segment of a pass, if it is not empty. -/
def Turn.segs (t : Turn) (cur : UInt64) : List SrcSeg :=
  if t.segEnd > t.segStart then
    [{ file := t.found.index
       off := (t.found.file.dataOff + t.found.file.base unit * 4096 + t.loc * 4096 +
         (t.segStart - cur * 4096)).toNat
       len := (t.segEnd - t.segStart).toNat
       inOff := (t.segStart - rel).toNat }]
  else []

theorem toNat_min (a b : UInt64) : (min a b).toNat = min a.toNat b.toNat := by
  change (if a ≤ b then a else b).toNat = _
  split <;> rename_i h <;> rw [UInt64.le_iff_toNat_le] at h <;> omega

theorem toNat_max (a b : UInt64) : (max a b).toNat = max a.toNat b.toNat := by
  change (if a ≤ b then b else a).toNat = _
  split <;> rename_i h <;> rw [UInt64.le_iff_toNat_le] at h <;> omega

theorem turn_avail_le {cur : UInt64} {t : Turn} (h : turn unit files rel len cur = some t) :
    t.avail.toNat ≤ (endPage rel len - cur).toNat := by
  obtain ⟨x, _, rfl⟩ := Option.map_eq_some_iff.mp h
  change (min (_ : UInt64) _).toNat ≤ _
  rw [toNat_min]
  exact Nat.min_le_right ..

theorem turn_decreases {cur : UInt64} {t : Turn} (hlt : cur < endPage rel len)
    (h : turn unit files rel len cur = some t) (hpos : t.avail ≠ 0) :
    (cur + t.avail).toNat = cur.toNat + t.avail.toNat ∧ 0 < t.avail.toNat ∧
      cur.toNat + t.avail.toNat ≤ (endPage rel len).toNat := by
  have hle := turn_avail_le unit files rel len h
  have hlt' := UInt64.lt_iff_toNat_lt.mp hlt
  have hbound := (endPage rel len).toNat_lt
  have hne : t.avail.toNat ≠ 0 := fun hzero => hpos (UInt64.toNat_inj.mp hzero)
  rw [UInt64.toNat_sub_of_le _ _ (UInt64.le_of_lt hlt)] at hle
  rw [UInt64.toNat_add, Nat.mod_eq_of_lt (by omega)]
  omega

def loop (cur : UInt64) : Except Failure (List SrcSeg) :=
  if _hlt : cur < endPage rel len then
    match _hturn : turn unit files rel len cur with
    | none => .error .undefined
    | some t =>
        if _hpos : t.avail = 0 then .error (.thrown "strip_range_to_segs: interval past strip coverage")
        else (loop (cur + t.avail)).map (t.segs unit rel cur ++ ·)
  else .ok []
termination_by (endPage rel len).toNat - cur.toNat
decreasing_by
  have h := turn_decreases unit files rel len _hlt _hturn _hpos
  omega

def stripRangeToSegs : Except Failure (List SrcSeg) := loop unit files rel len (rel / 4096)

/-- The pages that the loop comes to. -/
inductive Visits : UInt64 → Prop
  | start : Visits (rel / 4096)
  | next {cur : UInt64} {t : Turn} : Visits cur → cur < endPage rel len →
      turn unit files rel len cur = some t → t.avail ≠ 0 → Visits (cur + t.avail)

/-- Minuend and subtrahend of every difference that a pass forms. -/
def Turn.differences (t : Turn) (cur : UInt64) : List (UInt64 × UInt64) :=
  [(cur, t.found.cum), (t.found.file.count unit, t.loc), (endPage rel len, cur)] ++
    if t.avail ≠ 0 ∧ t.segEnd > t.segStart then
      [(t.segStart, cur * 4096), (t.segEnd, t.segStart), (t.segStart, rel)] else []

structure NoWrap : Prop where
  first : 1 ≤ rel + len + 4096
  passes : ∀ cur t, Visits unit files rel len cur → cur < endPage rel len →
    turn unit files rel len cur = some t →
      ∀ p ∈ t.differences unit rel len cur, p.2 ≤ p.1

end model

section spec

variable (files : List ChunkFile) (unit : ℕ)

/-- The blocks of the unit in the first `i` strips. -/
def before (i : ℕ) : ℕ := ((files.take i).map fun f => (f.count unit).toNat).sum

def coverage : ℕ := 4096 * before files unit files.length

def ChunkFile.above (f : ChunkFile) : ℕ := ((f.slices.take unit).map UInt64.toNat).sum

/-- The bytes of the interval that a segment holds are in its strip, and it has their offset. -/
structure Placed (rel : ℕ) (s : SrcSeg) : Prop where
  low : 4096 * before files unit s.file ≤ rel + s.inOff
  high : rel + s.inOff + s.len ≤ 4096 * before files unit (s.file + 1)
  off : ∃ f, files[s.file]? = some f ∧
    s.off = f.dataOff.toNat + 4096 * f.above unit + (rel + s.inOff - 4096 * before files unit s.file)

/-- A range inside the coverage is partitioned, any other is refused. -/
structure PartitionOrError (rel len : UInt64) : Prop where
  inside : rel.toNat + len.toNat ≤ coverage files unit →
    ∃ segs, stripRangeToSegs unit files rel len = .ok segs ∧
      Tiles SrcSeg.inOff (fun s => s.len) 0 segs len.toNat ∧ ∀ s ∈ segs, Placed files unit rel.toNat s
  outside : coverage files unit < rel.toNat + len.toNat →
    ∃ what, stripRangeToSegs unit files rel len = .error (.thrown what)
  noWrap : NoWrap unit files rel len

end spec

end StripRange
end StreamMoE
