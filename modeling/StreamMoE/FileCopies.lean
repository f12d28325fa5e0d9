import Mathlib.Data.UInt
import StreamMoE.BlockSplit
import StreamMoE.ByteFiles
import StreamMoE.WriterOnce

/-! `do_copy` and `do_fill`: what lies in a target file after the copies and fills of the writer, and the
bytes that the segments of a tensor stand for. -/
namespace StreamMoE
namespace FileCopies

open BlockSplit (Failure)
open ByteFiles Gaps
open DenseFill (SrcSeg)
open WriterPlan

/-- `model_t::files` with what is stored under the paths -/
abbrev Disk := List (String × File UInt8)

section reading

/-- The byte at position `p` of what the segments make up. -/
def srcByte (disk : Disk) (srcs : List SrcSeg) (p : ℕ) : Option UInt8 :=
  (srcs.find? fun s => decide (Covers SrcSeg.inOff (fun s => s.len) s p)).bind fun s =>
    disk[s.file]?.bind fun f => f.2.read (s.off + (p - s.inOff))

/-- The segments are of files of the disk, and what is in them lies in their files. -/
def Stored (disk : Disk) (srcs : List SrcSeg) : Prop :=
  ∀ s ∈ srcs, ∃ f, disk[s.file]? = some f ∧ (s.len ≠ 0 → s.off + s.len ≤ f.2.len)

variable {disk : Disk} {srcs : List SrcSeg} {size p : ℕ}

theorem srcByte_eq (h : Cuts srcs size) {s : SrcSeg} (hs : s ∈ srcs)
    (hp : Covers SrcSeg.inOff (fun s => s.len) s p) :
    srcByte disk srcs p = disk[s.file]?.bind fun f => f.2.read (s.off + (p - s.inOff)) := by
  have hlt : p < size := by
    have hin := h.inside s hs
    simp only [Covers] at hp
    omega
  cases hfind : srcs.find? fun s => decide (Covers SrcSeg.inOff (fun s => s.len) s p) with
  | none => exact absurd (decide_eq_true hp) (List.find?_eq_none.mp hfind s hs)
  | some t =>
    have ht : Covers SrcSeg.inOff (fun s => s.len) t p := by simpa using List.find?_some hfind
    rw [srcByte, hfind, eq_of_hits (h.once p hlt) hs (List.mem_of_find?_eq_some hfind) hp ht]
    rfl

/-- The bytes of one segment -/
theorem srcByte_piece {k off n : ℕ} (hp : p < n) : srcByte disk [⟨⟨k, off, n⟩, 0⟩] p =
    disk[k]?.bind fun f => f.2.read (off + p) := by
  have hcovers : Covers SrcSeg.inOff (fun s => s.len) (⟨⟨k, off, n⟩, 0⟩ : SrcSeg) p := by
    simpa [Covers] using hp
  have hfind : ([⟨⟨k, off, n⟩, 0⟩] : List SrcSeg).find? (fun s => decide (Covers SrcSeg.inOff (fun s => s.len) s p)) =
      some ⟨⟨k, off, n⟩, 0⟩ := List.find?_cons_of_pos (decide_eq_true hcovers)
  rw [srcByte, hfind]
  rfl

theorem cuts_piece (k off n : ℕ) : Cuts [⟨⟨k, off, n⟩, 0⟩] n where
  inside := by simp
  once p hp := by
    rw [hits_cons, hits_nil, if_pos]
    simpa [Covers] using hp

theorem exists_seg (h : Cuts srcs size) (hp : p < size) :
    ∃ s ∈ srcs, Covers SrcSeg.inOff (fun s => s.len) s p := by
  have hone := h.once p hp
  exact hits_pos.mp (by omega)

theorem exists_srcByte (h : Cuts srcs size) (hstored : Stored disk srcs) (hp : p < size) :
    ∃ b, srcByte disk srcs p = some b := by
  obtain ⟨s, hs, hsp⟩ := exists_seg h hp
  obtain ⟨f, hf, hend⟩ := hstored s hs
  rw [srcByte_eq h hs hsp, hf, Option.bind_some]
  simp only [Covers] at hsp
  exact ⟨_, File.read_eq (by omega)⟩

/-- The whole of what the segments make up, if all of it is stored -/
def bytes (disk : Disk) (srcs : List SrcSeg) (size : ℕ) : Option (List UInt8) :=
  (List.range size).mapM (srcByte disk srcs)

theorem bytes_congr {disk' : Disk} {srcs' : List SrcSeg}
    (h : ∀ p < size, srcByte disk' srcs' p = srcByte disk srcs p) : bytes disk' srcs' size = bytes disk srcs size := by
  unfold bytes
  have hall : ∀ p ∈ List.range size, srcByte disk' srcs' p = srcByte disk srcs p :=
    fun p hp => h p (List.mem_range.mp hp)
  generalize List.range size = l at hall
  induction l with
  | nil => rfl
  | cons p l ih =>
    obtain ⟨hp, hl⟩ := List.forall_mem_cons.mp hall
    rw [List.mapM_cons, List.mapM_cons, hp, ih hl]

end reading

section copy

def bufSize : ℕ := 16 * 1024 * 1024

/-- `while (left)` in `do_copy`: the source is read and the target written a buffer at a time. -/
def copyLoop (src : String × File UInt8) : ℕ → File UInt8 → ℕ → ℕ → ℕ → Except Failure (File UInt8)
  | 0, out, _, _, _ => .ok out
  | fuel + 1, out, srcOff, dst, left =>
      if left = 0 then .ok out
      else
        let n := min left bufSize
        if src.2.len < srcOff + n then .error (.thrown ("short read from " ++ src.1))
        else
          copyLoop src fuel (out.write dst n fun i => src.2.byte (srcOff + i)) (srcOff + n) (dst + n) (left - n)

def copyOp (disk : Disk) (dataOffset : ℕ) (out : File UInt8) (op : CopyOp) : Except Failure (File UInt8) :=
  match disk[op.file]? with
  | none => .error .undefined
  | some src => copyLoop src op.len out op.srcOff (dataOffset + op.dstRel) op.len

def fillLoop : ℕ → File UInt8 → ℕ → ℕ → File UInt8
  | 0, out, _, _ => out
  | fuel + 1, out, dst, left =>
      if left = 0 then out
      else
        let n := min left 4096
        fillLoop fuel (out.write dst n fun _ => 0) (dst + n) (left - n)

/-- `do_copy` and `do_fill` on a file whose header is written; the file is none of those that are read. -/
def writeFile (disk : Disk) (dataOffset : ℕ) (header : File UInt8) (ops : List CopyOp × List (ℕ × ℕ)) :
    Except Failure (File UInt8) :=
  (ops.1.foldlM (copyOp disk dataOffset) header).map fun out =>
    ops.2.foldl (fun out f => fillLoop f.2 out (dataOffset + f.1) f.2) out

theorem copyLoop_ok {src : String × File UInt8} {fuel left : ℕ} (hfuel : left ≤ fuel) {srcOff dst : ℕ}
    (hsrc : left ≠ 0 → srcOff + left ≤ src.2.len) (out : File UInt8) :
    copyLoop src fuel out srcOff dst left = .ok (out.write dst left fun i => src.2.byte (srcOff + i)) := by
  induction fuel generalizing out srcOff dst left with
  | zero =>
    obtain rfl : left = 0 := by omega
    rw [copyLoop, write_zero]
  | succ fuel ih =>
    rw [copyLoop]
    split
    case isTrue hzero =>
      subst hzero
      rw [write_zero]
    case isFalse hsome =>
      have hn : min left bufSize ≠ 0 ∧ min left bufSize ≤ left := by
        unfold bufSize
        omega
      have hend := hsrc hsome
      dsimp only
      rw [if_neg (by omega), ih (by omega) (by omega)]
      have hjoin := @write_write _ _ out dst _ (left - min left bufSize) (fun i => src.2.byte (srcOff + i)) hn.1
      have hall : min left bufSize + (left - min left bufSize) = left := by omega
      simp only [Nat.add_assoc] at hjoin ⊢
      rw [hjoin, hall]

theorem fillLoop_eq {fuel left : ℕ} (hfuel : left ≤ fuel) (out : File UInt8) (dst : ℕ) :
    fillLoop fuel out dst left = out.write dst left fun _ => 0 := by
  induction fuel generalizing out dst left with
  | zero =>
    obtain rfl : left = 0 := by omega
    rw [fillLoop, write_zero]
  | succ fuel ih =>
    rw [fillLoop]
    split
    case isTrue hzero =>
      subst hzero
      rw [write_zero]
    case isFalse hsome =>
      have hn : min left 4096 ≠ 0 := by omega
      have hjoin := @write_write _ _ out dst _ (left - min left 4096) (fun _ => 0) hn
      have hall : min left 4096 + (left - min left 4096) = left := by omega
      dsimp only
      rw [ih (by omega), hjoin, hall]

end copy

section result

variable {disk : Disk} {dataOffset : ℕ} {header : File UInt8} {ops : List CopyOp} {fills : List (ℕ × ℕ)}

def copyWrite (disk : Disk) (dataOffset : ℕ) (op : CopyOp) : Write UInt8 where
  off := dataOffset + op.dstRel
  len := op.len
  src i := (disk.getD op.file ("", ⟨0, fun _ => 0⟩)).2.byte (op.srcOff + i)

def fillWrite (dataOffset : ℕ) (f : ℕ × ℕ) : Write UInt8 where
  off := dataOffset + f.1
  len := f.2
  src _ := 0

def Readable (disk : Disk) (op : CopyOp) : Prop :=
  ∃ f, disk[op.file]? = some f ∧ (op.len ≠ 0 → op.srcOff + op.len ≤ f.2.len)

theorem copyOp_ok {op : CopyOp} (h : Readable disk op) (out : File UInt8) :
    copyOp disk dataOffset out op =
      .ok (out.write (copyWrite disk dataOffset op).off (copyWrite disk dataOffset op).len
        (copyWrite disk dataOffset op).src) := by
  obtain ⟨f, hf, hend⟩ := h
  have hget : disk.getD op.file ("", ⟨0, fun _ => 0⟩) = f := by
    rw [List.getD_eq_getElem?_getD, hf, Option.getD_some]
  simp only [copyOp, hf, copyWrite, hget]
  exact copyLoop_ok (le_refl _) hend out

theorem writeFile_ok (h : ∀ op ∈ ops, Readable disk op) :
    writeFile disk dataOffset header (ops, fills) =
      .ok (writes header (ops.map (copyWrite disk dataOffset) ++ fills.map (fillWrite dataOffset))) := by
  have hcopy : ∀ out, ops.foldlM (copyOp disk dataOffset) out =
      .ok (writes out (ops.map (copyWrite disk dataOffset))) := by
    induction ops with
    | nil => exact fun _ => rfl
    | cons op ops ih =>
      obtain ⟨hop, hops⟩ := List.forall_mem_cons.mp h
      intro out
      rw [List.foldlM_cons, copyOp_ok hop]
      exact ih hops _
  have hfill : ∀ out, fills.foldl (fun out f => fillLoop f.2 out (dataOffset + f.1) f.2) out =
      writes out (fills.map (fillWrite dataOffset)) := by
    intro out
    rw [writes, List.foldl_map]
    congr 1
    funext out f
    exact fillLoop_eq (le_refl _) out _
  have hjoin : ∀ xs ys : List (Write UInt8), writes header (xs ++ ys) = writes (writes header xs) ys :=
    fun xs ys => List.foldl_append
  rw [writeFile, hcopy, hjoin, ← hfill]
  rfl

/-- A byte that one copy writes, and nothing else. -/
theorem read_copied (h : ∀ op ∈ ops, Readable disk op) {op : CopyOp} (hop : op ∈ ops) {p : ℕ}
    (hp : Covers CopyOp.dstRel CopyOp.len op p) (honce : opHits ops p + fillHits fills p = 1) :
    (writes header (ops.map (copyWrite disk dataOffset) ++ fills.map (fillWrite dataOffset))).read
      (dataOffset + p) = disk[op.file]?.bind fun f => f.2.read (op.srcOff + (p - op.dstRel)) := by
  obtain ⟨f, hf, hend⟩ := h op hop
  have hpos : 0 < opHits ops p := hits_pos.mpr ⟨op, hop, hp⟩
  have hsame : ∀ o ∈ ops, Covers CopyOp.dstRel CopyOp.len o p → o = op := by
    intro o ho hop'
    have hone : opHits ops p = 1 := by omega
    exact eq_of_hits hone ho hop hop' hp
  have hnofill : ∀ g ∈ fills, ¬ Covers Prod.fst Prod.snd g p := hits_eq_zero.mp (by
    change fillHits fills p = 0
    omega)
  have hget : disk.getD op.file ("", ⟨0, fun _ => 0⟩) = f := by
    rw [List.getD_eq_getElem?_getD, hf, Option.getD_some]
  have hlt : op.srcOff + (p - op.dstRel) < f.2.len := by
    unfold Covers at hp
    omega
  rw [hf, Option.bind_some, File.read_eq hlt]
  refine read_writes_covered ⟨_, List.mem_append_left _ (List.mem_map_of_mem hop), ?_⟩ ?_
  · unfold Covers at hp ⊢
    simp only [copyWrite]
    omega
  · intro w hw hwp
    rcases List.mem_append.mp hw with hw | hw
    · obtain ⟨o, ho, rfl⟩ := List.mem_map.mp hw
      have hop' : Covers CopyOp.dstRel CopyOp.len o p := by
        unfold Covers at hwp ⊢
        simp only [copyWrite] at hwp
        omega
      rw [hsame o ho hop']
      have hindex : dataOffset + p - (dataOffset + op.dstRel) = p - op.dstRel := by omega
      simp only [copyWrite, hget, hindex]
    · obtain ⟨g, hg, rfl⟩ := List.mem_map.mp hw
      refine absurd ?_ (hnofill g hg)
      unfold Covers at hwp ⊢
      simp only [fillWrite] at hwp
      omega

theorem read_header {a : ℕ} (ha : a < header.len) (hle : header.len ≤ dataOffset) :
    (writes header (ops.map (copyWrite disk dataOffset) ++ fills.map (fillWrite dataOffset))).read a =
      header.read a := by
  refine read_writes_outside ha fun w hw hwa => ?_
  unfold Covers at hwa
  rcases List.mem_append.mp hw with hw | hw <;> obtain ⟨o, _, rfl⟩ := List.mem_map.mp hw
  · simp only [copyWrite] at hwa
    omega
  · simp only [fillWrite] at hwa
    omega

end result

end FileCopies
end StreamMoE
