import Mathlib.Data.List.Sort
import StreamMoE.StripPartition
import StreamMoE.WriterPlan

/-! `parse_model` on the files of a chunk set: every range of a block or tensor is mapped to the strips
of the listed files. -/
namespace StreamMoE
namespace ChunkSet

open BlockSplit (Failure)
open DenseFill (SrcSeg)
open StripRange
open WriterPlan (Category)

/-- A tensor of the table, with what `sm_classify`, `sm_layer_of` and `sm_branch_of` say of its name. -/
structure TensorInfo where
  name : String
  offset : UInt64
  size : UInt64
  category : Category
  layer : ℤ
  branch : String
  deriving DecidableEq, Repr

/-- The metadata that every file of a set carries: `expert_sections` as offset and size, the branches of
each layer as tag and bytes for one expert, and the sections as layer, offset and size. -/
structure Layout where
  nExpert : UInt32
  blocks : List (UInt64 × UInt64)
  branches : List (List (String × UInt64))
  branchAlign : Bool
  denseSection : List UInt64
  denseLayerSections : List (UInt64 × UInt64 × UInt64)
  expertMetaSections : List (UInt64 × UInt64 × UInt64)
  tensors : List TensorInfo
  deriving DecidableEq, Repr

structure Path where
  dir : String
  name : String
  deriving DecidableEq, Repr

def Path.string (p : Path) : String := if p.dir = "" then p.name else p.dir ++ "/" ++ p.name

/-- What is read of one file: its number and the size of the set, its strips, and the metadata. -/
structure Header where
  chunkNo : ℕ
  chunkTotal : ℕ
  file : ChunkFile
  layout : Layout
  deriving DecidableEq, Repr

/-- An interval that is mapped. -/
structure Query where
  unit : ℕ
  rel : UInt64
  len : UInt64
  deriving DecidableEq, Repr

section discover

/-- `stem()` and `extension()` -/
def splitName (name : List Char) : List Char × List Char :=
  let ext := name.reverse.takeWhile (· ≠ '.')
  if ext.length + 1 < name.length then (name.take (name.length - ext.length - 1), '.' :: ext.reverse)
  else (name, [])

def number (digits : List Char) : ℕ := digits.foldl (fun n c => 10 * n + (c.toNat - '0'.toNat)) 0

def stol (digits : List Char) : Except Failure ℤ :=
  if number digits < 2 ^ 63 then .ok (number digits) else .error (.thrown "stol")

/-- The digits between the start and the extension of a file name, if there is nothing else. -/
def middle (pre ext fn : List Char) : Option (List Char) :=
  if fn.length ≤ pre.length + ext.length then none
  else if fn.take pre.length ≠ pre ∨ fn.drop (fn.length - ext.length) ≠ ext then none
  else
    let mid := (fn.drop pre.length).take (fn.length - pre.length - ext.length)
    if mid.all Char.isDigit then some mid else none

def byNum (pre ext : List Char) (width : ℕ) (fns : List String) : Except Failure (List (ℤ × String)) :=
  fns.foldlM (fun nums fn =>
    match middle pre ext fn.toList with
    | none => .ok nums
    | some mid => (stol mid).map fun n =>
        if (nums.lookup n).isNone ∨ mid.length = width then (n, fn) :: nums else nums) []

def discoverChunkFiles (entries : String → List String) (main : Path) (chunkNo chunkTotal : ℕ) :
    Except Failure (List Path) :=
  let (stem, ext) := splitName main.name.toList
  let digits := (stem.reverse.takeWhile Char.isDigit).reverse
  let pre := stem.take (stem.length - digits.length)
  let scanDir := if main.dir = "" then "." else main.dir
  if digits = [] then
    .error (.thrown ("chunk source needs a trailing index in the filename (e.g. c1.gguf): " ++ main.string))
  else do
    let given ← stol digits
    let nums ← byNum pre ext digits.length (entries scanDir)
    (List.range chunkTotal).mapM fun (i : ℕ) =>
      match nums.lookup (given - chunkNo + i) with
      | some fn => .ok ⟨scanDir, fn⟩
      | none => .error (.thrown ("missing chunk file #" ++ toString (given - chunkNo + i) ++ " (prefix '" ++
          String.ofList pre ++ "', ext '" ++ String.ofList ext ++ "') in " ++ scanDir))

end discover

section units

variable (L : Layout)

def Layout.blockUnit (bi : UInt32) : ℕ :=
  (1 + UInt32.ofNat L.denseLayerSections.length + UInt32.ofNat L.expertMetaSections.length + bi).toNat

def branchOffs (align : Bool) : UInt64 → List (String × UInt64) → List (String × UInt64)
  | _, [] => []
  | off, b :: bs =>
      (b.1, off) :: branchOffs align (if align then (off + b.2 + 4096 - 1) / 4096 * 4096 else off + b.2) bs

def Layout.branchOff (layer : ℤ) (branch : String) : UInt64 :=
  if 0 ≤ layer then
    ((branchOffs L.branchAlign 0 (L.branches.getD layer.toNat [])).lookup branch).getD 0
  else 0

def findSection (secs : List (UInt64 × UInt64 × UInt64)) (layer : UInt64) : Option (ℕ × UInt64) :=
  (secs.zipIdx.find? fun x => x.1.1 = layer).map fun x => (x.2, x.1.2.1)

def Layout.perExpert (t : TensorInfo) : UInt64 :=
  if L.nExpert = 0 then 0 else t.size / L.nExpert.toUInt64

def Layout.blockQueries : List Query :=
  L.blocks.zipIdx.map fun x => ⟨L.blockUnit (UInt32.ofNat x.2), 0, x.1.2⟩

def Layout.expertQueries (t : TensorInfo) : List Query :=
  (List.range L.nExpert.toNat).map fun e =>
    ⟨L.blockUnit (UInt32.ofInt t.layer * L.nExpert + UInt32.ofNat e), L.branchOff t.layer t.branch,
      L.perExpert t⟩

/-- The interval of a tensor that is no expert tensor. -/
def Layout.denseQuery (t : TensorInfo) : Except Failure Query :=
  match t.category with
  | .denseGlobal => .ok ⟨0, t.offset - L.denseSection.headD 0, t.size⟩
  | .denseLayer =>
      match findSection L.denseLayerSections (UInt64.ofInt t.layer) with
      | some (idx, base) => .ok ⟨(1 + UInt32.ofNat idx).toNat, t.offset - base, t.size⟩
      | none => .error (.thrown ("v3 chunk: no dense-layer section for " ++ t.name))
  | _ =>
      match findSection L.expertMetaSections (UInt64.ofInt t.layer) with
      | some (idx, base) =>
          .ok ⟨(1 + UInt32.ofNat L.denseLayerSections.length + UInt32.ofNat idx).toNat, t.offset - base, t.size⟩
      | none => .error (.thrown ("v3 chunk: no expert-meta section for " ++ t.name))

def Layout.tensorQueries (t : TensorInfo) : List Query :=
  if t.category = .expert then L.expertQueries t
  else match L.denseQuery t with
    | .ok q => [q]
    | .error _ => []

/-- All intervals that are mapped. -/
def Layout.queries : List Query := L.blockQueries ++ L.tensors.flatMap L.tensorQueries

end units

section build

variable {σ τ : Type}

structure ExpertTensor (σ : Type) where
  info : TensorInfo
  perExpert : UInt64
  branchOff : UInt64
  perExpertSrcs : List (List σ)

structure DenseTensor (σ : Type) where
  info : TensorInfo
  layer : ℤ
  srcs : List σ

/-- What a tensor of the table becomes. -/
inductive Entry (σ : Type)
  | expert (e : ExpertTensor σ)
  | dense (d : DenseTensor σ)

def Entry.asDense : Entry σ → Option (DenseTensor σ)
  | .dense d => some d
  | .expert _ => none

def Entry.asExpert : Entry σ → Option (ExpertTensor σ)
  | .expert e => some e
  | .dense _ => none

/-- The mapped part of `model_t` -/
structure Body (σ : Type) where
  blockSrcs : List (List σ)
  dense : List (DenseTensor σ)
  expert : List (ExpertTensor σ)

def branchOrder (branch : String) : ℕ := ["gate_up", "gate", "up", "down"].idxOf branch

/-- The order of the sort at the end of `parse_model` -/
def ExpertTensor.Before (a b : ExpertTensor σ) : Prop :=
  a.info.layer < b.info.layer ∨
    a.info.layer = b.info.layer ∧ branchOrder a.info.branch ≤ branchOrder b.info.branch

instance : DecidableRel (ExpertTensor.Before (σ := σ)) := fun _ _ => inferInstanceAs (Decidable (_ ∨ _))

variable (segs : Query → Except Failure (List σ)) (L : Layout)

/-- One turn of the loop over the tensor table -/
def mapTensor (t : TensorInfo) : Except Failure (Entry σ) :=
  if t.category = .expert then
    ((L.expertQueries t).mapM segs).map fun srcs =>
      .expert { info := t, perExpert := L.perExpert t, branchOff := L.branchOff t.layer t.branch
                perExpertSrcs := srcs }
  else do
    let q ← L.denseQuery t
    let srcs ← segs q
    return .dense { info := t, layer := if t.category = .denseGlobal then -1 else t.layer, srcs := srcs }

/-- The blocks and tensors, each with the segments of its intervals. -/
def buildModel : Except Failure (Body σ) := do
  let blockSrcs ← L.blockQueries.mapM segs
  let entries ← L.tensors.mapM (mapTensor segs L)
  return { blockSrcs
           dense := entries.filterMap Entry.asDense
           expert := (entries.filterMap Entry.asExpert).insertionSort ExpertTensor.Before }

end build

section parse

structure Parsed where
  files : List Path
  strips : List ChunkFile
  body : Body SrcSeg

def openFile (disk : Path → Option Header) (p : Path) : Except Failure Header :=
  match disk p with
  | some h => .ok h
  | none => .error (.thrown ("cannot open " ++ p.string))

/-- `strip_range_to_segs` on the listed strips -/
def mapQuery (strips : List ChunkFile) (q : Query) : Except Failure (List SrcSeg) :=
  stripRangeToSegs q.unit strips q.rel q.len

def parseModel (entries : String → List String) (disk : Path → Option Header) (paths : List Path) :
    Except Failure Parsed :=
  match paths with
  | [] => .error (.thrown "parse_model: no paths")
  | p :: ps => do
    let main ← openFile disk p
    let files ←
      if ps = [] ∧ main.chunkTotal > 1 then
        discoverChunkFiles entries p main.chunkNo main.chunkTotal
      else .ok (p :: ps)
    let headers ← files.mapM (openFile disk)
    let table := (headers.map fun h => h.layout.tensors).headD []
    let strips := headers.map Header.file
    (buildModel (mapQuery strips) { main.layout with tensors := table }).map fun body => { files, strips, body }

/-- A segment with the path of its file. -/
structure Located where
  path : Option Path
  off : ℕ
  len : ℕ
  inOff : ℕ
  deriving DecidableEq, Repr

def locate (files : List Path) (s : SrcSeg) : Located where
  path := files[s.file]?
  off := s.off
  len := s.len
  inOff := s.inOff

end parse

end ChunkSet
end StreamMoE
