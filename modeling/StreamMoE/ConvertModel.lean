import StreamMoE.BlockMetadata
import StreamMoE.FileCopies

/-! `parse_model` and `convert_model` on files: the header that the writer makes of a model, the files it
writes, and the model that is read back from them. -/
namespace StreamMoE
namespace ConvertModel

open BlockSplit (Failure smSplitBlocks)
open BlockMetadata (BlockFile Tensor contains branchOf)
open ByteFiles (File)
open ChunkSet (Layout TensorInfo branchOrder splitName)
open DenseFill (SrcSeg)
open FileCopies
open StripRange (ChunkFile)
open WriterPlan (Category Target alignUp rank)

section names

/-- What follows the first occurrence of `part`. -/
def behind (part name : List Char) : Option (List Char) :=
  (name.tails.find? part.isPrefixOf).map (List.drop part.length)

/-- `sm_layer_of`, if `atoi` has a value -/
def layerOf (name : String) : Option ℤ :=
  match behind "blk.".toList name.toList with
  | none => some (-1)
  | some rest => BlockSplit.atoi rest

/-- `sm_classify` but for the check of `ne[2]` -/
def categoryOf (name : String) : Category :=
  if "blk.".toList.isPrefixOf name.toList = false then .denseGlobal
  else if contains name "_exps" = false then .denseLayer
  else if ".weight".toList.isSuffixOf name.toList then .expert
  else .expertMeta

end names

section model

/-- What the table of a file says of a tensor; the size follows from `ne` and the type. -/
structure TensorShape where
  name : String
  ne : ℤ × ℤ × ℤ × ℤ
  type : ℤ
  size : ℕ
  deriving DecidableEq, Repr

structure DenseTensor where
  shape : TensorShape
  category : Category
  layer : ℤ
  srcs : List SrcSeg
  deriving DecidableEq, Repr

structure ExpertTensor where
  shape : TensorShape
  perExpert : ℕ
  branch : String
  layer : ℤ
  perExpertSrcs : List (List SrcSeg)
  deriving DecidableEq, Repr

structure Model where
  nLayer : ℕ
  nExpert : ℕ
  dense : List DenseTensor
  expert : List ExpertTensor
  deriving DecidableEq, Repr

def DenseTensor.plain (d : DenseTensor) : WriterPlan.DenseTensor where
  category := d.category
  layer := d.layer
  size := d.shape.size
  srcs := d.srcs

def ExpertTensor.plain (e : ExpertTensor) : WriterPlan.ExpertTensor where
  layer := e.layer
  size := e.shape.size
  perExpert := e.perExpert
  perExpertSrcs := e.perExpertSrcs

/-- What the plan of the writer reads. -/
def Model.plain (m : Model) : WriterPlan.Model where
  nLayer := m.nLayer
  nExpert := m.nExpert
  dense := m.dense.map DenseTensor.plain
  expert := m.expert.map ExpertTensor.plain

/-- The order of the sort at the end of `parse_model` -/
def ExpertTensor.Before (a b : ExpertTensor) : Prop :=
  a.layer < b.layer ∨ a.layer = b.layer ∧ branchOrder a.branch ≤ branchOrder b.branch

instance : DecidableRel ExpertTensor.Before := fun _ _ => inferInstanceAs (Decidable (_ ∨ _))

end model

section header

/-- A tensor of the table with its offset in the data. -/
structure TableEntry where
  shape : TensorShape
  offset : UInt64
  deriving DecidableEq, Repr

structure Chunk where
  no : ℕ
  total : ℕ
  slices : List UInt64
  deriving DecidableEq, Repr

/-- The metadata of a file with expert blocks; a strip file is incomplete. -/
structure Header where
  nLayer : UInt32
  nExpert : UInt32
  v3 : Bool
  branchAlign : Bool
  denseSection : List UInt64
  denseLayerSections : List UInt64
  expertMetaSections : List UInt64
  expertSections : List UInt64
  branchNames : List String
  branchSizes : List UInt64
  branchCounts : List UInt64
  chunk : Option Chunk
  tensors : List TableEntry
  deriving DecidableEq, Repr

def Model.order (m : Model) (target : Target) : List DenseTensor :=
  if target = .v2 then m.dense
  else m.dense.insertionSort fun a b =>
    rank a.category < rank b.category ∨ rank a.category = rank b.category ∧ a.layer ≤ b.layer

/-- `gguf_add_tensor` for one tensor after the other: each begins at a multiple of the alignment. -/
def placeShapes : ℕ → List TensorShape → List TableEntry
  | _, [] => []
  | cur, s :: ss => ⟨s, UInt64.ofNat cur⟩ :: placeShapes (alignUp (cur + s.size)) ss

def addSection (l : ℕ) (s : Option (ℕ × ℕ)) : List ℕ :=
  match s with
  | some (off, size) => [l, off, size]
  | none => []

def layerExperts (m : Model) (l : ℕ) : List ExpertTensor := m.expert.filter fun e => e.layer = l

def makeHeader (m : Model) (target : Target) (chunk : Option Chunk) : Header :=
  let placed := WriterPlan.items m.plain target
  let sections := fun c => (List.range m.nLayer).flatMap fun l =>
    (addSection l (WriterPlan.sectionOf placed (WriterPlan.inLayer c l))).map UInt64.ofNat
  { nLayer := UInt32.ofNat m.nLayer
    nExpert := UInt32.ofNat m.nExpert
    v3 := target ≠ .v2
    branchAlign := true
    denseSection :=
      if target = .v2 then [0, UInt64.ofNat (WriterPlan.blocksStart placed)]
      else match WriterPlan.sectionOf placed fun d => d.category = .denseGlobal with
        | some (off, size) => [UInt64.ofNat off, UInt64.ofNat size]
        | none => []
    denseLayerSections := sections .denseLayer
    expertMetaSections := sections .expertMeta
    expertSections := (WriterPlan.blocks m.plain target).flatMap fun b =>
      [UInt64.ofNat b.off, UInt64.ofNat b.size, UInt64.ofNat (layerExperts m b.layer).length]
    branchNames := (List.range m.nLayer).flatMap fun l => (layerExperts m l).map fun e => e.shape.name
    branchSizes := (List.range m.nLayer).flatMap fun l =>
      (layerExperts m l).map fun e => UInt64.ofNat e.perExpert
    branchCounts := (List.range m.nLayer).map fun l => UInt64.ofNat (layerExperts m l).length
    chunk
    tensors := placeShapes 0 ((m.order target).map DenseTensor.shape ++ m.expert.map ExpertTensor.shape) }

/-- The library for GGUF files: what it writes for a header, what it reads of a file, and where the data of
a file begin. -/
structure Gguf where
  write : Header → File UInt8
  read : File UInt8 → Option Header
  dataOffset : File UInt8 → ℕ

/-- From a file that begins with a written header that header is read, and the data begin behind it at a
multiple of the alignment. -/
def Gguf.Faithful (G : Gguf) (h : Header) : Prop :=
  ∀ f : File UInt8, (∀ a < (G.write h).len, f.read a = (G.write h).read a) →
    G.read f = some h ∧ G.dataOffset f = alignUp (G.write h).len

end header

section parse

variable (G : Gguf)

def openFile (f : String × File UInt8) : Except Failure Header :=
  match G.read f.2 with
  | some h => .ok h
  | none => .error (.thrown ("cannot open " ++ f.1))

/-- The strips and the start of the data of a file -/
def chunkFile (incomplete : Bool) (f : String × File UInt8) : Except Failure ChunkFile := do
  let h ← openFile G f
  if incomplete then
    match h.chunk with
    | some c => .ok ⟨c.slices, UInt64.ofNat (G.dataOffset f.2)⟩
    | none => .error (.thrown "missing/invalid stream_moe.chunk_slices")
  else .ok ⟨[], UInt64.ofNat (G.dataOffset f.2)⟩

/-- The metadata of the first file with the strips of all files; the table of the tensors is read apart. -/
def Header.blockFile (h : Header) (main : ChunkFile) (others : List ChunkFile) : BlockFile where
  nLayer := h.nLayer
  nExpert := h.nExpert
  v3 := h.v3
  incomplete := h.chunk.isSome
  branchAlign := h.branchAlign
  expertSections := h.expertSections
  branchNames := h.branchNames
  branchSizes := h.branchSizes
  branchCounts := h.branchCounts
  denseSection := h.denseSection
  denseLayerSections := h.denseLayerSections
  expertMetaSections := h.expertMetaSections
  main
  others
  tensors := []

/-- A tensor of the table with what its name says -/
def TableEntry.inLayer (t : TableEntry) (layer : ℤ) : Tensor where
  info :=
    { name := t.shape.name, offset := t.offset, size := UInt64.ofNat t.shape.size
      category := categoryOf t.shape.name, layer, branch := branchOf t.shape.name }
  ne2 := t.shape.ne.2.2.1

/-- The layer of a global tensor is not looked for. -/
def TableEntry.tensor (t : TableEntry) : Except Failure Tensor :=
  match if categoryOf t.shape.name = .denseGlobal then some (-1) else layerOf t.shape.name with
  | none => .error .undefined
  | some layer => .ok (t.inLayer layer)

/-- What a tensor of the table becomes. -/
inductive Entry
  | dense (d : DenseTensor)
  | expert (e : ExpertTensor)

def Entry.asDense : Entry → Option DenseTensor
  | .dense d => some d
  | .expert _ => none

def Entry.asExpert : Entry → Option ExpertTensor
  | .expert e => some e
  | .dense _ => none

def TableEntry.entry (t : TableEntry) : ChunkSet.Entry SrcSeg → Entry
  | .dense d => .dense { shape := t.shape, category := d.info.category, layer := d.layer, srcs := d.srcs }
  | .expert e => .expert
      { shape := t.shape, perExpert := e.perExpert.toNat, branch := e.info.branch, layer := e.info.layer
        perExpertSrcs := e.perExpertSrcs }

/-- One turn of the loop over the tensor table -/
def mapTensor (F : BlockFile) (L : Layout) (t : TableEntry) : Except Failure Entry := do
  let _ ← F.classify (t.inLayer (-1))
  let x ← t.tensor
  (F.mapTensor L x).map t.entry

/-- `parse_model` on the listed files with expert blocks -/
def parseModel (files : List (String × File UInt8)) : Except Failure Model :=
  match files with
  | [] => .error (.thrown "parse_model: no paths")
  | f :: fs => do
    let h ← openFile G f
    let main ← chunkFile G h.chunk.isSome f
    let others ← fs.mapM (chunkFile G h.chunk.isSome)
    let F := h.blockFile main others
    let L ← F.layout
    let _ ← L.blocks.zipIdx.mapM fun x => F.srcs L (.block x.2 x.1)
    let entries ← h.tensors.mapM (mapTensor F L)
    return { nLayer := h.nLayer.toNat, nExpert := h.nExpert.toNat
             dense := entries.filterMap Entry.asDense
             expert := (entries.filterMap Entry.asExpert).insertionSort ExpertTensor.Before }

end parse

section convert

structure Options where
  target : Target
  chunks : ℕ
  ratio : List ℤ
  deriving DecidableEq, Repr

def zeroPad (num width : ℕ) : String :=
  let s := (Nat.repr num).toList
  String.ofList (List.replicate (width - s.length) '0' ++ s)

def inferChunkPadWidth (input : String) : ℕ :=
  let name := (input.toList.reverse.takeWhile (· ≠ '/')).reverse
  let width := ((splitName name).1.reverse.takeWhile Char.isDigit).length
  if width = 0 then 5 else width

def chunkPath (outBase : String) (pad i : ℕ) : String := outBase ++ "-" ++ zeroPad (i + 1) pad ++ ".gguf"

variable (G : Gguf) (disk : Disk) (m : Model)

/-- What `write_single` leaves under its path when no file that is read is written. -/
def writeSingle (target : Target) (out : String) : Except Failure (String × File UInt8) :=
  let header := G.write (makeHeader m target none)
  (writeFile disk (alignUp header.len) header (WriterPlan.writeSingle m.plain target)).map fun f => (out, f)

def splitUnits (N : ℕ) (ratio : List ℤ) (units : List WriterPlan.ChunkUnit) :
    Except Failure (List (Fin N → ℤ)) :=
  units.mapM fun u =>
    if u.size % 4096 ≠ 0 then .error (.thrown "v3chunk: unit size not 4K aligned")
    else smSplitBlocks (u.size / 4096) N ratio

def sliceCount {N : ℕ} (splits : List (Fin N → ℤ)) (i u : ℕ) : ℕ :=
  match splits[u]? with
  | some sp => if h : i < N then (sp ⟨i, h⟩ % 2 ^ 64).toNat else 0
  | none => 0

/-- The same of file `i` of `write_v3_chunk` -/
def writeStrips {N : ℕ} (units : List WriterPlan.ChunkUnit) (splits : List (Fin N → ℤ)) (i : ℕ) :
    Except Failure (File UInt8) :=
  let slices := (List.range units.length).map fun u => UInt64.ofNat (sliceCount splits i u)
  let header := G.write (makeHeader m .v3 (some ⟨i, N, slices⟩))
  let regions := WriterPlan.chunkRegions (sliceCount splits) i 0 0 units
  writeFile disk (alignUp header.len) header
    (regions.flatMap WriterPlan.Region.ops, regions.flatMap WriterPlan.Region.fills)

/-- `write_v3_chunk`, which reads a global section that must be there -/
def writeV3Chunk (outBase : String) (N : ℕ) (ratio : List ℤ) (pad : ℕ) :
    Except Failure (List (String × File UInt8)) :=
  match WriterPlan.buildUnits m.plain with
  | none => .error .undefined
  | some units => do
    let splits ← splitUnits N ratio units
    (List.range N).mapM fun i =>
      (writeStrips G disk m units splits i).map fun f => (chunkPath outBase pad i, f)

def convertModel (opts : Options) (out : String) : Except Failure (List (String × File UInt8)) :=
  match opts.target with
  | .v3Chunk =>
      if opts.chunks < 1 then .error (.thrown "chunks must be >= 1")
      else writeV3Chunk G disk m out opts.chunks opts.ratio
        (inferChunkPadWidth ((disk.map Prod.fst).headD ""))
  | target => (writeSingle G disk m target out).map fun f => [f]

end convert

section spec

/-- What is kept of a tensor: its shape, what the name says, and the bytes, for an expert tensor those of each
expert. -/
structure Content where
  shape : TensorShape
  category : Category
  layer : ℤ
  branch : String
  data : List (Option (List UInt8))
  deriving DecidableEq

def DenseTensor.content (disk : Disk) (d : DenseTensor) : Content where
  shape := d.shape
  category := d.category
  layer := d.layer
  branch := ""
  data := [bytes disk d.srcs d.shape.size]

def ExpertTensor.content (disk : Disk) (e : ExpertTensor) : Content where
  shape := e.shape
  category := .expert
  layer := e.layer
  branch := e.branch
  data := e.perExpertSrcs.map fun srcs => bytes disk srcs e.perExpert

/-- What a model stands for. -/
def Model.contents (disk : Disk) (m : Model) : List Content :=
  m.dense.map (DenseTensor.content disk) ++ m.expert.map (ExpertTensor.content disk)

/-- A tensor that is no expert tensor, as `parse_model` makes them. -/
structure DenseTensor.Valid (nLayer : ℕ) (d : DenseTensor) : Prop where
  category : categoryOf d.shape.name = d.category
  notExpert : d.category ≠ .expert
  layer : if d.category = .denseGlobal then d.layer = -1
    else layerOf d.shape.name = some d.layer ∧ 0 ≤ d.layer ∧ d.layer < nLayer
  cuts : WriterPlan.Cuts d.srcs d.shape.size

structure ExpertTensor.Valid (nLayer nExpert : ℕ) (e : ExpertTensor) : Prop where
  category : categoryOf e.shape.name = .expert
  ne2 : e.shape.ne.2.2.1 = nExpert
  layerName : layerOf e.shape.name = some e.layer
  layer_nonneg : 0 ≤ e.layer
  layer_lt : e.layer < nLayer
  branch : e.branch = branchOf e.shape.name
  size : e.perExpert * nExpert = e.shape.size
  srcs : e.perExpertSrcs.length = nExpert
  cuts : ∀ srcs ∈ e.perExpertSrcs, WriterPlan.Cuts srcs e.perExpert

/-- A model as `parse_model` makes them, with the branches of a layer told apart by their tags. -/
structure Model.Valid (m : Model) : Prop where
  names : (m.dense.map (fun d => d.shape.name) ++ m.expert.map fun e => e.shape.name).Nodup
  dense : ∀ d ∈ m.dense, d.Valid m.nLayer
  expert : ∀ e ∈ m.expert, e.Valid m.nLayer m.nExpert
  experts : m.expert ≠ [] → m.nExpert ≠ 0
  sorted : m.expert.Pairwise ExpertTensor.Before
  branches : m.expert.Pairwise fun a b => a.layer = b.layer → a.branch ≠ b.branch

/-- The segments of all tensors lie in the files. -/
structure Model.Stored (disk : Disk) (m : Model) : Prop where
  dense : ∀ d ∈ m.dense, FileCopies.Stored disk d.srcs
  expert : ∀ e ∈ m.expert, ∀ srcs ∈ e.perExpertSrcs, FileCopies.Stored disk srcs

/-- The bytes that tensors and blocks take up in a file, with the space up to the alignment. -/
def Model.extent (m : Model) : ℕ :=
  (m.dense.map fun d => alignUp d.shape.size).sum + (m.expert.map fun e => alignUp e.shape.size).sum +
    ((List.range m.nLayer).map fun l =>
      m.nExpert * WriterPlan.branchEnd 0 (WriterPlan.layerExperts m.plain l)).sum

/-- Layers, units of the chunk files and blocks are counted in 32 bits. -/
structure Model.Counted (m : Model) : Prop where
  layers : m.nLayer < 2 ^ 31
  experts : m.nExpert < 2 ^ 32
  units : 1 + 2 * m.nLayer + m.nLayer * m.nExpert < 2 ^ 32

end spec

end ConvertModel
end StreamMoE
