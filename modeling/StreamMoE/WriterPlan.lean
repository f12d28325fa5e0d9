import Mathlib.Data.List.GetD
import Mathlib.Data.List.Sort
import StreamMoE.DenseFill
import StreamMoE.Gaps

/-! The converter's writer: where the tensors and expert blocks of a model lie in the target, the
chunk units, and the copies and zero fills of a file. The code has `uint64_t` for the sizes and offsets,
which are unbounded numbers here: what is said is meant for models far below `2 ^ 64` bytes. -/
namespace StreamMoE
namespace WriterPlan

open DenseFill (SrcSeg)
open Gaps

inductive Category
  | denseLayer | denseGlobal | expert | expertMeta
  deriving DecidableEq, Repr

structure DenseTensor where
  category : Category
  layer : ℤ
  size : ℕ
  srcs : List SrcSeg

structure ExpertTensor where
  layer : ℤ
  size : ℕ
  perExpert : ℕ
  perExpertSrcs : List (List SrcSeg)

structure Model where
  nLayer : ℕ
  nExpert : ℕ
  dense : List DenseTensor
  expert : List ExpertTensor

inductive Target
  | v2 | v3 | v3Chunk
  deriving DecidableEq, Repr

inductive Item
  | dense (d : DenseTensor)
  | expert (e : ExpertTensor)

def Item.size : Item → ℕ
  | .dense d => d.size
  | .expert e => e.size

def alignUp (n : ℕ) : ℕ := (n + 4096 - 1) / 4096 * 4096

section plan

def rank : Category → ℕ
  | .denseGlobal => 0
  | .denseLayer => 1
  | .expertMeta => 2
  | .expert => 3

/-- `order_items`: global tensors, then those of the layers, then the expert tables; a stable sort -/
def orderItems (m : Model) (target : Target) : List Item :=
  (if target = .v2 then m.dense
    else m.dense.insertionSort fun a b =>
      rank a.category < rank b.category ∨ rank a.category = rank b.category ∧ a.layer ≤ b.layer).map
    .dense ++ m.expert.map .expert

/-- `p.off`: every tensor begins at the next multiple of the alignment. -/
def placeItems : ℕ → List Item → List (Item × ℕ)
  | _, [] => []
  | cur, it :: its => (it, cur) :: placeItems (alignUp (cur + it.size)) its

def items (m : Model) (target : Target) : List (Item × ℕ) := placeItems 0 (orderItems m target)

def denseItems (placed : List (Item × ℕ)) (p : DenseTensor → Bool) : List (DenseTensor × ℕ) :=
  placed.filterMap fun x => match x.1 with
    | .dense d => if p d then some (d, x.2) else none
    | .expert _ => none

def layerExperts (m : Model) (l : ℕ) : List ExpertTensor := m.expert.filter fun e => e.layer = l

/-- `et_branch_off` for the experts of one layer -/
def branches : ℕ → List ExpertTensor → List (ExpertTensor × ℕ)
  | _, [] => []
  | boff, e :: es => (e, boff) :: branches (alignUp (boff + e.perExpert)) es

def branchEnd : ℕ → List ExpertTensor → ℕ
  | boff, [] => boff
  | boff, e :: es => branchEnd (alignUp (boff + e.perExpert)) es

/-- The expert `expert` of layer `layer`, at `off` with `size` bytes. -/
structure Block where
  layer : ℕ
  expert : ℕ
  off : ℕ
  size : ℕ

def blocksStart (placed : List (Item × ℕ)) : ℕ :=
  alignUp ((denseItems placed fun _ => true).foldl (fun e x => max e (x.2 + x.1.size)) 0)

def placeBlocks (m : Model) : ℕ → List (ℕ × ℕ) → List Block
  | _, [] => []
  | cur, (l, e) :: rest =>
      let size := branchEnd 0 (layerExperts m l)
      { layer := l, expert := e, off := cur, size } :: placeBlocks m (cur + size) rest

def blocks (m : Model) (target : Target) : List Block :=
  placeBlocks m (blocksStart (items m target))
    ((List.range m.nLayer).flatMap fun l => (List.range m.nExpert).map fun e => (l, e))

/-- `[first, align_up(last) - first]` of the dense items with a property, if there are any -/
def sectionOf (placed : List (Item × ℕ)) (p : DenseTensor → Bool) : Option (ℕ × ℕ) :=
  ((denseItems placed p).map Prod.snd).min?.map fun first =>
    (first, alignUp ((denseItems placed p).foldl (fun e x => max e (x.2 + x.1.size)) 0) - first)

end plan

section units

structure ContentItem where
  logOff : ℕ
  len : ℕ
  srcs : List SrcSeg

structure ChunkUnit where
  off : ℕ
  size : ℕ
  content : List ContentItem

def sectionUnit (placed : List (Item × ℕ)) (p : DenseTensor → Bool) : Option ChunkUnit :=
  (sectionOf placed p).map fun s =>
    { off := s.1, size := s.2
      content := (denseItems placed p).map fun x =>
        { logOff := x.2 - s.1, len := x.1.size, srcs := x.1.srcs } }

def inLayer (c : Category) (l : ℕ) (d : DenseTensor) : Bool := d.category = c ∧ d.layer = l

def blockUnit (m : Model) (b : Block) : ChunkUnit :=
  { off := b.off, size := b.size
    content := (branches 0 (layerExperts m b.layer)).map fun x =>
      { logOff := x.2, len := x.1.perExpert, srcs := x.1.perExpertSrcs.getD b.expert [] } }

/-- `build_units`, which reads a global section that must be there -/
def buildUnits (m : Model) : Option (List ChunkUnit) :=
  let placed := items m .v3
  (sectionUnit placed fun d => d.category = .denseGlobal).map fun g =>
    g :: ((List.range m.nLayer).filterMap fun l => sectionUnit placed (inLayer .denseLayer l)) ++
      ((List.range m.nLayer).filterMap fun l => sectionUnit placed (inLayer .expertMeta l)) ++
      (blocks m .v3).map (blockUnit m)

end units

section ops

structure CopyOp where
  file : ℕ
  srcOff : ℕ
  len : ℕ
  dstRel : ℕ
  deriving DecidableEq, Repr

def copyPart (dst relStart relEnd : ℕ) (src : SrcSeg) : Option CopyOp :=
  if src.inOff + src.len ≤ relStart ∨ src.inOff ≥ relEnd then none
  else
    let a := max relStart src.inOff
    let b := min relEnd (src.inOff + src.len)
    some { file := src.file, srcOff := src.off + (a - src.inOff), len := b - a, dstRel := dst + (a - relStart) }

def contentToOps (content : List ContentItem) (start len dstBase : ℕ) : List CopyOp :=
  content.flatMap fun item =>
    if item.logOff + item.len ≤ start ∨ item.logOff ≥ start + len then []
    else
      let s := max start item.logOff
      let e := min (start + len) (item.logOff + item.len)
      item.srcs.filterMap (copyPart (dstBase + (s - start)) (s - item.logOff) (e - item.logOff))

/-- The ranges that were copied, relative to the strip, in order. -/
def covered (base : ℕ) (ops : List CopyOp) : List (ℕ × ℕ) :=
  (ops.map fun o => (o.dstRel - base, o.dstRel - base + o.len)).insertionSort fun c d =>
    c.1 < d.1 ∨ c.1 = d.1 ∧ c.2 ≤ d.2

/-- What is written for one strip or block: the region and its operations. -/
structure Region where
  base : ℕ
  len : ℕ
  ops : List CopyOp
  fills : List (ℕ × ℕ)

/-- The strip of `len` bytes from `start` of a unit, written at `base`; the loop over the covered
ranges is that of `gaps`. -/
def strip (unit : ChunkUnit) (start len base : ℕ) : Region :=
  let ops := contentToOps unit.content start len base
  { base, len, ops
    fills := (gaps len 0 (covered base ops)).map fun f => (base + f.1, f.2) }

/-- `write_v3_chunk` for file `i`: the strips of all units that are not empty, with `slices f u` blocks
of unit `u` in file `f` -/
def chunkRegions (slices : ℕ → ℕ → ℕ) (i : ℕ) : ℕ → ℕ → List ChunkUnit → List Region
  | _, _, [] => []
  | u, cum, unit :: units =>
      let rest := chunkRegions slices i (u + 1) (cum + slices i u) units
      if slices i u = 0 then rest
      else
        strip unit (((List.range i).map fun f => slices f u).sum * 4096) (slices i u * 4096) (cum * 4096) ::
          rest

def blockOps (m : Model) (b : Block) : List CopyOp :=
  (branches 0 (layerExperts m b.layer)).flatMap fun x =>
    (x.1.perExpertSrcs.getD b.expert []).map fun s =>
      { file := s.file, srcOff := s.off, len := s.len, dstRel := b.off + x.2 + s.inOff }

/-- The pads between the branches and the tail of a block. -/
def blockFills (off size : ℕ) : ℕ → List (ExpertTensor × ℕ) → List (ℕ × ℕ)
  | cursor, [] => if cursor < size then [(off + cursor, size - cursor)] else []
  | cursor, x :: rest =>
      (if x.2 > cursor then [(off + cursor, x.2 - cursor)] else []) ++
        blockFills off size (x.2 + x.1.perExpert) rest

def blockRegion (m : Model) (b : Block) : Region :=
  { base := b.off, len := b.size, ops := blockOps m b
    fills := blockFills b.off b.size 0 (branches 0 (layerExperts m b.layer)) }

def denseOps (m : Model) (target : Target) : List CopyOp :=
  (denseItems (items m target) fun _ => true).flatMap fun x => x.1.srcs.map fun s =>
    { file := s.file, srcOff := s.off, len := s.len, dstRel := x.2 + s.inOff }

def writeSingle (m : Model) (target : Target) : List CopyOp × List (ℕ × ℕ) :=
  (denseOps m target ++ (blocks m target).flatMap fun b => (blockRegion m b).ops,
    (blocks m target).flatMap fun b => (blockRegion m b).fills)

/-- `write_v3_chunk` for file `i`: copies and fills -/
def writeChunk (m : Model) (slices : ℕ → ℕ → ℕ) (i : ℕ) : Option (List CopyOp × List (ℕ × ℕ)) :=
  (buildUnits m).map fun units =>
    ((chunkRegions slices i 0 0 units).flatMap Region.ops,
      (chunkRegions slices i 0 0 units).flatMap Region.fills)

end ops

section spec

/-- The segments partition the bytes of a tensor. -/
structure Cuts (srcs : List SrcSeg) (size : ℕ) : Prop where
  inside : ∀ s ∈ srcs, s.inOff + s.len ≤ size
  once : ∀ p < size, hits SrcSeg.inOff (fun s => s.len) srcs p = 1

/-- The segments of every tensor partition it. -/
structure Model.Cut (m : Model) : Prop where
  dense : ∀ d ∈ m.dense, Cuts d.srcs d.size
  expert : ∀ e ∈ m.expert, e.perExpertSrcs.length = m.nExpert ∧
    ∀ srcs ∈ e.perExpertSrcs, Cuts srcs e.perExpert

def opHits (ops : List CopyOp) (p : ℕ) : ℕ := hits CopyOp.dstRel CopyOp.len ops p

def fillHits (fills : List (ℕ × ℕ)) (p : ℕ) : ℕ := hits Prod.fst Prod.snd fills p

/-- The copies of a region do not meet, the fills write what they leave, and the whole file writes no
byte of the region a second time. -/
structure WrittenOnce (r : Region) (file : List CopyOp × List (ℕ × ℕ)) : Prop where
  disjoint : r.ops.Pairwise fun x y =>
    ∀ p, ¬ (Covers CopyOp.dstRel CopyOp.len x p ∧ Covers CopyOp.dstRel CopyOp.len y p)
  inside : ∀ o ∈ r.ops, ∀ p, Covers CopyOp.dstRel CopyOp.len o p → r.base ≤ p ∧ p < r.base + r.len
  complement : ∀ p, (∃ f ∈ r.fills, Covers Prod.fst Prod.snd f p) ↔
    r.base ≤ p ∧ p < r.base + r.len ∧ ¬ ∃ o ∈ r.ops, Covers CopyOp.dstRel CopyOp.len o p
  once : ∀ p, r.base ≤ p → p < r.base + r.len → opHits r.ops p + fillHits r.fills p = 1
  alone : ∀ p, r.base ≤ p → p < r.base + r.len → opHits file.1 p + fillHits file.2 p = 1

end spec

end WriterPlan
end StreamMoE
