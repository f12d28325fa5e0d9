import StreamMoE.LayerPlan
import StreamMoE.Packing

/-! The per-device arena of `layout_arena`: which captured tensors outlive their layer or unit, the
copies of operands from other devices, and the regions with the offsets inside them. -/
namespace StreamMoE
namespace ArenaLayout

open ComputeGraph LayerPlan LayerPlan.Capture Packing

/-- Where the nodes run and the leaves lie; `host` is the device of the empty name. -/
structure Placement (Dev : Type*) where
  physical : ℕ → Dev
  leafDev : ℕ → Option Dev
  host : Dev
  closureDev : Dev
  exportRetained : List ℕ
  compactPack : Bool

section carry

variable (c : Capture)

/-- The order of a set of pointers. -/
def byAddr (l : List ℕ) : List ℕ :=
  l.insertionSort fun a b => c.graph.addr a ≤ c.graph.addr b

/-- Read by a captured node of another layer. -/
def crossesLayer (p : ℕ) : Bool :=
  c.graph.nodes.any fun nd =>
    decide (p ∈ (c.graph.tensor nd).sources) && (c.nlayer nd).isSome && (c.nlayer p).isSome &&
      decide (c.nlayer nd ≠ c.nlayer p)

/-- The last layer that reads `p` from another layer. -/
def maxConsumer (p : ℕ) : ℕ :=
  c.graph.nodes.foldl (fun m nd =>
    if p ∈ (c.graph.tensor nd).sources ∧ c.nlayer nd ≠ c.nlayer p then max m ((c.nlayer nd).getD 0)
    else m) 0

variable {Dev : Type*} (m : Placement Dev)

/-- The roots the export reads after the run, as far as they are captured. -/
def retained : List ℕ :=
  (m.exportRetained.map c.graph.root).filter fun t => (c.nlayer t).isSome

def isCarry (p : ℕ) : Bool := crossesLayer c p || decide (p ∈ retained c m)

/-- Carried tensors with storage of their own. -/
def ownCarry : List ℕ :=
  byAddr c (c.graph.nodes.filter fun p => crossesLayer c p && (c.graph.viewSrc p).isNone)

/-- Read by the next layer at most. -/
def isPipelined (p : ℕ) : Bool := decide (maxConsumer c p ≤ (c.nlayer p).getD 0 + 1)

def carry1 : List ℕ := (ownCarry c).filter fun p => isPipelined c p && decide (p ∉ retained c m)

def carryN : List ℕ :=
  (retained c m).foldl (fun cN t => if t ∈ cN then cN else cN ++ [t])
    ((ownCarry c).filter fun p => !isPipelined c p)

end carry

section sync

variable (c : Capture)

/-- The unit that holds `p`, the last one if several do. -/
def unitOf (p : ℕ) : Option ℕ :=
  let units := c.units
  ((List.range units.length).reverse.find? fun k =>
      decide (p ∈ (units[k]?.map SubmissionUnit.nodes).getD [])).or
    ((c.nlayer p).bind fun L => units.findIdx? fun u => u.closureLayer == some L)

/-- Read, through views, by a unit other than its own; readers that alias are passed over. -/
def crossesUnit (p : ℕ) : Bool :=
  c.graph.nodes.any fun nd =>
    (c.graph.viewSrc nd).isNone && (unitOf c nd).isSome && decide (unitOf c nd ≠ unitOf c p) &&
      (c.graph.tensor nd).sources.any fun src => decide (producer c.graph src = p)

variable {Dev : Type*} (m : Placement Dev)

def isSync (p : ℕ) : Bool :=
  (unitOf c p).isSome && (c.graph.viewSrc p).isNone && !isCarry c m p && crossesUnit c p

def sync : List ℕ := byAddr c (c.graph.nodes.filter (isSync c m))

end sync

section relays

variable {Dev : Type*} [DecidableEq Dev] (c : Capture) (m : Placement Dev)

inductive Stage
  | layerFront | closure | tail
  deriving DecidableEq, Repr

/-- `dev_of`: closure nodes run where the experts are. -/
def devOf (p : ℕ) : Option Dev :=
  if c.exec.any fun e => decide (p ∈ e.2) then some m.closureDev
  else if (c.nlayer p).isSome then some (m.physical p)
  else none

/-- The device of a captured node, of a leaf's buffer, else the host. -/
def operandDev (p : ℕ) : Dev := ((devOf c m p).or (m.leafDev p)).getD m.host

def nodeDev (p : ℕ) : Dev := (devOf c m p).getD m.host

/-- A copy of `producer` on `dev` for one stage of a layer. -/
structure Shell (Dev : Type*) where
  producer : ℕ
  dev : Dev
  stage : Stage
  layer : ℕ
  deriving DecidableEq, Repr

def consumerStage (L p : ℕ) : Stage :=
  if p ∈ c.compute L then .closure else if p ∈ c.tail L then .tail else .layerFront

/-- The copy that replaces `src[s] = p` of the node `nd` of layer `L`, if there is one. -/
def shellFor (L nd s p : ℕ) : Option (Shell Dev) :=
  if nd ∈ c.compute L ∨ (c.graph.viewSrc p).isSome ∨ (c.graph.op nd = .mulMatId ∧ s = 0) ∨
      operandDev c m p = nodeDev c m nd then none
  else some
    { producer := p
      dev := nodeDev c m nd
      stage := if c.nlayer p = some L then consumerStage c L nd else .layerFront
      layer := L }

def slots (nd : ℕ) : List (ℕ × ℕ) :=
  (c.graph.tensor nd).src.zipIdx.filterMap fun x => x.1.map fun p => (x.2, p)

def nodeRelays (L nd : ℕ) : List (Shell Dev) :=
  (slots c nd).filterMap fun x => shellFor c m L nd x.1 x.2

/-- `g_relays`; a relay copies the producer of a shell into it. -/
def relays : List (Shell Dev) :=
  c.layers.flatMap fun L => (c.layerNodes L).flatMap (nodeRelays c m L)

def shells : List (Shell Dev) :=
  (relays c m).foldl (fun acc x => if x ∈ acc then acc else acc ++ [x]) []

/-- What a node reads once its sources are rewired. -/
inductive Operand (Dev : Type*)
  | tensor (p : ℕ)
  | shell (s : Shell Dev)
  deriving DecidableEq, Repr

def operand (nd s p : ℕ) : Operand Dev :=
  match (c.nlayer nd).bind fun L => shellFor c m L nd s p with
  | some shell => .shell shell
  | none => .tensor p

def operands (nd : ℕ) : List (Operand Dev) := (slots c nd).map fun x => operand c m nd x.1 x.2

/-- `while (src && is_view_op(src)) src = src->src[0]` on the rewired graph. -/
def resolveFrom : ℕ → ℕ → Operand Dev
  | 0, p => .tensor p
  | fuel + 1, p =>
      if isViewOp (c.graph.op p) then
        match (c.graph.tensor p).src0 with
        | none => .tensor p
        | some q =>
            match operand c m p 0 q with
            | .shell s => .shell s
            | .tensor q => resolveFrom fuel q
      else .tensor p

def resolve : Operand Dev → Operand Dev
  | .shell s => .shell s
  | .tensor p => resolveFrom c m p p

end relays

section plan

variable {Dev : Type*} [DecidableEq Dev] (c : Capture) (m : Placement Dev) (D : Dev)

def layerOf (p : ℕ) : ℕ := (c.nlayer p).getD 0

/-- The largest byte sum of the elements of one key. -/
def maxKeyBytes {α κ : Type*} [DecidableEq κ] (key : α → κ) (size : α → ℕ) (l : List α) : ℕ :=
  (l.map fun a => (keySizes key size (key a) l).sum).foldr max 0

/-- The size of a region whose elements are summed up for each key. -/
def regionBytes {α κ : Type*} [DecidableEq κ] (key : α → κ) (size : α → ℕ) (l : List α) : ℕ :=
  roundUp 64 (maxKeyBytes key size l)

def regionOffsets {α κ : Type*} [DecidableEq κ] (key : α → κ) (size : α → ℕ) (l : List α) :
    List (α × ℕ) :=
  bump 64 key size (fun _ => 0) l

def onDevice (l : List ℕ) : List ℕ := l.filter fun p => decide (nodeDev c m p = D)

/-- One half of the double buffer. -/
def carryHalf : ℕ := regionBytes (layerOf c) c.graph.nbytes (onDevice c m D (carry1 c m))

def carry1Offsets : List (ℕ × ℕ) :=
  (regionOffsets (layerOf c) c.graph.nbytes (onDevice c m D (carry1 c m))).map fun x =>
    (x.1, (if layerOf c x.1 % 2 ≠ 0 then carryHalf c m D else 0) + x.2)

/-- Retained tensors, all alive together. -/
def carryNItems : List Item :=
  let cn := onDevice c m D (carryN c m)
  cn.zipIdx.map fun x =>
    { index := x.2, size := c.graph.nbytes x.1, start := x.2, stop := cn.length }

def outOff (placed : List Placed) (i : ℕ) : ℕ :=
  ((placed.find? fun x => x.1.index == i).map Prod.snd).getD 0

def carryNOffsets : List (ℕ × ℕ) :=
  (onDevice c m D (carryN c m)).zipIdx.map fun x =>
    (x.1, outOff (packInterval (carryNItems c m D)) x.2)

def syncOffsets : List (ℕ × ℕ) :=
  regionOffsets (unitOf c) c.graph.nbytes (onDevice c m D (sync c m))

variable (u : SubmissionUnit)

def unitOrder : List ℕ := u.nodes.foldl (fun acc x => if x ∈ acc then acc else acc ++ [x]) []

def etime (nd : ℕ) : ℕ := (unitOrder u).idxOf nd

/-- The last time an operand of the unit resolves to `p`. -/
def lastEtime (p : ℕ) : Option ℕ :=
  (((unitOrder u).filter fun nd =>
    (operands c m nd).any fun o => decide (resolve c m o = .tensor p)).map (etime u)).max?

/-- The tensors of the unit in the window of `D`. -/
def windowNodes : List ℕ :=
  u.nodes.filter fun p =>
    (c.graph.viewSrc p).isNone && !isCarry c m p && !isSync c m p && decide (nodeDev c m p = D)

def liveEnd (p : ℕ) : ℕ :=
  match lastEtime c m u p with
  | none => (unitOrder u).length
  | some t => max t (etime u p)

def windowItems : List Item :=
  (windowNodes c m D u).zipIdx.map fun x =>
    { index := x.2, size := c.graph.nbytes x.1, start := etime u x.1, stop := liveEnd c m u x.1 }

/-- The window of a unit: its offsets and its bytes. -/
def window : List (ℕ × ℕ) × ℕ :=
  let cns := windowNodes c m D u
  if m.compactPack then
    let placed := packInterval (windowItems c m D u)
    (cns.zipIdx.map fun x => (x.1, outOff placed x.2), arena placed)
  else
    (bump 64 (fun _ => ()) c.graph.nbytes (fun _ => 0) cns,
      bumpEnd 64 0 (cns.map c.graph.nbytes))

def scratchSize : ℕ := (c.units.map fun u => (window c m D u).2).foldr max 0

/-- `scratch_off`, later entries last. -/
def scratchOffsets : List (ℕ × ℕ) := c.units.flatMap fun u => (window c m D u).1

/-- The shells of the slot of the tail, or of the other slot. -/
def slotShells (tail : Bool) : List (Shell Dev) :=
  (shells c m).filter fun s => decide (s.dev = D) && (decide (s.stage = .tail) == tail)

def shellBytes (s : Shell Dev) : ℕ := c.graph.nbytes s.producer

def xferStride (tail : Bool) : ℕ := regionBytes Shell.layer (shellBytes c) (slotShells c m D tail)

def xferOffsets (tail : Bool) : List (Shell Dev × ℕ) :=
  regionOffsets Shell.layer (shellBytes c) (slotShells c m D tail)

/-- The byte ranges reserved in the buffer of a device. -/
inductive Region
  | carry1 (odd : Bool)
  | carryN
  | sync
  | scratch
  | xfer (tail : Bool)
  deriving DecidableEq, Repr

def carryNSize : ℕ := arena (packInterval (carryNItems c m D))

def syncSize : ℕ := regionBytes (unitOf c) c.graph.nbytes (onDevice c m D (sync c m))

def Region.size : Region → ℕ
  | .carry1 _ => carryHalf c m D
  | .carryN => carryNSize c m D
  | .sync => syncSize c m D
  | .scratch => scratchSize c m D
  | .xfer tail => xferStride c m D tail

def offCarryN : ℕ := 2 * carryHalf c m D

def offSync : ℕ := offCarryN c m D + carryNSize c m D

def offScratch : ℕ := offSync c m D + syncSize c m D

def offXfer : ℕ := offScratch c m D + scratchSize c m D

def Region.start : Region → ℕ
  | .carry1 odd => if odd then carryHalf c m D else 0
  | .carryN => offCarryN c m D
  | .sync => offSync c m D
  | .scratch => offScratch c m D
  | .xfer tail => offXfer c m D + if tail then 0 else xferStride c m D true

/-- The bytes the buffer of the device is allocated with. -/
def need : ℕ := offXfer c m D + (xferStride c m D true + xferStride c m D false) + 4096

end plan

end ArenaLayout
end StreamMoE
