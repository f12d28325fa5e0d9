import Mathlib.Data.List.SplitBy
import StreamMoE.ArenaLayout
import StreamMoE.LayerOrder
import StreamMoE.OfferSchedule

/-! The run of a captured graph as the executor dispatches it: segments of nodes on one device, and
the copies `select_relays` picks before and behind each of them. -/
namespace StreamMoE
namespace RelayRun

open ComputeGraph LayerPlan LayerPlan.Capture ArenaLayout LayerOrder OfferSchedule

variable {Dev : Type*} [DecidableEq Dev] (c : Capture) (m : Placement Dev)

section scope

inductive CallStage
  | head | tail | tailHead
  deriving DecidableEq, Repr

/-- `relay_scope_t`; `layerHead` is set for a fused pair, and a set that is not given is empty. -/
structure Scope (Dev : Type*) where
  layer : ℕ
  layerHead : Option ℕ
  segHasTail : Bool := true
  segHasHead : Bool := true
  incoming : Bool
  dev : Dev
  tailNodes : List ℕ := []
  graphNodes : List ℕ := []
  flushedDevs : List Dev := []
  stage : CallStage

/-- The walk along `view_src`, which is the root at once. -/
def relaySrcInSet (p : ℕ) (set : List ℕ) : Bool :=
  decide (p ∈ set) || (c.graph.viewSrc p).any fun r => decide (r ∈ set)

def fusedStage (sc : Scope Dev) (layerHead : ℕ) (s : Shell Dev) : Bool :=
  if sc.incoming then
    if s.layer = sc.layer ∧ sc.segHasTail = true then decide (s.stage = .tail)
    else if s.layer = layerHead ∧ sc.segHasHead = true then decide (s.stage = .layerFront)
    else false
  else
    if s.layer = sc.layer ∧ sc.segHasTail = true then decide (s.stage = .tail)
    else if s.layer = layerHead then
      -- what the tail makes leaves with the tail, everything else with the head
      (sc.segHasTail && decide (s.stage = .layerFront) && relaySrcInSet c s.producer sc.tailNodes) ||
        (sc.segHasHead && decide (s.stage = .layerFront ∨ s.stage = .closure) &&
          !relaySrcInSet c s.producer sc.tailNodes)
    else false

/-- The stages a call for one layer takes. -/
def singleStage (sc : Scope Dev) (s : Shell Dev) : Bool :=
  decide (s.layer = sc.layer) &&
    match sc.stage with
    | .head => !decide (s.stage = .tail) && !(sc.incoming && decide (s.stage = .closure))
    | .tail => decide (s.stage = .tail)
    | .tailHead => true

def matchesStage (sc : Scope Dev) (s : Shell Dev) : Bool :=
  match sc.layerHead with
  | some layerHead => fusedStage c sc layerHead s
  | none => singleStage sc s

/-- The device of the source as `dev_of` knows it: leaves are not in it. -/
def srcDev (s : Shell Dev) : Dev := nodeDev c m s.producer

def matchesDev (sc : Scope Dev) (s : Shell Dev) : Bool :=
  if sc.incoming then
    decide (s.dev = sc.dev) && !decide (srcDev c m s ∈ sc.flushedDevs) &&
      !relaySrcInSet c s.producer sc.graphNodes
  else decide (srcDev c m s = sc.dev)

def selects (sc : Scope Dev) (s : Shell Dev) : Bool := matchesStage c sc s && matchesDev c m sc s

end scope

section segments

/-- The arguments of `topo_segment_execute`. -/
structure TopoCall where
  list : List ℕ
  layer : ℕ
  stage : CallStage
  layerHead : Option ℕ := none
  tailLen : ℕ := 0

/-- Maximal runs of nodes of one device, each node with its position. -/
def segments (list : List ℕ) : List (List (ℕ × ℕ)) :=
  list.zipIdx.splitBy fun a b => decide (nodeDev c m a.1 = nodeDev c m b.1)

def segDev (seg : List (ℕ × ℕ)) : Dev := (seg.head?.map fun x => nodeDev c m x.1).getD m.host

def TopoCall.scope (t : TopoCall) (flushed : List Dev) (seg : List (ℕ × ℕ)) (incoming : Bool) :
    Scope Dev where
  layer := t.layer
  layerHead := t.layerHead
  segHasTail := t.layerHead.isNone || seg.head?.any fun x => decide (x.2 < t.tailLen)
  segHasHead := t.layerHead.isNone || seg.getLast?.any fun x => decide (t.tailLen ≤ x.2)
  incoming := incoming
  dev := segDev c m seg
  tailNodes := if t.layerHead.isSome then t.list.take t.tailLen else []
  flushedDevs := flushed
  stage := t.stage

/-- Copies to the device, the nodes, copies from the device. -/
def segmentLeg (t : TopoCall) (flushed : List Dev) (seg : List (ℕ × ℕ)) : Leg (Shell Dev) ℕ where
  before := selects c m (t.scope c m flushed seg true)
  nodes := seg.map Prod.fst
  after := selects c m (t.scope c m flushed seg false)

def segmentLegs (t : TopoCall) : List Dev → List (List (ℕ × ℕ)) → List (Leg (Shell Dev) ℕ)
  | _, [] => []
  | flushed, seg :: segs =>
      segmentLeg c m t flushed seg :: segmentLegs t (flushed ++ [segDev c m seg]) segs

def topoSegmentExecute (t : TopoCall) : List (Leg (Shell Dev) ℕ) :=
  segmentLegs c m t [] (segments c m t.list)

end segments

section calls

/-- What the executor runs: parts of a layer, the fused pair, or one graph on a device that holds
the closure, the tail and perhaps the next head. -/
inductive Call (Dev : Type*)
  | head (layer : ℕ)
  | closure (layer : ℕ)
  | tail (layer : ℕ)
  | tailHead (layer layerHead : ℕ)
  | deviceGraph (layer : ℕ) (next : Option ℕ) (dev : Dev)
  deriving DecidableEq, Repr

/-- The copies of what the closure made, ahead of the tail. -/
def preTail (L : ℕ) : Leg (Shell Dev) ℕ where
  before s := decide (s.layer = L ∧ s.stage = .tail ∧ srcDev c m s = m.closureDev)
  nodes := []
  after _ := false

def closureLeg (L : ℕ) : Leg (Shell Dev) ℕ where
  before _ := false
  nodes := c.compute L
  after _ := false

def nextNodes (next : Option ℕ) : List ℕ := (next.map c.head).getD []

def graphScope (L : ℕ) (next : Option ℕ) (D : Dev) (incoming : Bool) : Scope Dev where
  layer := L
  layerHead := next
  segHasHead := next.isSome
  incoming := incoming
  dev := D
  tailNodes := c.tail L
  graphNodes := if next.isSome then c.tail L ++ nextNodes c next else []
  stage := .tail

/-- The whole graph runs between one offer of copies to its device and one of copies from it. -/
def graphLeg (L : ℕ) (next : Option ℕ) (D : Dev) : Leg (Shell Dev) ℕ where
  before := selects c m (graphScope c L next D true)
  nodes := c.compute L ++ (c.tail L ++ nextNodes c next).filter fun p => !isAliasOp (c.graph.op p)
  after := selects c m (graphScope c L next D false)

def Call.legs : Call Dev → List (Leg (Shell Dev) ℕ)
  | .head L => topoSegmentExecute c m { list := c.head L, layer := L, stage := .head }
  | .closure L => [closureLeg c L]
  | .tail L =>
      preTail c m L :: topoSegmentExecute c m { list := c.tail L, layer := L, stage := .tail }
  | .tailHead L L' =>
      preTail c m L :: topoSegmentExecute c m
        { list := c.tail L ++ c.head L'
          layer := L
          stage := .tailHead
          layerHead := some L'
          tailLen := (c.tail L).length }
  | .deviceGraph L next D => [graphLeg c m L next D]

def legs (run : List (Call Dev)) : List (Leg (Shell Dev) ℕ) := run.flatMap (Call.legs c m)

/-- What happens in a run; a copy is an index of `g_relays`, and the copies made share one set. -/
def runEvents (run : List (Call Dev)) : List (Event (Fin (relays c m).length) ℕ) :=
  play (List.finRange (relays c m).length) []
    (beatsOf ((legs c m run).map (Leg.comap (relays c m).get)))

end calls

section executor

variable (fusion : ℕ → Fusion) (single : ℕ → Dev)

/-- The closure of the last layer with its tail. -/
def lastCalls (L : ℕ) : List (Call Dev) :=
  match fusion L with
  | .nothing => [.closure L, .tail L]
  | .tail | .tailAndHead => [.deviceGraph L none (single L)]

/-- The closure of a layer, its tail and the head behind it. -/
def pairCalls (L next : ℕ) : List (Call Dev) :=
  match fusion L with
  | .nothing => [.closure L, .tailHead L next]
  | .tail => [.deviceGraph L none (single L), .head next]
  | .tailAndHead => [.deviceGraph L (some next) (single L)]

def pipelineCalls : List ℕ → List (Call Dev)
  | [] => []
  | [last] => lastCalls fusion single last
  | L :: next :: rest => pairCalls fusion single L next ++ pipelineCalls (next :: rest)

def layerCalls : List ℕ → List (Call Dev)
  | [] => []
  | first :: rest => .head first :: pipelineCalls fusion single (first :: rest)

def Call.steps : Call Dev → List Step
  | .head L => [.head L]
  | .closure L => [.closure L]
  | .tail L => [.tail L]
  | .tailHead L L' => [.tail L, .head L']
  | .deviceGraph L next _ => [.closure L, .tail L] ++ (next.map Step.head).toList

omit [DecidableEq Dev] in
theorem pipelineCalls_steps (L : ℕ) (rest : List ℕ) :
    (pipelineCalls fusion single (L :: rest)).flatMap Call.steps = pipeline fusion (L :: rest) := by
  induction rest generalizing L with
  | nil =>
    simp only [pipelineCalls, lastCalls, pipeline]
    cases fusion L <;> rfl
  | cons next rest ih =>
    rw [pipelineCalls, List.flatMap_append, ih, pipeline, pairCalls]
    cases fusion L <;> rfl

omit [DecidableEq Dev] in
theorem layerCalls_steps (layers : List ℕ) :
    (layerCalls fusion single layers).flatMap Call.steps = layerSteps layers := by
  cases layers with
  | nil => rfl
  | cons first rest =>
    rw [layerCalls, List.flatMap_cons, pipelineCalls_steps]
    exact head_pipeline fusion first rest

end executor

section nodes

variable {c m}

theorem segments_flatten (list : List ℕ) : (segments c m list).flatten = list.zipIdx :=
  List.flatten_splitBy _ _

theorem segmentLegs_nodes (t : TopoCall) (flushed : List Dev) (segs : List (List (ℕ × ℕ))) :
    (segmentLegs c m t flushed segs).flatMap Leg.nodes = segs.flatten.map Prod.fst := by
  induction segs generalizing flushed with
  | nil => rfl
  | cons seg segs ih =>
    rw [segmentLegs, List.flatMap_cons, ih, List.flatten_cons, List.map_append]
    rfl

/-- The segments hold the list in its order. -/
theorem topoSegmentExecute_nodes (t : TopoCall) :
    (topoSegmentExecute c m t).flatMap Leg.nodes = t.list := by
  rw [topoSegmentExecute, segmentLegs_nodes, segments_flatten, List.zipIdx_map_fst]

theorem getElem?_segmentLegs (t : TopoCall) (flushed : List Dev) (segs : List (List (ℕ × ℕ))) (k : ℕ) :
    (segmentLegs c m t flushed segs)[k]? =
      segs[k]?.map (segmentLeg c m t (flushed ++ (segs.take k).map (segDev c m))) := by
  induction segs generalizing flushed k with
  | nil => rfl
  | cons seg segs ih =>
    cases k with
    | zero => simp [segmentLegs]
    | succ k =>
      rw [segmentLegs, List.getElem?_cons_succ, List.getElem?_cons_succ, ih, List.take_succ_cons,
        List.map_cons, List.append_assoc, List.singleton_append]

theorem getElem?_topoSegmentExecute (t : TopoCall) (k : ℕ) :
    (topoSegmentExecute c m t)[k]? = (segments c m t.list)[k]?.map
      (segmentLeg c m t (((segments c m t.list).take k).map (segDev c m))) := by
  rw [topoSegmentExecute, getElem?_segmentLegs, List.nil_append]

omit [DecidableEq Dev] in
theorem mem_flushed {segs : List (List (ℕ × ℕ))} {k : ℕ} {d : Dev} :
    d ∈ (segs.take k).map (segDev c m) ↔ ∃ i < k, ∃ seg, segs[i]? = some seg ∧ segDev c m seg = d := by
  rw [List.mem_map]
  constructor
  · rintro ⟨seg, hseg, hdev⟩
    obtain ⟨i, hi⟩ := List.mem_iff_getElem?.mp hseg
    rw [List.getElem?_take] at hi
    split at hi
    · rename_i hlt
      exact ⟨i, hlt, seg, hi, hdev⟩
    · cases hi
  · rintro ⟨i, hlt, seg, hi, hdev⟩
    refine ⟨seg, List.mem_iff_getElem?.mpr ⟨i, ?_⟩, hdev⟩
    rw [List.getElem?_take, if_pos hlt, hi]

/-- A call runs its parts in order; a graph on one device leaves the aliases of the dense ones
out. -/
theorem Call.legs_nodes (call : Call Dev) :
    ((call.legs c m).flatMap Leg.nodes).Sublist (call.steps.flatMap c.stepNodes) ∧
      ∀ n ∈ call.steps.flatMap c.stepNodes, isAliasOp (c.graph.op n) = false →
        n ∈ (call.legs c m).flatMap Leg.nodes := by
  have hall : ∀ l l' : List ℕ, l = l' →
      l.Sublist l' ∧ ∀ n ∈ l', isAliasOp (c.graph.op n) = false → n ∈ l := by
    rintro l _ rfl
    exact ⟨List.Sublist.refl l, fun n hn _ => hn⟩
  cases call with
  | head L =>
    refine hall _ _ ?_
    simp [Call.legs, Call.steps, topoSegmentExecute_nodes, stepNodes]
  | closure L =>
    refine hall _ _ ?_
    simp [Call.legs, Call.steps, closureLeg, stepNodes]
  | tail L =>
    refine hall _ _ ?_
    simp [Call.legs, Call.steps, topoSegmentExecute_nodes, stepNodes, preTail]
  | tailHead L L' =>
    refine hall _ _ ?_
    simp [Call.legs, Call.steps, topoSegmentExecute_nodes, stepNodes, preTail]
  | deviceGraph L next D =>
    have hparts : (Call.deviceGraph L next D).steps.flatMap c.stepNodes =
        c.compute L ++ (c.tail L ++ nextNodes c next) := by
      cases next <;> simp [Call.steps, stepNodes, nextNodes]
    rw [hparts]
    simp only [Call.legs, List.flatMap_singleton, graphLeg]
    refine ⟨(List.Sublist.refl _).append List.filter_sublist, fun n hn halias => ?_⟩
    rcases List.mem_append.mp hn with hn | hn
    · exact List.mem_append_left _ hn
    · exact List.mem_append_right _ (List.mem_filter.mpr ⟨hn, by rw [halias]; rfl⟩)

end nodes

end RelayRun
end StreamMoE
