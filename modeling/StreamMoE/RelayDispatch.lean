import StreamMoE.AsyncCopies
import StreamMoE.RelaySteps

/-! The transfers between devices and the segments they surround: `dispatch_relay_batch` with its pinned
staging, `run_dense_subgraph` and `topo_segment_execute`. -/
namespace StreamMoE
namespace RelayDispatch

open AsyncCopies ComputeGraph LayerPlan ArenaLayout Packing

/-- What the devices and the tensor library give: a backend of a device, whether it only stands for the
CPU, pinned host buffers, the operations a device supports, the tensors with data, whether a graph of some
nodes is made and computed, and the order in which a map of devices is walked. -/
structure Platform (Dev : Type*) where
  backend : Dev → Bool
  shim : Dev → Bool
  hostBuft : Dev → Bool
  grant : ℕ → ℕ → Bool
  supports : Dev → ℕ → Bool
  data : ℕ → Bool
  newGraph : ℕ → Bool
  success : Dev → List ℕ → Bool
  order : List Dev → List Dev
  order_perm : ∀ l, (order l).Perm l

section staging

variable {Dev : Type*} [DecidableEq Dev] (P : Platform Dev)

/-- `pinned_staging_t`; buffers are numbered in the order they are asked for. -/
structure Staging (Dev : Type*) where
  buf : Option ℕ := none
  size : ℕ := 0
  dev : Option Dev := none
  asked : ℕ := 0

def Staging.freed (s : Staging Dev) : List (Event Dev ℕ) := s.buf.toList.map Event.free

/-- The buffer of another device goes first. -/
def Staging.moveTo (s : Staging Dev) (d : Dev) : Staging Dev × List (Event Dev ℕ) :=
  if s.dev ≠ some d ∧ s.buf.isSome then ({ s with buf := none, size := 0, dev := some d }, s.freed)
  else ({ s with dev := some d }, [])

def ensure (d : Dev) (needed : ℕ) (s : Staging Dev) : Staging Dev × List (Event Dev ℕ) :=
  let (s, gone) := s.moveTo d
  if needed ≤ s.size ∧ s.buf.isSome then (s, gone)
  else if P.hostBuft d = false then ({ s with buf := none }, gone ++ s.freed)
  else if P.grant s.asked (roundUp 65536 needed) then
    ({ s with buf := some s.asked, size := roundUp 65536 needed, asked := s.asked + 1 }, gone ++ s.freed)
  else ({ s with buf := none, size := 0, asked := s.asked + 1 }, gone ++ s.freed)

/-- `g_pinned_h2d` and `g_pinned_d2h`. -/
structure Stagings (Dev : Type*) where
  up : Staging Dev := {}
  down : Staging Dev := {}

end staging

section dispatch

variable {Dev : Type*} [DecidableEq Dev] (c : Capture) (m : Placement Dev) (P : Platform Dev)

/-- The relays with something to copy from a buffer on one device to one on another. -/
def between (source dest : Dev) (batch : List (Shell Dev)) : List (Shell Dev) :=
  batch.filter fun r => decide (c.graph.nbytes r.producer ≠ 0 ∧ operandDev c m r.producer = source ∧
    r.dev = dest)

/-- The bytes of a group in the staging, each item from a multiple of 256 on. -/
def needed (items : List (Shell Dev)) : ℕ :=
  (items.map fun r => roundUp 256 (c.graph.nbytes r.producer)).sum

/-- One group of uploads: packed, copied and waited for, unless `skip` is its device. Without a staging
or a backend the copies are synchronous. -/
def uploadGroup (skip : Option Dev) (batch : List (Shell Dev)) (d : Dev) (s : Staging Dev) :
    Staging Dev × List (Event Dev ℕ) :=
  let items := between c m m.host d batch
  if items = [] then (s, [])
  else
    let (s, gone) := ensure P d (needed c items) s
    match s.buf with
    | some b =>
        if P.backend d then
          (s, gone ++ items.map (fun _ => .write b) ++ items.map (fun _ => .copy d b) ++
            if skip = some d then [] else [.sync d])
        else (s, gone)
    | none => (s, gone)

/-- One group of downloads; a single one is read directly. -/
def downloadGroup (batch : List (Shell Dev)) (d : Dev) (s : Staging Dev) :
    Staging Dev × List (Event Dev ℕ) :=
  let items := between c m d m.host batch
  if items.length ≤ 1 then (s, [])
  else
    let (s, _) := ensure P d (needed c items) s
    (s, if s.buf.isSome ∧ P.backend d then [.sync d] else [])

def eachGroup (group : Dev → Staging Dev → Staging Dev × List (Event Dev ℕ)) :
    List Dev → Staging Dev → Staging Dev × List (Event Dev ℕ)
  | [], s => (s, [])
  | d :: ds, s =>
      let (s, first) := group d s
      let (s, rest) := eachGroup group ds s
      (s, first ++ rest)

/-- The devices that are sent something from the host. -/
def uploadDevs (batch : List (Shell Dev)) : List Dev :=
  ((batch.filter fun r => decide (c.graph.nbytes r.producer ≠ 0 ∧ operandDev c m r.producer = m.host ∧
    r.dev ≠ m.host)).map Shell.dev).dedup

def downloadDevs (batch : List (Shell Dev)) : List Dev :=
  ((batch.filter fun r => decide (c.graph.nbytes r.producer ≠ 0 ∧ operandDev c m r.producer ≠ m.host ∧
    r.dev = m.host)).map fun r => operandDev c m r.producer).dedup

/-- `dispatch_relay_batch`; copies inside the host and between devices are synchronous. -/
def dispatch (skip : Option Dev) (batch : List (Shell Dev)) (s : Stagings Dev) :
    Stagings Dev × List (Event Dev ℕ) :=
  let (up, sent) := eachGroup (uploadGroup c m P skip batch) (P.order (uploadDevs c m batch)) s.up
  let (down, got) := eachGroup (downloadGroup c m P batch) (P.order (downloadDevs c m batch)) s.down
  (⟨up, down⟩, sent ++ got)

end dispatch

section segment

variable {Dev : Type*} [DecidableEq Dev] (c : Capture) (m : Placement Dev) (P : Platform Dev)

/-- The device whose backend computes a segment, if there is one. -/
def target (d : Dev) : Option Dev :=
  if d = m.host then some m.host
  else if P.backend d = false then none
  else if P.shim d then some m.host
  else some d

def graphNodes (nodes : List ℕ) : List ℕ :=
  nodes.filter fun p => !isAliasOp (c.graph.op p) && P.data p

def supported (be : Dev) (nodes : List ℕ) : Bool :=
  nodes.all fun p => isAliasOp (c.graph.op p) || decide (c.graph.op p = .none) || P.supports be p

/-- `flush_segment` and `run_dense_subgraph`: a device is waited for once it has computed. -/
def flushSegment (d : Dev) (nodes : List ℕ) : List (Event Dev ℕ) × Bool :=
  match target m P d with
  | none => ([], false)
  | some be =>
      if supported c P be nodes = false then ([], false)
      else if graphNodes c P nodes = [] then ([], true)
      else if P.newGraph (graphNodes c P nodes).length = false then ([], false)
      else (if be = m.host then [] else [.sync be], P.success be (graphNodes c P nodes))

/-- A segment with the transfers before it and behind it. -/
structure Segment (Dev : Type*) where
  dev : Dev
  nodes : List ℕ
  incoming : List (Shell Dev)
  boundary : List (Shell Dev)
  deriving DecidableEq, Repr

/-- One turn of `topo_segment_execute`. -/
def runSegment (x : Segment Dev) (s : Stagings Dev) : Stagings Dev × List (Event Dev ℕ) × Bool :=
  let (s, sent) := dispatch c m P (some x.dev) x.incoming s
  let (computed, ok) := flushSegment c m P x.dev x.nodes
  if ok then
    let (s, copied) := dispatch c m P none x.boundary s
    (s, sent ++ computed ++ copied, true)
  else (s, sent ++ computed, false)

def runSegments : List (Segment Dev) → Stagings Dev → Stagings Dev × List (Event Dev ℕ)
  | [], s => (s, [])
  | x :: xs, s =>
      let (s, first, ok) := runSegment c m P x s
      if ok then
        let (s, rest) := runSegments xs s
        (s, first ++ rest)
      else (s, first)

end segment

section walk

variable {Dev : Type*} [DecidableEq Dev] (c : Capture) (m : Placement Dev)

/-- The label of a pass over a list of nodes. -/
inductive Part
  | head | tail | tailHead
  deriving DecidableEq, Repr

structure Scope (Dev : Type*) where
  layer : ℕ
  layerHead : Option ℕ
  segHasTail : Bool
  segHasHead : Bool
  incoming : Bool
  dev : Dev
  tailNodes : List ℕ
  flushed : List Dev
  part : Part

/-- In a fused pass: the tail of one layer and the head of another. A relayed tensor is no view, so that
its own place tells whether the tail makes it. -/
def fusedMatch (s : Scope Dev) (layerHead : ℕ) (r : Shell Dev) : Bool :=
  if r.layer = s.layer ∧ s.segHasTail then decide (r.stage = .tail)
  else if s.incoming then
    decide (r.layer = layerHead) && s.segHasHead && decide (r.stage = .layerFront)
  else
    decide (r.layer = layerHead) &&
      ((s.segHasTail && decide (r.stage = .layerFront) && decide (r.producer ∈ s.tailNodes)) ||
        (s.segHasHead && decide (r.stage = .layerFront ∨ r.stage = .closure) &&
          decide (r.producer ∉ s.tailNodes)))

/-- In a pass over one layer. -/
def plainMatch (s : Scope Dev) (r : Shell Dev) : Bool :=
  decide (r.layer = s.layer) &&
    match s.part with
    | .head => if s.incoming then decide (r.stage = .layerFront) else decide (r.stage ≠ .tail)
    | .tail => decide (r.stage = .tail)
    | .tailHead => true

def selected (s : Scope Dev) (r : Shell Dev) : Bool :=
  (match s.layerHead with
    | some L => fusedMatch s L r
    | none => plainMatch s r) &&
  if s.incoming then decide (r.dev = s.dev) && decide (nodeDev c m r.producer ∉ s.flushed)
  else decide (nodeDev c m r.producer = s.dev)

/-- `select_relays`: the places of the relays that are copied next. -/
def selectRelays (s : Scope Dev) (executed : List ℕ) : List (Shell Dev × ℕ) :=
  (relays c m).zipIdx.filter fun e => decide (e.2 ∉ executed) && selected c m s e.1

/-- Neighbours on one device, with the place of the first node. -/
def segmentsFrom (dev : Dev) (start : ℕ) (seg : List ℕ) : List ℕ → List (Dev × ℕ × List ℕ)
  | [] => [(dev, start, seg)]
  | p :: rest =>
      if nodeDev c m p = dev then segmentsFrom dev start (seg ++ [p]) rest
      else (dev, start, seg) :: segmentsFrom (nodeDev c m p) (start + seg.length) [p] rest

/-- A pass over a list of nodes: `layer_head` and `tail_len` of a fused one. -/
structure Pass where
  list : List ℕ
  layer : ℕ
  layerHead : Option ℕ
  tailLen : ℕ
  part : Part

def scopeOf (a : Pass) (incoming : Bool) (flushed : List Dev) (x : Dev × ℕ × List ℕ) : Scope Dev where
  layer := a.layer
  layerHead := a.layerHead
  segHasTail := a.layerHead.isNone || decide (x.2.1 < a.tailLen)
  segHasHead := a.layerHead.isNone || decide (a.tailLen ≤ x.2.1 + x.2.2.length - 1)
  incoming := incoming
  dev := x.1
  tailNodes := if a.layerHead.isSome then a.list.take a.tailLen else []
  flushed := flushed
  part := a.part

/-- The transfers of the segments, each made once. -/
def withRelays (a : Pass) : List ℕ → List Dev → List (Dev × ℕ × List ℕ) → List (Segment Dev)
  | _, _, [] => []
  | executed, flushed, x :: xs =>
      let incoming := selectRelays c m (scopeOf a true flushed x) executed
      let executed := executed ++ incoming.map Prod.snd
      let boundary := selectRelays c m (scopeOf a false [] x) executed
      ⟨x.1, x.2.2, incoming.map Prod.fst, boundary.map Prod.fst⟩ ::
        withRelays a (executed ++ boundary.map Prod.snd) (flushed ++ [x.1]) xs

def topoSegments (a : Pass) (executed : List ℕ) : List (Segment Dev) :=
  match a.list with
  | [] => []
  | p :: rest => withRelays c m a executed [] (segmentsFrom c m (nodeDev c m p) 0 [p] rest)

end walk

section calls

variable {Dev : Type*} [DecidableEq Dev]

/-- What uses the staging: a pass, and the transfers before a tail and around the graph of a closure. -/
inductive Call (Dev : Type*)
  | topo (a : Pass) (executed : List ℕ)
  | copies (batch : List (Shell Dev))

/-- A call, with the graph, the placement and the devices it meets. -/
structure Action (Dev : Type*) where
  capture : Capture
  placement : Placement Dev
  platform : Platform Dev
  call : Call Dev

/-- The staging areas and what happened so far. -/
structure Run (Dev : Type*) where
  stagings : Stagings Dev
  trace : List (Event Dev ℕ)

def step (s : Run Dev) (a : Action Dev) : Run Dev :=
  match a.call with
  | .topo pass executed =>
      let (stagings, events) := runSegments a.capture a.placement a.platform
        (topoSegments a.capture a.placement pass executed) s.stagings
      ⟨stagings, s.trace ++ events⟩
  | .copies batch =>
      let (stagings, events) := dispatch a.capture a.placement a.platform none batch s.stagings
      ⟨stagings, s.trace ++ events⟩

end calls

section runs

variable {Dev : Type*} [DecidableEq Dev] {c : Capture} {m : Placement Dev}

def Part.callStage : Part → RelayRun.CallStage
  | .head => .head
  | .tail => .tail
  | .tailHead => .tailHead

def Scope.ofCall (s : Scope Dev) : RelayRun.Scope Dev where
  layer := s.layer
  layerHead := s.layerHead
  segHasTail := s.segHasTail
  segHasHead := s.segHasHead
  incoming := s.incoming
  dev := s.dev
  tailNodes := s.tailNodes
  flushedDevs := s.flushed
  stage := s.part.callStage

theorem selected_eq {r : Shell Dev} (hr : r ∈ relays c m) (s : Scope Dev) :
    selected c m s r = RelayRun.selects c m s.ofCall r := by
  obtain ⟨L, hL, hnodes⟩ := List.mem_flatMap.mp hr
  obtain ⟨n, hn, hrelay⟩ := List.mem_flatMap.mp hnodes
  obtain ⟨⟨k, p⟩, hslot, hshell⟩ := List.mem_filterMap.mp hrelay
  have hown : c.graph.viewSrc r.producer = none := (RelaySteps.reader_of_shellFor hn hslot hshell).own
  have hset : ∀ set, RelayRun.relaySrcInSet c r.producer set = decide (r.producer ∈ set) := by
    intro set
    rw [RelayRun.relaySrcInSet, hown, Option.any_none, Bool.or_false]
  have hdev : RelayRun.matchesDev c m s.ofCall r =
      if s.incoming then decide (r.dev = s.dev) && decide (nodeDev c m r.producer ∉ s.flushed)
      else decide (nodeDev c m r.producer = s.dev) := by
    unfold RelayRun.matchesDev
    simp only [hset]
    by_cases hin : s.incoming = true <;> simp [Scope.ofCall, RelayRun.srcDev, hin]
  have hstage : RelayRun.matchesStage c s.ofCall r =
      match s.layerHead with
      | some L => fusedMatch s L r
      | none => plainMatch s r := by
    unfold RelayRun.matchesStage
    cases hhead : s.layerHead with
    | some L =>
      simp only [Scope.ofCall, hhead, RelayRun.fusedStage, fusedMatch, hset]
      split <;> split <;> grind
    | none =>
      simp only [Scope.ofCall, hhead, RelayRun.singleStage, plainMatch]
      cases s.part <;> cases s.incoming <;> cases r.stage <;> simp [Part.callStage]
  rw [RelayRun.selects, hdev, hstage]
  rfl

/-- Neighbours on one device, with their positions. -/
theorem segmentsFrom_eq (rest : List ℕ) : ∀ {dev : Dev} {start : ℕ} {seg : List ℕ}, seg ≠ [] →
    (∀ p ∈ seg, nodeDev c m p = dev) →
    (segmentsFrom c m dev start seg rest).map (fun x => (x.1, x.2.2.zipIdx x.2.1)) =
      (((seg ++ rest).zipIdx start).splitBy fun a b => decide (nodeDev c m a.1 = nodeDev c m b.1)).map
        fun seg => (RelayRun.segDev c m seg, seg) := by
  have hchain : ∀ {dev : Dev} {seg : List ℕ} (start : ℕ), (∀ p ∈ seg, nodeDev c m p = dev) →
      (seg.zipIdx start).IsChain fun a b => decide (nodeDev c m a.1 = nodeDev c m b.1) = true := by
    intro dev seg start hall
    refine (List.pairwise_of_forall_mem_list fun a ha b hb => ?_).isChain
    rw [decide_eq_true_iff, hall a.1 (List.fst_mem_of_mem_zipIdx ha), hall b.1 (List.fst_mem_of_mem_zipIdx hb)]
  have hdev : ∀ {dev : Dev} {seg : List ℕ} (start : ℕ), seg ≠ [] → (∀ p ∈ seg, nodeDev c m p = dev) →
      RelayRun.segDev c m (seg.zipIdx start) = dev := by
    intro dev seg start hne hall
    obtain ⟨p, seg, rfl⟩ := List.exists_cons_of_ne_nil hne
    exact hall p List.mem_cons_self
  induction rest with
  | nil =>
    intro dev start seg hne hall
    rw [List.append_nil, List.splitBy_of_isChain (by simpa using hne) (hchain start hall), List.map_singleton,
      hdev start hne hall]
    rfl
  | cons p rest ih =>
    intro dev start seg hne hall
    rw [segmentsFrom]
    by_cases hp : nodeDev c m p = dev
    · rw [if_pos hp, ih (by simp) (by simpa [or_imp, forall_and] using ⟨hall, hp⟩), List.append_assoc,
        List.singleton_append]
    · have hsplit : ∀ x ∈ (seg.zipIdx start).getLast?,
          ∀ y ∈ ((p :: rest).zipIdx (start + seg.length)).head?,
            decide (nodeDev c m x.1 = nodeDev c m y.1) = false := by
        intro x hx y hy
        obtain rfl : (p, start + seg.length) = y := by simpa using hy
        rw [decide_eq_false_iff_not, hall x.1 (List.fst_mem_of_mem_zipIdx (List.mem_of_getLast? hx))]
        exact Ne.symm hp
      have hjoin : ((seg ++ p :: rest).zipIdx start).splitBy
          (fun a b => decide (nodeDev c m a.1 = nodeDev c m b.1)) =
            seg.zipIdx start :: ((p :: rest).zipIdx (start + seg.length)).splitBy
              fun a b => decide (nodeDev c m a.1 = nodeDev c m b.1) := by
        rw [List.zipIdx_append, List.splitBy_append hsplit,
          List.splitBy_of_isChain (by simpa using hne) (hchain start hall), List.singleton_append]
      rw [if_neg hp, List.map_cons, ih (by simp) (by simp), hjoin, List.map_cons, hdev start hne hall,
        List.singleton_append]

theorem topoSegments_eq (a : Pass) (executed : List ℕ) :
    (topoSegments c m a executed).map (fun x => (x.dev, x.nodes)) =
      (RelayRun.segments c m a.list).map fun seg => (RelayRun.segDev c m seg, seg.map Prod.fst) := by
  have hrelays : ∀ (xs : List (Dev × ℕ × List ℕ)) (executed : List ℕ) (flushed : List Dev),
      (withRelays c m a executed flushed xs).map (fun x => (x.dev, x.nodes)) = xs.map fun x => (x.1, x.2.2) := by
    intro xs
    induction xs with
    | nil => exact fun _ _ => rfl
    | cons x xs ih =>
      intro executed flushed
      rw [withRelays, List.map_cons, ih, List.map_cons]
  unfold topoSegments RelayRun.segments
  cases a.list with
  | nil => rfl
  | cons p rest =>
    have hfrom : (segmentsFrom c m (nodeDev c m p) 0 [p] rest).map
        (fun x : Dev × ℕ × List ℕ => (x.1, x.2.2.zipIdx x.2.1)) = _ :=
      segmentsFrom_eq rest (List.cons_ne_nil p []) (by simp)
    have hfst := congrArg (List.map fun x : Dev × List (ℕ × ℕ) => (x.1, x.2.map Prod.fst)) hfrom
    rw [List.map_map, List.map_map] at hfst
    refine (hrelays _ executed []).trans (Eq.trans ?_ hfst)
    exact List.map_congr_left fun x _ => by simp

end runs

end RelayDispatch
end StreamMoE
