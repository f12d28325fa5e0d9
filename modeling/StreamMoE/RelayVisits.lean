import StreamMoE.RelaySteps

/-! The stops of a run and the copies made at each of them, told by devices, layers and stages: what
`select_relays` picks call by call is what comes in and what leaves there. -/
namespace StreamMoE
namespace RelayVisits

open ComputeGraph LayerPlan LayerPlan.Capture ArenaLayout OfferSchedule RelayRun

variable {Dev : Type*} [DecidableEq Dev] (c : Capture) (m : Placement Dev)

/-- Nodes that run on one device in a row: the layers whose tail and whose head they belong to, the
layer whose head follows the tail `carried` in the same call, the devices of the stretches before it in
the call, and the nodes whose results need not be copied to it. -/
structure Stretch (Dev : Type*) where
  dev : Dev
  nodes : List ℕ
  tail : Option ℕ
  head : Option ℕ
  onward : Option ℕ
  carried : List ℕ
  seen : List Dev
  own : List ℕ

/-- A stop of a run; the copies of what the closure made are a stop of their own. -/
inductive Visit (Dev : Type*)
  | closure (layer : ℕ)
  | preTail (layer : ℕ)
  | stretch (x : Stretch Dev)

section rules

def MadeBy (nodes : List ℕ) (s : Shell Dev) : Prop := relaySrcInSet c s.producer nodes = true

/-- A copy comes in that belongs to the part of the layer which runs here, unless its source's device was
visited before. -/
def Stretch.Arrives (x : Stretch Dev) (s : Shell Dev) : Prop :=
  s.dev = x.dev ∧ srcDev c m s ∉ x.seen ∧ ¬ MadeBy c x.own s ∧
    (s.stage = .tail ∧ x.tail = some s.layer ∨
      s.stage = .layerFront ∧ x.head = some s.layer ∧ x.tail ≠ some s.layer)

/-- A copy leaves that belongs to the part of the layer which runs here; what the tail makes for the head
behind it leaves with the tail. -/
def Stretch.Leaves (x : Stretch Dev) (s : Shell Dev) : Prop :=
  srcDev c m s = x.dev ∧
    (s.stage = .tail ∧ x.tail = some s.layer ∨
      s.stage ≠ .tail ∧ x.head = some s.layer ∧ x.tail ≠ some s.layer ∧ ¬ MadeBy c x.carried s ∨
      s.stage = .layerFront ∧ x.onward = some s.layer ∧ x.tail ≠ none ∧ x.tail ≠ some s.layer ∧
        MadeBy c x.carried s)

/-- The copies made ahead of the nodes. -/
def Visit.Before (s : Shell Dev) : Visit Dev → Prop
  | .closure _ => False
  | .preTail L => s.layer = L ∧ s.stage = .tail ∧ srcDev c m s = m.closureDev
  | .stretch x => x.Arrives c m s

/-- The copies made behind them. -/
def Visit.After (s : Shell Dev) : Visit Dev → Prop
  | .stretch x => x.Leaves c m s
  | _ => False

def Visit.nodes : Visit Dev → List ℕ
  | .closure L => c.compute L
  | .preTail _ => []
  | .stretch x => x.nodes

instance (nodes : List ℕ) (s : Shell Dev) : Decidable (MadeBy c nodes s) := by
  unfold MadeBy
  infer_instance

instance (x : Stretch Dev) (s : Shell Dev) : Decidable (x.Arrives c m s) := by
  unfold Stretch.Arrives
  infer_instance

instance (x : Stretch Dev) (s : Shell Dev) : Decidable (x.Leaves c m s) := by
  unfold Stretch.Leaves
  infer_instance

instance (v : Visit Dev) (s : Shell Dev) : Decidable (v.Before c m s) := by
  cases v <;> unfold Visit.Before <;> infer_instance

instance (v : Visit Dev) (s : Shell Dev) : Decidable (v.After c m s) := by
  cases v <;> unfold Visit.After <;> infer_instance

end rules

section itinerary

def stretchAt (list : List ℕ) (tail head : List (ℕ × ℕ) → Option ℕ) (onward : Option ℕ)
    (carried : List ℕ) (k : ℕ) (seg : List (ℕ × ℕ)) : Stretch Dev where
  dev := segDev c m seg
  nodes := seg.map Prod.fst
  tail := tail seg
  head := head seg
  onward := onward
  carried := carried
  seen := ((segments c m list).take k).map (segDev c m)
  own := []

def stretches (list : List ℕ) (tail head : List (ℕ × ℕ) → Option ℕ) (onward : Option ℕ)
    (carried : List ℕ) : List (Stretch Dev) :=
  (segments c m list).mapIdx (stretchAt c m list tail head onward carried)

/-- The first node of a segment is one of the `n` tail nodes the list begins with. -/
def hasTail (n : ℕ) (seg : List (ℕ × ℕ)) : Bool := seg.head?.any fun x => decide (x.2 < n)

/-- The last one is behind them. -/
def hasHead (n : ℕ) (seg : List (ℕ × ℕ)) : Bool := seg.getLast?.any fun x => decide (n ≤ x.2)

def graphStretch (L : ℕ) (next : Option ℕ) (D : Dev) : Stretch Dev where
  dev := D
  nodes := c.compute L ++ (c.tail L ++ nextNodes c next).filter fun p => !isAliasOp (c.graph.op p)
  tail := some L
  head := next
  onward := next
  carried := c.tail L
  seen := []
  own := if next.isSome then c.tail L ++ nextNodes c next else []

def callVisits : Call Dev → List (Visit Dev)
  | .head L => (stretches c m (c.head L) (fun _ => none) (fun _ => some L) none []).map .stretch
  | .closure L => [.closure L]
  | .tail L =>
      .preTail L ::
        (stretches c m (c.tail L) (fun _ => some L) (fun _ => none) none []).map .stretch
  | .tailHead L K =>
      .preTail L ::
        (stretches c m (c.tail L ++ c.head K)
          (fun seg => if hasTail (c.tail L).length seg then some L else none)
          (fun seg => if hasHead (c.tail L).length seg then some K else none) (some K)
          (c.tail L)).map .stretch
  | .deviceGraph L next D => [.stretch (graphStretch c L next D)]

def visits (run : List (Call Dev)) : List (Visit Dev) := run.flatMap (callVisits c m)

/-- The nodes of a stop between what is copied ahead of them and behind them. -/
def Visit.leg (v : Visit Dev) : Leg (Shell Dev) ℕ where
  before s := decide (v.Before c m s)
  nodes := v.nodes c
  after s := decide (v.After c m s)

end itinerary

section legs

variable {c m}

theorem topo_eq {t : TopoCall} {tail head : List (ℕ × ℕ) → Option ℕ} {onward : Option ℕ} {carried : List ℕ}
    (h : ∀ flushed seg, segmentLeg c m t flushed seg = (Visit.stretch
      { dev := segDev c m seg, nodes := seg.map Prod.fst, tail := tail seg, head := head seg,
        onward := onward, carried := carried, seen := flushed, own := [] }).leg c m) :
    topoSegmentExecute c m t =
      ((stretches c m t.list tail head onward carried).map Visit.stretch).map (Visit.leg c m) := by
  refine List.ext_getElem? fun k => ?_
  rw [getElem?_topoSegmentExecute, stretches, List.getElem?_map, List.getElem?_map, List.getElem?_mapIdx,
    Option.map_map, Option.map_map]
  cases (segments c m t.list)[k]? with
  | none => rfl
  | some seg => exact congrArg some (h _ seg)

/-- A leg between two selections and a stop with the same nodes and the same copies. -/
theorem leg_eq {f g : Shell Dev → Bool} {nodes : List ℕ} {v : Visit Dev} (hnodes : nodes = v.nodes c)
    (hf : ∀ s, f s = true ↔ v.Before c m s) (hg : ∀ s, g s = true ↔ v.After c m s) :
    (⟨f, nodes, g⟩ : Leg (Shell Dev) ℕ) = v.leg c m := by
  have hbefore : f = fun s => decide (v.Before c m s) := by
    funext s
    rw [Bool.eq_iff_iff, decide_eq_true_iff, hf]
  have hafter : g = fun s => decide (v.After c m s) := by
    funext s
    rw [Bool.eq_iff_iff, decide_eq_true_iff, hg]
  rw [hbefore, hafter, hnodes]
  rfl

theorem legs_head (L : ℕ) :
    (Call.head L : Call Dev).legs c m = (callVisits c m (.head L)).map (Visit.leg c m) := by
  refine topo_eq fun flushed seg => leg_eq rfl (fun s => ?_) fun s => ?_
  · simp only [selects, matchesStage, singleStage, matchesDev, Visit.Before, Stretch.Arrives, MadeBy,
      TopoCall.scope]
    cases s.stage <;> simp [relaySrcInSet]
    grind
  · simp only [selects, matchesStage, singleStage, matchesDev, Visit.After, Stretch.Leaves, MadeBy,
      TopoCall.scope]
    cases s.stage <;> simp [relaySrcInSet] <;> grind

theorem tailSegment (L : ℕ) (flushed : List Dev) (seg : List (ℕ × ℕ)) :
    segmentLeg c m { list := c.tail L, layer := L, stage := .tail } flushed seg = (Visit.stretch
      { dev := segDev c m seg, nodes := seg.map Prod.fst, tail := some L, head := none, onward := none,
        carried := [], seen := flushed, own := [] }).leg c m := by
  refine leg_eq rfl (fun s => ?_) fun s => ?_
  · simp only [selects, matchesStage, singleStage, matchesDev, Visit.Before, Stretch.Arrives, MadeBy,
      TopoCall.scope]
    cases s.stage <;> simp [relaySrcInSet]
    grind
  · simp only [selects, matchesStage, singleStage, matchesDev, Visit.After, Stretch.Leaves, MadeBy,
      TopoCall.scope]
    cases s.stage <;> simp [relaySrcInSet]
    grind

theorem preTail_eq (L : ℕ) : preTail c m L = (Visit.preTail L).leg c m :=
  leg_eq rfl (fun s => decide_eq_true_iff) fun s => by simp [Visit.After]

theorem legs_tail (L : ℕ) :
    (Call.tail L : Call Dev).legs c m = (callVisits c m (.tail L)).map (Visit.leg c m) := by
  have htail := topo_eq (c := c) (m := m) fun flushed seg => tailSegment L flushed seg
  rw [Call.legs, htail, preTail_eq]
  rfl

theorem fusedSegment (L K : ℕ) (flushed : List Dev) (seg : List (ℕ × ℕ)) :
    segmentLeg c m
      { list := c.tail L ++ c.head K, layer := L, stage := .tailHead, layerHead := some K,
        tailLen := (c.tail L).length } flushed seg = (Visit.stretch
      { dev := segDev c m seg, nodes := seg.map Prod.fst,
        tail := if hasTail (c.tail L).length seg then some L else none,
        head := if hasHead (c.tail L).length seg then some K else none, onward := some K,
        carried := c.tail L, seen := flushed, own := [] }).leg c m := by
  have htail : (seg.head?.any fun x => decide (x.2 < (c.tail L).length)) =
      hasTail (c.tail L).length seg := rfl
  have hhead : (seg.getLast?.any fun x => decide ((c.tail L).length ≤ x.2)) =
      hasHead (c.tail L).length seg := rfl
  have htake : (c.tail L ++ c.head K).take (c.tail L).length = c.tail L := List.take_left
  refine leg_eq rfl (fun s => ?_) fun s => ?_
  · simp only [selects, matchesStage, fusedStage, matchesDev, Visit.Before, Stretch.Arrives, MadeBy,
      TopoCall.scope, Option.isNone_some, Bool.false_or, htail, hhead]
    generalize hasTail (c.tail L).length seg = t
    generalize hasHead (c.tail L).length seg = h
    cases s.stage <;> cases t <;> cases h <;> simp [relaySrcInSet] <;> grind
  · simp only [selects, matchesStage, fusedStage, matchesDev, Visit.After, Stretch.Leaves, MadeBy,
      TopoCall.scope, Option.isNone_some, Option.isSome_some, Bool.false_or, htail, hhead, htake, if_true]
    generalize hasTail (c.tail L).length seg = t
    generalize hasHead (c.tail L).length seg = h
    cases s.stage <;> cases t <;> cases h <;> simp <;> grind

theorem legs_tailHead (L K : ℕ) :
    (Call.tailHead L K : Call Dev).legs c m = (callVisits c m (.tailHead L K)).map (Visit.leg c m) := by
  have hfused := topo_eq (c := c) (m := m) fun flushed seg => fusedSegment L K flushed seg
  rw [Call.legs, hfused, preTail_eq]
  rfl

theorem legs_deviceGraph (L : ℕ) (next : Option ℕ) (D : Dev) :
    (Call.deviceGraph L next D).legs c m =
      (callVisits c m (.deviceGraph L next D)).map (Visit.leg c m) := by
  have hleg : graphLeg c m L next D = (Visit.stretch (graphStretch c L next D)).leg c m := by
    refine leg_eq rfl (fun s => ?_) fun s => ?_
    · cases next <;>
        simp only [selects, matchesStage, fusedStage, singleStage, matchesDev, Visit.Before,
          Stretch.Arrives, MadeBy, graphScope, graphStretch] <;>
        cases s.stage <;> simp [relaySrcInSet] <;> grind
    · cases next <;>
        simp only [selects, matchesStage, fusedStage, singleStage, matchesDev, Visit.After,
          Stretch.Leaves, MadeBy, graphScope, graphStretch] <;>
        cases s.stage <;> simp [relaySrcInSet] <;> grind
  rw [Call.legs, hleg]
  rfl

theorem legs_closure (L : ℕ) :
    (Call.closure L : Call Dev).legs c m = (callVisits c m (.closure L)).map (Visit.leg c m) := by
  have hleg : closureLeg c L = (Visit.closure L : Visit Dev).leg c m :=
    leg_eq rfl (fun s => by simp [Visit.Before]) fun s => by simp [Visit.After]
  rw [Call.legs, hleg]
  rfl

theorem call_legs_eq (call : Call Dev) : call.legs c m = (callVisits c m call).map (Visit.leg c m) := by
  cases call with
  | head L => exact legs_head L
  | closure L => exact legs_closure L
  | tail L => exact legs_tail L
  | tailHead L K => exact legs_tailHead L K
  | deviceGraph L next D => exact legs_deviceGraph L next D

/-- The copies `select_relays` picks over a run are those that come in and leave at its stops. -/
theorem legs_eq (run : List (Call Dev)) : legs c m run = (visits c m run).map (Visit.leg c m) := by
  rw [legs, visits, List.map_flatMap]
  exact congrArg run.flatMap (funext call_legs_eq)

end legs

section positions

/-- The `k`-th segment of a list is on the device. -/
def SegOn (list : List ℕ) (k : ℕ) (d : Dev) : Prop :=
  ∃ seg, (segments c m list)[k]? = some seg ∧ segDev c m seg = d

/-- The `k`-th segment of a list holds the node. -/
def SegHas (list : List ℕ) (k n : ℕ) : Prop := ∃ seg, (segments c m list)[k]? = some seg ∧ n ∈ seg.map Prod.fst

instance (list : List ℕ) (k : ℕ) (d : Dev) : Decidable (SegOn c m list k d) :=
  decidable_of_iff (((segments c m list)[k]?).any (fun seg => decide (segDev c m seg = d)) = true) (by
    unfold SegOn
    cases (segments c m list)[k]? <;> simp)

instance (list : List ℕ) (k n : ℕ) : Decidable (SegHas c m list k n) :=
  decidable_of_iff (((segments c m list)[k]?).any (fun seg => decide (n ∈ seg.map Prod.fst)) = true) (by
    unfold SegHas
    cases (segments c m list)[k]? <;> simp)

variable {c m} {list : List ℕ}

theorem SegOn.unique {k : ℕ} {d d' : Dev} (h : SegOn c m list k d) (h' : SegOn c m list k d') : d = d' := by
  obtain ⟨seg, hseg, rfl⟩ := h
  obtain ⟨seg', hseg', rfl⟩ := h'
  rw [Option.some.inj (hseg.symm.trans hseg')]

/-- The nodes of a segment are on its device. -/
theorem SegHas.segOn {k n : ℕ} (h : SegHas c m list k n) : SegOn c m list k (nodeDev c m n) := by
  obtain ⟨seg, hseg, hn⟩ := h
  refine ⟨seg, hseg, ?_⟩
  have hmem := List.mem_of_getElem? hseg
  have hchain : seg.IsChain fun a b => decide (nodeDev c m a.1 = nodeDev c m b.1) = true :=
    List.isChain_of_mem_splitBy hmem
  obtain ⟨x, hx, rfl⟩ := List.mem_map.mp hn
  cases seg with
  | nil => cases hx
  | cons a seg =>
    have hall : ∀ (l : List (ℕ × ℕ)) (a : ℕ × ℕ),
        (a :: l).IsChain (fun a b => decide (nodeDev c m a.1 = nodeDev c m b.1) = true) →
          ∀ x ∈ a :: l, nodeDev c m a.1 = nodeDev c m x.1 := by
      intro l
      induction l with
      | nil =>
        intro a _ x hx
        rw [List.mem_singleton.mp hx]
      | cons b l ih =>
        intro a hchain x hx
        rw [List.isChain_cons_cons] at hchain
        rcases List.mem_cons.mp hx with rfl | hx
        · rfl
        · exact (of_decide_eq_true hchain.1).trans (ih b hchain.2 x hx)
    exact hall seg a hchain x hx

/-- A node of a segment, with its place in the list. -/
theorem SegHas.place {k n : ℕ} (h : SegHas c m list k n) :
    ∃ (seg : List (ℕ × ℕ)) (i : ℕ), (segments c m list)[k]? = some seg ∧ (n, i) ∈ seg ∧ list[i]? = some n := by
  obtain ⟨seg, hseg, hn⟩ := h
  obtain ⟨⟨n', i⟩, hx, rfl⟩ := List.mem_map.mp hn
  refine ⟨seg, i, hseg, hx, ?_⟩
  have hflat : (n', i) ∈ list.zipIdx := by
    rw [← segments_flatten (c := c) (m := m)]
    exact List.mem_flatten_of_mem (List.mem_of_getElem? hseg) hx
  exact List.mk_mem_zipIdx_iff_getElem?.mp hflat

theorem exists_segHas {n : ℕ} (h : n ∈ list) : ∃ k, SegHas c m list k n := by
  obtain ⟨i, hi⟩ := List.mem_iff_getElem?.mp h
  have hflat : (n, i) ∈ (segments c m list).flatten := by
    rw [segments_flatten]
    exact List.mk_mem_zipIdx_iff_getElem?.mpr hi
  obtain ⟨seg, hseg, hx⟩ := List.mem_flatten.mp hflat
  obtain ⟨k, hk⟩ := List.mem_iff_getElem?.mp hseg
  exact ⟨k, seg, hk, List.mem_map.mpr ⟨_, hx, rfl⟩⟩

theorem SegHas.mem {k n : ℕ} (h : SegHas c m list k n) : n ∈ list := by
  obtain ⟨_, _, _, _, hi⟩ := h.place
  exact List.mem_of_getElem? hi

theorem segments_ordered (list : List ℕ) :
    (∀ seg ∈ segments c m list, seg.Pairwise fun a b => a.2 < b.2) ∧
      (segments c m list).Pairwise fun seg seg' => ∀ a ∈ seg, ∀ b ∈ seg', a.2 < b.2 := by
  rw [← List.pairwise_flatten, segments_flatten]
  exact (List.pairwise_map (f := Prod.snd)).mp (by
    rw [List.zipIdx_map_snd]
    exact List.pairwise_lt_range')

/-- Segments follow the list. -/
theorem seg_lt {j k i i' n n' : ℕ} {seg seg' : List (ℕ × ℕ)} (hj : (segments c m list)[j]? = some seg)
    (hn : (n, i) ∈ seg) (hk : (segments c m list)[k]? = some seg') (hn' : (n', i') ∈ seg') (hlt : j < k) :
    i < i' := by
  obtain ⟨hjlen, rfl⟩ := List.getElem?_eq_some_iff.mp hj
  obtain ⟨hklen, rfl⟩ := List.getElem?_eq_some_iff.mp hk
  exact List.pairwise_iff_getElem.mp (segments_ordered list).2 j k hjlen hklen hlt _ hn _ hn'

/-- A node of a list without repetition is in one segment. -/
theorem SegHas.unique (hlist : list.Nodup) {j k n : ℕ} (hj : SegHas c m list j n)
    (hk : SegHas c m list k n) : j = k := by
  obtain ⟨seg, i, hseg, hmem, hi⟩ := hj.place
  obtain ⟨seg', i', hseg', hmem', hi'⟩ := hk.place
  have heq : i = i' := (List.getElem?_inj (List.getElem?_eq_some_iff.mp hi).1 hlist).mp (hi.trans hi'.symm)
  rcases Nat.lt_trichotomy j k with hlt | rfl | hlt
  · have := seg_lt hseg hmem hseg' hmem' hlt
    omega
  · rfl
  · have := seg_lt hseg' hmem' hseg hmem hlt
    omega

/-- In the segments of the fused list tail nodes come before the nodes of the head. -/
theorem hasTail_iff {L K : ℕ} (hapart : ∀ n ∈ c.tail L, n ∉ c.head K) {k : ℕ} {seg : List (ℕ × ℕ)}
    (hseg : (segments c m (c.tail L ++ c.head K))[k]? = some seg) :
    (hasTail (c.tail L).length seg = true ↔ ∃ n ∈ c.tail L, n ∈ seg.map Prod.fst) ∧
      (hasHead (c.tail L).length seg = true ↔ ∃ n ∈ c.head K, n ∈ seg.map Prod.fst) := by
  have hmem := List.mem_of_getElem? hseg
  have hpair := (segments_ordered (c := c) (m := m) (c.tail L ++ c.head K)).1 seg hmem
  have hplace : ∀ x ∈ seg, (c.tail L ++ c.head K)[x.2]? = some x.1 := by
    intro x hx
    have hflat : (x.1, x.2) ∈ (c.tail L ++ c.head K).zipIdx := by
      rw [← segments_flatten (c := c) (m := m)]
      exact List.mem_flatten_of_mem hmem hx
    exact List.mk_mem_zipIdx_iff_getElem?.mp hflat
  have htail : ∀ x ∈ seg, (x.2 < (c.tail L).length ↔ x.1 ∈ c.tail L) := by
    intro x hx
    have hget := hplace x hx
    constructor
    · intro hlt
      rw [List.getElem?_append_left hlt] at hget
      exact List.mem_of_getElem? hget
    · intro htail
      by_contra hle
      rw [List.getElem?_append_right (Nat.le_of_not_lt hle)] at hget
      exact hapart _ htail (List.mem_of_getElem? hget)
  have hhead : ∀ x ∈ seg, ((c.tail L).length ≤ x.2 ↔ x.1 ∈ c.head K) := by
    intro x hx
    have hget := hplace x hx
    constructor
    · intro hle
      rw [List.getElem?_append_right hle] at hget
      exact List.mem_of_getElem? hget
    · intro hhead
      by_contra hlt
      exact hapart _ ((htail x hx).mp (Nat.lt_of_not_le hlt)) hhead
  constructor
  · unfold hasTail
    cases seg with
    | nil => simp
    | cons a seg =>
      simp only [List.head?_cons, Option.any_some, decide_eq_true_eq]
      constructor
      · intro hlt
        exact ⟨a.1, (htail a (List.mem_cons_self ..)).mp hlt, List.mem_cons_self ..⟩
      · rintro ⟨n, hn, hns⟩
        obtain ⟨x, hx, rfl⟩ := List.mem_map.mp hns
        have hlt := (htail x hx).mpr hn
        rcases List.mem_cons.mp hx with rfl | hx
        · exact hlt
        · exact Nat.lt_trans ((List.pairwise_cons.mp hpair).1 x hx) hlt
  · unfold hasHead
    rcases List.eq_nil_or_concat seg with rfl | ⟨seg, a, rfl⟩
    · simp
    · simp only [List.concat_eq_append] at *
      simp only [List.getLast?_append, List.getLast?_singleton, Option.some_or, Option.any_some,
        decide_eq_true_eq]
      have ha : a ∈ seg ++ [a] := List.mem_append_right _ (List.mem_singleton_self a)
      constructor
      · intro hle
        exact ⟨a.1, (hhead a ha).mp hle, List.mem_map.mpr ⟨a, ha, rfl⟩⟩
      · rintro ⟨n, hn, hns⟩
        obtain ⟨x, hx, rfl⟩ := List.mem_map.mp hns
        have hle := (hhead x hx).mpr hn
        rcases List.mem_append.mp hx with hx | hx
        · have hlt := (List.pairwise_append.mp hpair).2.2 x hx a (List.mem_singleton_self a)
          omega
        · rw [List.mem_singleton.mp hx] at hle
          exact hle

end positions

end RelayVisits
end StreamMoE
