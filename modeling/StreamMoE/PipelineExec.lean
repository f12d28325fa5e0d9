import StreamMoE.StopTurns

/-! The executor's pipeline over the layers, which lets a closure's device graph take its tail and the
next head along, against the layers one by one. -/
namespace StreamMoE
namespace PipelineExec

open ComputeGraph LayerPlan LayerPlan.Capture ArenaLayout LayerOrder OfferSchedule RelayRun RelaySteps
  RelayVisits RelayOrder CopyMemory StopTurns

variable {Dev : Type*} [DecidableEq Dev] (c : Capture) (m : Placement Dev)

section fusion

/-- The `device_target_t` of a closure whose experts are all on one device, without a CPU round. -/
structure Target (Dev : Type*) where
  dev : Dev
  moeOutSameDev : Bool
  nNodes : ℕ
  size : ℕ

/-- What the executor meets: the single target of a closure, routing ids without a cell, the operators
of the devices, and the status of each part it runs. -/
structure Conditions (Dev : Type*) where
  target : ℕ → Option (Target Dev)
  idle : ℕ → Bool
  supports : Dev → ℕ → Bool
  succeeds : Call Dev → Bool

variable (x : Conditions Dev)

def isSegmentOnDevice (nodes : List ℕ) (D : Dev) : Bool :=
  decide (computing c nodes ≠ []) && (computing c nodes).all fun p => decide (nodeDev c m p = D)

def canFuseTail (L : ℕ) (t : Target Dev) : Bool :=
  t.moeOutSameDev && isSegmentOnDevice c m (c.tail L) t.dev &&
    (computing c (c.tail L)).all (x.supports t.dev)

def canFuseHead (L : ℕ) (t : Target Dev) (next : ℕ) : Bool :=
  decide (next = L + 1) && isSegmentOnDevice c m (c.head next) t.dev &&
    (computing c (c.head next)).all (x.supports t.dev) &&
    decide (t.nNodes + (computing c (c.tail L)).length + (computing c (c.head next)).length ≤ t.size)

/-- The target whose graph takes the tail; a layer without a closure has none. -/
def tailTarget (L : ℕ) : Option (Target Dev) :=
  if c.compute L = [] ∨ x.idle L = true then none else (x.target L).filter (canFuseTail c m x L)

/-- A tail that does not fit fails. -/
def tailOverflow (L : ℕ) : Bool :=
  (tailTarget c m x L).any fun t => decide (t.size < t.nNodes + (computing c (c.tail L)).length)

/-- What `exec_moe_closure` runs, and what of it is fused; `next` is the layer behind it. -/
def closureCall (L : ℕ) (next : Option ℕ) : Call Dev × Fusion :=
  match tailTarget c m x L with
  | none => (.closure L, .nothing)
  | some t =>
      match next.filter (canFuseHead c m x L t) with
      | none => (.deviceGraph L none t.dev, .tail)
      | some next => (.deviceGraph L (some next) t.dev, .tailAndHead)

def execMoeClosure (L : ℕ) (next : Option ℕ) : Option (Call Dev × Fusion) :=
  if tailOverflow c m x L = true then none
  else if c.compute L = [] ∨ x.idle L = true ∨ x.succeeds (closureCall c m x L next).1 = true then
    some (closureCall c m x L next)
  else none

end fusion

section executor

variable (x : Conditions Dev)

def attempt (calls : List (Call Dev)) (call : Call Dev) : Option (List (Call Dev)) :=
  if x.succeeds call = true then some (calls ++ [call]) else none

/-- The tail, unless the closure has taken it along. -/
def finishLayer (L : ℕ) (closure : Call Dev × Fusion) : Option (List (Call Dev)) :=
  match closure.2 with
  | .nothing => attempt x [closure.1] (.tail L)
  | .tail | .tailAndHead => some [closure.1]

/-- What comes between a closure and the next one. -/
def finishPair (cur next : ℕ) (closure : Call Dev × Fusion) : Option (List (Call Dev)) :=
  match closure.2 with
  | .tailAndHead => some [closure.1]
  | .tail => attempt x [closure.1] (.head next)
  | .nothing => attempt x [closure.1] (.tailHead cur next)

def execLayerBurst (L : ℕ) : Option (List (Call Dev)) :=
  if x.succeeds (.head L) = true then
    ((execMoeClosure c m x L none).bind (finishLayer x L)).map (.head L :: ·)
  else none

/-- From the closure of the first layer on. -/
def moeExecFrom : List ℕ → Option (List (Call Dev))
  | [] => some []
  | [last] => (execMoeClosure c m x last none).bind (finishLayer x last)
  | cur :: next :: rest =>
      ((execMoeClosure c m x cur (some next)).bind (finishPair x cur next)).bind fun calls =>
        (moeExecFrom (next :: rest)).map (calls ++ ·)

/-- `moe_exec_mul_mat_id` on the active layers: what a successful run has run. -/
def moeExecMulMatId : List ℕ → Option (List (Call Dev))
  | [] => some []
  | [L] => execLayerBurst c m x L
  | first :: rest =>
      if x.succeeds (.head first) = true then (moeExecFrom c m x (first :: rest)).map (.head first :: ·)
      else none

/-- The same devices, and no part fails. -/
def Conditions.unfailing : Conditions Dev := { x with succeeds := fun _ => true }

end executor

section inputs

/-- A run that shares one set of executed copies. -/
def callActions (calls : List (Call Dev)) : List (Action ℕ (Shell Dev)) :=
  actionsOf (computes c) (relays c m).get (runEvents c m calls)

/-- Every layer starts with no copy executed. -/
def burstActions (bursts : List (List (Call Dev))) : List (Action ℕ (Shell Dev)) :=
  bursts.flatMap (callActions c m)

/-- How many nodes of the calls have run when a copy is first offered. -/
def stop (calls : List (Call Dev)) (s : Shell Dev) : Option ℕ :=
  offerTurn (computes c) s (beatsOf (legs c m calls))

variable (x : Conditions Dev)

/-- The closure, its tail and the next head as the pipeline runs them. -/
def pairRun (L next : ℕ) : List (Call Dev) :=
  ((finishPair x.unfailing L next (closureCall c m x L (some next)))).getD []

def restRun (L : ℕ) : List (Call Dev) := (finishLayer x.unfailing L (closureCall c m x L none)).getD []

/-- For a layer and the next one, of each copy made for the next head. Nothing is fused: in one list with
the tail it serves as in the head's own list. The tail is fused alone: nothing to ask. Both are: it comes
into the graph ahead of everything, or leaves behind it, and serves alike. -/
def StopsAgree (L next : ℕ) (rest : List ℕ) : Prop :=
  let later := ((layerSteps (next :: rest)).drop 1).flatMap c.stepNodes
  ∀ s ∈ relays c m, s.stage ≠ .tail → s.layer = next →
    match tailTarget c m x L with
    | none => ServesAlike c m s L next later False (FusedAhead c m s L next)
        (∃ k, ComesIn c m s (c.tail L ++ c.head next) (c.head next) k ∨ Leaves c m s L next k)
    | some t => canFuseHead c m x L t next = true →
        ServesAlike c m s L next later (s.dev = t.dev ∧ s.producer ∉ c.tail L ++ c.head next)
          (fun _ => s.dev = t.dev ∧ s.producer ∉ c.tail L ++ c.head next)
          (s.dev = t.dev ∧ s.producer ∉ c.tail L ++ c.head next ∨ srcDev c m s = t.dev)

end inputs

section calls

variable {c m} {x : Conditions Dev}

theorem closureCall_cases (L : ℕ) (next : Option ℕ) :
    tailTarget c m x L = none ∧ closureCall c m x L next = (.closure L, .nothing) ∨
      ∃ t, tailTarget c m x L = some t ∧
        (closureCall c m x L next = (.deviceGraph L none t.dev, .tail) ∨
          ∃ K, next = some K ∧ closureCall c m x L next = (.deviceGraph L (some K) t.dev, .tailAndHead)) := by
  unfold closureCall
  cases ht : tailTarget c m x L with
  | none => exact Or.inl ⟨rfl, rfl⟩
  | some t =>
    refine Or.inr ⟨t, rfl, ?_⟩
    cases hK : next.filter (canFuseHead c m x L t) with
    | none => exact Or.inl (by simp only [hK])
    | some K => exact Or.inr ⟨K, (Option.filter_eq_some_iff.mp hK).1, by simp only [hK]⟩

theorem execMoeClosure_eq {L : ℕ} {next : Option ℕ} {r : Call Dev × Fusion}
    (h : execMoeClosure c m x L next = some r) :
    tailOverflow c m x L = false ∧ r = closureCall c m x L next := by
  unfold execMoeClosure at h
  split at h
  · cases h
  · rename_i hoverflow
    split at h
    · exact ⟨by simpa using hoverflow, (Option.some.inj h).symm⟩
    · cases h

omit [DecidableEq Dev] in
theorem attempt_eq {calls run : List (Call Dev)} {call : Call Dev}
    (h : attempt x calls call = some run) : run = calls ++ [call] := by
  unfold attempt at h
  split at h
  · exact (Option.some.inj h).symm
  · cases h

theorem pairRun_eq (L K : ℕ) :
    pairRun c m x L K =
      match closureCall c m x L (some K) with
      | (call, .tailAndHead) => [call]
      | (call, .tail) => [call, .head K]
      | (call, .nothing) => [call, .tailHead L K] := by
  unfold pairRun finishPair
  rcases closureCall c m x L (some K) with ⟨call, fusion⟩
  cases fusion <;> rfl

theorem restRun_eq (L : ℕ) :
    restRun c m x L =
      match closureCall c m x L none with
      | (call, .nothing) => [call, .tail L]
      | (call, _) => [call] := by
  unfold restRun finishLayer
  rcases closureCall c m x L none with ⟨call, fusion⟩
  cases fusion <;> rfl

theorem finishLayer_eq {L : ℕ} {run : List (Call Dev)}
    (h : (execMoeClosure c m x L none).bind (finishLayer x L) = some run) :
    tailOverflow c m x L = false ∧ run = restRun c m x L := by
  obtain ⟨r, hr, hfinish⟩ := Option.bind_eq_some_iff.mp h
  obtain ⟨hoverflow, rfl⟩ := execMoeClosure_eq hr
  refine ⟨hoverflow, ?_⟩
  rw [restRun_eq]
  unfold finishLayer at hfinish
  generalize closureCall c m x L none = r at hfinish ⊢
  rcases r with ⟨call, fusion⟩
  cases fusion with
  | nothing => exact attempt_eq hfinish
  | tail => exact (Option.some.inj hfinish).symm
  | tailAndHead => exact (Option.some.inj hfinish).symm

theorem finishPair_eq {L K : ℕ} {run : List (Call Dev)}
    (h : (execMoeClosure c m x L (some K)).bind (finishPair x L K) = some run) :
    tailOverflow c m x L = false ∧ run = pairRun c m x L K := by
  obtain ⟨r, hr, hfinish⟩ := Option.bind_eq_some_iff.mp h
  obtain ⟨hoverflow, rfl⟩ := execMoeClosure_eq hr
  refine ⟨hoverflow, ?_⟩
  rw [pairRun_eq]
  unfold finishPair at hfinish
  generalize closureCall c m x L (some K) = r at hfinish ⊢
  rcases r with ⟨call, fusion⟩
  cases fusion with
  | nothing => exact attempt_eq hfinish
  | tail => exact attempt_eq hfinish
  | tailAndHead => exact (Option.some.inj hfinish).symm

/-- A layer on its own runs its head and then the rest, once nothing fails. -/
theorem execLayerBurst_unfailing {L : ℕ} (h : tailOverflow c m x L = false) :
    execLayerBurst c m x.unfailing L = some (.head L :: restRun c m x L) := by
  have hclosure : execMoeClosure c m x.unfailing L none = some (closureCall c m x L none) := by
    unfold execMoeClosure
    have hoverflow : tailOverflow c m x.unfailing L = false := h
    have hsucceeds : x.unfailing.succeeds (closureCall c m x.unfailing L none).1 = true := rfl
    rw [hoverflow, if_neg Bool.false_ne_true, if_pos (Or.inr (Or.inr hsucceeds))]
    rfl
  have hsucceeds : x.unfailing.succeeds (.head L) = true := rfl
  unfold execLayerBurst
  rw [if_pos hsucceeds, hclosure, Option.bind_some, restRun]
  unfold finishLayer
  rcases closureCall c m x L none with ⟨call, fusion⟩
  cases fusion <;> rfl

/-- The stretches the pipeline and the layers' own runs have in common, from the first closure on. -/
def stretches (c : Capture) (m : Placement Dev) (x : Conditions Dev) :
    List ℕ → List (List (Call Dev) × List (Call Dev))
  | [] => []
  | [last] => [(restRun c m x last, restRun c m x last)]
  | L :: K :: rest => (pairRun c m x L K, restRun c m x L ++ [.head K]) :: stretches c m x (K :: rest)

theorem moeExecFrom_eq {layers : List ℕ} {run : List (Call Dev)}
    (h : moeExecFrom c m x layers = some run) :
    (∀ L ∈ layers, tailOverflow c m x L = false) ∧ run = (stretches c m x layers).flatMap Prod.fst := by
  induction layers generalizing run with
  | nil =>
    cases h
    exact ⟨fun L hL => absurd hL List.not_mem_nil, rfl⟩
  | cons L rest ih =>
    cases rest with
    | nil =>
      obtain ⟨hoverflow, rfl⟩ := finishLayer_eq h
      exact ⟨by simpa using hoverflow, by simp [stretches]⟩
    | cons K rest =>
      obtain ⟨calls, hcalls, hrest⟩ := Option.bind_eq_some_iff.mp h
      obtain ⟨run', hrun', rfl⟩ := Option.map_eq_some_iff.mp hrest
      obtain ⟨hoverflow, rfl⟩ := finishPair_eq hcalls
      obtain ⟨hoverflows, rfl⟩ := ih hrun'
      refine ⟨fun L' hL' => ?_, rfl⟩
      rcases List.mem_cons.mp hL' with rfl | hL'
      · exact hoverflow
      · exact hoverflows L' hL'

theorem moeExecMulMatId_eq {first : ℕ} {rest : List ℕ} {run : List (Call Dev)}
    (h : moeExecMulMatId c m x (first :: rest) = some run) :
    (∀ L ∈ first :: rest, tailOverflow c m x L = false) ∧
      run = .head first :: (stretches c m x (first :: rest)).flatMap Prod.fst := by
  have hhead : moeExecMulMatId c m x (first :: rest) =
      if x.succeeds (.head first) = true then
        (moeExecFrom c m x (first :: rest)).map (.head first :: ·)
      else none := by
    cases rest <;> rfl
  rw [hhead] at h
  split at h
  · obtain ⟨run', hrun', rfl⟩ := Option.map_eq_some_iff.mp h
    obtain ⟨hoverflow, rfl⟩ := moeExecFrom_eq hrun'
    exact ⟨hoverflow, rfl⟩
  · cases h

/-- The layers one by one, without failures. -/
def bursts (c : Capture) (m : Placement Dev) (x : Conditions Dev) (layers : List ℕ) : List (List (Call Dev)) :=
  layers.map fun L => .head L :: restRun c m x L

theorem mapM_execLayerBurst {layers : List ℕ} (h : ∀ L ∈ layers, tailOverflow c m x L = false) :
    layers.mapM (execLayerBurst c m x.unfailing) = some (bursts c m x layers) := by
  induction layers with
  | nil => rfl
  | cons L layers ih =>
    rw [List.mapM_cons, execLayerBurst_unfailing (h L (List.mem_cons_self ..)),
      ih fun L' hL' => h L' (List.mem_cons_of_mem _ hL')]
    rfl

theorem bursts_flatten (first : ℕ) (rest : List ℕ) :
    (bursts c m x (first :: rest)).flatten =
      .head first :: (stretches c m x (first :: rest)).flatMap Prod.snd := by
  induction rest generalizing first with
  | nil => simp [bursts, stretches]
  | cons K rest ih =>
    have hih := ih K
    simp only [bursts, List.map_cons, List.flatten_cons] at hih ⊢
    rw [hih]
    simp [stretches]

end calls

section parts

variable {c m} {x : Conditions Dev}

theorem restRun_steps (L : ℕ) :
    (restRun c m x L).flatMap Call.steps = [.closure L, .tail L] := by
  rw [restRun_eq]
  obtain ⟨_, hcall⟩ | ⟨t, _, hcall | ⟨K, hK, _⟩⟩ := closureCall_cases (x := x) L none
  · rw [hcall]
    rfl
  · rw [hcall]
    rfl
  · cases hK

theorem pairRun_steps (L K : ℕ) :
    (pairRun c m x L K).flatMap Call.steps = [.closure L, .tail L, .head K] := by
  rw [pairRun_eq]
  obtain ⟨_, hcall⟩ | ⟨t, _, hcall | ⟨K', hK, hcall⟩⟩ := closureCall_cases (x := x) L (some K)
  · rw [hcall]
    rfl
  · rw [hcall]
    rfl
  · cases hK
    rw [hcall]
    rfl

/-- Both sides of a stretch run the same parts. -/
theorem stretches_steps {layers : List ℕ} :
    ∀ p ∈ stretches c m x layers, p.1.flatMap Call.steps = p.2.flatMap Call.steps := by
  induction layers with
  | nil => exact fun p hp => absurd hp List.not_mem_nil
  | cons L rest ih =>
    cases rest with
    | nil =>
      intro p hp
      rw [stretches, List.mem_singleton] at hp
      rw [hp]
    | cons K rest =>
      intro p hp
      rw [stretches, List.mem_cons] at hp
      rcases hp with rfl | hp
      · rw [pairRun_steps, List.flatMap_append, restRun_steps]
        rfl
      · exact ih p hp

theorem stretches_layerSteps (L : ℕ) (rest : List ℕ) :
    (stretches c m x (L :: rest)).flatMap (fun p => p.1.flatMap Call.steps) =
      (layerSteps (L :: rest)).drop 1 := by
  induction rest generalizing L with
  | nil => simp [stretches, restRun_steps, layerSteps]
  | cons K rest ih =>
    have hih := ih K
    have hcons : ∀ l : List ℕ, ∀ L, layerSteps (L :: l) = .head L :: .closure L :: .tail L :: layerSteps l :=
      fun _ _ => rfl
    rw [stretches, List.flatMap_cons, pairRun_steps, hih, hcons, hcons]
    rfl

/-- Up to aliases a call runs the nodes of its parts. -/
theorem computing_legs (call : Call Dev) :
    computing c ((call.legs c m).flatMap Leg.nodes) = computing c (call.steps.flatMap c.stepNodes) := by
  cases call with
  | head L => simp [Call.legs, Call.steps, topoSegmentExecute_nodes, stepNodes]
  | closure L => simp [Call.legs, Call.steps, closureLeg, stepNodes]
  | tail L => simp [Call.legs, Call.steps, topoSegmentExecute_nodes, stepNodes, preTail]
  | tailHead L K => simp [Call.legs, Call.steps, topoSegmentExecute_nodes, stepNodes, preTail]
  | deviceGraph L next D =>
    have hparts : (Call.deviceGraph L next D).steps.flatMap c.stepNodes =
        c.compute L ++ (c.tail L ++ nextNodes c next) := by
      cases next <;> simp [Call.steps, stepNodes, nextNodes]
    have hfilter : ∀ l : List ℕ, computing c (l.filter fun p => !isAliasOp (c.graph.op p)) =
        computing c l := by
      intro l
      rw [computing, List.filter_filter]
      exact List.filter_congr fun p _ => Bool.and_self _
    rw [hparts]
    simp only [Call.legs, List.flatMap_singleton, graphLeg]
    rw [computing_append, hfilter, ← computing_append]

theorem computing_calls (calls : List (Call Dev)) :
    computing c ((legs c m calls).flatMap Leg.nodes) =
      computing c ((calls.flatMap Call.steps).flatMap c.stepNodes) := by
  induction calls with
  | nil => rfl
  | cons call calls ih =>
    rw [legs] at ih ⊢
    rw [List.flatMap_cons, List.flatMap_append, List.flatMap_cons, List.flatMap_append,
      computing_append, computing_append, ih, computing_legs]

omit [DecidableEq Dev] in
theorem beatsOf_nodes (ls : List (Leg (Shell Dev) ℕ)) :
    (beatsOf ls).flatMap beatNodes = ls.flatMap Leg.nodes := by
  induction ls with
  | nil => rfl
  | cons l ls ih =>
    rw [beatsOf_cons, List.flatMap_cons]
    simp [beatNodes, ih]

omit [DecidableEq Dev] in
theorem beatsOf_append (ls ls' : List (Leg (Shell Dev) ℕ)) : beatsOf (ls ++ ls') = beatsOf ls ++ beatsOf ls' :=
  List.flatMap_append

omit [DecidableEq Dev] in
theorem beatsOf_comap {ρ : Type*} (f : ρ → Shell Dev) (ls : List (Leg (Shell Dev) ℕ)) :
    beatsOf (ls.map (Leg.comap f)) = (beatsOf ls).map (comapBeat f) := by
  induction ls with
  | nil => rfl
  | cons l ls ih =>
    rw [List.map_cons, beatsOf_cons, beatsOf_cons, ih]
    rfl

/-- Copies are offered only for the parts the calls run. -/
theorem servedStep_of_offer {calls : List (Call Dev)} {takes : Shell Dev → Bool}
    (h : Beat.offer takes ∈ beatsOf (legs c m calls)) {s : Shell Dev} (hs : takes s = true) :
    servedStep s ∈ calls.flatMap Call.steps := by
  obtain ⟨l, hl, hbeat⟩ := List.mem_flatMap.mp h
  obtain ⟨call, hcall, hl⟩ := List.mem_flatMap.mp hl
  have htakes : l.takes s = true := by
    simp only [Leg.beats, List.mem_cons, List.not_mem_nil, Beat.offer.injEq, reduceCtorEq, or_false,
      false_or] at hbeat
    rcases hbeat with rfl | rfl <;> simp [Leg.takes, hs]
  exact List.mem_flatMap.mpr ⟨call, hcall, servedStep_mem hl htakes⟩

end parts

section actions

variable {c m} {x : Conditions Dev}

theorem together_nil : Together (relays c m).get (List.finRange _) ([] : List (Fin (relays c m).length)) :=
  fun _ _ _ hj => absurd hj List.not_mem_nil

theorem callActions_eq (calls : List (Call Dev)) :
    callActions c m calls = actionsOf (computes c) (relays c m).get
      (play (List.finRange (relays c m).length) []
        ((beatsOf (legs c m calls)).map (comapBeat (relays c m).get))) := by
  rw [callActions, runEvents, beatsOf_comap]

theorem ran_callActions (calls : List (Call Dev)) :
    ran (callActions c m calls) = computing c ((calls.flatMap Call.steps).flatMap c.stepNodes) := by
  rw [callActions_eq, ran_actionsOf, beatsOf_nodes, ← computing_calls]
  rfl

theorem mem_relays_iff {s : Shell Dev} :
    s ∈ (List.finRange (relays c m).length).map (relays c m).get ↔ s ∈ relays c m := by
  rw [List.map_get_finRange]

/-- A copy is made at its stop. -/
theorem turn_callActions (calls : List (Call Dev)) {s : Shell Dev} (hs : s ∈ relays c m) :
    turn s (callActions c m calls) = stop c m calls s := by
  rw [callActions_eq, turn_actionsOf together_nil (mem_relays_iff.mpr hs)]
  exact if_neg List.not_mem_nil

theorem madeOnce_callActions (calls : List (Call Dev)) : MadeOnce (callActions c m calls) := by
  rw [callActions_eq]
  exact (madeOnce_actionsOf together_nil _).1

/-- What a run copies serves one of its parts. -/
theorem servedStep_of_copied {calls : List (Call Dev)} {a : Action ℕ (Shell Dev)}
    (ha : a ∈ callActions c m calls) {s : Shell Dev} (hs : s ∈ a.copied) :
    s ∈ relays c m ∧ servedStep s ∈ calls.flatMap Call.steps := by
  rw [callActions_eq] at ha
  obtain ⟨hitem, takes, hoffer, htakes⟩ := mem_copied_actionsOf ha hs
  exact ⟨mem_relays_iff.mp hitem, servedStep_of_offer hoffer htakes⟩

theorem stop_append (calls calls' : List (Call Dev)) (s : Shell Dev) :
    stop c m (calls ++ calls') s = (stop c m calls s).or
      ((stop c m calls' s).map ((ran (callActions c m calls)).length + ·)) := by
  rw [stop, legs, List.flatMap_append, beatsOf_append, offerTurn_append, beatsOf_nodes,
    List.countP_eq_length_filter, callActions_eq, ran_actionsOf, beatsOf_nodes]
  rfl

/-- The layers one by one copy in the order of their calls. -/
theorem turn_burstActions (bs : List (List (Call Dev))) {s : Shell Dev} (hs : s ∈ relays c m) :
    turn s (burstActions c m bs) = stop c m bs.flatten s := by
  induction bs with
  | nil => rfl
  | cons calls bs ih =>
    rw [burstActions] at ih ⊢
    rw [List.flatMap_cons, turn_append, ih, turn_callActions calls hs, List.flatten_cons, stop_append]

theorem ran_burstActions (bs : List (List (Call Dev))) :
    ran (burstActions c m bs) = computing c ((bs.flatten.flatMap Call.steps).flatMap c.stepNodes) := by
  induction bs with
  | nil => rfl
  | cons calls bs ih =>
    rw [burstActions] at ih ⊢
    rw [List.flatMap_cons, ran_append, ih, ran_callActions, List.flatten_cons, List.flatMap_append,
      List.flatMap_append, computing_append]

theorem burst_steps (L : ℕ) :
    (Call.head L :: restRun c m x L).flatMap Call.steps = [.head L, .closure L, .tail L] := by
  rw [List.flatMap_cons, restRun_steps]
  rfl

theorem bursts_steps (layers : List ℕ) :
    (bursts c m x layers).flatten.flatMap Call.steps = layerSteps layers := by
  induction layers with
  | nil => rfl
  | cons L layers ih =>
    rw [bursts, List.map_cons, List.flatten_cons, List.flatMap_append, burst_steps, ← bursts, ih]
    rfl

theorem mem_burstActions {bs : List (List (Call Dev))} {a : Action ℕ (Shell Dev)}
    (ha : a ∈ burstActions c m bs) {s : Shell Dev} (hs : s ∈ a.copied) :
    s ∈ relays c m ∧ servedStep s ∈ bs.flatten.flatMap Call.steps := by
  obtain ⟨calls, hcalls, ha⟩ := List.mem_flatMap.mp ha
  obtain ⟨hrelay, hstep⟩ := servedStep_of_copied ha hs
  obtain ⟨call, hcall, hstep⟩ := List.mem_flatMap.mp hstep
  exact ⟨hrelay, List.mem_flatMap.mpr ⟨call, List.mem_flatten_of_mem hcalls hcall, hstep⟩⟩

/-- No layer copies what another one has copied. -/
theorem madeOnce_burstActions {layers : List ℕ} (h : layers.Nodup) :
    MadeOnce (burstActions c m (bursts c m x layers)) := by
  induction layers with
  | nil => exact List.Pairwise.nil
  | cons L layers ih =>
    obtain ⟨hL, hrest⟩ := List.nodup_cons.mp h
    rw [bursts, List.map_cons, burstActions, List.flatMap_cons, ← bursts, ← burstActions]
    refine List.pairwise_append.mpr ⟨madeOnce_callActions _, ih hrest, fun a ha b hb s hs hs' => ?_⟩
    have hstep := (servedStep_of_copied ha hs).2
    have hstep' := (mem_burstActions hb hs').2
    rw [burst_steps] at hstep
    rw [bursts_steps] at hstep'
    obtain ⟨L', hL', hmem⟩ := List.mem_flatMap.mp hstep'
    have heq : L = L' := by
      unfold servedStep at hstep hmem
      split at hstep <;> simp_all
    exact hL (heq ▸ hL')

/-- A stretch as beats. -/
def pieceOf (c : Capture) (m : Placement Dev) (p : List (Call Dev) × List (Call Dev)) :
    Piece (Shell Dev) ℕ where
  left := beatsOf (legs c m p.1)
  right := beatsOf (legs c m p.2)

theorem pieceOf_nodes (p : List (Call Dev) × List (Call Dev)) :
    (pieceOf c m p).nodes (computes c) = computing c ((p.1.flatMap Call.steps).flatMap c.stepNodes) := by
  rw [← computing_calls (m := m)]
  exact congrArg _ (beatsOf_nodes _)

theorem pieces_left (ps : List (List (Call Dev) × List (Call Dev))) :
    (ps.map (pieceOf c m)).flatMap Piece.left = beatsOf (legs c m (ps.flatMap Prod.fst)) := by
  induction ps with
  | nil => rfl
  | cons p ps ih =>
    have hlegs : legs c m (p.1 ++ ps.flatMap Prod.fst) = legs c m p.1 ++ legs c m (ps.flatMap Prod.fst) :=
      List.flatMap_append
    rw [List.map_cons, List.flatMap_cons, ih, List.flatMap_cons, hlegs, beatsOf_append]
    rfl

theorem pieces_right (ps : List (List (Call Dev) × List (Call Dev))) :
    (ps.map (pieceOf c m)).flatMap Piece.right = beatsOf (legs c m (ps.flatMap Prod.snd)) := by
  induction ps with
  | nil => rfl
  | cons p ps ih =>
    have hlegs : legs c m (p.2 ++ ps.flatMap Prod.snd) = legs c m p.2 ++ legs c m (ps.flatMap Prod.snd) :=
      List.flatMap_append
    rw [List.map_cons, List.flatMap_cons, ih, List.flatMap_cons, hlegs, beatsOf_append]
    rfl

theorem pieces_nodes (ps : List (List (Call Dev) × List (Call Dev))) :
    (ps.map (pieceOf c m)).flatMap (Piece.nodes (computes c)) =
      computing c ((ps.flatMap fun p => p.1.flatMap Call.steps).flatMap c.stepNodes) := by
  induction ps with
  | nil => rfl
  | cons p ps ih =>
    rw [List.map_cons, List.flatMap_cons, ih, pieceOf_nodes, List.flatMap_cons, List.flatMap_append,
      computing_append]

theorem servedStep_of_offers {p : List (Call Dev) × List (Call Dev)}
    (hp : p.1.flatMap Call.steps = p.2.flatMap Call.steps) {s : Shell Dev}
    (h : (pieceOf c m p).Offers s) : servedStep s ∈ p.1.flatMap Call.steps := by
  obtain ⟨takes, hmem | hmem, hs⟩ := h
  · exact servedStep_of_offer hmem hs
  · rw [hp]
    exact servedStep_of_offer hmem hs

/-- A copy is offered in one stretch. -/
theorem pieces_apart {ps : List (List (Call Dev) × List (Call Dev))}
    (hsteps : ∀ p ∈ ps, p.1.flatMap Call.steps = p.2.flatMap Call.steps)
    (hnodup : (ps.flatMap fun p => p.1.flatMap Call.steps).Nodup) :
    (ps.map (pieceOf c m)).Pairwise fun p q => ∀ s, p.Offers s → ¬ q.Offers s := by
  induction ps with
  | nil => exact List.Pairwise.nil
  | cons p ps ih =>
    rw [List.flatMap_cons, List.nodup_append] at hnodup
    obtain ⟨_, hrest, hapart⟩ := hnodup
    refine List.pairwise_cons.mpr
      ⟨fun q' hq' s hs hs' => ?_, ih (fun q hq => hsteps q (List.mem_cons_of_mem _ hq)) hrest⟩
    obtain ⟨q, hq, rfl⟩ := List.mem_map.mp hq'
    have hstep := servedStep_of_offers (hsteps p (List.mem_cons_self ..)) hs
    have hstep' := servedStep_of_offers (hsteps q (List.mem_cons_of_mem _ hq)) hs'
    exact hapart _ hstep _ (List.mem_flatMap.mpr ⟨q, hq, hstep'⟩) rfl

theorem stop_eq (calls : List (Call Dev)) (s : Shell Dev) :
    stop c m calls s = firstStop c m s (visits c m calls) := by
  rw [stop, legs_eq]
  generalize visits c m calls = vs
  induction vs with
  | nil => rfl
  | cons v vs ih =>
    rw [List.map_cons, beatsOf_cons, offerTurn, offerTurn, offerTurn, ih, List.countP_eq_length_filter, firstStop]
    have hbefore : (v.leg c m).before s = decide (v.Before c m s) := rfl
    have hafter : (v.leg c m).after s = decide (v.After c m s) := rfl
    rw [hbefore, hafter]
    by_cases hb : v.Before c m s
    · simp [hb]
    · by_cases ha : v.After c m s
      · simp [hb, ha, Visit.leg, computing]
      · simp [hb, ha, Visit.leg, computing]

theorem dev_of_tailTarget {L : ℕ} {t : Target Dev} (h : tailTarget c m x L = some t) :
    ∀ n ∈ computing c (c.tail L), nodeDev c m n = t.dev := by
  unfold tailTarget at h
  split at h
  · cases h
  · have hfuse := (Option.filter_eq_some_iff.mp h).2
    simp only [canFuseTail, isSegmentOnDevice, Bool.and_eq_true, List.all_eq_true, decide_eq_true_eq] at hfuse
    exact hfuse.1.2.2

/-- A copy that is neither for the tail nor for the next head has no stop. -/
theorem agrees_pair {L K : ℕ} {nodes later : List ℕ} {calls calls' : List (Call Dev)} {s : Shell Dev}
    (hcalls : calls.flatMap Call.steps = [.closure L, .tail L, .head K])
    (hcalls' : calls'.flatMap Call.steps = [.closure L, .tail L, .head K])
    (htail : s.stage = .tail → s.layer = L → Agrees (wiring c m) nodes later s
      (firstStop c m s (visits c m calls)) (firstStop c m s (visits c m calls'))) {P : Prop}
    (hfront : s.stage ≠ .tail → s.layer = K → (Agrees (wiring c m) nodes later s
      (firstStop c m s (visits c m calls)) (firstStop c m s (visits c m calls')) ↔ P)) :
    Agrees (wiring c m) nodes later s (firstStop c m s (visits c m calls)) (firstStop c m s (visits c m calls')) ↔
      (s.stage ≠ .tail → s.layer = K → P) := by
  by_cases hstage : s.stage = .tail
  · refine iff_of_true ?_ fun h => absurd hstage h
    by_cases hlayer : s.layer = L
    · exact htail hstage hlayer
    · have hnot : servedStep s ∉ [Step.closure L, .tail L, .head K] := by
        rw [servedStep_tail hstage]
        simp [hlayer]
      exact agrees_other (by rwa [hcalls]) (by rwa [hcalls'])
  · by_cases hlayer : s.layer = K
    · rw [hfront hstage hlayer]
      exact ⟨fun h _ _ => h, fun h => h hstage hlayer⟩
    · refine iff_of_true ?_ fun _ h => absurd h hlayer
      have hnot : servedStep s ∉ [Step.closure L, .tail L, .head K] := by
        rw [servedStep_head hstage]
        simp [hlayer]
      exact agrees_other (by rwa [hcalls]) (by rwa [hcalls'])

theorem stopsAgree_iff {L K : ℕ} {rest : List ℕ} (hLK : L ≠ K) :
    StopsAgree c m x L K rest ↔ ∀ s ∈ relays c m,
      Agrees (wiring c m) (computing c (c.compute L ++ c.tail L ++ c.head K))
        (computing c (((layerSteps (K :: rest)).drop 1).flatMap c.stepNodes)) s
        (stop c m (pairRun c m x L K) s) (stop c m (restRun c m x L ++ [.head K]) s) := by
  rw [pairRun_eq, restRun_eq]
  unfold StopsAgree closureCall
  refine forall_congr' fun s => forall_congr' fun hs => ?_
  rw [stop_eq, stop_eq]
  cases ht : tailTarget c m x L with
  | none =>
    exact (agrees_pair rfl rfl (fun hstage hlayer => agrees_tail_list hs hLK hstage hlayer _)
      fun hstage hlayer => agrees_list hs hLK hstage hlayer _).symm
  | some t =>
    cases hfuse : canFuseHead c m x L t K with
    | false =>
      simp only [Option.filter_some, hfuse, Bool.false_eq_true, if_false, Option.filter_none,
        List.cons_append, List.nil_append, false_imp_iff, imp_true_iff, true_iff]
      exact agrees_refl _ _ s _
    | true =>
      simp only [Option.filter_some, hfuse, if_true, Option.filter_none, List.cons_append, List.nil_append,
        true_imp_iff]
      exact (agrees_pair rfl rfl
        (fun hstage hlayer => agrees_tail_graph hs hLK hstage hlayer (dev_of_tailTarget ht) _)
        fun hstage hlayer => agrees_graph hs hLK hstage hlayer t.dev _).symm

theorem agreesEach_stretches (s : Shell Dev) (layers : List ℕ) :
    AgreesEach (computes c) (wiring c m) s ((stretches c m x layers).map (pieceOf c m)) ↔
      ∀ pre L K post, layers = pre ++ L :: K :: post →
        Agrees (wiring c m) (computing c (c.compute L ++ c.tail L ++ c.head K))
          (computing c (((layerSteps (K :: post)).drop 1).flatMap c.stepNodes)) s
          (stop c m (pairRun c m x L K) s) (stop c m (restRun c m x L ++ [.head K]) s) := by
  induction layers with
  | nil => simp [stretches, AgreesEach]
  | cons L rest ih =>
    cases rest with
    | nil =>
      have hsplit : ∀ pre L' K post, [L] ≠ pre ++ L' :: K :: post := by
        intro pre L' K post h
        have hlen := congrArg List.length h
        simp at hlen
        omega
      constructor
      · exact fun _ pre L' K post h => absurd h (hsplit pre L' K post)
      · exact fun _ => ⟨agrees_refl _ _ s _, trivial⟩
    | cons K rest =>
      rw [stretches, List.map_cons, AgreesEach, ih, pieceOf_nodes, pieces_nodes, stretches_layerSteps,
        pairRun_steps]
      have hnodes : [Step.closure L, Step.tail L, Step.head K].flatMap c.stepNodes =
          c.compute L ++ c.tail L ++ c.head K := by
        simp [stepNodes]
      rw [hnodes]
      constructor
      · rintro ⟨hpair, hrest⟩ pre L' K' post h
        cases pre with
        | nil =>
          obtain ⟨rfl, hrest'⟩ := List.cons.inj h
          obtain ⟨rfl, rfl⟩ := List.cons.inj hrest'
          exact hpair
        | cons _ pre =>
          exact hrest pre L' K' post (List.cons.inj h).2
      · intro h
        exact ⟨h [] L K rest rfl, fun pre L' K' post heq => h (L :: pre) L' K' post (by rw [heq]; rfl)⟩

theorem ne_of_next {layers pre post : List ℕ} {L K : ℕ} (h : layers.Nodup) (heq : layers = pre ++ L :: K :: post) :
    L ≠ K := by
  rw [heq] at h
  rintro rfl
  simp [List.nodup_append] at h

end actions

/-- A successful pipelined run runs the parts of every layer once, in the order of the layers one by
one; every node sees the same inputs exactly if, for each layer and the next one, the copies are made
at stops that agree. -/
theorem pipelined_iff_stopsAgree (c : Capture) (m : Placement Dev) (x : Conditions Dev) (layers : List ℕ)
    (hlayers : layers.Nodup) (run : List (Call Dev)) (hrun : moeExecMulMatId c m x layers = some run) :
    ∃ bs, layers.mapM (execLayerBurst c m x.unfailing) = some bs ∧
      run.flatMap Call.steps = layerSteps layers ∧ bs.flatten.flatMap Call.steps = layerSteps layers ∧
      (layerSteps layers).Nodup ∧
      (SameInputs (wiring c m) (callActions c m run) (burstActions c m bs) ↔
        ∀ pre L K post, layers = pre ++ L :: K :: post → StopsAgree c m x L K post) := by
  cases layers with
  | nil =>
    cases hrun
    refine ⟨[], rfl, rfl, rfl, List.nodup_nil, fun _ pre L K post h => by simp at h, fun _ => ?_⟩
    exact fun V kernel mem => rfl
  | cons first rest =>
    obtain ⟨hoverflow, hcalls⟩ := moeExecMulMatId_eq hrun
    have hfirst : Step.head first :: (layerSteps (first :: rest)).drop 1 = layerSteps (first :: rest) := rfl
    let ps := ([Call.head first], [Call.head first]) :: stretches c m x (first :: rest)
    have hps : run = ps.flatMap Prod.fst := hcalls
    have hps' : (bursts c m x (first :: rest)).flatten = ps.flatMap Prod.snd := bursts_flatten first rest
    have hsame : ∀ p ∈ ps, p.1.flatMap Call.steps = p.2.flatMap Call.steps := by
      intro p hp
      rcases List.mem_cons.mp hp with rfl | hp
      · rfl
      · exact stretches_steps p hp
    have hsteps : (ps.flatMap fun p => p.1.flatMap Call.steps) = layerSteps (first :: rest) := by
      rw [List.flatMap_cons, stretches_layerSteps]
      rfl
    have hnodup := layerSteps_nodup hlayers
    have hrunSteps : run.flatMap Call.steps = layerSteps (first :: rest) := by
      rw [hps, List.flatMap_assoc, ← hsteps]
    have hran : ran (callActions c m run) = ran (burstActions c m (bursts c m x (first :: rest))) := by
      rw [ran_callActions, ran_burstActions, hrunSteps, bursts_steps]
    have hnodes : ran (callActions c m run) = (ps.map (pieceOf c m)).flatMap (Piece.nodes (computes c)) := by
      rw [ran_callActions, pieces_nodes, hsteps, hrunSteps]
    have heach : ∀ s ∈ relays c m, (AgreesAll (wiring c m) (ran (callActions c m run)) s
        (turn s (callActions c m run)) (turn s (burstActions c m (bursts c m x (first :: rest)))) ↔
        AgreesEach (computes c) (wiring c m) s ((stretches c m x (first :: rest)).map (pieceOf c m))) := by
      intro s hs
      have hright : ∀ p ∈ ps.map (pieceOf c m),
          (p.right.flatMap beatNodes).filter (computes c) = p.nodes (computes c) := by
        intro p' hp'
        obtain ⟨p, hp, rfl⟩ := List.mem_map.mp hp'
        rw [pieceOf_nodes, hsame p hp, ← computing_calls (m := m)]
        exact congrArg _ (beatsOf_nodes _)
      have hpieces := agreesAll_pieces (w := wiring c m) hright
        (pieces_apart hsame (by rw [hsteps]; exact hnodup)) s
      rw [pieces_left, pieces_right, ← hps, ← hps', ← hnodes, ← stop, ← stop] at hpieces
      rw [turn_callActions _ hs, turn_burstActions _ hs, hpieces]
      exact and_iff_right (agrees_refl _ _ s _)
    refine ⟨_, mapM_execLayerBurst hoverflow, hrunSteps, bursts_steps _, hnodup, ?_⟩
    rw [sameInputs_iff (madeOnce_callActions run) (madeOnce_burstActions hlayers) hran]
    constructor
    · intro hall pre L K post heq
      refine (stopsAgree_iff (ne_of_next hlayers heq)).mpr fun s hs => ?_
      exact (agreesEach_stretches s _).mp
        ((heach s hs).mp fun t n hn hread => hall t n hn s hread) pre L K post heq
    · intro hall t n hn s hread
      by_cases hs : s ∈ relays c m
      · exact (heach s hs).mpr ((agreesEach_stretches s _).mpr fun pre L K post heq =>
          (stopsAgree_iff (ne_of_next hlayers heq)).mp (hall pre L K post heq) s hs) t n hn hread
      · rw [turn_eq_none fun a ha hsa => hs (servedStep_of_copied ha hsa).1,
          turn_eq_none fun a ha hsa => hs (mem_burstActions ha hsa).1]

section offload

/-- The layers in `offloaded` on device 1, everything else on the host. -/
def offload (offloaded : List ℕ) : Placement ℕ where
  physical p := if p ∈ offloaded then 1 else 0
  leafDev _ := none
  host := 0
  closureDev := 0
  exportRetained := []
  compactPack := true

/-- No device takes experts, nothing fails. -/
def hostExperts : Conditions ℕ where
  target _ := none
  idle _ := false
  supports _ _ := true
  succeeds _ := true

def positionBursts : List (List (Call ℕ)) :=
  [[.head 0, .closure 0, .tail 0], [.head 1, .closure 1, .tail 1]]

/-- With layer 1 on another device than the tail of layer 0 the pipeline never copies the positions to
it: the tail's segment has flushed the host, and is no segment of the head. -/
theorem not_sameInputs_offload :
    moeExecMulMatId positionCapture (offload [6]) hostExperts [0, 1] = some positionRun ∧
      [0, 1].mapM (execLayerBurst positionCapture (offload [6]) hostExperts.unfailing) =
        some positionBursts ∧
      stop positionCapture (offload [6]) positionRun ⟨1, 1, .layerFront, 1⟩ = none ∧
      stop positionCapture (offload [6]) positionBursts.flatten ⟨1, 1, .layerFront, 1⟩ = some 4 ∧
      ¬ SameInputs (wiring positionCapture (offload [6]))
        (callActions positionCapture (offload [6]) positionRun)
        (burstActions positionCapture (offload [6]) positionBursts) := by
  refine ⟨by decide, by decide, by decide, by decide, fun hsame => ?_⟩
  have hseen := hsame (Option ℕ) (fun _ _ old => old.map (· + 1))
    (Sum.elim (fun _ => some 0) fun _ => none)
  revert hseen
  decide

/-- With both layers on the device the copies are made ahead of the tail instead of the head, and every
node sees the same. -/
theorem sameInputs_offload :
    ∃ bs, [0, 1].mapM (execLayerBurst positionCapture (offload [2, 5, 6]) hostExperts.unfailing) = some bs ∧
      SameInputs (wiring positionCapture (offload [2, 5, 6]))
        (callActions positionCapture (offload [2, 5, 6]) positionRun)
        (burstActions positionCapture (offload [2, 5, 6]) bs) := by
  obtain ⟨bs, hbs, _, _, _, hiff⟩ := pipelined_iff_stopsAgree positionCapture (offload [2, 5, 6])
    hostExperts [0, 1] (by decide) positionRun (by decide)
  refine ⟨bs, hbs, hiff.mpr fun pre L K post h => ?_⟩
  have hsplit : pre = [] ∧ L = 0 ∧ K = 1 ∧ post = [] := by
    rcases pre with _ | ⟨a, _ | ⟨b, pre⟩⟩ <;> simp_all
  obtain ⟨rfl, rfl, rfl, rfl⟩ := hsplit
  have hserves : ∀ s ∈ relays positionCapture (offload [2, 5, 6]), s.stage ≠ .tail → s.layer = 1 →
      ServesAlike positionCapture (offload [2, 5, 6]) s 0 1 (((layerSteps [1]).drop 1).flatMap positionCapture.stepNodes)
        False (FusedAhead positionCapture (offload [2, 5, 6]) s 0 1)
        (∃ k, ComesIn positionCapture (offload [2, 5, 6]) s (positionCapture.tail 0 ++ positionCapture.head 1)
          (positionCapture.head 1) k ∨ Leaves positionCapture (offload [2, 5, 6]) s 0 1 k) := by
    decide
  exact hserves

end offload

end PipelineExec
end StreamMoE
