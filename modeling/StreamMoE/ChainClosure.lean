import StreamMoE.ChainGuard

/-! The closure `moe_chain_assign_backend` privatises: the compute nodes of a layer's chain and the
helpers that produce its inputs, and who else reads them. -/
namespace StreamMoE
namespace ChainClosure

open ComputeGraph LayerPlan ChainGuard

section names

def startsWith (name text : String) : Bool := text.toList.isPrefixOf name.toList

/-- The gating segment stays outside. -/
def isGatingName (name : String) : Bool :=
  ["ffn_moe_logits", "ffn_moe_probs", "ffn_moe_argsort", "ffn_moe_topk", "ffn_moe_group",
    "ffn_moe_weights"].any (hasText name)

/-- A tensor without a name of its own, or a chain name outside the gating segment. -/
def isHelperName (name : String) : Bool :=
  name = "" || startsWith name "node_" || startsWith name "STREAMMOE#" ||
    (startsWith name "ffn_moe_" && !isGatingName name)

end names

section growth

variable (g : Graph)

def chainCompute (L : ℕ) : List ℕ :=
  g.nodes.filter fun p => inChain g p && !isViewOp (g.op p) && decide (chainLayer g p = L)

/-- The layers with a compute node in their chain, ascending. -/
def chainKeys : List ℕ :=
  (g.nodes.filterMap fun p =>
    if inChain g p && !isViewOp (g.op p) && decide (0 ≤ chainLayer g p) then some (chainLayer g p).toNat
    else none).dedup.insertionSort fun a b => a ≤ b

/-- `g_layer_exec` before the input producers. -/
def chainExec : List (ℕ × List ℕ) := (chainKeys g).map fun L => (L, chainCompute g L)

/-- The producer of a source that joins the closure by its name. -/
def helperOf (s : ℕ) : Option ℕ :=
  let t := producer g s
  if g.op t = .none then none
  else if g.op t = .mulMatId then none
  else if isHelperName (g.tensor t).name then some t
  else none

/-- `add`: a producer of two nodes is in it twice. -/
def additions (compute : List ℕ) : List ℕ :=
  compute.flatMap fun cn => ((g.tensor cn).sources.filterMap (helperOf g)).filter fun t => decide (t ∉ compute)

/-- One turn of the loop for one layer, the order of the graph restored. -/
def growOne (compute : List ℕ) : List ℕ :=
  if additions g compute = [] then compute
  else (compute ++ additions g compute).insertionSort fun a b => g.nodes.idxOf a ≤ g.nodes.idxOf b

/-- The loop over the layers until no layer grows. -/
def grow : ℕ → List (ℕ × List ℕ) → List (ℕ × List ℕ)
  | 0, exec => exec
  | fuel + 1, exec =>
      if exec.all fun e => (additions g e.2).isEmpty then exec
      else grow fuel (exec.map fun e => (e.1, growOne g e.2))

def layerExecs : List (ℕ × List ℕ) := grow g (g.nodes.length + 1) (chainExec g)

/-- What belongs to the closure of a layer: the compute nodes of its chain, and behind the views the
producers of its inputs that have a helper's name. -/
inductive InClosure (L : ℕ) : ℕ → Prop
  | chain {p : ℕ} (hp : p ∈ chainCompute g L) : InClosure L p
  | helper {cn s t : ℕ} (hcn : InClosure L cn) (hs : s ∈ (g.tensor cn).sources)
      (ht : helperOf g s = some t) : InClosure L t

end growth

section grown

variable {g : Graph} {L p : ℕ} {compute : List ℕ}

theorem mem_chainCompute : p ∈ chainCompute g L ↔
    p ∈ g.nodes ∧ inChain g p = true ∧ isViewOp (g.op p) = false ∧ chainLayer g p = L := by
  simp only [chainCompute, List.mem_filter, Bool.and_eq_true, Bool.not_eq_true', decide_eq_true_eq, and_assoc]

/-- Behind the views of a node's source stands a node, or a leaf. -/
theorem producer_mem_nodes {s : ℕ} (hs : g.op s ≠ .none → s ∈ g.nodes)
    (hop : g.op (producer g s) ≠ .none) : producer g s ∈ g.nodes := by
  induction s using view_induction (g := g) with
  | own s hview =>
    have heq : producer g s = s := congrArg Prod.fst (unwrap_of_not_view hview)
    rw [heq] at hop ⊢
    exact hs hop
  | view s q hview hq ih =>
    have hne : g.op s ≠ .none := by
      intro hnone
      rw [hnone] at hview
      cases hview
    rw [producer_of_view hview hq] at hop ⊢
    exact ih (fun hqop => g.closed s (hs hne) q (mem_sources_of_src0 hq) hqop) hop

theorem helperOf_spec {s t : ℕ} (h : helperOf g s = some t) :
    t = producer g s ∧ g.op t ≠ .none ∧ g.op t ≠ .mulMatId ∧ isHelperName (g.tensor t).name = true := by
  unfold helperOf at h
  dsimp only at h
  split at h
  · cases h
  · rename_i hnone
    split at h
    · cases h
    · rename_i hmm
      split at h
      · rename_i hname
        cases h
        exact ⟨rfl, hnone, hmm, hname⟩
      · cases h

theorem InClosure.node (h : InClosure g L p) : p ∈ g.nodes ∧ isViewOp (g.op p) = false := by
  induction h with
  | chain hp => exact ⟨(mem_chainCompute.mp hp).1, (mem_chainCompute.mp hp).2.2.1⟩
  | helper hcn hs ht ih =>
    obtain ⟨rfl, hop, _, _⟩ := helperOf_spec ht
    exact ⟨producer_mem_nodes (fun hsop => g.closed _ ih.1 _ hs hsop) hop, producer_not_view _⟩

theorem mem_additions : p ∈ additions g compute ↔
    ∃ cn ∈ compute, ∃ s ∈ (g.tensor cn).sources, helperOf g s = some p ∧ p ∉ compute := by
  simp only [additions, List.mem_flatMap, List.mem_filter, List.mem_filterMap, decide_eq_true_eq]
  constructor
  · rintro ⟨cn, hcn, ⟨s, hs, hp⟩, hnot⟩
    exact ⟨cn, hcn, s, hs, hp, hnot⟩
  · rintro ⟨cn, hcn, s, hs, hp, hnot⟩
    exact ⟨cn, hcn, ⟨s, hs, hp⟩, hnot⟩

theorem mem_growOne : p ∈ growOne g compute ↔ p ∈ compute ∨ p ∈ additions g compute := by
  unfold growOne
  split
  · rename_i hnil
    rw [hnil]
    simp only [List.not_mem_nil, or_false]
  · rw [List.mem_insertionSort, List.mem_append]

/-- The lists of a layer on their way: its chain, what belongs to the closure, and the chain kept. -/
structure Growing (g : Graph) (L : ℕ) (compute : List ℕ) : Prop where
  sound : ∀ p ∈ compute, InClosure g L p
  chain : ∀ p ∈ chainCompute g L, p ∈ compute

theorem Growing.growOne (h : Growing g L compute) : Growing g L (growOne g compute) := by
  refine ⟨fun p hp => ?_, fun p hp => mem_growOne.mpr (.inl (h.chain p hp))⟩
  rcases mem_growOne.mp hp with hold | hadd
  · exact h.sound p hold
  · obtain ⟨cn, hcn, s, hs, hhelper, _⟩ := mem_additions.mp hadd
    exact .helper (h.sound cn hcn) hs hhelper

/-- How many nodes the list has not yet. -/
def missing (g : Graph) (compute : List ℕ) : ℕ := g.nodes.countP fun p => decide (p ∉ compute)

theorem missing_growOne (h : Growing g L compute) (hadd : additions g compute ≠ []) :
    missing g (growOne g compute) < missing g compute := by
  obtain ⟨p, hp⟩ := List.exists_mem_of_ne_nil _ hadd
  have hin : InClosure g L p := h.growOne.sound p (mem_growOne.mpr (.inr hp))
  obtain ⟨_, _, _, _, _, hnot⟩ := mem_additions.mp hp
  refine Worklist.countP_lt (x := p) (fun q hq => ?_) hin.node.1 ?_ ?_
  · rw [decide_eq_true_eq] at hq ⊢
    exact fun hmem => hq (mem_growOne.mpr (.inl hmem))
  · rw [decide_eq_false_iff_not, not_not]
    exact mem_growOne.mpr (.inr hp)
  · rw [decide_eq_true_eq]
    exact hnot

theorem Growing.complete (h : Growing g L compute) (hnil : additions g compute = []) :
    p ∈ compute ↔ InClosure g L p := by
  refine ⟨h.sound p, fun hp => ?_⟩
  induction hp with
  | chain hp => exact h.chain _ hp
  | helper hcn hs ht ih =>
    by_contra hnot
    have hadd := mem_additions.mpr ⟨_, ih, _, hs, ht, hnot⟩
    rw [hnil] at hadd
    exact absurd hadd List.not_mem_nil

/-- The loop ends with lists that do not grow, under their layers. -/
theorem grow_spec {fuel : ℕ} {exec : List (ℕ × List ℕ)} (h : ∀ e ∈ exec, Growing g e.1 e.2)
    (hfuel : ∀ e ∈ exec, additions g e.2 = [] ∨ missing g e.2 < fuel) :
    (grow g fuel exec).map Prod.fst = exec.map Prod.fst ∧
      ∀ e ∈ grow g fuel exec, Growing g e.1 e.2 ∧ additions g e.2 = [] := by
  induction fuel generalizing exec with
  | zero =>
    refine ⟨rfl, fun e he => ⟨h e he, ?_⟩⟩
    rcases hfuel e he with hnil | hlt
    · exact hnil
    · omega
  | succ fuel ih =>
    unfold grow
    split
    · rename_i hall
      refine ⟨rfl, fun e he => ⟨h e he, ?_⟩⟩
      exact List.isEmpty_iff.mp (List.all_eq_true.mp hall e he)
    · have hnext : ∀ e ∈ exec.map fun e => (e.1, growOne g e.2), Growing g e.1 e.2 ∧
          (additions g e.2 = [] ∨ missing g e.2 < fuel) := by
        intro e he
        obtain ⟨e₀, he₀, rfl⟩ := List.mem_map.mp he
        refine ⟨(h e₀ he₀).growOne, ?_⟩
        by_cases hnil : additions g e₀.2 = []
        · have hsame : growOne g e₀.2 = e₀.2 := by
            unfold ChainClosure.growOne
            rw [if_pos hnil]
          dsimp only
          rw [hsame]
          exact .inl hnil
        · have hlt := missing_growOne (h e₀ he₀) hnil
          rcases hfuel e₀ he₀ with hnil' | hbound
          · exact absurd hnil' hnil
          · exact .inr (by dsimp only; omega)
      obtain ⟨hkeys, hend⟩ := ih (fun e he => (hnext e he).1) fun e he => (hnext e he).2
      refine ⟨?_, hend⟩
      rw [hkeys, List.map_map]
      rfl

theorem mem_chainKeys : L ∈ chainKeys g ↔ ∃ p, p ∈ chainCompute g L := by
  simp only [chainKeys, List.mem_insertionSort, List.mem_dedup, List.mem_filterMap]
  constructor
  · rintro ⟨p, hp, hsome⟩
    split at hsome
    · rename_i hcond
      simp only [Bool.and_eq_true, Bool.not_eq_true', decide_eq_true_eq] at hcond
      refine ⟨p, mem_chainCompute.mpr ⟨hp, hcond.1.1, hcond.1.2, ?_⟩⟩
      have heq := Option.some.inj hsome
      omega
    · cases hsome
  · rintro ⟨p, hp⟩
    obtain ⟨hnode, hchain, hview, hlayer⟩ := mem_chainCompute.mp hp
    refine ⟨p, hnode, ?_⟩
    rw [hchain, hview, hlayer]
    simp

theorem chainKeys_sorted : (chainKeys g).Pairwise (· < ·) := by
  have hle := List.pairwise_insertionSort (fun a b : ℕ => a ≤ b) (g.nodes.filterMap fun p =>
    if inChain g p && !isViewOp (g.op p) && decide (0 ≤ chainLayer g p) then some (chainLayer g p).toNat
    else none).dedup
  have hnodup : (chainKeys g).Nodup := (List.perm_insertionSort _ _).nodup_iff.mpr (List.nodup_dedup _)
  exact (hle.and hnodup).imp fun h => Nat.lt_of_le_of_ne h.1 h.2

theorem layerExecs_spec (g : Graph) : (layerExecs g).map Prod.fst = chainKeys g ∧
    ∀ e ∈ layerExecs g, ∀ p, p ∈ e.2 ↔ InClosure g e.1 p := by
  have hstart : ∀ e ∈ chainExec g, Growing g e.1 e.2 := by
    intro e he
    obtain ⟨L, _, rfl⟩ := List.mem_map.mp he
    exact ⟨fun p hp => .chain hp, fun p hp => hp⟩
  have hfuel : ∀ e ∈ chainExec g, additions g e.2 = [] ∨ missing g e.2 < g.nodes.length + 1 :=
    fun e _ => .inr (Nat.lt_succ_of_le List.countP_le_length)
  obtain ⟨hkeys, hend⟩ := grow_spec hstart hfuel
  refine ⟨?_, fun e he p => (hend e he).1.complete (hend e he).2⟩
  unfold layerExecs
  rw [hkeys, chainExec, List.map_map]
  exact List.map_id _

/-- The lists stay in the order of the graph. -/
def Ordered (g : Graph) (compute : List ℕ) : Prop :=
  compute.Pairwise fun a b => g.nodes.idxOf a ≤ g.nodes.idxOf b

theorem ordered_growOne (h : Ordered g compute) : Ordered g (growOne g compute) := by
  have htotal : Std.Total fun a b : ℕ => g.nodes.idxOf a ≤ g.nodes.idxOf b := ⟨fun _ _ => Nat.le_total _ _⟩
  have htrans : IsTrans ℕ fun a b => g.nodes.idxOf a ≤ g.nodes.idxOf b := ⟨fun _ _ _ => Nat.le_trans⟩
  unfold ChainClosure.growOne
  split
  · exact h
  · exact List.pairwise_insertionSort _ _

theorem ordered_grow {fuel : ℕ} {exec : List (ℕ × List ℕ)} (h : ∀ e ∈ exec, Ordered g e.2) :
    ∀ e ∈ grow g fuel exec, Ordered g e.2 := by
  induction fuel generalizing exec with
  | zero => exact h
  | succ fuel ih =>
    unfold grow
    split
    · exact h
    · refine ih fun e he => ?_
      obtain ⟨e₀, he₀, rfl⟩ := List.mem_map.mp he
      exact ordered_growOne (h e₀ he₀)

theorem ordered_chainCompute : Ordered g (chainCompute g L) := by
  have hnodes : Ordered g g.nodes := by
    refine List.pairwise_iff_getElem.mpr fun i j hi hj hij => ?_
    rw [g.nodup.idxOf_getElem i hi, g.nodup.idxOf_getElem j hj]
    omega
  exact hnodes.sublist List.filter_sublist

theorem ordered_layerExecs : ∀ e ∈ layerExecs g, Ordered g e.2 := by
  refine ordered_grow fun e he => ?_
  obtain ⟨L, _, rfl⟩ := List.mem_map.mp he
  exact ordered_chainCompute

end grown

section capture

variable {g : Graph} {official : ℕ → Option ℕ} {L p : ℕ}

theorem layerExecs_sorted (g : Graph) : (layerExecs g).Pairwise fun a b => a.1 < b.1 := by
  have hsorted : ((layerExecs g).map Prod.fst).Pairwise (· < ·) := by
    rw [(layerExecs_spec g).1]
    exact chainKeys_sorted
  exact List.pairwise_map.mp hsorted

def capture (g : Graph) (official : ℕ → Option ℕ) : Capture where
  graph := g
  official := official
  exec := layerExecs g
  exec_sorted := layerExecs_sorted g
  exec_nodes e he p hp := (((layerExecs_spec g).2 e he p).mp hp).node

theorem mem_compute : p ∈ (capture g official).compute L ↔ InClosure g L p := by
  have hspec := layerExecs_spec g
  constructor
  · intro hp
    unfold Capture.compute at hp
    cases hexec : (capture g official).layerExec L with
    | none =>
      rw [hexec] at hp
      cases hp
    | some l =>
      rw [hexec] at hp
      exact (hspec.2 _ (Capture.mem_exec hexec) p).mp hp
  · intro hp
    have hkey : ∃ q, q ∈ chainCompute g L := by
      induction hp with
      | chain hp => exact ⟨_, hp⟩
      | helper _ _ _ ih => exact ih
    have hmem : L ∈ (layerExecs g).map Prod.fst := by
      rw [hspec.1]
      exact mem_chainKeys.mpr hkey
    obtain ⟨⟨K, l⟩, he, rfl⟩ := List.mem_map.mp hmem
    have hexec : (capture g official).layerExec K = some l := Capture.layerExec_eq he
    unfold Capture.compute
    rw [hexec]
    exact (hspec.2 _ he p).mpr hp

theorem ordered_compute : Ordered g ((capture g official).compute L) := by
  unfold Capture.compute
  cases hexec : (capture g official).layerExec L with
  | none => exact List.Pairwise.nil
  | some l => exact ordered_layerExecs _ (Capture.mem_exec hexec)

/-- Behind views that are no output of a chain. -/
inductive ViaInner (g : Graph) (u : ℕ) : ℕ → Prop
  | here : ViaInner g u u
  | view {s q : ℕ} (hview : isViewOp (g.op s) = true) (hout : isOut g s = false)
      (hq : (g.tensor s).src0 = some q) (hvia : ViaInner g u q) : ViaInner g u s

def ReadsInside (g : Graph) (v u : ℕ) : Prop := ∃ s ∈ (g.tensor v).sources, ViaInner g u s

/-- A node with a helper's name from which paths of such names lead into the chain of a layer. -/
inductive Helps (g : Graph) (L : ℕ) : ℕ → Prop
  | chain {cn s t : ℕ} (hcn : cn ∈ chainCompute g L) (hs : s ∈ (g.tensor cn).sources)
      (ht : helperOf g s = some t) : Helps g L t
  | helper {cn s t : ℕ} (hcn : Helps g L cn) (hs : s ∈ (g.tensor cn).sources)
      (ht : helperOf g s = some t) : Helps g L t

/-- A node that `collect_layer_nodes` gives to layer `K`, that computes and belongs neither to the
chain of layer `K` or `L` nor helps one of them. -/
structure Aside (g : Graph) (official : ℕ → Option ℕ) (L K v : ℕ) : Prop where
  captured : v ∈ g.nodes ∧ LayerCapture.collectLayers g official v = some K
  computes : isAliasOp (g.op v) = false
  noChain : v ∉ chainCompute g L ∧ v ∉ chainCompute g K
  noHelper : ¬ Helps g L v ∧ ¬ Helps g K v

theorem mem_head_or_tail {K v : ℕ} :
    (v ∈ (capture g official).head K ∨ v ∈ (capture g official).tail K) ↔
      (v ∈ g.nodes ∧ LayerCapture.collectLayers g official v = some K) ∧ ¬ InClosure g K v := by
  simp only [Capture.head, Capture.tail, List.mem_filter, Bool.and_eq_true, Bool.not_eq_true',
    decide_eq_true_eq, Capture.layerNodes, LayerCapture.mem_collectLayerNodes, mem_compute]
  cases (capture g official).down K v <;> simp [capture]

theorem ViaInner.via {s : ℕ} (h : ViaInner g p s) : Via g p s := by
  induction h with
  | here => exact .here
  | view hview _ hq _ ih => exact .view hview hq ih

theorem ReadsInside.reads {v : ℕ} (h : ReadsInside g v p) : ReadsThrough g v p := by
  obtain ⟨s, hs, hvia⟩ := h
  exact ⟨s, hs, hvia.via⟩

end capture

section scale

end scale

end ChainClosure
end StreamMoE
