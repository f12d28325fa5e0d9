import Mathlib.Data.List.Dedup
import Mathlib.Data.List.Sort
import StreamMoE.ComputeGraph
import StreamMoE.Saturation

/-! Attribution of every compute node of a graph to a layer. -/
namespace StreamMoE
namespace LayerCapture

open ComputeGraph Saturation

/-- `lay[]`; `none` is -1. -/
abbrev Layers := ℕ → Option ℕ

/-- `std::max` of two layers. -/
def later : Option ℕ → Option ℕ → Option ℕ
  | none, b => b
  | some a, none => some a
  | some a, some b => some (max a b)

section names

/-- The text before the last `" ("`. -/
def beforeParen : List Char → Option (List Char)
  | [] => none
  | c :: cs =>
      match beforeParen cs with
      | some rest => some (c :: rest)
      | none => if c = ' ' ∧ cs.head? = some '(' then some [] else none

/-- `"Qcur-3 (reshaped)"` without its annotation. -/
def withoutAnnotation (name : List Char) : List Char :=
  if name.getLast? = some ')' then (beforeParen name).getD name else name

/-- The layer of a name that ends in `-<digits>`. -/
def nameLayerSuffix (name : String) : Option ℕ :=
  let s := withoutAnnotation name.toList
  let digits := (s.reverse.takeWhile (· ≠ '-')).reverse
  if '-' ∈ s ∧ digits ≠ [] ∧ digits.all Char.isDigit then
    some (digits.foldl (fun n c => 10 * n + (c.toNat - '0'.toNat)) 0)
  else none

example : nameLayerSuffix "Qcur-13 (reshaped)" = some 13 := by decide

example : nameLayerSuffix "node_12" = none := by decide

end names

section collect

variable (g : Graph) (official : ℕ → Option ℕ)

def ownLayer (p : ℕ) : Option ℕ := (official p).or (nameLayerSuffix (g.tensor p).name)

def ownedLayers : Layers := fun p => if p ∈ g.nodes then ownLayer g official p else none

/-- 1. A node without a layer inherits the latest layer of its producers. -/
def producerStep (lay : Layers) (i : ℕ) : Layers :=
  if (ownLayer g official i).isSome then lay
  else Function.update lay i ((g.tensor i).sources.foldl (fun best s => later best (lay s)) (lay i))

def producerPass (lay : Layers) : Layers := g.nodes.foldl (producerStep g official) lay

def consumerLayer (lay : Layers) (i : ℕ) : Option ℕ :=
  g.nodes.foldl (fun best c => if i ∈ (g.tensor c).sources then later best (lay c) else best) none

/-- 2. A compute node still without a layer inherits that of its consumers. -/
def consumerStep (lay : Layers) (i : ℕ) : Layers :=
  if (lay i).isSome ∨ g.op i = .none then lay else Function.update lay i (consumerLayer g lay i)

def consumerPass (lay : Layers) : Layers := g.nodes.foldl (consumerStep g) lay

/-- 3. A compute node still without a layer takes the last layer met. -/
def nearestStep (state : Layers × Option ℕ) (i : ℕ) : Layers × Option ℕ :=
  match state.1 i with
  | some l => (state.1, some l)
  | none => if g.op i = .none then state else (Function.update state.1 i state.2, state.2)

def nearestPass (order : List ℕ) (lay : Layers) : Layers :=
  (order.foldl (nearestStep g) (lay, none)).1

def isNarrowing (i : ℕ) : Bool :=
  g.op i = .getRows &&
    match (g.tensor i).src with
    | some x :: some ids :: _ => g.op x ≠ .none && (g.tensor ids).isInput
    | _ => false

def firstConsumerLayer (lay : Layers) (i : ℕ) : Option ℕ :=
  g.nodes.findSome? fun c => if i ∈ (g.tensor c).sources then lay c else none

/-- The out-ids narrowing belongs to the layer that reads it. -/
def narrow (lay : Layers) : Layers := fun i =>
  if i ∈ g.nodes ∧ isNarrowing g i = true then (firstConsumerLayer g lay i).or (lay i) else lay i

def collectLayers : Layers :=
  let lay := saturate g.nodes (producerPass g official) (g.nodes.length + 1) (ownedLayers g official)
  let lay := saturate g.nodes (consumerPass g) (g.nodes.length + 1) lay
  narrow g (nearestPass g g.nodes.reverse (nearestPass g g.nodes lay))

/-- `collect_layer_nodes`: the nodes of a layer in graph order. -/
def collectLayerNodes (layer : ℕ) : List ℕ :=
  g.nodes.filter fun p => decide (collectLayers g official p = some layer)

def layerKeys : List ℕ :=
  (g.nodes.filterMap (collectLayers g official)).dedup.insertionSort fun a b => a ≤ b

variable {g official}

@[simp] theorem mem_collectLayerNodes {layer p : ℕ} :
    p ∈ collectLayerNodes g official layer ↔
      p ∈ g.nodes ∧ collectLayers g official p = some layer := by
  simp [collectLayerNodes]

theorem mem_layerKeys {layer : ℕ} :
    layer ∈ layerKeys g official ↔ ∃ p ∈ g.nodes, collectLayers g official p = some layer := by
  simp [layerKeys, List.mem_insertionSort]

theorem layerKeys_sorted : (layerKeys g official).Pairwise (· < ·) := by
  have hle := List.pairwise_insertionSort (fun a b : ℕ => a ≤ b)
    (g.nodes.filterMap (collectLayers g official)).dedup
  have hnodup : (layerKeys g official).Nodup :=
    (List.perm_insertionSort _ _).nodup_iff.mpr (List.nodup_dedup _)
  exact (hle.and hnodup).imp fun h => Nat.lt_of_le_of_ne h.1 h.2

end collect

section coverage

variable {g : Graph}

/-- The last layer met, and every layer given, survives the rest of the pass. -/
theorem nearest_foldl_isSome {order : List ℕ} {state : Layers × Option ℕ} :
    (∀ p, (state.1 p).isSome → ((order.foldl (nearestStep g) state).1 p).isSome) ∧
      (state.2.isSome → ∀ p ∈ order, g.op p ≠ .none →
        ((order.foldl (nearestStep g) state).1 p).isSome) := by
  induction order generalizing state with
  | nil => exact ⟨fun _ h => h, fun _ p hp => by cases hp⟩
  | cons i order ih =>
    obtain ⟨lay, cur⟩ := state
    obtain ⟨hkeep, hcur⟩ := @ih (nearestStep g (lay, cur) i)
    have hmono : ∀ p, (lay p).isSome → ((nearestStep g (lay, cur) i).1 p).isSome := by
      intro p hp
      unfold nearestStep
      split
      · exact hp
      · rename_i hnone
        have hi : lay i = none := hnone
        split
        · exact hp
        · by_cases hpi : p = i
          · rw [hpi, hi] at hp
            cases hp
          · dsimp only
            rw [Function.update_of_ne hpi]
            exact hp
    have hnext : cur.isSome → (nearestStep g (lay, cur) i).2.isSome := by
      intro hc
      unfold nearestStep
      split
      · rfl
      · split <;> exact hc
    refine ⟨fun p hp => hkeep p (hmono p hp), fun hc p hp hop => ?_⟩
    rcases List.mem_cons.mp hp with rfl | hp
    · refine hkeep p ?_
      unfold nearestStep
      split
      · rename_i hsome
        rw [hsome]
        rfl
      · simp only [hop, if_false, Function.update_self]
        exact hc
    · exact hcur (hnext hc) p hp hop

/-- Behind an owned node every compute node is owned. -/
theorem nearestPass_isSome {pre post : List ℕ} {x : ℕ} {lay : Layers} (hx : (lay x).isSome) :
    (∀ p, (lay p).isSome → (nearestPass g (pre ++ x :: post) lay p).isSome) ∧
      ∀ p ∈ post, g.op p ≠ .none → (nearestPass g (pre ++ x :: post) lay p).isSome := by
  have hall := @nearest_foldl_isSome g (pre ++ x :: post) (lay, none)
  refine ⟨hall.1, fun p hp hop => ?_⟩
  simp only [nearestPass, List.foldl_append, List.foldl_cons]
  have hpre := (@nearest_foldl_isSome g pre (lay, none)).1 x hx
  refine (@nearest_foldl_isSome g post _).2 ?_ p hp hop
  obtain ⟨l, hl⟩ := Option.isSome_iff_exists.mp hpre
  simp only [nearestStep, hl, Option.isSome_some]

theorem nearestPass_none {order : List ℕ} {lay : Layers} (h : ∀ p, lay p = none) :
    nearestPass g order lay = lay := by
  have hfold : ∀ order : List ℕ, order.foldl (nearestStep g) (lay, none) = (lay, none) := by
    intro order
    induction order with
    | nil => rfl
    | cons i order ih =>
      have hstep : nearestStep g (lay, none) i = (lay, none) := by
        simp only [nearestStep, h i]
        split
        · rfl
        · rw [Function.update_eq_self_iff.mpr (h i).symm]
      rw [List.foldl_cons, hstep, ih]
  rw [nearestPass, hfold]

/-- If some entry of the order has a layer behind the two passes, every compute node of it has one. -/
theorem nearestPass_all {order : List ℕ} {lay : Layers} {x p : ℕ} (hmem : x ∈ order) (hx : (lay x).isSome)
    (hp : p ∈ order) (hop : g.op p ≠ .none) :
    (nearestPass g order.reverse (nearestPass g order lay) p).isSome := by
  obtain ⟨pre, post, rfl⟩ := List.append_of_mem hmem
  have hfwd := @nearestPass_isSome g pre post x lay hx
  have hxf := hfwd.1 x hx
  have hbwd := @nearestPass_isSome g post.reverse pre.reverse x (nearestPass g (pre ++ x :: post) lay) hxf
  have hrev : post.reverse ++ x :: pre.reverse = (pre ++ x :: post).reverse := by simp
  rw [hrev] at hbwd
  rcases List.mem_append.mp hp with hp | hp
  · exact hbwd.2 p (List.mem_reverse.mpr hp) hop
  · rcases List.mem_cons.mp hp with rfl | hp
    · exact hbwd.1 p hxf
    · exact hbwd.1 p (hfwd.2 p hp hop)

theorem nearestPass_total {lay : Layers} (hlay : ∀ p, (lay p).isSome → p ∈ g.nodes)
    (h : ∃ p, (lay p).isSome) {p : ℕ} (hp : p ∈ g.nodes) (hop : g.op p ≠ .none) :
    (nearestPass g g.nodes.reverse (nearestPass g g.nodes lay) p).isSome := by
  obtain ⟨x, hx⟩ := h
  exact nearestPass_all (hlay x hx) hx hp hop

def OnNodes (g : Graph) (lay : Layers) : Prop := ∀ p, (lay p).isSome → p ∈ g.nodes

theorem OnNodes.update {lay : Layers} (h : OnNodes g lay) {i : ℕ} (hi : i ∈ g.nodes)
    (l : Option ℕ) : OnNodes g (Function.update lay i l) := by
  intro p hp
  by_cases hpi : p = i
  · rw [hpi]
    exact hi
  · rw [Function.update_of_ne hpi] at hp
    exact h p hp

theorem OnNodes.foldl {step : Layers → ℕ → Layers}
    (hstep : ∀ lay i, i ∈ g.nodes → OnNodes g lay → OnNodes g (step lay i)) {order : List ℕ}
    (horder : ∀ i ∈ order, i ∈ g.nodes) {lay : Layers} (h : OnNodes g lay) :
    OnNodes g (order.foldl step lay) := by
  induction order generalizing lay with
  | nil => exact h
  | cons i order ih =>
    exact ih (fun j hj => horder j (List.mem_cons_of_mem _ hj))
      (hstep lay i (horder i (List.mem_cons_self ..)) h)

variable {official : ℕ → Option ℕ}

theorem OnNodes.owned : OnNodes g (ownedLayers g official) := by
  intro p hp
  unfold ownedLayers at hp
  split at hp
  · assumption
  · cases hp

theorem OnNodes.producerPass {lay : Layers} (h : OnNodes g lay) :
    OnNodes g (producerPass g official lay) := by
  refine h.foldl (fun lay i hi h => ?_) fun i hi => hi
  unfold producerStep
  split
  · exact h
  · exact h.update hi _

theorem OnNodes.consumerPass {lay : Layers} (h : OnNodes g lay) : OnNodes g (consumerPass g lay) := by
  refine h.foldl (fun lay i hi h => ?_) fun i hi => hi
  unfold consumerStep
  split
  · exact h
  · exact h.update hi _

theorem narrow_isSome {lay : Layers} {i : ℕ} (h : (lay i).isSome) : (narrow g lay i).isSome := by
  unfold narrow
  split
  · cases firstConsumerLayer g lay i <;> simp [h]
  · exact h

theorem narrow_none {lay : Layers} (h : ∀ p, lay p = none) (i : ℕ) : narrow g lay i = none := by
  have hfirst : firstConsumerLayer g lay i = none := by
    unfold firstConsumerLayer
    rw [List.findSome?_eq_none_iff]
    intro c _
    split
    · exact h c
    · rfl
  unfold narrow
  split
  · rw [hfirst, Option.none_or, h i]
  · exact h i

/-- If one node has a layer, every compute node has one. -/
theorem collectLayers_total (h : layerKeys g official ≠ []) {p : ℕ} (hp : p ∈ g.nodes)
    (hop : g.op p ≠ .none) : (collectLayers g official p).isSome := by
  set lay := saturate g.nodes (LayerCapture.consumerPass g) (g.nodes.length + 1)
    (saturate g.nodes (LayerCapture.producerPass g official) (g.nodes.length + 1)
      (ownedLayers g official)) with hlay
  have hon : OnNodes g lay := by
    refine saturate_induction (fun t ht => ht.consumerPass) _ ?_
    exact saturate_induction (fun t ht => ht.producerPass) _ OnNodes.owned
  have hcollect : collectLayers g official =
      narrow g (nearestPass g g.nodes.reverse (nearestPass g g.nodes lay)) := rfl
  rw [hcollect]
  by_cases hex : ∃ p, (lay p).isSome
  · exact narrow_isSome (nearestPass_total hon hex hp hop)
  · have hnone : ∀ p, lay p = none := by
      intro p
      by_contra hne
      exact hex ⟨p, Option.isSome_iff_ne_none.mpr hne⟩
    refine absurd ?_ h
    rw [List.eq_nil_iff_forall_not_mem]
    intro l hl
    obtain ⟨q, _, hq⟩ := mem_layerKeys.mp hl
    rw [hcollect, nearestPass_none hnone, nearestPass_none hnone, narrow_none hnone] at hq
    cases hq

end coverage

end LayerCapture
end StreamMoE
