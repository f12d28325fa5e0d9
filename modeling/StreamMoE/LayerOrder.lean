import Mathlib.Data.List.Induction
import StreamMoE.LayerPlan

/-! The order in which the executor visits the layers of a captured graph, against the order the
submission units are laid out in. -/
namespace StreamMoE
namespace LayerOrder

open ComputeGraph LayerCapture LayerPlan LayerPlan.Capture

variable (c : Capture)

def layerOfNode (p : ℕ) : Option ℕ :=
  ((c.exec.find? fun e => decide (p ∈ e.2)).map Prod.fst).or
    (c.layers.find? fun L => decide (p ∈ c.layerNodes L))

/-- The layers in the order their nodes appear; a captured graph without a layer for a
`MUL_MAT_ID` is refused. -/
def visitStep (layers : List ℕ) (nd : ℕ) : Option (List ℕ) :=
  if isAliasOp (c.graph.op nd) then some layers
  else
    match layerOfNode c nd with
    | none => if c.graph.op nd = .mulMatId then none else some layers
    | some L => some (if L ∈ layers then layers else layers ++ [L])

def visitedLayers (nodes : List ℕ) : Option (List ℕ) := nodes.foldlM (visitStep c) []

/-- The first node of a layer that is no alias. -/
def firstNode (L : ℕ) : Option ℕ :=
  (if L ∈ c.layers then (c.layerNodes L).find? fun p => !isAliasOp (c.graph.op p) else none).or
    ((c.compute L).find? fun p => !isAliasOp (c.graph.op p))

/-- Has a plan, or its first node is in the graph. -/
def isActive (L : ℕ) : Bool :=
  decide (L ∈ c.layers) ||
    match firstNode c L with
    | none => false
    | some p => decide (p ∈ c.graph.nodes)

def activeLayers (visited : List ℕ) : List ℕ := visited.filter (isActive c)

/-- What the closure's device graph takes along. -/
inductive Fusion
  | nothing | tail | tailAndHead
  deriving DecidableEq, Repr

def pipeline (fusion : ℕ → Fusion) : List ℕ → List Step
  | [] => []
  | [last] => [.closure last, .tail last]
  | cur :: next :: rest =>
      .closure cur ::
        (match fusion cur with
          | .tailAndHead => [.tail cur, .head next]
          | .tail => .tail cur :: [.head next]
          | .nothing => [.tail cur, .head next]) ++ pipeline fusion (next :: rest)

/-- What `moe_exec_mul_mat_id` runs. -/
def execSteps (fusion : ℕ → Fusion) : List Step :=
  match visitedLayers c c.graph.nodes with
  | none => []
  | some visited =>
      match activeLayers c visited with
      | [] => []
      | [L] => [.head L, .closure L, .tail L]
      | first :: rest => .head first :: pipeline fusion (first :: rest)

/-- Every layer has a node that is visited, every visited node belongs to a captured layer, and no
node comes before the first one of a smaller layer. -/
structure FrontOrdered : Prop where
  visited : ∀ L ∈ c.layers, ∃ p ∈ c.graph.nodes,
    isAliasOp (c.graph.op p) = false ∧ layerOfNode c p = some L
  captured : ∀ p ∈ c.graph.nodes, isAliasOp (c.graph.op p) = false →
    ∀ L ∈ layerOfNode c p, L ∈ c.layers
  front : ∀ pre p post, c.graph.nodes = pre ++ p :: post → isAliasOp (c.graph.op p) = false →
    ∀ L ∈ layerOfNode c p, ∀ L' ∈ c.layers, L' < L →
      ∃ q ∈ pre, isAliasOp (c.graph.op q) = false ∧ layerOfNode c q = some L'

section firsts

def firsts (l : List ℕ) : List ℕ := l.foldl (fun acc x => if x ∈ acc then acc else acc ++ [x]) []

theorem firsts_append_singleton (l : List ℕ) (x : ℕ) :
    firsts (l ++ [x]) = if x ∈ firsts l then firsts l else firsts l ++ [x] := by
  rw [firsts, List.foldl_append]
  rfl

theorem mem_firsts {l : List ℕ} {x : ℕ} : x ∈ firsts l ↔ x ∈ l := by
  induction l using List.reverseRecOn with
  | nil => exact Iff.rfl
  | append_singleton l y ih =>
    rw [firsts_append_singleton, List.mem_append, List.mem_singleton, ← ih]
    split
    · rename_i hy
      refine ⟨Or.inl, fun h => h.elim id ?_⟩
      rintro rfl
      exact hy
    · rw [List.mem_append, List.mem_singleton]

theorem firsts_prefix (l l' : List ℕ) : firsts l <+: firsts (l ++ l') := by
  induction l' using List.reverseRecOn with
  | nil => simp only [List.append_nil, List.prefix_refl]
  | append_singleton l' x ih =>
    rw [← List.append_assoc, firsts_append_singleton]
    split
    · exact ih
    · exact ih.trans (List.prefix_append _ _)

/-- First appearances come in ascending order exactly if nothing comes before a smaller value. -/
theorem firsts_eq_iff {l keys : List ℕ} (hkeys : keys.Pairwise (· < ·)) :
    firsts l = keys ↔ (∀ k ∈ keys, k ∈ l) ∧ (∀ x ∈ l, x ∈ keys) ∧
      ∀ pre x post, l = pre ++ x :: post → ∀ k ∈ keys, k < x → k ∈ pre := by
  constructor
  · intro h
    subst h
    refine ⟨fun k hk => mem_firsts.mp hk, fun x hx => mem_firsts.mpr hx, ?_⟩
    intro pre x post hl k hk hlt
    obtain ⟨rest, hrest⟩ := firsts_prefix (pre ++ [x]) post
    rw [List.append_assoc, List.singleton_append, ← hl] at hrest
    have hx : x ∈ firsts (pre ++ [x]) := mem_firsts.mpr (by simp)
    rw [← hrest] at hk hkeys
    have hin : k ∈ firsts (pre ++ [x]) := by
      rcases List.mem_append.mp hk with hk | hk
      · exact hk
      · exact absurd ((List.pairwise_append.mp hkeys).2.2 x hx k hk) (by omega)
    rcases List.mem_append.mp (mem_firsts.mp hin) with hin | hin
    · exact hin
    · exact absurd (List.mem_singleton.mp hin) (Nat.ne_of_lt hlt)
  · rintro ⟨hall, hin, hfront⟩
    have hsorted : ∀ pre post, l = pre ++ post → (firsts pre).Pairwise (· < ·) := by
      intro pre
      induction pre using List.reverseRecOn with
      | nil => exact fun _ _ => List.Pairwise.nil
      | append_singleton pre x ih =>
        intro post hl
        have hl' : l = pre ++ x :: post := by rw [hl, List.append_assoc, List.singleton_append]
        rw [firsts_append_singleton]
        split
        · exact ih _ hl'
        · rename_i hx
          refine List.pairwise_append.mpr ⟨ih _ hl', List.pairwise_singleton _ _, ?_⟩
          intro y hy z hz
          rw [List.mem_singleton.mp hz]
          by_contra hge
          have hypre := mem_firsts.mp hy
          obtain ⟨pre₁, pre₂, rfl⟩ := List.append_of_mem hypre
          have hne : y ≠ x := by
            rintro rfl
            exact hx hy
          have hxk : x ∈ keys := hin x (by rw [hl']; simp)
          have hxpre := hfront pre₁ y (pre₂ ++ x :: post) (by rw [hl']; simp) x hxk (by omega)
          exact hx (mem_firsts.mpr (List.mem_append_left _ hxpre))
    have hmem : ∀ x, x ∈ firsts l ↔ x ∈ keys := by
      intro x
      rw [mem_firsts]
      exact ⟨hin x, hall x⟩
    exact List.Perm.eq_of_pairwise (fun a b _ _ h₁ h₂ => absurd h₁ (Nat.lt_asymm h₂))
      (hsorted l [] (List.append_nil l).symm) hkeys
      ((List.perm_ext_iff_of_nodup ((hsorted l [] (List.append_nil l).symm).imp Nat.ne_of_lt)
        (hkeys.imp Nat.ne_of_lt)).mpr hmem)

end firsts

section order

variable {c}

def visits (c : Capture) (p : ℕ) : Option ℕ :=
  if isAliasOp (c.graph.op p) then none else layerOfNode c p

theorem visits_eq_some {p L : ℕ} :
    visits c p = some L ↔ isAliasOp (c.graph.op p) = false ∧ layerOfNode c p = some L := by
  unfold visits
  split <;> simp_all

theorem visitedLayers_eq {nodes : List ℕ}
    (h : ∀ p ∈ nodes, c.graph.op p = .mulMatId → layerOfNode c p ≠ none) (acc : List ℕ) :
    nodes.foldlM (visitStep c) acc =
      some ((nodes.filterMap (visits c)).foldl (fun acc x => if x ∈ acc then acc else acc ++ [x]) acc) := by
  induction nodes generalizing acc with
  | nil => rfl
  | cons p nodes ih =>
    have hrest := ih fun q hq => h q (List.mem_cons_of_mem _ hq)
    rw [List.foldlM_cons, List.filterMap_cons]
    cases halias : isAliasOp (c.graph.op p) with
    | true =>
      simp only [visitStep, visits, halias, if_true, Option.bind_eq_bind, Option.bind_some]
      exact hrest acc
    | false =>
      cases hL : layerOfNode c p with
      | none =>
        have hop : c.graph.op p ≠ .mulMatId := fun hop => h p (List.mem_cons_self ..) hop hL
        simp only [visitStep, visits, halias, hL, hop, if_false, Bool.false_eq_true,
          Option.bind_eq_bind, Option.bind_some]
        exact hrest acc
      | some L =>
        simp only [visitStep, visits, halias, hL, if_false, Bool.false_eq_true,
          Option.bind_eq_bind, Option.bind_some, List.foldl_cons]
        exact hrest _

theorem layerOfNode_of_nlayer {p L : ℕ} (h : p ∈ c.layerNodes L) : layerOfNode c p ≠ none := by
  have hL : L ∈ c.layers := mem_layers.mpr ⟨p, h⟩
  cases hf : c.layers.find? fun L => decide (p ∈ c.layerNodes L) with
  | none => exact absurd (decide_eq_true h) (List.find?_eq_none.mp hf L hL)
  | some L' => simp [layerOfNode, hf]

theorem isActive_of_visits {p L : ℕ} (h : visits c p = some L) : isActive c L = true := by
  obtain ⟨_, hL⟩ := visits_eq_some.mp h
  unfold isActive
  by_cases hmem : L ∈ c.layers
  · simp [hmem]
  · unfold layerOfNode at hL
    cases hf : c.exec.find? fun e => decide (p ∈ e.2) with
    | none =>
      rw [hf, Option.map_none, Option.none_or] at hL
      exact absurd (List.mem_of_find?_eq_some hL) hmem
    | some e =>
      rw [hf, Option.map_some, Option.some_or] at hL
      have hin : p ∈ e.2 :=
        of_decide_eq_true (List.find?_some (p := fun e : ℕ × List ℕ => decide (p ∈ e.2)) hf)
      have hexec : (L, e.2) ∈ c.exec := by
        rw [← Option.some.inj hL]
        exact List.mem_of_find?_eq_some hf
      have hcompute : c.compute L = e.2 := by rw [compute, layerExec_eq hexec, Option.getD_some]
      have hnode : ∀ q ∈ e.2, q ∈ c.graph.nodes ∧ isAliasOp (c.graph.op q) = false := by
        intro q hq
        obtain ⟨hnode, hview⟩ := c.exec_nodes _ hexec q hq
        refine ⟨hnode, ?_⟩
        by_contra halias
        rw [(isViewOp_iff _).mpr (Or.inl (Bool.not_eq_false _ ▸ halias))] at hview
        cases hview
      cases hfirst : e.2.find? fun q => !isAliasOp (c.graph.op q) with
      | none =>
        have hnot := List.find?_eq_none.mp hfirst p hin
        rw [(hnode p hin).2] at hnot
        exact absurd rfl hnot
      | some q =>
        have hq := (hnode q (List.mem_of_find?_eq_some hfirst)).1
        simp [firstNode, hmem, hcompute, hfirst, hq]

theorem activeLayers_eq {nodes : List ℕ} :
    activeLayers c (firsts (nodes.filterMap (visits c))) = firsts (nodes.filterMap (visits c)) := by
  refine List.filter_eq_self.mpr fun L hL => ?_
  obtain ⟨p, _, hp⟩ := List.mem_filterMap.mp (mem_firsts.mp hL)
  exact isActive_of_visits hp

theorem head_pipeline (fusion : ℕ → Fusion) (L : ℕ) (rest : List ℕ) :
    Step.head L :: pipeline fusion (L :: rest) = layerSteps (L :: rest) := by
  induction rest generalizing L with
  | nil => rfl
  | cons next rest ih =>
    have hnext := ih next
    simp only [layerSteps, List.flatMap_cons, List.cons_append, List.nil_append] at hnext ⊢
    rw [pipeline, ← hnext]
    cases fusion L <;> rfl

theorem layerSteps_injective {l l' : List ℕ} (h : layerSteps l = layerSteps l') : l = l' := by
  have hheads : ∀ l : List ℕ, (layerSteps l).filterMap
      (fun s => match s with | .head L => some L | _ => none) = l := by
    intro l
    induction l with
    | nil => rfl
    | cons L l ih =>
      rw [layerSteps] at ih ⊢
      simp only [List.flatMap_cons, List.cons_append, List.nil_append, List.filterMap_cons, ih]
  rw [← hheads l, h, hheads l']

theorem execSteps_eq (h : c.layers ≠ []) (fusion : ℕ → Fusion) :
    execSteps c fusion = layerSteps (firsts (c.graph.nodes.filterMap (visits c))) := by
  have hcap : ∀ p ∈ c.graph.nodes, c.graph.op p = .mulMatId → layerOfNode c p ≠ none := by
    intro p hp hop
    have hsome := collectLayers_total h hp (by rw [hop]; simp)
    obtain ⟨L, hL⟩ := Option.isSome_iff_exists.mp hsome
    exact layerOfNode_of_nlayer (mem_collectLayerNodes.mpr ⟨hp, hL⟩)
  have hvisited : visitedLayers c c.graph.nodes =
      some (firsts (c.graph.nodes.filterMap (visits c))) := visitedLayers_eq hcap []
  unfold execSteps
  rw [hvisited]
  simp only [activeLayers_eq]
  cases firsts (c.graph.nodes.filterMap (visits c)) with
  | nil => rfl
  | cons first rest =>
    cases rest with
    | nil => rfl
    | cons next rest => exact head_pipeline fusion first (next :: rest)

theorem frontOrdered_iff : FrontOrdered c ↔ firsts (c.graph.nodes.filterMap (visits c)) = c.layers := by
  rw [firsts_eq_iff layers_sorted]
  constructor
  · intro h
    refine ⟨fun L hL => ?_, fun L hL => ?_, ?_⟩
    · obtain ⟨p, hp, hvisit⟩ := h.visited L hL
      exact List.mem_filterMap.mpr ⟨p, hp, visits_eq_some.mpr hvisit⟩
    · obtain ⟨p, hp, hvisit⟩ := List.mem_filterMap.mp hL
      obtain ⟨halias, hlayer⟩ := visits_eq_some.mp hvisit
      exact h.captured p hp halias L hlayer
    · intro pre x post heq k hk hlt
      obtain ⟨pre', rest, hnodes, hpre, hrest⟩ := List.filterMap_eq_append_iff.mp heq
      obtain ⟨skip, p, post', hsplit, hskip, hp, _⟩ := List.filterMap_eq_cons_iff.mp hrest
      obtain ⟨halias, hlayer⟩ := visits_eq_some.mp hp
      obtain ⟨q, hq, hvisit⟩ := h.front (pre' ++ skip) p post'
        (by rw [hnodes, hsplit, List.append_assoc]) halias x hlayer k hk hlt
      rw [← hpre]
      rcases List.mem_append.mp hq with hq | hq
      · exact List.mem_filterMap.mpr ⟨q, hq, visits_eq_some.mpr hvisit⟩
      · exact absurd (hskip q hq) (by simp [visits_eq_some.mpr hvisit])
  · rintro ⟨hall, hin, hfront⟩
    refine ⟨fun L hL => ?_, fun p hp halias L hlayer => ?_, ?_⟩
    · obtain ⟨p, hp, hvisit⟩ := List.mem_filterMap.mp (hall L hL)
      exact ⟨p, hp, visits_eq_some.mp hvisit⟩
    · exact hin L (List.mem_filterMap.mpr ⟨p, hp, visits_eq_some.mpr ⟨halias, hlayer⟩⟩)
    · intro pre p post hnodes halias L hlayer L' hL' hlt
      have hvisit : visits c p = some L := visits_eq_some.mpr ⟨halias, hlayer⟩
      have hmem := hfront (pre.filterMap (visits c)) L (post.filterMap (visits c))
        (by rw [hnodes, List.filterMap_append, List.filterMap_cons, hvisit]) L' hL' hlt
      obtain ⟨q, hq, hq'⟩ := List.mem_filterMap.mp hmem
      exact ⟨q, hq, visits_eq_some.mp hq'⟩

end order

/-- The executor visits the layers in the order they are laid out for exactly in graphs whose
layers first appear in ascending order. -/
theorem execSteps_eq_layoutSteps_iff (c : Capture) (fusion : ℕ → Fusion) (h : c.layers ≠ []) :
    (execSteps c fusion = layerSteps c.layers ∧
        c.units.filterMap SubmissionUnit.closureLayer = c.layers ∧
        c.units.flatMap SubmissionUnit.nodes = (layerSteps c.layers).flatMap c.stepNodes) ↔
      FrontOrdered c := by
  rw [frontOrdered_iff, execSteps_eq h]
  constructor
  · exact fun hsteps => layerSteps_injective hsteps.1
  · exact fun heq => ⟨by rw [heq], units_closureLayer, units_nodes⟩

section mask

/-- An attention mask filled at the front, one node of layer 0 and one of layer 1; both layers read
the mask. -/
def maskGraph : Graph :=
  Graph.ofList
    [{ name := "inp_embd" },
      { op := .other 0, name := "node_0" },
      { op := .add, src := [some 0, some 1], name := "l_out-0" },
      { op := .add, src := [some 2, some 1], name := "l_out-1" }]
    [1, 2, 3] (by decide) (by decide)

/-- Two layers without a shared mask. -/
def residualGraph : Graph :=
  Graph.ofList
    [{ name := "inp_embd" },
      { op := .add, src := [some 0], name := "l_out-0" },
      { op := .add, src := [some 1], name := "l_out-1" }]
    [1, 2] (by decide) (by decide)

def denseCapture (g : Graph) : Capture where
  graph := g
  official _ := none
  exec := []
  exec_sorted := exec_sorted_nil
  exec_nodes _ he := absurd he List.not_mem_nil

theorem frontOrdered_residual : FrontOrdered (denseCapture residualGraph) := by
  refine ⟨by decide, by decide, ?_⟩
  intro pre p post hnodes _ L hL L' hL' hlt
  have hlayers : L' ∈ [0, 1] := by
    have heq : (denseCapture residualGraph).layers = [0, 1] := by decide
    rwa [heq] at hL'
  have hsplit : pre = [] ∧ p = 1 ∨ pre = [1] ∧ p = 2 := by
    rcases pre with _ | ⟨a, _ | ⟨b, pre⟩⟩ <;> simp_all [denseCapture, residualGraph, Graph.ofList]
  rcases hsplit with ⟨rfl, rfl⟩ | ⟨rfl, rfl⟩
  · have hzero : L = 0 := Option.some.inj (hL.symm.trans (by decide))
    omega
  · have hone : L = 1 := Option.some.inj (hL.symm.trans (by decide))
    obtain rfl : L' = 0 := by omega
    exact ⟨1, by decide, by decide, by decide⟩

/-- A graph of two dense layers is run in the order of its layout. -/
theorem execSteps_residual :
    FrontOrdered (denseCapture residualGraph) ∧
      execSteps (denseCapture residualGraph) (fun _ => .nothing) =
        layerSteps (denseCapture residualGraph).layers :=
  ⟨frontOrdered_residual,
    ((execSteps_eq_layoutSteps_iff (denseCapture residualGraph) (fun _ => .nothing) (by decide)).mpr
      frontOrdered_residual).1⟩

/-- The mask belongs to the last layer that reads it, so the executor starts there. -/
theorem execSteps_mask :
    (denseCapture maskGraph).layers = [0, 1] ∧
      execSteps (denseCapture maskGraph) (fun _ => .nothing) =
        [.head 1, .closure 1, .tail 1, .head 0, .closure 0, .tail 0] ∧
      ¬ (execSteps (denseCapture maskGraph) (fun _ => .nothing) =
          layerSteps (denseCapture maskGraph).layers) := by
  decide

end mask

end LayerOrder
end StreamMoE
