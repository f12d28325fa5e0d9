import StreamMoE.ArenaLayout

/-! Whether every operand of a dense node lies in the memory of the node's device, once the copies
are in place and the strict audit has let the graph pass. -/
namespace StreamMoE
namespace OperandLocality

open ComputeGraph LayerPlan LayerPlan.Capture ArenaLayout

variable {Dev : Type*} [DecidableEq Dev] (c : Capture) (m : Placement Dev)

/-- The device the audit takes an operand to be on. -/
def label : Operand Dev → Dev
  | .shell s => s.dev
  | .tensor p => operandDev c m p

/-- The device whose memory holds the bytes of an operand. -/
def storageDev : Operand Dev → Dev
  | .shell s => s.dev
  | .tensor p => operandDev c m (c.graph.root p)

/-- `src[0]` of a `MUL_MAT_ID`, which the audit passes over. -/
def isWeightSlot (nd s : ℕ) : Bool := decide (c.graph.op nd = .mulMatId ∧ s = 0)

/-- The captured nodes outside the closure of their layer. -/
def denseNodes : List ℕ :=
  c.layers.flatMap fun L => (c.layerNodes L).filter fun nd => decide (nd ∉ c.compute L)

/-- The strict audit finds no problem. -/
def Accepted : Prop :=
  ∀ nd ∈ denseNodes c, ∀ x ∈ slots c nd, isWeightSlot c nd x.1 = false →
    label c m (operand c m nd x.1 x.2) = nodeDev c m nd

instance : Decidable (Accepted c m) := by
  unfold Accepted
  infer_instance

/-- Every operand of a dense node is in the memory of the node's device. -/
def Local : Prop :=
  ∀ nd ∈ denseNodes c, ∀ x ∈ slots c nd,
    storageDev c m (operand c m nd x.1 x.2) = nodeDev c m nd

instance : Decidable (Local c m) := by
  unfold Local
  infer_instance

/-- Every alias a dense node reads carries the device of its root, and the weight of a dense
`MUL_MAT_ID` is on the node's device. -/
def LabelledByRoot : Prop :=
  ∀ nd ∈ denseNodes c, ∀ x ∈ slots c nd,
    (isWeightSlot c nd x.1 = false → c.graph.viewSrc x.2 ≠ none →
      operandDev c m x.2 = operandDev c m (c.graph.root x.2)) ∧
    (isWeightSlot c nd x.1 = true → operandDev c m (c.graph.root x.2) = nodeDev c m nd)

instance : Decidable (LabelledByRoot c m) := by
  unfold LabelledByRoot
  infer_instance

variable {c m}

/-- Aliases and weights are never replaced by a copy. -/
theorem operand_eq_tensor {nd s p : ℕ}
    (h : c.graph.viewSrc p ≠ none ∨ isWeightSlot c nd s = true) : operand c m nd s p = .tensor p := by
  have hnone : ∀ L, shellFor c m L nd s p = none := by
    intro L
    unfold shellFor
    rw [if_pos]
    rcases h with h | h
    · exact Or.inr (Or.inl (Option.isSome_iff_ne_none.mpr h))
    · exact Or.inr (Or.inr (Or.inl (of_decide_eq_true h)))
  unfold operand
  cases c.nlayer nd with
  | none => rfl
  | some L => rw [Option.bind_some, hnone L]

/-- An operand that is no alias is where its label says. -/
theorem storageDev_of_own {nd s p : ℕ} (h : c.graph.viewSrc p = none) :
    storageDev c m (operand c m nd s p) = label c m (operand c m nd s p) := by
  unfold operand
  split
  · rfl
  · show operandDev c m (c.graph.root p) = operandDev c m p
    rw [Graph.root_of_own h]

/-- A graph the audit accepts has only local operands exactly if aliases carry the device of
their root. -/
theorem local_iff_labelledByRoot (c : Capture) (m : Placement Dev) (h : Accepted c m) :
    Local c m ↔ LabelledByRoot c m := by
  constructor
  · intro hlocal nd hnd x hx
    have hx' := hlocal nd hnd x hx
    refine ⟨fun hslot hview => ?_, fun hslot => ?_⟩
    · have haudit := h nd hnd x hx hslot
      rw [operand_eq_tensor (Or.inl hview)] at hx' haudit
      exact haudit.trans hx'.symm
    · rw [operand_eq_tensor (Or.inr hslot)] at hx'
      exact hx'
  · intro hroot nd hnd x hx
    obtain ⟨halias, hweight⟩ := hroot nd hnd x hx
    cases hslot : isWeightSlot c nd x.1 with
    | true =>
      rw [operand_eq_tensor (Or.inr hslot)]
      exact hweight hslot
    | false =>
      have haudit := h nd hnd x hx hslot
      by_cases hview : c.graph.viewSrc x.2 = none
      · exact (storageDev_of_own hview).trans haudit
      · rw [operand_eq_tensor (Or.inl hview)] at haudit ⊢
        exact (halias hslot hview).symm.trans haudit

section split

/-- The output of layer 0, that output reshaped in layer 1, and a node of layer 1 that reads both
the output and its reshaped alias. -/
def splitGraph : Graph :=
  Graph.ofList
    [{ name := "inp_embd" },
      { op := .other 1, src := [some 0], nbytes := 64, name := "l_out-0" },
      { op := .reshape, src := [some 1], viewSrc := some 1, nbytes := 64, name := "reshaped-1" },
      { op := .add, src := [some 1, some 2], nbytes := 64, name := "l_out-1" }]
    [1, 2, 3] (by decide) (by decide)

def splitCapture : Capture where
  graph := splitGraph
  official _ := none
  exec := []
  exec_sorted := exec_sorted_nil
  exec_nodes _ he := absurd he List.not_mem_nil

/-- Layer 0 on device 1; the nodes of layer 1 on device `dev`. The input is there too. -/
def splitPlacement (dev : ℕ) : Placement ℕ where
  physical p := if p = 1 then 1 else dev
  leafDev _ := some 1
  host := 0
  closureDev := 0
  exportRetained := []
  compactPack := true

/-- With layer 1 on device 2 the audit accepts the graph although the alias lies on device 1. -/
theorem accepted_foreignAlias :
    Accepted splitCapture (splitPlacement 2) ∧ ¬ Local splitCapture (splitPlacement 2) ∧
      nodeDev splitCapture (splitPlacement 2) 3 = 2 ∧
      storageDev splitCapture (splitPlacement 2)
        (operand splitCapture (splitPlacement 2) 3 1 2) = 1 := by
  decide

/-- Layer 1 reads the output of layer 0 itself and through its own reshaped node. -/
def relayedGraph : Graph :=
  Graph.ofList
    [{ name := "inp_embd" },
      { op := .other 1, src := [some 0], nbytes := 64, name := "l_out-0" },
      { op := .other 1, src := [some 1], nbytes := 64, name := "attn-1" },
      { op := .reshape, src := [some 2], viewSrc := some 2, nbytes := 64, name := "reshaped-1" },
      { op := .add, src := [some 1, some 3], nbytes := 64, name := "l_out-1" }]
    [1, 2, 3, 4] (by decide) (by decide)

def relayedCapture : Capture where
  graph := relayedGraph
  official _ := none
  exec := []
  exec_sorted := exec_sorted_nil
  exec_nodes _ he := absurd he List.not_mem_nil

/-- With layer 1 on device 2 both of its nodes read a copy of the output of layer 0. -/
theorem local_twoDevices : Accepted relayedCapture (splitPlacement 2) ∧ Local relayedCapture (splitPlacement 2) ∧
    operandDev relayedCapture (splitPlacement 2) 1 = 1 ∧
      ∀ nd ∈ [2, 4], nodeDev relayedCapture (splitPlacement 2) nd = 2 ∧
        storageDev relayedCapture (splitPlacement 2)
          (operand relayedCapture (splitPlacement 2) nd 0 1) = 2 := by
  refine ⟨by decide, ?_, by decide⟩
  exact (local_iff_labelledByRoot relayedCapture (splitPlacement 2) (by decide)).mpr (by decide)

end split

end OperandLocality
end StreamMoE
