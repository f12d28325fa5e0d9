import StreamMoE.LayerCapture

/-! The captured graph layer by layer: what runs before the expert closure, the closure and what
runs behind it, and the submission units the arena is laid out for. -/
namespace StreamMoE
namespace LayerPlan

open ComputeGraph LayerCapture Saturation

def hasText (name text : String) : Bool :=
  name.toList.tails.any fun t => text.toList.isPrefixOf t

/-- A graph with its recorded layers and the expert closures of `g_layer_exec`, ascending; a
closure holds compute nodes of the graph. -/
structure Capture where
  graph : Graph
  official : ℕ → Option ℕ
  exec : List (ℕ × List ℕ)
  exec_sorted : exec.Pairwise fun a b => a.1 < b.1
  exec_nodes : ∀ e ∈ exec, ∀ p ∈ e.2, p ∈ graph.nodes ∧ isViewOp (graph.op p) = false

theorem exec_sorted_nil : ([] : List (ℕ × List ℕ)).Pairwise fun a b => a.1 < b.1 := List.Pairwise.nil

namespace Capture

variable (c : Capture)

/-- The keys of `g_layer_nodes`. -/
def layers : List ℕ := layerKeys c.graph c.official

def layerNodes (L : ℕ) : List ℕ := collectLayerNodes c.graph c.official L

def nlayer (p : ℕ) : Option ℕ :=
  if p ∈ c.graph.nodes then collectLayers c.graph c.official p else none

def layerExec (L : ℕ) : Option (List ℕ) := (c.exec.find? fun e => decide (e.1 = L)).map Prod.snd

def compute (L : ℕ) : List ℕ := (c.layerExec L).getD []

def moeOut (L : ℕ) : Option ℕ :=
  (c.compute L).find? fun p => hasText (c.graph.tensor p).name "ffn_moe_out"

def downStep (L : ℕ) (down : ℕ → Bool) (i : ℕ) : ℕ → Bool :=
  if !down i && (c.graph.tensor i).sources.any fun s => decide (s ∈ c.layerNodes L) && down s then
    Function.update down i true
  else down

/-- What of the layer depends on `ffn_moe_out`. -/
def down (L : ℕ) : ℕ → Bool :=
  saturate (c.layerNodes L) (fun down => (c.layerNodes L).foldl (c.downStep L) down)
    ((c.layerNodes L).length + 1)
    fun p => decide (c.moeOut L = some p ∧ p ∈ c.layerNodes L)

def head (L : ℕ) : List ℕ := (c.layerNodes L).filter fun p => decide (p ∉ c.compute L) && !c.down L p

def tail (L : ℕ) : List ℕ := (c.layerNodes L).filter fun p => decide (p ∉ c.compute L) && c.down L p

inductive Step
  | head (layer : ℕ)
  | closure (layer : ℕ)
  | tail (layer : ℕ)
  deriving DecidableEq, Repr

def stepNodes : Step → List ℕ
  | .head L => c.head L
  | .closure L => c.compute L
  | .tail L => c.tail L

def layerSteps (layers : List ℕ) : List Step :=
  layers.flatMap fun L => [.head L, .closure L, .tail L]

structure SubmissionUnit where
  nodes : List ℕ
  closureLayer : Option ℕ
  deriving DecidableEq, Repr

def nextHead : List ℕ → List ℕ
  | [] => []
  | L :: _ => c.head L

/-- The units of the layers; `taken` says whether the first head is in the unit before. -/
def unitsFrom (taken : Bool) : List ℕ → List SubmissionUnit
  | [] => []
  | L :: rest =>
      (if !taken && decide (c.head L ≠ []) then [⟨c.head L, none⟩] else []) ++
        ⟨c.compute L ++ c.tail L ++ c.nextHead rest, some L⟩ ::
          unitsFrom (decide (c.nextHead rest ≠ [])) rest

def units : List SubmissionUnit := c.unitsFrom false c.layers

variable {c}

theorem nlayer_eq_some {p L : ℕ} : c.nlayer p = some L ↔ p ∈ c.layerNodes L := by
  simp [nlayer, layerNodes]

theorem mem_layers {L : ℕ} : L ∈ c.layers ↔ ∃ p, p ∈ c.layerNodes L := by
  simp [layers, layerNodes, mem_layerKeys]

theorem layers_sorted : c.layers.Pairwise (· < ·) := layerKeys_sorted

theorem layerExec_eq {L : ℕ} {l : List ℕ} (h : (L, l) ∈ c.exec) : c.layerExec L = some l := by
  have hunique : ∀ e ∈ c.exec, e.1 = L → e = (L, l) := by
    intro e he heq
    refine List.Pairwise.forall_of_forall_of_flip (R := fun a b : ℕ × List ℕ => a.1 = b.1 → a = b)
      (fun _ _ _ => rfl) (c.exec_sorted.imp ?_) (c.exec_sorted.imp ?_) he h heq
    · exact fun hlt heq => absurd heq (Nat.ne_of_lt hlt)
    · exact fun hlt heq => absurd heq.symm (Nat.ne_of_lt hlt)
  unfold layerExec
  cases hf : c.exec.find? fun e => decide (e.1 = L) with
  | none => exact absurd (decide_eq_true rfl) (List.find?_eq_none.mp hf _ h)
  | some e =>
    have heq : e.1 = L := of_decide_eq_true (List.find?_some (p := fun e : ℕ × List ℕ => decide (e.1 = L)) hf)
    rw [hunique e (List.mem_of_find?_eq_some hf) heq]
    rfl

theorem mem_exec {L : ℕ} {l : List ℕ} (h : c.layerExec L = some l) : (L, l) ∈ c.exec := by
  obtain ⟨e, he, rfl⟩ := Option.map_eq_some_iff.mp h
  have heq : e.1 = L := of_decide_eq_true (List.find?_some (p := fun e : ℕ × List ℕ => decide (e.1 = L)) he)
  rw [← heq]
  exact List.mem_of_find?_eq_some he

theorem mem_nodes_of_mem_compute {L p : ℕ} (h : p ∈ c.compute L) :
    p ∈ c.graph.nodes ∧ isViewOp (c.graph.op p) = false := by
  unfold compute at h
  cases hl : c.layerExec L with
  | none =>
    rw [hl] at h
    cases h
  | some l =>
    rw [hl] at h
    exact c.exec_nodes _ (mem_exec hl) p h

theorem unitsFrom_nodes (taken : Bool) (layers : List ℕ)
    (h : taken = true → ∀ L ∈ layers.head?, c.head L ≠ []) :
    (c.unitsFrom taken layers).flatMap SubmissionUnit.nodes =
      ((layerSteps layers).drop (if taken then 1 else 0)).flatMap c.stepNodes := by
  induction layers generalizing taken with
  | nil => cases taken <;> rfl
  | cons L rest ih =>
    have hnext := ih
      (decide (c.nextHead rest ≠ []))
    have hrest : (c.unitsFrom (decide (c.nextHead rest ≠ []))
        rest).flatMap SubmissionUnit.nodes = ((layerSteps rest).flatMap c.stepNodes).drop
          (c.nextHead rest).length := by
      rw [hnext]
      · cases rest with
        | nil => rfl
        | cons L' rest =>
          simp only [layerSteps, List.flatMap_cons, List.cons_append, List.nil_append]
          by_cases hempty : c.head L' = []
          · simp [nextHead, hempty, stepNodes]
          · simp [nextHead, hempty, stepNodes]
      · intro hdec L' hL'
        cases rest with
        | nil => cases hL'
        | cons L'' rest =>
          rw [List.head?_cons] at hL'
          cases hL'
          exact of_decide_eq_true hdec
    have htail : c.nextHead rest ++
        ((layerSteps rest).flatMap c.stepNodes).drop
          (c.nextHead rest).length =
        (layerSteps rest).flatMap c.stepNodes := by
      cases rest with
      | nil => rfl
      | cons L' rest => simp [nextHead, layerSteps, stepNodes]
    rw [unitsFrom, List.flatMap_append, List.flatMap_cons, hrest]
    simp only [List.append_assoc, htail]
    simp only [layerSteps, List.flatMap_cons, List.cons_append, List.nil_append]
    cases taken with
    | true => simp [stepNodes]
    | false =>
      by_cases hempty : c.head L = []
      · simp [hempty, stepNodes]
      · simp [hempty, stepNodes]

theorem units_nodes : c.units.flatMap SubmissionUnit.nodes = (layerSteps c.layers).flatMap c.stepNodes :=
  unitsFrom_nodes false c.layers (by simp)

theorem unitsFrom_closureLayer (taken : Bool) (layers : List ℕ) :
    (c.unitsFrom taken layers).filterMap SubmissionUnit.closureLayer = layers := by
  induction layers generalizing taken with
  | nil => rfl
  | cons L rest ih =>
    rw [unitsFrom, List.filterMap_append, List.filterMap_cons, ih]
    split <;> simp

theorem units_closureLayer : c.units.filterMap SubmissionUnit.closureLayer = c.layers :=
  unitsFrom_closureLayer false c.layers

end Capture

end LayerPlan
end StreamMoE
