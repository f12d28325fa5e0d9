import Mathlib.Data.Int.Notation
import StreamMoE.LayerPlan
import StreamMoE.Worklist

/-! The closure of the expert chains over a built graph and the guard of `moe_chain_verify_graph`:
what reads an intermediate of a chain must not run elsewhere. -/
namespace StreamMoE
namespace ChainGuard

open ComputeGraph LayerPlan Worklist

section names

def isSpace (c : Char) : Bool := c = ' ' || (9 ≤ c.toNat && c.toNat ≤ 13)

def leadingDigits (s : List Char) : ℕ :=
  (s.takeWhile Char.isDigit).foldl (fun n c => 10 * n + (c.toNat - '0'.toNat)) 0

def atoi (s : List Char) : ℤ :=
  match s.dropWhile isSpace with
  | '-' :: rest => -(leadingDigits rest : ℤ)
  | '+' :: rest => leadingDigits rest
  | rest => leadingDigits rest

/-- The layer of a weight named `blk.<N>.…`, else -1. -/
def weightLayer (name : String) : ℤ :=
  if "blk.".toList.isPrefixOf name.toList then
    let rest := name.toList.drop 4
    let number := rest.takeWhile (· ≠ '.')
    if '.' ∈ rest ∧ number.length < 16 then atoi number else -1
  else -1

example : weightLayer "blk.12.ffn_up_exps.weight" = 12 := by decide

end names

section chain

variable (g : Graph)

/-- `is_routed_mm`: a product with expert weights that are not the shared ones. -/
def isRoutedMm (p : ℕ) : Bool :=
  g.op p = .mulMatId &&
    match (g.tensor p).src0 with
    | some w => hasText (g.tensor w).name "_exps" && !hasText (g.tensor w).name "_shexp"
    | none => false

def mmLayer (p : ℕ) : ℤ :=
  match (g.tensor p).src0 with
  | some w => weightLayer (g.tensor w).name
  | none => -1

def isOut (p : ℕ) : Bool := hasText (g.tensor p).name "ffn_moe_out"

/-- `j` reads `i`, and `i` is not the end of a chain. -/
def goesOn (i j : ℕ) : Bool := decide (i ∈ (g.tensor j).sources) && !isOut g i

def isAnchor (p : ℕ) : Bool := decide (p ∈ g.nodes) && isRoutedMm g p

def collectChain : Search ℕ ℤ :=
  search g.nodes (goesOn g) (-1) g.nodes.length (start g.nodes (-1) (isAnchor g) (mmLayer g))

def inChain (p : ℕ) : Bool := (collectChain g).visited p

def chainLayer (p : ℕ) : ℤ := (collectChain g).label p

/-- A node outside the chain reads an intermediate of it. -/
def violates (j : ℕ) : Bool :=
  !inChain g j && decide (g.op j ≠ .none) &&
    (g.tensor j).sources.any fun s => decide (s ∈ g.nodes) && inChain g s && !isOut g s

/-- The loop over the nodes stops at the eighth violation. -/
def countViolations : List ℕ → ℕ → ℕ
  | [], n => n
  | j :: rest, n => if n < 8 then countViolations rest (if violates g j then n + 1 else n) else n

/-- `moe_chain_verify_graph`: whether the process goes on. -/
def verifyGraph : Bool := countViolations g g.nodes 0 = 0

end chain

section paths

variable (g : Graph)

/-- What is computed from the routed products of layer `L` up to the ends of its chain. -/
inductive InLayerChain (L : ℤ) : ℕ → Prop
  | anchor {p : ℕ} (hp : p ∈ g.nodes) (hmm : isRoutedMm g p = true) (hlayer : mmLayer g p = L) :
      InLayerChain L p
  | reader {i j : ℕ} (hi : InLayerChain L i) (hout : isOut g i = false) (hj : j ∈ g.nodes)
      (hreads : i ∈ (g.tensor j).sources) : InLayerChain L j

/-- `u` is at the end of a chain of views that starts in `s`. -/
inductive Via (u : ℕ) : ℕ → Prop
  | here : Via u u
  | view {s q : ℕ} (hview : isViewOp (g.op s) = true) (hq : (g.tensor s).src0 = some q) (hvia : Via u q) :
      Via u s

def ReadsThrough (v u : ℕ) : Prop := ∃ s ∈ (g.tensor v).sources, Via g u s

/-- There is a path of reads from `v` to `o`. -/
inductive Leads (o : ℕ) : ℕ → Prop
  | here : Leads o o
  | step {v w : ℕ} (hw : w ∈ g.nodes) (hreads : v ∈ (g.tensor w).sources) (hleads : Leads o w) : Leads o v

/-- The node is on a path into the `ffn_moe_out` of the layer. -/
def IntoOut (L : ℤ) (v : ℕ) : Prop := ∃ o, InLayerChain g L o ∧ isOut g o = true ∧ Leads g o v

/-- A node that runs elsewhere reads an intermediate of a layer's chain. -/
def Escapes : Prop :=
  ∃ (L : ℤ) (u v : ℕ), InLayerChain g L u ∧ isOut g u = false ∧ v ∈ g.nodes ∧ isViewOp (g.op v) = false ∧
    ReadsThrough g v u ∧ ¬ IntoOut g L v

/-- The guard accepts only a graph nothing escapes from, and rejects every other one. -/
def Guarded : Prop :=
  (verifyGraph g = true → ¬ Escapes g) ∧ (Escapes g → verifyGraph g = false)

end paths

section absorbed

variable {g : Graph}

theorem goesOn_iff {i j : ℕ} : goesOn g i j = true ↔ i ∈ (g.tensor j).sources ∧ isOut g i = false := by
  simp only [goesOn, Bool.and_eq_true, decide_eq_true_eq, Bool.not_eq_true']

/-- The search ends; it holds the anchors and all that reads an intermediate it holds, and each of
its nodes belongs to the chain of the layer it is given. -/
theorem collectChain_spec (g : Graph) :
    (∀ p, isAnchor g p = true → inChain g p = true) ∧
      (∀ i, inChain g i = true → isOut g i = false → ∀ j ∈ g.nodes, i ∈ (g.tensor j).sources →
        inChain g j = true) ∧
      ∀ p, inChain g p = true → p ∈ g.nodes ∧ InLayerChain g (chainLayer g p) p := by
  have hanchor : ∀ i, isAnchor g i = true → i ∈ g.nodes ∧ isRoutedMm g i = true := by
    intro i hi
    simpa only [isAnchor, Bool.and_eq_true, decide_eq_true_eq] using hi
  obtain ⟨s, hs, _, hstarts, hclosed, hsound⟩ :=
    @search_spec ℕ ℤ _ _ g.nodes (goesOn g) (-1) g.nodup (isAnchor g) (mmLayer g)
      (fun i hi => (hanchor i hi).1) (fun p L => InLayerChain g L p)
      (fun i hi => .anchor (hanchor i hi).1 (hanchor i hi).2 rfl)
      (fun i j L hi hj hsucc => .reader hi (goesOn_iff.mp hsucc).2 hj (goesOn_iff.mp hsucc).1)
  have hchain : collectChain g = s := hs
  unfold inChain chainLayer
  rw [hchain]
  exact ⟨hstarts, fun i hi hout j hj hreads => hclosed i hi j hj (goesOn_iff.mpr ⟨hreads, hout⟩), hsound⟩

theorem not_violates {j : ℕ} (hj : j ∈ g.nodes) : violates g j = false := by
  by_contra hviolates
  replace hviolates : violates g j = true := by simpa using hviolates
  simp only [violates, Bool.and_eq_true, Bool.not_eq_true', List.any_eq_true, decide_eq_true_eq] at hviolates
  obtain ⟨⟨hnot, _⟩, s, hs, ⟨_, hchain⟩, hout⟩ := hviolates
  rw [(collectChain_spec g).2.1 s hchain hout j hj hs] at hnot
  cases hnot

theorem countViolations_zero {nodes : List ℕ} (h : ∀ j ∈ nodes, violates g j = false) :
    countViolations g nodes 0 = 0 := by
  induction nodes with
  | nil => rfl
  | cons j nodes ih =>
    have hj := h j (List.mem_cons_self ..)
    simp only [countViolations, hj, Nat.zero_lt_succ, if_true, Bool.false_eq_true, if_false]
    exact ih fun k hk => h k (List.mem_cons_of_mem _ hk)

theorem verifyGraph_true (g : Graph) : verifyGraph g = true := by
  unfold verifyGraph
  rw [countViolations_zero fun j hj => not_violates hj]
  rfl

/-- The guard accepts every graph, so it is right about exactly those from which nothing escapes. -/
theorem guarded_iff (g : Graph) : verifyGraph g = true ∧ (Guarded g ↔ ¬ Escapes g) := by
  have haccepts := verifyGraph_true g
  refine ⟨haccepts, fun hguarded => hguarded.1 haccepts, fun hescapes => ?_⟩
  exact ⟨fun _ => hescapes, fun h => absurd h hescapes⟩

end absorbed

section probe

/-- A chain of one routed product and its output, and a norm outside that reads the product. -/
def probeGraph : Graph :=
  Graph.ofList
    [{ name := "blk.0.ffn_down_exps.weight" },
      { name := "inp_embd" },
      { op := .mulMatId, src := [some 0, some 1], name := "ffn_moe_down-0" },
      { op := .add, src := [some 2], name := "ffn_moe_out-0" },
      { op := .other 0, src := [some 2], name := "probe-0" }]
    [2, 3, 4] (by decide) (by decide)

theorem escapes_probe : Escapes probeGraph := by
  refine ⟨0, 2, 4, .anchor (by decide) (by decide) (by decide), by decide, by decide, by decide,
    ⟨2, by decide, .here⟩, ?_⟩
  rintro ⟨o, _, hout, hleads⟩
  cases hleads with
  | here => exact absurd hout (by decide)
  | step hw hreads hleads =>
    have hnone : ∀ w ∈ probeGraph.nodes, 4 ∉ (probeGraph.tensor w).sources := by decide
    exact hnone _ hw hreads

/-- The guard accepts a graph whose product is read outside the chain. -/
theorem not_guarded_probe : verifyGraph probeGraph = true ∧ ¬ Guarded probeGraph := by
  have haccepts := verifyGraph_true probeGraph
  exact ⟨haccepts, fun hguarded => hguarded.1 haccepts escapes_probe⟩

end probe

end ChainGuard
end StreamMoE
