import Mathlib.Data.List.ReduceOption
import Mathlib.Data.Nat.Init
import Mathlib.Data.Nat.Notation

/-! Compute graphs: tensors made from earlier tensors, operations whose result is an alias of
another tensor's storage, and the walks to the producer behind a chain of views. -/
namespace StreamMoE
namespace ComputeGraph

inductive Op
  | none | view | reshape | transpose | permute | cont | mulMatId | getRows | add
  | other (code : ℕ)
  deriving DecidableEq, Repr

/-- Tensors are numbered in the order they are made. -/
structure Tensor where
  op : Op := .none
  src : List (Option ℕ) := []
  viewSrc : Option ℕ := none
  viewOffs : ℕ := 0
  nbytes : ℕ := 0
  name : String := ""
  isInput : Bool := false
  deriving DecidableEq, Repr

def Tensor.sources (t : Tensor) : List ℕ := t.src.reduceOption

def Tensor.src0 (t : Tensor) : Option ℕ := t.src.head?.join

/-- `CONT` counts here although it copies. -/
def isViewOp : Op → Bool
  | .view | .reshape | .transpose | .permute | .cont => true
  | _ => false

/-- Pure aliases only. -/
def isAliasOp : Op → Bool
  | .view | .reshape | .transpose | .permute => true
  | _ => false

theorem isViewOp_iff (op : Op) : isViewOp op = true ↔ isAliasOp op = true ∨ op = .cont := by
  cases op <;> simp [isViewOp, isAliasOp]

theorem mem_sources_of_src0 {t : Tensor} {q : ℕ} (h : t.src0 = some q) : q ∈ t.sources := by
  rw [Tensor.sources, List.reduceOption_mem_iff]
  unfold Tensor.src0 at h
  cases hsrc : t.src with
  | nil =>
    rw [hsrc] at h
    cases h
  | cons a l =>
    rw [hsrc, List.head?_cons, Option.join_some] at h
    rw [h]
    exact List.mem_cons_self ..

section aliasing

variable (tensor : ℕ → Tensor)

/-- The tensor whose storage `p` uses. -/
def root (p : ℕ) : ℕ := (tensor p).viewSrc.getD p

/-- The operand an alias operation is made from: same storage, offset counted from its start. -/
def AliasOf (p q : ℕ) : Prop :=
  (tensor p).viewSrc = some (root tensor q) ∧
    if (tensor p).op = .view then (tensor q).viewOffs ≤ (tensor p).viewOffs
    else (tensor p).viewOffs = (tensor q).viewOffs

instance (p q : ℕ) : Decidable (AliasOf tensor p q) := by
  unfold AliasOf
  infer_instance

/-- What the tensor library guarantees of a tensor: its operands are older, `view_src` is the
ultimate root and `view_offs` the offset from it, and a copy has its own storage. -/
structure Conforms (p : ℕ) : Prop where
  src_lt : ∀ q ∈ (tensor p).sources, q < p
  view_lt : ∀ r ∈ (tensor p).viewSrc, r < p
  view_root : ∀ r ∈ (tensor p).viewSrc, (tensor r).viewSrc = none
  own_offs : (tensor p).viewSrc = none → (tensor p).viewOffs = 0
  cont_own : (tensor p).op = .cont → (tensor p).viewSrc = none
  src0_some : isViewOp (tensor p).op = true → (tensor p).src0 ≠ none
  alias_src0 : isAliasOp (tensor p).op = true → ∀ q ∈ (tensor p).src0, AliasOf tensor p q
  alias_src : (tensor p).viewSrc ≠ none → ∃ q ∈ (tensor p).sources, AliasOf tensor p q

instance (p : ℕ) : Decidable (Conforms tensor p) :=
  decidable_of_iff
    (((∀ q ∈ (tensor p).sources, q < p) ∧ (∀ r ∈ (tensor p).viewSrc, r < p) ∧
        (∀ r ∈ (tensor p).viewSrc, (tensor r).viewSrc = none) ∧
        ((tensor p).viewSrc = none → (tensor p).viewOffs = 0)) ∧
      ((tensor p).op = .cont → (tensor p).viewSrc = none) ∧
      (isViewOp (tensor p).op = true → (tensor p).src0 ≠ none) ∧
      (isAliasOp (tensor p).op = true → ∀ q ∈ (tensor p).src0, AliasOf tensor p q) ∧
      ((tensor p).viewSrc ≠ none → ∃ q ∈ (tensor p).sources, AliasOf tensor p q))
    ⟨fun h => ⟨h.1.1, h.1.2.1, h.1.2.2.1, h.1.2.2.2, h.2.1, h.2.2.1, h.2.2.2.1, h.2.2.2.2⟩,
      fun h => ⟨⟨h.src_lt, h.view_lt, h.view_root, h.own_offs⟩, h.cont_own, h.src0_some,
        h.alias_src0, h.alias_src⟩⟩

theorem conforms_leaf {tensor : ℕ → Tensor} {p : ℕ} (h : tensor p = {}) : Conforms tensor p := by
  constructor <;> simp [h, Tensor.sources, isViewOp, isAliasOp]

end aliasing

/-- A built graph: its tensors, the addresses of their records, and the nodes, operands first;
what a node reads is a node or a leaf. -/
structure Graph where
  tensor : ℕ → Tensor
  addr : ℕ → ℕ
  nodes : List ℕ
  conforms : ∀ p, Conforms tensor p
  nodup : nodes.Nodup
  topological : nodes.Pairwise fun a b => b ∉ (tensor a).sources
  closed : ∀ p ∈ nodes, ∀ q ∈ (tensor p).sources, (tensor q).op ≠ .none → q ∈ nodes

namespace Graph

variable (g : Graph)

abbrev op (p : ℕ) : Op := (g.tensor p).op

abbrev viewSrc (p : ℕ) : Option ℕ := (g.tensor p).viewSrc

abbrev viewOffs (p : ℕ) : ℕ := (g.tensor p).viewOffs

abbrev nbytes (p : ℕ) : ℕ := (g.tensor p).nbytes

abbrev root (p : ℕ) : ℕ := ComputeGraph.root g.tensor p

variable {g}

theorem src0_lt {p q : ℕ} (h : (g.tensor p).src0 = some q) : q < p :=
  (g.conforms p).src_lt q (mem_sources_of_src0 h)

theorem exists_src0 {p : ℕ} (h : isViewOp (g.op p) = true) : ∃ q, (g.tensor p).src0 = some q :=
  Option.ne_none_iff_exists'.mp ((g.conforms p).src0_some h)

theorem aliasOf_src0 {p q : ℕ} (h : isAliasOp (g.op p) = true) (hq : (g.tensor p).src0 = some q) :
    AliasOf g.tensor p q :=
  (g.conforms p).alias_src0 h q hq

theorem root_of_own {p : ℕ} (h : g.viewSrc p = none) : g.root p = p := by
  simp only [Graph.root, ComputeGraph.root, h, Option.getD_none]

theorem root_of_view {p r : ℕ} (h : g.viewSrc p = some r) : g.root p = r := by
  simp only [Graph.root, ComputeGraph.root, h, Option.getD_some]

theorem root_le (p : ℕ) : g.root p ≤ p := by
  cases h : g.viewSrc p with
  | none => exact Nat.le_of_eq (root_of_own h)
  | some r => rw [root_of_view h]; exact Nat.le_of_lt ((g.conforms p).view_lt r h)

theorem root_aliasOf {p q : ℕ} (h : AliasOf g.tensor p q) : g.root p = g.root q :=
  root_of_view h.1

theorem viewOffs_aliasOf {p q : ℕ} (h : AliasOf g.tensor p q) : g.viewOffs q ≤ g.viewOffs p := by
  have hoffs := h.2
  split at hoffs
  · exact hoffs
  · exact Nat.le_of_eq hoffs.symm

end Graph

/-- The graph of a list of tensors, every tensor behind its list being an empty leaf. -/
def Graph.ofList (tensors : List Tensor) (nodes : List ℕ)
    (hconforms : ∀ p < tensors.length, Conforms (fun q => tensors.getD q {}) p)
    (hnodes : (nodes.Nodup ∧ nodes.Pairwise fun a b => b ∉ (tensors.getD a {}).sources) ∧
      ∀ p ∈ nodes, ∀ q ∈ (tensors.getD p {}).sources, (tensors.getD q {}).op ≠ .none → q ∈ nodes) :
    Graph where
  tensor q := tensors.getD q {}
  addr := id
  nodes := nodes
  conforms p := by
    by_cases hp : p < tensors.length
    · exact hconforms p hp
    · refine conforms_leaf ?_
      simp only [List.getD_eq_getElem?_getD, List.getElem?_eq_none (Nat.le_of_not_lt hp),
        Option.getD_none]
  nodup := hnodes.1.1
  topological := hnodes.1.2
  closed := hnodes.2

section walks

variable (g : Graph)

def unwrapFrom : ℕ → ℕ → ℕ → ℕ × ℕ
  | 0, p, off => (p, off)
  | fuel + 1, p, off =>
      if isViewOp (g.op p) then
        let off := if g.op p = .view then off + g.viewOffs p else off
        match (g.tensor p).src0 with
        | none => (p, off)
        | some q => unwrapFrom fuel q off
      else (p, off)

/-- The producer behind the views and the sum of their offsets. -/
def unwrap (p : ℕ) : ℕ × ℕ := unwrapFrom g p p 0

abbrev producer (p : ℕ) : ℕ := (unwrap g p).1

variable {g}

theorem unwrapFrom_fuel {n m p : ℕ} (h : p ≤ n) (h' : p ≤ m) (off : ℕ) :
    unwrapFrom g n p off = unwrapFrom g m p off := by
  induction n generalizing m p off with
  | zero =>
    obtain rfl := Nat.le_zero.mp h
    cases m with
    | zero => rfl
    | succ m =>
      unfold unwrapFrom
      split
      · rename_i hview
        obtain ⟨q, hq⟩ := Graph.exists_src0 hview
        exact absurd (Graph.src0_lt hq) (Nat.not_lt_zero q)
      · rfl
  | succ n ih =>
    cases m with
    | zero =>
      obtain rfl := Nat.le_zero.mp h'
      unfold unwrapFrom
      split
      · rename_i hview
        obtain ⟨q, hq⟩ := Graph.exists_src0 hview
        exact absurd (Graph.src0_lt hq) (Nat.not_lt_zero q)
      · rfl
    | succ m =>
      unfold unwrapFrom
      split
      · rename_i hview
        obtain ⟨q, hq⟩ := Graph.exists_src0 hview
        have hlt := Graph.src0_lt hq
        simp only [hq]
        exact ih (by omega) (by omega) _
      · rfl

theorem unwrapFrom_off (fuel : ℕ) (p : ℕ) (off : ℕ) :
    unwrapFrom g fuel p off = ((unwrapFrom g fuel p 0).1, off + (unwrapFrom g fuel p 0).2) := by
  induction fuel generalizing p off with
  | zero => rfl
  | succ fuel ih =>
    unfold unwrapFrom
    by_cases hview : isViewOp (g.op p) = true
    · simp only [hview, if_true]
      cases hsrc : (g.tensor p).src0 with
      | none =>
        dsimp only
        split <;> simp
      | some q =>
        dsimp only
        split
        · rw [ih q (off + _), ih q (0 + _)]
          simp only [Nat.zero_add, Nat.add_assoc]
        · exact ih q off
    · simp only [hview, Bool.false_eq_true, if_false, Nat.add_zero]

theorem unwrap_of_not_view {p : ℕ} (h : isViewOp (g.op p) = false) : unwrap g p = (p, 0) := by
  unfold unwrap
  cases p with
  | zero => rfl
  | succ p => simp only [unwrapFrom, h, Bool.false_eq_true, if_false]

/-- One step of the walk. -/
theorem unwrap_of_view {p q : ℕ} (h : isViewOp (g.op p) = true) (hq : (g.tensor p).src0 = some q) :
    unwrap g p = ((unwrap g q).1, (if g.op p = .view then g.viewOffs p else 0) + (unwrap g q).2) := by
  have hlt := Graph.src0_lt hq
  obtain ⟨n, rfl⟩ : ∃ n, p = n + 1 := ⟨p - 1, by omega⟩
  unfold unwrap
  rw [unwrapFrom]
  simp only [h, if_true, hq]
  rw [unwrapFrom_off, unwrapFrom_fuel (m := q) (by omega) (Nat.le_refl q)]
  split <;> simp

theorem producer_of_view {p q : ℕ} (h : isViewOp (g.op p) = true)
    (hq : (g.tensor p).src0 = some q) : producer g p = producer g q := by
  rw [producer, unwrap_of_view h hq]

theorem view_induction {motive : ℕ → Prop}
    (own : ∀ p, isViewOp (g.op p) = false → motive p)
    (view : ∀ p q, isViewOp (g.op p) = true → (g.tensor p).src0 = some q → motive q → motive p)
    (p : ℕ) : motive p := by
  induction p using Nat.strongRecOn with
  | ind p ih =>
    cases hview : isViewOp (g.op p) with
    | false => exact own p hview
    | true =>
      obtain ⟨q, hq⟩ := Graph.exists_src0 hview
      exact view p q hview hq (ih q (Graph.src0_lt hq))

theorem producer_not_view (p : ℕ) : isViewOp (g.op (producer g p)) = false := by
  induction p using view_induction (g := g) with
  | own p h => rw [producer, unwrap_of_not_view h]; exact h
  | view p q h hq ih => rw [producer_of_view h hq]; exact ih

theorem producer_le (p : ℕ) : producer g p ≤ p := by
  induction p using view_induction (g := g) with
  | own p h => exact Nat.le_of_eq (congrArg Prod.fst (unwrap_of_not_view h))
  | view p q h hq ih =>
    rw [producer_of_view h hq]
    exact Nat.le_trans ih (Nat.le_of_lt (Graph.src0_lt hq))

end walks

end ComputeGraph
end StreamMoE
