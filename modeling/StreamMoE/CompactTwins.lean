import Mathlib.Data.List.Dedup
import Mathlib.Data.List.Range
import Mathlib.Data.Nat.Notation
import StreamMoE.ExpertAddress

/-! Tensors of three axes over byte-addressed storage with elements of four bytes: sizes `ne`,
strides `nb` of the second and third axis, rows along the first. -/
namespace StreamMoE
namespace Strided

structure Shape where
  ne0 : ℕ
  ne1 : ℕ
  ne2 : ℕ
  nb1 : ℕ
  nb2 : ℕ
  deriving DecidableEq, Repr

/-- Without gaps between rows. -/
def Shape.packed (ne0 ne1 ne2 : ℕ) : Shape :=
  { ne0 := ne0, ne1 := ne1, ne2 := ne2, nb1 := 4 * ne0, nb2 := 4 * (ne0 * ne1) }

/-- A shape and the element at every byte offset. -/
structure Tens (E : Type*) extends Shape where
  val : ℕ → E

variable {E : Type*}

namespace Tens

def elem (T : Tens E) (x s i : ℕ) : E := T.val (4 * x + s * T.nb1 + i * T.nb2)

def row (T : Tens E) (s i : ℕ) : List E := (List.range T.ne0).map fun x => T.elem x s i

/-- The tensor of a shape whose elements in packed order are given. -/
def ofElems (sh : Shape) (f : ℕ → ℕ → ℕ → E) : Tens E :=
  { sh with
    val := fun n => f (n / 4 % sh.ne0) (n / 4 / sh.ne0 % sh.ne1) (n / 4 / sh.ne0 / sh.ne1) }

/-- A shorter row of the same tensor, `off` bytes in. -/
def slice (T : Tens E) (off ne0 : ℕ) : Tens E :=
  { T with ne0 := ne0, val := fun n => T.val (off + n) }

theorem toShape_ofElems (sh : Shape) (f : ℕ → ℕ → ℕ → E) : (ofElems sh f).toShape = sh := rfl

theorem elem_ofElems {a b c x s : ℕ} (f : ℕ → ℕ → ℕ → E) (hx : x < a) (hs : s < b) (i : ℕ) :
    (ofElems (.packed a b c) f).elem x s i = f x s i := by
  have hoff : 4 * x + s * (4 * a) + i * (4 * (a * b)) = 4 * (x + a * (s + b * i)) := by
    rw [Nat.mul_add, Nat.mul_add, Nat.mul_add, Nat.mul_left_comm s 4 a, Nat.mul_left_comm i 4 (a * b),
      Nat.mul_comm s a, ← Nat.mul_assoc a b i, Nat.mul_comm i (a * b)]
    omega
  have hdiv : (x + a * (s + b * i)) / a = s + b * i := by
    rw [Nat.add_mul_div_left _ _ (by omega), Nat.div_eq_of_lt hx, Nat.zero_add]
  have hmod : (x + a * (s + b * i)) % a = x := by
    rw [Nat.add_mul_mod_self_left, Nat.mod_eq_of_lt hx]
  have hdiv' : (s + b * i) / b = i := by
    rw [Nat.add_mul_div_left _ _ (by omega), Nat.div_eq_of_lt hs, Nat.zero_add]
  have hmod' : (s + b * i) % b = s := by
    rw [Nat.add_mul_mod_self_left, Nat.mod_eq_of_lt hs]
  simp only [elem, ofElems, Shape.packed, hoff, Nat.mul_div_cancel_left _ (Nat.succ_pos 3), hdiv,
    hmod, hdiv', hmod']

theorem row_ofElems {a b c s : ℕ} (f : ℕ → ℕ → ℕ → E) (hs : s < b) (i : ℕ) :
    (ofElems (.packed a b c) f).row s i = (List.range a).map fun x => f x s i := by
  apply List.map_congr_left
  intro x hx
  exact elem_ofElems f (List.mem_range.mp hx) hs i

theorem row_eq_iff {T U : Tens E} {s i s' i' : ℕ} (h : T.ne0 = U.ne0) :
    T.row s i = U.row s' i' ↔ ∀ x < U.ne0, T.elem x s i = U.elem x s' i' := by
  rw [row, row, h, List.map_inj_left]
  simp only [List.mem_range]

theorem row_slice {T U : Tens E} {s i s' i' off n : ℕ} (h : T.ne0 = U.ne0)
    (hrow : T.row s i = U.row s' i') (hoff : 4 ∣ off) (hin : off + 4 * n ≤ 4 * U.ne0) :
    (T.slice off n).row s i = (U.slice off n).row s' i' := by
  obtain ⟨o, rfl⟩ := hoff
  have hne : (T.slice (4 * o) n).ne0 = (U.slice (4 * o) n).ne0 := rfl
  rw [row_eq_iff hne]
  intro x hx
  have hx' : x < n := hx
  have helem := (row_eq_iff h).mp hrow (o + x) (by omega)
  simpa only [elem, slice, Nat.mul_add, Nat.add_assoc] using helem

end Tens
end Strided
/-! The compact chain of a round: `append_bucket_chain_compact` clones the nodes of a closure, their
slots and tokens narrowed to those of the round, on tight copies of the leaves. -/
namespace CompactTwins

open ComputeGraph MixSplit MixExec Scatter Strided
open LayerPlan (hasText)
open ExpertAddress (rid columnOf)

/-- The bits of a float. -/
abbrev F32 := BitVec 32

/-- The operators of the tensor library: `MUL_MAT_ID` with the matrix of one expert on one column,
and an operation with its `op_params`, named by the node, on the rows it reads. -/
structure Kernels where
  matVec : ℕ → ℕ → List F32 → ℕ → F32
  rowOp : ℕ → List (List F32) → ℕ → F32

/-- The storage of every tensor that owns one. -/
abbrev Memory := ℕ → ℕ → F32

/-- The closure of a layer; `repeats` says where the operation is `REPEAT`, `fold` which nodes sum
the slots of `foldSrc`. -/
structure Layer where
  graph : Graph
  shape : ℕ → Shape
  repeats : ℕ → Bool
  compute : List ℕ
  fold : ℕ → Bool
  foldSrc : ℕ

section operators

variable (K : Kernels)

def mulMatId (w : ℕ) (sh : Shape) (ids : ℕ → ℕ → ℕ) (cur : Tens F32) : Tens F32 :=
  .ofElems sh fun x s t => K.matVec w (ids s t) (cur.row (s % cur.ne1) t) x

def getRows (sh : Shape) (ids : ℕ → ℕ → ℕ) (table : Tens F32) : Tens F32 :=
  .ofElems sh fun x s t => table.elem x (ids s t) t

/-- Every other operation; shorter operands are repeated. -/
def rowsOp (p : ℕ) (sh : Shape) (srcs : List (Tens F32)) : Tens F32 :=
  .ofElems sh fun x s t => K.rowOp p (srcs.map fun T => T.row (s % T.ne1) (t % T.ne2)) x

def MulMatIdFits (ne0 width nActive : ℕ) (cur : Tens F32) : Prop :=
  cur.ne0 = ne0 ∧ cur.ne2 = nActive ∧ width % cur.ne1 = 0

/-- The assertions of `GET_ROWS` for ids of shape `[width, nActive]`. -/
def GetRowsFits (sh : Shape) (width nActive : ℕ) (ids : ℕ → ℕ → ℕ) (table : Tens F32) : Prop :=
  (sh.ne1 = width ∧ sh.ne2 = nActive) ∧ (table.ne0 = sh.ne0 ∧ table.ne2 = sh.ne2) ∧
    ∀ t < nActive, ∀ s < width, ids s t < table.ne1

/-- The assertions of a row-wise operation: the first operand has the shape of the result unless it
is repeated, every other one divides it. -/
def RowsFit (repeats : Bool) (sh : Shape) (srcs : List (Tens F32)) : Prop :=
  (∃ first ∈ srcs.head?, repeats = true ∨ first.ne1 = sh.ne1 ∧ first.ne2 = sh.ne2) ∧
    ∀ T ∈ srcs, sh.ne1 % T.ne1 = 0 ∧ sh.ne2 % T.ne2 = 0

instance (ne0 width nActive : ℕ) (cur : Tens F32) : Decidable (MulMatIdFits ne0 width nActive cur) := by
  unfold MulMatIdFits
  infer_instance

instance (sh : Shape) (width nActive : ℕ) (ids : ℕ → ℕ → ℕ) (table : Tens F32) :
    Decidable (GetRowsFits sh width nActive ids table) := by
  unfold GetRowsFits
  infer_instance

instance (repeats : Bool) (sh : Shape) (srcs : List (Tens F32)) :
    Decidable (RowsFit repeats sh srcs) := by
  unfold RowsFit
  cases srcs with
  | nil => exact isFalse fun h => by simpa using h.1
  | cons T Ts =>
    exact decidable_of_iff ((repeats = true ∨ T.ne1 = sh.ne1 ∧ T.ne2 = sh.ne2) ∧
      ∀ U ∈ T :: Ts, sh.ne1 % U.ne1 = 0 ∧ sh.ne2 % U.ne2 = 0) (by simp)

end operators

variable (L : Layer) (R : Routing)

/-- The expert of slot `s` of token `t`, for the full-width graph. -/
def routed (s t : ℕ) : ℕ := (idAt R t s).toNat

namespace Layer

/-- A tensor in memory, a view at its offset in the storage of its root. -/
def tens (mem : Memory) (q : ℕ) : Tens F32 :=
  { L.shape q with val := fun n => mem (L.graph.root q) (L.graph.viewOffs q + n) }

/-- The nodes a round clones: no views, not the sum over the slots. -/
def body : List ℕ := L.compute.filter fun p => !isViewOp (L.graph.op p) && !L.fold p

/-- What a node of the full-width graph computes. -/
def result (K : Kernels) (mem : Memory) (p : ℕ) : Tens F32 :=
  match L.graph.op p, (L.graph.tensor p).src with
  | .mulMatId, [some w, some cur, _] => mulMatId K w (L.shape p) (routed R) (L.tens mem cur)
  | .getRows, [some table, _] => getRows (L.shape p) (routed R) (L.tens mem table)
  | _, _ => rowsOp K p (L.shape p) ((L.graph.tensor p).sources.map (L.tens mem))

def evalStep (K : Kernels) (mem : Memory) (p : ℕ) : Memory :=
  Function.update mem p (L.result R K mem p).val

/-- The memory after the full-width graph. -/
def eval (K : Kernels) (mem : Memory) : Memory := L.body.foldl (L.evalStep R K) mem

/-- `append_op_bucket` leaves these to `append_expert_fold`. -/
def replaced (p : ℕ) : Bool :=
  hasText (L.graph.tensor p).name "ffn_moe_out" ||
    (decide (L.graph.op p = .add) && !hasText (L.graph.tensor p).name "ffn_moe_")

end Layer

section round

variable (r : MixRound) (dev : Bool)

/-- The cell of the scatter entry for tight column `i` and slot `s`. -/
def cell (i s : ℕ) : ℕ × ℕ :=
  scat (buildMixPlan R) r (columnOf (buildMixPlan R) R.nTokens r i) s

def tokenOf (i : ℕ) : ℕ :=
  (tRound (buildMixPlan R) r).getD (columnOf (buildMixPlan R) R.nTokens r i) 0

/-- `ids_exp`; the matrix that the staged slot of an id holds is that of its expert. -/
def idsExp (s i : ℕ) : ℕ :=
  (rid (buildMixPlan R) r (columnOf (buildMixPlan R) R.nTokens r i) s).toNat

def TokFull : Prop := r.nActive = R.nTokens

def CellFull : Prop := TokFull R r ∧ r.width = R.nExpertUsed

instance : Decidable (TokFull R r) := by unfold TokFull; infer_instance

instance : Decidable (CellFull R r) := by unfold CellFull; infer_instance

/-- `bucket_gather_cur`: the columns of the round's tokens, or the leaf itself. -/
def gatherCur (m : Tens F32) : Option (Tens F32) :=
  if TokFull R r ∧ (dev = false ∨ m.nb2 = 4 * m.ne0) then some { m with ne1 := 1 }
  else if ∀ i < r.nActive, tokenOf R r i < m.ne2 then
    some (.ofElems (.packed m.ne0 1 r.nActive) fun x _ i => m.val (4 * x + tokenOf R r i * m.nb2))
  else none

/-- The whole leaf is the round's rectangle and can be consumed directly. -/
def Direct (sh : Shape) : Prop :=
  CellFull R r ∧ (dev = false ∨ sh.nb1 = 4 ∧ sh.nb2 = sh.ne1 * 4)

instance (sh : Shape) : Decidable (Direct R r dev sh) := by unfold Direct; infer_instance

/-- The element offset of a cell, as an `int32_t`. -/
def flatIdx (sh : Shape) (c : ℕ × ℕ) : ℤ :=
  Int.bmod ((c.2 * sh.nb1 + c.1 * sh.nb2) / 4 : ℕ) (2 ^ 32)

/-- The rows of the flat source. -/
def span (sh : Shape) : ℕ := (sh.nb2 * (sh.ne2 - 1) + sh.nb1 * (sh.ne1 - 1)) / 4 + 1

def gatherPerSlot (m : Tens F32) : Option (Tens F32) :=
  if Direct R r dev m.toShape then some m
  else if ∀ i < r.nActive, ∀ s < r.width,
      0 ≤ flatIdx m.toShape (cell R r i s) ∧ flatIdx m.toShape (cell R r i s) < span m.toShape then
    some (.ofElems (.packed 1 r.width r.nActive) fun _ s i =>
      m.val (4 * (flatIdx m.toShape (cell R r i s)).toNat))
  else none

/-- The tables of a round, and the twin that was made last. -/
structure Chain where
  twins : List (ℕ × Tens F32) := []
  gathers : List (ℕ × Tens F32) := []
  last : Option (ℕ × Tens F32) := none

namespace Chain

def twinGet (st : Chain) (q : ℕ) : Option (Tens F32) :=
  (st.twins.find? fun e => decide (e.1 = q)).map Prod.snd

def gatherGet (st : Chain) (q : ℕ) : Option (Tens F32) :=
  (st.gathers.find? fun e => decide (e.1 = q)).map Prod.snd

/-- `twin_arr` holds 64 entries; nothing keeps a write inside it. -/
def twinPut (st : Chain) (p : ℕ) (T : Tens F32) : Option Chain :=
  if st.twins.length < 64 then some { st with twins := st.twins ++ [(p, T)], last := some (p, T) }
  else none

/-- `gather_arr` holds 16. -/
def gatherPut (st : Chain) (q : ℕ) (T : Tens F32) : Option Chain :=
  if st.gathers.length < 16 then some { st with gathers := st.gathers ++ [(q, T)] } else none

/-- One tight copy of a leaf for all its readers. -/
def gathered (st : Chain) (q : ℕ) (make : Option (Tens F32)) : Option (Chain × Tens F32) :=
  match st.gatherGet q with
  | some T => some (st, T)
  | none => make.bind fun T => (st.gatherPut q T).map fun st => (st, T)

end Chain

variable (K : Kernels) (mem : Memory)

def extLeaf (st : Chain) (q : ℕ) : Option (Chain × Tens F32) :=
  if (L.shape q).ne0 = 1 ∧ (L.shape q).ne1 = R.nExpertUsed then
    st.gathered q (gatherPerSlot R r dev (L.tens mem q))
  else some (st, L.tens mem q)

def srcLeaf (st : Chain) (q : ℕ) : Option (Chain × Tens F32) :=
  match st.twinGet (producer L.graph q) with
  | some T => some (st, T.slice (unwrap L.graph q).2 (L.shape q).ne0)
  | none => extLeaf L R r dev mem st q

def srcLeaves : Chain → List ℕ → Option (Chain × List (Tens F32))
  | st, [] => some (st, [])
  | st, q :: qs =>
      (srcLeaf L R r dev mem st q).bind fun x =>
        (srcLeaves x.1 qs).map fun y => (y.1, x.2 :: y.2)

/-- The activation of a `MUL_MAT_ID`: a twin, or the tight columns of a leaf. -/
def curLeaf (st : Chain) (cur : ℕ) : Option (Chain × Tens F32) :=
  match if L.graph.op cur = .none then none else st.twinGet cur with
  | some T => some (st, T)
  | none => st.gathered cur (gatherCur R r dev (L.tens mem cur))

/-- `append_mm_bucket`, the weight and its staged ids given. -/
def appendMm (st : Chain) (p : ℕ) : Option Chain :=
  match (L.graph.tensor p).src with
  | [some w, some cur, _] =>
      (curLeaf L R r dev mem st cur).bind fun x =>
        if MulMatIdFits (L.shape w).ne0 r.width r.nActive x.2 then
          x.1.twinPut p
            (mulMatId K w (.packed (L.shape w).ne1 r.width r.nActive) (idsExp R r) x.2)
        else none
  | _ => none

/-- The shape of a clone: the second axis is taken for the slots unless the first is as long. -/
def narrowed (sh : Shape) : Shape :=
  .packed sh.ne0 (if sh.ne1 = R.nExpertUsed ∧ sh.ne0 ≠ R.nExpertUsed then r.width else sh.ne1)
    (if sh.ne2 = R.nTokens then r.nActive else sh.ne2)

/-- `append_op_bucket`; the index operand of `GET_ROWS` is I32. -/
def appendOp (st : Chain) (p : ℕ) : Option Chain :=
  if L.replaced p then some st
  else
    match L.graph.op p, (L.graph.tensor p).src with
    | .getRows, [some table, some _] =>
        (srcLeaf L R r dev mem st table).bind fun x =>
          if GetRowsFits (narrowed R r (L.shape p)) r.width r.nActive (idsExp R r) x.2 then
            x.1.twinPut p (getRows (narrowed R r (L.shape p)) (idsExp R r) x.2)
          else none
    | _, _ =>
        (srcLeaves L R r dev mem st (L.graph.tensor p).sources).bind fun x =>
          if RowsFit (L.repeats p) (narrowed R r (L.shape p)) x.2 then
            x.1.twinPut p (rowsOp K p (narrowed R r (L.shape p)) x.2)
          else none

def chainStep (st : Chain) (p : ℕ) : Option Chain :=
  if isViewOp (L.graph.op p) then some st
  else if L.graph.op p = .mulMatId then appendMm L R r dev K mem st p
  else appendOp L R r dev K mem st p

/-- `append_bucket_chain_compact`; none when the tensor library aborts or a table overflows. -/
def appendChain : Option Chain := L.compute.foldlM (chainStep L R r dev K mem) {}

/-- A twin carries the rows of its node: those of the round's cells, or every expert's row of the
round's tokens for a repeated table. -/
def TwinOf (p : ℕ) (T : Tens F32) : Prop :=
  T.toShape = .packed (L.shape p).ne0 (if L.repeats p then R.nExpert else r.width) r.nActive ∧
    ∀ i < r.nActive,
      if L.repeats p then
        ∀ e < R.nExpert, T.row e i = (L.tens (L.eval R K mem) p).row e (cell R r i 0).1
      else
        ∀ s < r.width,
          T.row s i = (L.tens (L.eval R K mem) p).row (cell R r i s).2 (cell R r i s).1

/-- The chain of a round is built, every node has its twin, and the fold is handed that of the node
it sums. -/
def Computes : Prop :=
  ∃ st, appendChain L R r dev K mem = some st ∧
    (∀ p ∈ L.body, ∃ T, st.twinGet p = some T ∧ TwinOf L R r K mem p T) ∧
    st.last = (st.twinGet L.foldSrc).map fun T => (L.foldSrc, T)

end round

end CompactTwins
end StreamMoE
