import StreamMoE.CapacityNeeds
import StreamMoE.LayerResult

/-! The shortcuts of the executor beside the general path: tight copies of all leaves, whatever the
round, and a result that goes through an accumulator. -/
namespace StreamMoE
namespace FastPaths

open ComputeGraph MixSplit MixExec Strided CompactTwins LayerOutput Buffers
open GraphCapacity (twinNodes operands)

/-- How a chain takes the columns and the cells of a leaf, and a shorter row of a twin. -/
structure Reads where
  cur : Tens F32 → Option (Tens F32)
  perSlot : Tens F32 → Option (Tens F32)
  slice : Tens F32 → ℕ → ℕ → Option (Tens F32)

section reads

variable (R : Routing) (r : MixRound) (dev : Bool)

def executor : Reads where
  cur := gatherCur R r dev
  perSlot := gatherPerSlot R r dev
  slice T off n := some (T.slice off n)

/-- `bucket_gather_cur` without its identity. -/
def generalCur (m : Tens F32) : Option (Tens F32) :=
  if ∀ i < r.nActive, tokenOf R r i < m.ne2 then
    some (.ofElems (.packed m.ne0 1 r.nActive) fun x _ i => m.val (4 * x + tokenOf R r i * m.nb2))
  else none

/-- The rows of the flat source that the cells index are there. -/
def InSpan (sh : Shape) : Prop := ∀ i < r.nActive, ∀ s < r.width,
  0 ≤ flatIdx sh (cell R r i s) ∧ flatIdx sh (cell R r i s) < span sh

instance (sh : Shape) : Decidable (InSpan R r sh) := by unfold InSpan; infer_instance

/-- `bucket_gather_per_slot` without its identity. -/
def generalPerSlot (m : Tens F32) : Option (Tens F32) :=
  if InSpan R r m.toShape then
    some (.ofElems (.packed 1 r.width r.nActive) fun _ s i =>
      m.val (4 * (flatIdx m.toShape (cell R r i s)).toNat))
  else none

/-- Outside its rows a twin has no values that are defined. -/
def generalSlice (T : Tens F32) (off n : ℕ) : Option (Tens F32) :=
  if 4 ∣ off ∧ off + 4 * n ≤ 4 * T.ne0 then some (T.slice off n) else none

def general : Reads where
  cur := generalCur R r
  perSlot := generalPerSlot R r
  slice := generalSlice

end reads

section chain

variable (L : Layer) (R : Routing) (r : MixRound) (G : Reads) (K : Kernels) (mem : Memory)

def extLeaf (st : Chain) (q : ℕ) : Option (Chain × Tens F32) :=
  if (L.shape q).ne0 = 1 ∧ (L.shape q).ne1 = R.nExpertUsed then
    st.gathered q (G.perSlot (L.tens mem q))
  else some (st, L.tens mem q)

def srcLeaf (st : Chain) (q : ℕ) : Option (Chain × Tens F32) :=
  match st.twinGet (producer L.graph q) with
  | some T => (G.slice T (unwrap L.graph q).2 (L.shape q).ne0).map fun S => (st, S)
  | none => extLeaf L R G mem st q

def srcLeaves : Chain → List ℕ → Option (Chain × List (Tens F32))
  | st, [] => some (st, [])
  | st, q :: qs =>
      (srcLeaf L R G mem st q).bind fun x => (srcLeaves x.1 qs).map fun y => (y.1, x.2 :: y.2)

def curLeaf (st : Chain) (cur : ℕ) : Option (Chain × Tens F32) :=
  match if L.graph.op cur = .none then none else st.twinGet cur with
  | some T => some (st, T)
  | none => st.gathered cur (G.cur (L.tens mem cur))

def appendMm (st : Chain) (p : ℕ) : Option Chain :=
  match (L.graph.tensor p).src with
  | [some w, some cur, _] =>
      (curLeaf L G mem st cur).bind fun x =>
        if MulMatIdFits (L.shape w).ne0 r.width r.nActive x.2 then
          x.1.twinPut p
            (mulMatId K w (.packed (L.shape w).ne1 r.width r.nActive) (idsExp R r) x.2)
        else none
  | _ => none

def appendOp (st : Chain) (p : ℕ) : Option Chain :=
  if L.replaced p then some st
  else
    match L.graph.op p, (L.graph.tensor p).src with
    | .getRows, [some table, some _] =>
        (srcLeaf L R G mem st table).bind fun x =>
          if GetRowsFits (narrowed R r (L.shape p)) r.width r.nActive (idsExp R r) x.2 then
            x.1.twinPut p (getRows (narrowed R r (L.shape p)) (idsExp R r) x.2)
          else none
    | _, _ =>
        (srcLeaves L R G mem st (L.graph.tensor p).sources).bind fun x =>
          if RowsFit (L.repeats p) (narrowed R r (L.shape p)) x.2 then
            x.1.twinPut p (rowsOp K p (narrowed R r (L.shape p)) x.2)
          else none

def chainStep (st : Chain) (p : ℕ) : Option Chain :=
  if isViewOp (L.graph.op p) then some st
  else if L.graph.op p = .mulMatId then appendMm L R r G K mem st p
  else appendOp L R r G K mem st p

def appendChain : Option Chain := L.compute.foldlM (chainStep L R r G K mem) {}

end chain

section executor

variable (L : Layer) (R : Routing) (r : MixRound) (dev : Bool) (K : Kernels) (mem : Memory)

theorem srcLeaf_executor (st : Chain) (q : ℕ) :
    srcLeaf L R (executor R r dev) mem st q = CompactTwins.srcLeaf L R r dev mem st q := by
  unfold srcLeaf CompactTwins.srcLeaf
  cases st.twinGet (producer L.graph q) <;> rfl

theorem srcLeaves_executor (qs : List ℕ) (st : Chain) :
    srcLeaves L R (executor R r dev) mem st qs = CompactTwins.srcLeaves L R r dev mem st qs := by
  induction qs generalizing st with
  | nil => rfl
  | cons q qs ih => simp only [srcLeaves, CompactTwins.srcLeaves, srcLeaf_executor, ih]

theorem appendChain_executor :
    appendChain L R r (executor R r dev) K mem = CompactTwins.appendChain L R r dev K mem := by
  have hop : ∀ st p, appendOp L R r (executor R r dev) K mem st p =
      CompactTwins.appendOp L R r dev K mem st p := by
    intro st p
    simp only [appendOp, srcLeaf_executor, srcLeaves_executor]
    rfl
  have hstep : chainStep L R r (executor R r dev) K mem = CompactTwins.chainStep L R r dev K mem := by
    funext st p
    rw [chainStep, CompactTwins.chainStep, hop]
    rfl
  rw [appendChain, hstep]
  rfl

end executor

/-- Tensors of one shape with the same rows. -/
structure Agree (T U : Tens F32) : Prop where
  ne0 : T.ne0 = U.ne0
  ne1 : T.ne1 = U.ne1
  ne2 : T.ne2 = U.ne2
  row : ∀ s < U.ne1, ∀ i < U.ne2, T.row s i = U.row s i

/-- Where the general read is defined the other one is too, and reads the same rows. -/
def Follows (F G : Option (Tens F32)) : Prop := ∀ U, G = some U → ∃ T, F = some T ∧ Agree T U

def AgreeAt (e f : ℕ × Tens F32) : Prop := e.1 = f.1 ∧ Agree e.2 f.2

/-- The twins and copies of two chains agree, one by one. -/
structure SameTables (st st' : Chain) : Prop where
  twins : List.Forall₂ AgreeAt st.twins st'.twins
  gathers : List.Forall₂ AgreeAt st.gathers st'.gathers
  last : Option.Rel AgreeAt st.last st'.last

section claim

variable (L : Layer) (R : Routing)

def ColumnLeaf (q : ℕ) : Prop :=
  ∃ p ∈ twinNodes L, ∃ w ids, (L.graph.tensor p).src = [some w, some q, ids] ∧
    L.graph.op p = .mulMatId ∧ ¬ (L.graph.op q ≠ .none ∧ q ∈ twinNodes L)

/-- A leaf whose cells another operation takes. -/
def SlotLeaf (q : ℕ) : Prop :=
  ∃ p ∈ twinNodes L, L.graph.op p ≠ .mulMatId ∧ q ∈ operands L p ∧
    producer L.graph q ∉ twinNodes L ∧ (L.shape q).ne0 = 1 ∧ (L.shape q).ne1 = R.nExpertUsed

/-- No shortcut changes what a round of the layer reads and computes, or what a layer leaves in
`moe_out`. -/
structure ShortcutsAgree (A : Type*) [AddCommMonoid A] : Prop where
  rows : ∀ r ∈ (buildMixPlan R).rounds, ∀ dev mem q,
    (ColumnLeaf L q → Follows (gatherCur R r dev (L.tens mem q)) (generalCur R r (L.tens mem q))) ∧
    (SlotLeaf L R q →
      Follows (gatherPerSlot R r dev (L.tens mem q)) (generalPerSlot R r (L.tens mem q)))
  values : ∀ r ∈ (buildMixPlan R).rounds, ∀ dev K mem st',
    appendChain L R r (general R r) K mem = some st' →
      ∃ st, CompactTwins.appendChain L R r dev K mem = some st ∧ SameTables st st'
  output : ∀ (D : Devices) (m : MoeOut), directOut L R m = true →
    (∀ r ∈ (buildMixPlan R).rounds, ∀ seg ∈ (LayerResult.scatterPlan R r).segs,
      LayerResult.ViewFits L r seg) →
    ∀ (c : ℕ → ℕ → ℕ → A) mem st',
      LayerResult.converge L R D m false (LayerResult.compute L R D m false c mem) = .ok st' →
        ∃ st, LayerResult.converge L R D m true (LayerResult.compute L R D m true c mem) = .ok st ∧
          ∀ t < R.nTokens, ∀ x < dOut L,
            st.mem .moeOut (t * dOut L + x) = st'.mem .moeOut (t * dOut L + x)

/-- The round reads the whole leaf in place, and the general path would index it with numbers that
lost their upper bits. -/
def WrapsAround (r : MixRound) (q : ℕ) : Prop :=
  Direct R r false (L.shape q) ∧ InSpan R r (L.shape q) ∧
    ∃ i < r.nActive, ∃ s < r.width, flatIdx (L.shape q) (cell R r i s) ≠
      (((cell R r i s).2 * (L.shape q).nb1 + (cell R r i s).1 * (L.shape q).nb2) / 4 : ℕ)

end claim

end FastPaths
end StreamMoE
