import StreamMoE.Buffers
import StreamMoE.GraphCapacity

/-! How `exec_layer_burst_chain_buckets` delivers the result of a layer: accumulators set to zero, the
rounds, the tail behind them in the same graph, and the way from the accumulators to `moe_out`. -/
namespace StreamMoE
namespace LayerResult

open MixSplit MixExec Scatter LayerOutput Buffers
open CompactTwins (Layer)
open LayerPlan (hasText)

/-- The buffers of a result: `moe_out`, the accumulator of every target, and the folded round that is
not computed in `moe_out` itself. -/
inductive Buf
  | moeOut
  | acc (τ : Option ℕ)
  | result
  deriving DecidableEq, Repr

/-- A node of the tail; `supported` by the backend of the only device target. -/
structure TailNode where
  aliasOp : Bool
  noOp : Bool
  data : Bool
  device : Option ℕ
  supported : Bool
  deriving DecidableEq, Repr

def isSegmentOnDevice (nodes : List TailNode) (device : ℕ) : Bool :=
  (nodes.filter fun nd => !nd.aliasOp) != [] &&
    (nodes.filter fun nd => !nd.aliasOp).all fun nd => decide (nd.device = some device)

def tailNodes (tail : List TailNode) : List TailNode :=
  tail.filter fun nd => !nd.aliasOp && nd.data && !nd.noOp

/-- The bytes from the first element of `moe_out` to the end of its last. -/
def nbytes (m : MoeOut) (nT : ℕ) : ℕ := (m.ne0 - 1) * m.nb0 + (nT - 1) * m.nb1 + 4

/-- `ggml_are_same_layout` of `moe_out` and a tensor of rows of `n` floats without gaps. -/
def sameLayout (m : MoeOut) (n : ℕ) : Bool := decide (m.ne0 = n ∧ m.nb0 = 4 ∧ m.nb1 = n * 4)

def foldRow (L : Layer) : ℕ := (L.shape L.foldSrc).ne0

def scatterPlan (R : Routing) (r : MixRound) : ScatterPlan :=
  buildScatterPlan (tRound (buildMixPlan R) r) R.nTokens

section targets

variable (L : Layer) (R : Routing) (D : Devices) (m : MoeOut) (direct : Bool)

/-- The floats of an accumulator. -/
def accSize : ℕ := R.nTokens * dOut L

/-- The device target of a layer that has one target and no round on the CPU. -/
def single : Option ℕ := if singleDevTarget D R then (devTargets D R).pools.head? else none

/-- The device target whose accumulator is `moe_out` itself. -/
def bound : Option ℕ :=
  (single R D).filter fun p => !direct && sameDev D m p && contiguous L m

def accBuf (τ : Option ℕ) : Buf := if τ ≠ none ∧ τ = bound L R D m direct then .moeOut else .acc τ

/-- `out_dest`: a direct result is computed in `moe_out` itself. -/
def inPlace : Bool :=
  match single R D with
  | none => m.host
  | some p => sameDev D m p

/-- The tail joins the graph of the target. -/
def canFuseTail (tail : List TailNode) : Bool :=
  (single R D).any fun p => sameDev D m p && isSegmentOnDevice tail (D.device p) &&
    tail.all fun nd => nd.aliasOp || nd.noOp || nd.supported

/-- A segment's columns, `d_out` floats each, lie in the folded round. -/
def ViewFits (r : MixRound) (seg : ScatterSeg) : Prop :=
  seg.len = 0 ∨ seg.src * foldRow L + seg.len * dOut L ≤ r.nActive * foldRow L

instance (r : MixRound) (seg : ScatterSeg) : Decidable (ViewFits L r seg) := by
  unfold ViewFits
  infer_instance

/-- The graphs are built: tables and graphs suffice, every segment is a view of its round, and the
tail finds room behind the rounds. -/
def builds (tail : List TailNode) : Bool :=
  match GraphCapacity.runRounds L R (some m) (devTargets D R) with
  | .error _ => false
  | .ok gf =>
      (direct || decide (∀ r ∈ (buildMixPlan R).rounds, ∀ seg ∈ (scatterPlan R r).segs, ViewFits L r seg)) &&
        !(canFuseTail R D m tail && decide (4096 < (gf (single R D)).length + (tailNodes tail).length))

end targets

section values

variable {A : Type*} [AddCommMonoid A]
variable (L : Layer) (R : Routing) (D : Devices) (m : MoeOut) (direct : Bool) (c : ℕ → ℕ → ℕ → A)

/-- `append_expert_fold`, in tight columns. -/
def folded (r : MixRound) : ℕ → A :=
  flat (foldRow L) (perToken c (buildMixPlan R) r (scatterPlan R r).order)

/-- One `ggml_acc`: `len` views of `d_out` floats into an arithmetic run of columns. -/
def accColumns (b : Buf) (pt : ℕ → A) (st : State Buf A) (seg : ScatterSeg) : State Buf A :=
  (List.range seg.len).foldl
    (fun st i => st.put b ((seg.dst + i * seg.delta) * dOut L) (dOut L) fun x =>
      st.mem b ((seg.dst + i * seg.delta) * dOut L + x) + pt ((seg.src + i) * foldRow L + x))
    st

/-- The accumulators of the devices and of the CPU are set to zero. -/
def zeroAccs (mem : Buf → ℕ → A) : State Buf A :=
  ((devTargets D R).pools.map some ++ [none]).foldl
    (fun st τ => st.put (accBuf L R D m direct τ) 0 (accSize L R) fun _ => 0) { mem := mem }

def runRound (st : State Buf A) (r : MixRound) : State Buf A :=
  if r.width = 0 ∨ r.nActive = 0 then st
  else if direct then
    st.put (if inPlace R D m then .moeOut else .result) 0 (r.nActive * foldRow L) (folded L R c r)
  else
    (scatterPlan R r).segs.foldl
      (accColumns L (accBuf L R D m direct (targetOf (devTargets D R) r)) (folded L R c r)) st

/-- The graphs, from what memory holds. -/
def compute (mem : Buf → ℕ → A) : State Buf A :=
  (buildMixPlan R).rounds.foldl (runRound L R D m direct c) (zeroAccs L R D m direct mem)

abbrev Outcome (A : Type*) := Except (List (Write Buf)) (State Buf A)

/-- `ggml_backend_tensor_get` of an accumulator's floats from a tensor of `n`, into `moe_out`. -/
def tensorGet (src : Buf) (n : ℕ) (st : State Buf A) : Outcome A :=
  if accSize L R ≤ n then .ok (st.put .moeOut 0 (accSize L R) (st.mem src)) else .error st.writes

def tensorCopy (src : Buf) (n : ℕ) (st : State Buf A) : Outcome A :=
  if sameLayout m n then .ok (st.put .moeOut 0 (R.nTokens * n) (st.mem src)) else .error st.writes

def tensorWriteHost (v : ℕ → A) (st : State Buf A) : Outcome A :=
  if 4 * accSize L R ≤ nbytes m R.nTokens then .ok (st.put .moeOut 0 (accSize L R) v)
  else .error st.writes

/-- From the targets to `moe_out`. -/
def converge (st : State Buf A) : Outcome A :=
  match direct, single R D with
  | true, none =>
      if m.host then .ok st else tensorWriteHost L R m (st.mem .result) st
  | true, some p =>
      if sameDev D m p then .ok st
      else if m.host then tensorGet L R .result (R.nTokens * foldRow L) st
      else tensorCopy R m .result (foldRow L) st
  | false, some p =>
      if sameDev D m p ∧ contiguous L m then .ok st
      else if m.host then tensorGet L R (.acc (some p)) (accSize L R) st
      else tensorCopy R m (.acc (some p)) (dOut L) st
  | false, none =>
      tensorWriteHost L R m
        (layerFold (allAccs (devTargets D R) fun τ => st.mem (accBuf L R D m direct τ))) st

/-- The buffers at the end, and `moe_out` as the first node of a fused tail finds it. -/
structure Burst (A : Type*) where
  state : State Buf A
  seen : Option (ℕ → A)

/-- The part of `exec_layer_burst_chain_buckets` between its plan and its tail; a failure or an
assertion leaves the writes made before it. -/
def exec (tail : List TailNode) (mem : Buf → ℕ → A) : Except (List (Write Buf)) (Burst A) :=
  if (buildMixPlan R).rounds = [] ∨ dOut L = 0 then .error []
  else if builds L R D m (directOut L R m) tail then
    (converge L R D m (directOut L R m) (compute L R D m (directOut L R m) c mem)).map fun st =>
      { state := st
        seen := if canFuseTail R D m tail && tailNodes tail != [] then
            some ((compute L R D m (directOut L R m) c mem).mem .moeOut)
          else none }
  else .error (zeroAccs L R D m (directOut L R m) mem).writes

end values

section spec

variable {A : Type*} [AddCommMonoid A]
variable (L : Layer) (R : Routing) (D : Devices) (m : MoeOut)

/-- The floats a buffer has room for; the bytes of `moe_out` are those of its strides. -/
def Room : Buf → ℕ → Prop
  | .moeOut, n => 4 * n ≤ nbytes m R.nTokens
  | .acc _, n => n ≤ accSize L R
  | .result, _ => True

/-- The sum of a token over its routed slots. -/
def total (c : ℕ → ℕ → ℕ → A) (t : ℕ) : ℕ → A :=
  ((List.range R.nExpertUsed).map fun k => if (cellPool R t k).isSome then c t k else 0).sum

/-- The float at which element `x` of column `t` lies in `moe_out`. -/
def place (t x : ℕ) : ℕ := (x * m.nb0 + t * m.nb1) / 4

/-- Every element of `moe_out` is the sum of its token. -/
def Complete (c : ℕ → ℕ → ℕ → A) (f : ℕ → A) : Prop :=
  ∀ t < R.nTokens, ∀ x < m.ne0, f (place m t x) = total R c t x

def madeWrites : Except (List (Write Buf)) (Burst A) → List (Write Buf)
  | .error ws => ws
  | .ok b => b.state.writes

variable (A) in
/-- The accumulators have the columns of `moe_out`, all writes stay inside, and success leaves the whole
sum in `moe_out`, for a fused tail before its first node. -/
structure Delivers (tail : List TailNode) : Prop where
  columns : dOut L = m.ne0
  inside : ∀ (c : ℕ → ℕ → ℕ → A) mem, Inside (Room L R m) (madeWrites (exec L R D m c tail mem))
  complete : ∀ (c : ℕ → ℕ → ℕ → A) mem b, exec L R D m c tail mem = .ok b →
    Complete R m c (b.state.mem .moeOut) ∧ ∀ f ∈ b.seen, Complete R m c f

/-- `moe_out` is a node of the closure, with the rows that it sums and strides of whole floats. -/
structure Placed : Prop where
  node : ∃ p ∈ L.compute, hasText (L.graph.tensor p).name "ffn_moe_out" ∧ (L.shape p).ne0 = m.ne0
  row : m.ne0 = foldRow L
  nb0_dvd : 4 ∣ m.nb0
  nb1_dvd : 4 ∣ m.nb1

end spec

end LayerResult
end StreamMoE
