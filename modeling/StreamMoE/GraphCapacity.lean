import Mathlib.Data.Nat.Notation
import StreamMoE.CompactTwins
import StreamMoE.ReadPlan
import StreamMoE.ScatterSearch

/-! Runs of steps that draw on limited supplies: when what the steps need is known beforehand, a run
ends in an error exactly when some supply is asked for more than it holds. -/
namespace StreamMoE
namespace Supplies

variable {α ε ι σ : Type*}

/-- What the steps of a run need of every supply: a state keeps count of it, and a step whose need
exceeds a supply ends with the error of that supply. -/
structure Draws (step : σ → α → Except ε σ) (holds : ι → ℕ) (stop : ι → ε) (need : List α → ι → ℕ)
    (Inv : List α → σ → Prop) (l : List α) : Prop where
  within : ∀ {s : σ}, Inv l s → ∀ i, need l i ≤ holds i
  step : ∀ {pre post : List α} {s : σ} {a : α}, l = pre ++ a :: post → Inv pre s →
    (∃ s', step s a = .ok s' ∧ Inv (pre ++ [a]) s') ∨
      ∃ i, step s a = .error (stop i) ∧ holds i < need (pre ++ [a]) i
  mono : ∀ (pre : List α) (a : α) (i : ι), need pre i ≤ need (pre ++ [a]) i

variable {step : σ → α → Except ε σ} {holds : ι → ℕ} {stop : ι → ε} {need : List α → ι → ℕ}
  {Inv : List α → σ → Prop} {l : List α}

theorem Draws.need_le (h : Draws step holds stop need Inv l) (pre post : List α) (i : ι) :
    need pre i ≤ need (pre ++ post) i := by
  induction post generalizing pre with
  | nil => simp
  | cons a post ih => simpa using Nat.le_trans (h.mono pre a i) (ih (pre ++ [a]))

theorem Draws.run_from (h : Draws step holds stop need Inv l) (post : List α) :
    ∀ {pre : List α} {s : σ}, l = pre ++ post → Inv pre s →
      (∃ s', post.foldlM step s = .ok s' ∧ Inv l s') ∨
        ∃ i, post.foldlM step s = .error (stop i) ∧ holds i < need l i := by
  induction post with
  | nil =>
    intro pre s hsplit hs
    rw [List.append_nil] at hsplit
    exact .inl ⟨s, rfl, hsplit ▸ hs⟩
  | cons a post ih =>
    intro pre s hsplit hs
    have hsplit' : l = (pre ++ [a]) ++ post := by simp [hsplit]
    rw [List.foldlM_cons]
    rcases h.step hsplit hs with ⟨s₁, hstep, hs₁⟩ | ⟨i, hstep, hi⟩
    · rw [hstep]
      exact ih hsplit' hs₁
    · rw [hstep]
      refine .inr ⟨i, rfl, Nat.lt_of_lt_of_le hi ?_⟩
      rw [hsplit']
      exact h.need_le _ _ _

theorem Draws.run (h : Draws step holds stop need Inv l) {s : σ} (hs : Inv [] s) :
    (∃ s', l.foldlM step s = .ok s' ∧ Inv l s') ∨
      ∃ i, l.foldlM step s = .error (stop i) ∧ holds i < need l i :=
  h.run_from l rfl hs

/-- No supply stops the run exactly when each holds what the run needs. -/
theorem Draws.not_stopped_iff (h : Draws step holds stop need Inv l) {s : σ} (hs : Inv [] s) :
    (∀ i, l.foldlM step s ≠ .error (stop i)) ↔ ∀ i, need l i ≤ holds i := by
  rcases h.run hs with ⟨s', hok, hinv⟩ | ⟨i, herr, hi⟩
  · exact ⟨fun _ => h.within hinv, fun _ i => by simp [hok]⟩
  · exact ⟨fun hno => absurd herr (hno i), fun hfit => absurd (hfit i) (Nat.not_le_of_lt hi)⟩

end Supplies
/-! Where `exec_layer_burst_chain_buckets` puts the result of a layer: its targets, the length of a
column, and the flags. -/
namespace LayerOutput

open CompactTwins (Layer)
open ReadPlan (foldl_max_le_iff)
open MixSplit MixExec

/-- `d_out`: the longest row of the closure. -/
def dOut (L : Layer) : ℕ := (L.compute.map fun p => (L.shape p).ne0).foldl max 0

theorem dOut_le_iff {L : Layer} {n : ℕ} : dOut L ≤ n ↔ ∀ p ∈ L.compute, (L.shape p).ne0 ≤ n := by
  rw [dOut, foldl_max_le_iff, List.forall_mem_map]
  exact and_iff_right (Nat.zero_le n)

/-- `moe_out`, with one column for every token: its rows and strides, whether its buffer is one of the
host, and of which device it is. -/
structure MoeOut where
  ne0 : ℕ
  nb0 : ℕ
  nb1 : ℕ
  host : Bool
  device : Option ℕ
  deriving DecidableEq, Repr

/-- The pools with an exec context, and the devices of their backends. -/
structure Devices where
  exec : ℕ → Bool
  device : ℕ → ℕ

/-- The device targets: the pools of the rounds, but for the RAM. -/
def devTargets (D : Devices) (R : Routing) : Targets where
  pools := (((buildMixPlan R).rounds.filter fun r =>
    !(decide (r.pool = 0 ∨ r.width = 0 ∨ r.nActive = 0)) && D.exec r.pool).map MixRound.pool).dedup
  nodup := List.nodup_dedup _

def hasCpuRound (D : Devices) (R : Routing) : Bool :=
  (buildMixPlan R).rounds.any fun r => (targetOf (devTargets D R) r).isNone

def singleDevTarget (D : Devices) (R : Routing) : Bool :=
  decide ((devTargets D R).pools.length = 1) && !hasCpuRound D R

/-- One round of all tokens and slots. -/
def singleTarget (R : Routing) : Bool :=
  match (buildMixPlan R).rounds with
  | [r] => decide (r.nActive = R.nTokens ∧ r.width = R.nExpertUsed)
  | _ => false

/-- The columns of `moe_out` lie one behind the other, `d_out` floats each. -/
def contiguous (L : Layer) (m : MoeOut) : Bool := decide (m.nb0 = 4 ∧ m.nb1 = dOut L * 4)

def directOut (L : Layer) (R : Routing) (m : MoeOut) : Bool := singleTarget R && contiguous L m

def sameDev (D : Devices) (m : MoeOut) (pool : ℕ) : Bool := decide (m.device = some (D.device pool))

end LayerOutput
/-! The sizes that are fixed before the rounds of a layer are built: the graph of a target, and the
tables of a round, which are those of `CompactTwins` without the tensors (`same_appendChain`). Which
round needs how much of them. -/
namespace GraphCapacity

open ComputeGraph CompactTwins MixSplit MixExec Scatter Strided LayerOutput

/-- Why the round loop ends early: `twin_arr` or `gather_arr` is written past its end, the tensor
library aborts on a full graph, or the layer fails. -/
inductive Stop
  | twins | gathers | graph | failed
  deriving DecidableEq, Repr

inductive Node
  | twin (p : ℕ)
  | getRows (q : ℕ) | reshape (q : ℕ)
  | permute | cont | sumRows | cont2d
  | slotView (s : ℕ) | slotAdd (s : ℕ)
  | segView (i : ℕ) | segAcc (i : ℕ)
  deriving DecidableEq, Repr

/-- `bucket_build_t`: the keys of the round's tables, the target's graph, the twin made last. -/
structure Build where
  twins : List ℕ := []
  gathers : List ℕ := []
  nodes : List Node
  last : Option ℕ := none

namespace Build

/-- `ggml_build_forward_expand` with the nodes a tensor brings; the graph was made for 4096. -/
def expand (b : Build) (new : List Node) : Except Stop Build :=
  if b.nodes.length + new.length ≤ 4096 then .ok { b with nodes := b.nodes ++ new }
  else .error .graph

def twinPut (b : Build) (p : ℕ) : Except Stop Build :=
  if b.twins.length < 64 then .ok { b with twins := b.twins ++ [p], last := some p }
  else .error .twins

def gatherPut (b : Build) (q : ℕ) : Except Stop Build :=
  if b.gathers.length < 16 then .ok { b with gathers := b.gathers ++ [q] } else .error .gathers

/-- A leaf from the table, or a new one; the nodes of a copy enter the graph with its first
reader. -/
def gathered (b : Build) (q : ℕ) (copy : List Node) : Except Stop (Build × List Node) :=
  if q ∈ b.gathers then .ok (b, []) else (b.gatherPut q).map fun b => (b, copy)

end Build

section round

variable (L : Layer) (R : Routing) (r : MixRound) (dev : Bool)

/-- `bucket_gather_cur`: `GET_ROWS` and a reshape, or the leaf itself. -/
def gatherCur (q : ℕ) : List Node :=
  if TokFull R r ∧ (dev = false ∨ (L.shape q).nb2 = 4 * (L.shape q).ne0) then []
  else [.getRows q, .reshape q]

def gatherPerSlot (q : ℕ) : List Node :=
  if Direct R r dev (L.shape q) then [] else [.getRows q, .reshape q]

def extLeaf (b : Build) (q : ℕ) : Except Stop (Build × List Node) :=
  if (L.shape q).ne0 = 1 ∧ (L.shape q).ne1 = R.nExpertUsed then
    b.gathered q (gatherPerSlot L R r dev q)
  else .ok (b, [])

def srcLeaf (b : Build) (q : ℕ) : Except Stop (Build × List Node) :=
  if producer L.graph q ∈ b.twins then .ok (b, []) else extLeaf L R r dev b q

def srcLeaves : Build → List ℕ → Except Stop (Build × List Node)
  | b, [] => .ok (b, [])
  | b, q :: qs =>
      (srcLeaf L R r dev b q).bind fun x =>
        (srcLeaves x.1 qs).map fun y => (y.1, x.2 ++ y.2)

def curLeaf (b : Build) (cur : ℕ) : Except Stop (Build × List Node) :=
  if L.graph.op cur ≠ .none ∧ cur ∈ b.twins then .ok (b, [])
  else b.gathered cur (gatherCur L R r dev cur)

/-- The clone of `p` enters the graph behind what it reads, and then the table. -/
def addTwin (p : ℕ) (x : Build × List Node) : Except Stop Build :=
  (x.1.expand (x.2 ++ [.twin p])).bind fun b => b.twinPut p

/-- `append_mm_bucket`, the weight and its staged ids given. -/
def appendMm (b : Build) (p : ℕ) : Except Stop Build :=
  match (L.graph.tensor p).src with
  | [some _, some cur, _] => (curLeaf L R r dev b cur).bind (addTwin p)
  | _ => .ok b

/-- The operands of a clone that are not the ids of `GET_ROWS`. -/
def operands (p : ℕ) : List ℕ :=
  match L.graph.op p, (L.graph.tensor p).src with
  | .getRows, [some table, some _] => [table]
  | _, _ => (L.graph.tensor p).sources

def appendOp (b : Build) (p : ℕ) : Except Stop Build :=
  if L.replaced p then .ok b else (srcLeaves L R r dev b (operands L p)).bind (addTwin p)

def chainStep (b : Build) (p : ℕ) : Except Stop Build :=
  if isViewOp (L.graph.op p) then .ok b
  else if L.graph.op p = .mulMatId then appendMm L R r dev b p
  else appendOp L R r dev b p

/-- `append_bucket_chain_compact` on the graph of the round's target. -/
def appendChain (nodes : List Node) : Except Stop Build :=
  L.compute.foldlM (chainStep L R r dev) { nodes := nodes }

def twinShape (p : ℕ) : Shape :=
  match L.graph.op p, (L.graph.tensor p).src with
  | .mulMatId, some w :: _ => .packed (L.shape w).ne1 r.width r.nActive
  | _, _ => narrowed R r (L.shape p)

end round

/-- `append_expert_fold`: `SUM_ROWS` for small outputs, one addition a slot from 16 MiB on. -/
def foldNodes (weighted : Shape) : List Node :=
  if 2 ≤ weighted.ne1 ∧ 16 * 1024 * 1024 ≤ weighted.ne1 * weighted.ne0 * weighted.ne2 * 4 then
    .slotView 0 :: (List.range' 1 (weighted.ne1 - 1)).flatMap fun s => [.slotView s, .slotAdd s]
  else [.permute, .cont, .sumRows, .cont2d]

/-- One `ggml_acc` for every segment. -/
def scatterNodes (segs : List ScatterSeg) : List Node :=
  (segs.zipIdx.filter fun e => decide (e.1.len ≠ 0)).flatMap fun e => [.segView e.2, .segAcc e.2]

section layer

variable (L : Layer) (R : Routing) (moe : Option MoeOut) (devs : Targets)

/-- The last twin summed over its slots, and the sum's way into the accumulator. -/
def addResult (r : MixRound) (scatter : List Node) (b : Build) : Except Stop Build :=
  match b.last with
  | none => .error .failed
  | some p =>
      (b.expand (foldNodes (twinShape L R r p))).bind fun b =>
        if (twinShape L R r p).ne2 ≠ r.nActive then .error .failed else b.expand scatter

/-- One turn of the round loop; `gf` is the graph of every target. -/
def runRound (gf : Option ℕ → List Node) (r : MixRound) : Except Stop (Option ℕ → List Node) :=
  if r.width = 0 ∨ r.nActive = 0 then .ok gf
  else
    let τ := targetOf devs r
    let sp := buildScatterPlan (tRound (buildMixPlan R) r) R.nTokens
    if sp.order.length ≠ r.nActive then .error .failed
    else
      ((appendChain L R r τ.isSome (gf τ)).bind (addResult L R r
        (if moe.any (directOut L R) then [] else scatterNodes sp.segs))).map fun b =>
          Function.update gf τ b.nodes

/-- The round loop of `exec_layer_burst_chain_buckets`, from empty graphs. -/
def runRounds : Except Stop (Option ℕ → List Node) :=
  if (buildMixPlan R).rounds = [] then .error .failed
  else (buildMixPlan R).rounds.foldlM (runRound L R moe devs) fun _ => []

/-- No table and no graph overflows, whatever else ends the loop. -/
def Suffices : Prop := ∀ e, runRounds L R moe devs = .error e → e = .failed

end layer

end GraphCapacity
end StreamMoE
