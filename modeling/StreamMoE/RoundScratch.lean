import Mathlib.Data.List.Basic
import StreamMoE.CapacityLimits

/-! Requests that may carry a key: what is made for a key is made once, for the first of its requests. -/
namespace StreamMoE
namespace KeyedRequests

variable {κ β : Type*}

/-- What a request has made, with the key under which it is found again. -/
abbrev Request (κ β : Type*) := Option κ × List β

/-- The keys that are found, and all that was made. -/
structure Ledger (κ β : Type*) where
  keys : List κ := []
  made : List β := []
  deriving DecidableEq, Repr

variable [DecidableEq κ]

def Ledger.ask (T : Ledger κ β) : Request κ β → Ledger κ β
  | (none, new) => { T with made := T.made ++ new }
  | (some q, new) => if q ∈ T.keys then T else { keys := T.keys ++ [q], made := T.made ++ new }

/-- A key behind the others, unless it is one of them -/
def enter (ks : List κ) (q : κ) : List κ := if q ∈ ks then ks else ks ++ [q]

/-- What requests make when the keys `seen` are found. -/
def fresh : List κ → List (Request κ β) → List β
  | _, [] => []
  | seen, (none, new) :: rs => new ++ fresh seen rs
  | seen, (some q, new) :: rs => if q ∈ seen then fresh seen rs else new ++ fresh (seen ++ [q]) rs

@[simp] theorem ask_none (T : Ledger κ β) (new : List β) :
    T.ask (none, new) = { T with made := T.made ++ new } := rfl

theorem ask_some (T : Ledger κ β) (q : κ) (new : List β) : T.ask (some q, new) =
    if q ∈ T.keys then T else { keys := T.keys ++ [q], made := T.made ++ new } := rfl

theorem made_foldl_ask (rs : List (Request κ β)) : ∀ T : Ledger κ β,
    (rs.foldl Ledger.ask T).made = T.made ++ fresh T.keys rs := by
  induction rs with
  | nil => simp [fresh]
  | cons a rs ih =>
    intro T
    rw [List.foldl_cons, ih]
    rcases a with ⟨_ | q, new⟩
    · simp [fresh]
    · rw [ask_some]
      by_cases h : q ∈ T.keys
      · simp [fresh, h]
      · simp [fresh, h]

theorem keys_foldl_ask (rs : List (Request κ β)) : ∀ T : Ledger κ β,
    (rs.foldl Ledger.ask T).keys = (rs.filterMap Prod.fst).foldl enter T.keys := by
  induction rs with
  | nil => simp
  | cons a rs ih =>
    intro T
    rw [List.foldl_cons, ih]
    rcases a with ⟨_ | q, new⟩
    · simp
    · rw [ask_some]
      by_cases h : q ∈ T.keys
      · simp [enter, h]
      · simp [enter, h]

/-- What requests make is what their first occurrences stand for. -/
theorem fresh_map {α : Type*} (key : α → Option κ) (f : α → List β) (xs : List α) : ∀ seen : List κ,
    fresh seen (xs.map fun x => (key x, f x)) = (fresh seen (xs.map fun x => (key x, [x]))).flatMap f := by
  induction xs with
  | nil => simp [fresh]
  | cons x xs ih =>
    intro seen
    rw [List.map_cons, List.map_cons]
    cases hkey : key x with
    | none => simp [fresh, ih]
    | some q =>
      by_cases hq : q ∈ seen
      · simp [fresh, hq, ih]
      · simp [fresh, hq, ih]

end KeyedRequests
/-! The scratch of a layer while its rounds are built: `a32` hands out int32 entries one behind the
other, and what a device does not hold is staged for it. Both are sized before the first round. The
tables of a round are those of `GraphCapacity` (`same_tables`). -/
namespace RoundScratch

open ComputeGraph CompactTwins MixSplit MixExec Scatter Strided KeyedRequests
open GraphCapacity (twinShape)

/-- Entries of the index scratch, or bytes for the staging buffer of a pool. -/
inductive Use
  | index (n : ℕ)
  | stage (pool bytes : ℕ)
  deriving DecidableEq, Repr

/-- What the device of a pool holds: the buffer of a tensor, or a resident copy of the tensor. -/
structure Residence where
  sameDevice : ℕ → ℕ → Bool
  resident : ℕ → ℕ → Bool

def cells (r : MixRound) : ℕ := r.width * r.nActive

/-- `ggml_nbytes` of `n` rows of `d` floats, `nb` bytes apart. -/
def rowBytes (d n nb : ℕ) : ℕ := if d = 0 ∨ n = 0 then 0 else 4 * d + (n - 1) * nb

section round

variable (L : Layer) (R : Routing) (H : Residence) (r : MixRound) (τ : Option ℕ)

/-- `bucket_upload_leaf`: staged for a device, referenced by the CPU. -/
def uploadLeaf (bytes : ℕ) : List Use :=
  match τ with
  | none => []
  | some pool => [.stage pool bytes]

/-- `bucket_source_leaf`: a source on the device itself is referenced too. -/
def sourceLeaf (q bytes : ℕ) : List Use :=
  match τ with
  | none => []
  | some pool => if H.sameDevice pool q then [] else [.stage pool bytes]

/-- `bucket_gather_cur`: all columns of the source, and the tokens of the round unless these are all. -/
def gatherCur (q : ℕ) : List Use :=
  sourceLeaf H τ q (rowBytes (L.shape q).ne0 (L.shape q).ne2 (L.shape q).nb2) ++
    if TokFull R r ∧ (τ = none ∨ (L.shape q).nb2 = 4 * (L.shape q).ne0) then []
    else .index r.nActive :: uploadLeaf τ (4 * r.nActive)

/-- `bucket_gather_per_slot`: the flat source and the offsets of the cells, or the leaf itself. -/
def gatherPerSlot (q : ℕ) : List Use :=
  if Direct R r τ.isSome (L.shape q) then sourceLeaf H τ q (L.graph.nbytes q)
  else sourceLeaf H τ q (4 * span (L.shape q)) ++ .index (cells r) :: uploadLeaf τ (4 * cells r)

def wholeLeaf (q : ℕ) : List Use :=
  if τ.any fun pool => H.resident pool (producer L.graph q) then []
  else sourceLeaf H τ q (L.graph.nbytes q)

def PerSlot (q : ℕ) : Prop := (L.shape q).ne0 = 1 ∧ (L.shape q).ne1 = R.nExpertUsed

instance (q : ℕ) : Decidable (PerSlot L R q) := by
  unfold PerSlot
  infer_instance

/-- The tables of a round, with what the copies in them took. -/
structure Chain where
  twins : List ℕ := []
  gathers : Ledger ℕ Use := {}

def Chain.ask (st : Chain) (a : Request ℕ Use) : Chain := { st with gathers := st.gathers.ask a }

def Chain.twinPut (st : Chain) (p : ℕ) : Chain := { st with twins := st.twins ++ [p] }

def extLeaf (st : Chain) (q : ℕ) : Chain :=
  if PerSlot L R q then st.ask (some q, gatherPerSlot L R H r τ q) else st.ask (none, wholeLeaf L H τ q)

def srcLeaf (st : Chain) (q : ℕ) : Chain :=
  if producer L.graph q ∈ st.twins then st else extLeaf L R H r τ st q

def curLeaf (st : Chain) (cur : ℕ) : Chain :=
  if L.graph.op cur ≠ .none ∧ cur ∈ st.twins then st else st.ask (some cur, gatherCur L R H r τ cur)

/-- `append_mm_bucket`, the weight and its staged ids given. -/
def appendMm (st : Chain) (p : ℕ) : Chain :=
  match (L.graph.tensor p).src with
  | [some _, some cur, _] =>
      (curLeaf L R H r τ (st.ask (none, uploadLeaf τ (4 * cells r))) cur).twinPut p
  | _ => st

/-- The operands, with their places among the sources. -/
def slots (p : ℕ) : List (ℕ × ℕ) :=
  (L.graph.tensor p).src.zipIdx.filterMap fun e => e.1.map fun q => (e.2, q)

/-- The second source of `GET_ROWS`, which is I32, is replaced by the ids of the round. -/
def IsIds (p : ℕ) (e : ℕ × ℕ) : Prop := L.graph.op p = .getRows ∧ e.1 = 1

instance (p : ℕ) (e : ℕ × ℕ) : Decidable (IsIds L p e) := by
  unfold IsIds
  infer_instance

def operandLeaf (p : ℕ) (st : Chain) (e : ℕ × ℕ) : Chain :=
  if IsIds L p e then st.ask (none, uploadLeaf τ (4 * cells r)) else srcLeaf L R H r τ st e.2

def appendOp (st : Chain) (p : ℕ) : Chain :=
  if L.replaced p then st else ((slots L p).foldl (operandLeaf L R H r τ p) st).twinPut p

def chainStep (st : Chain) (p : ℕ) : Chain :=
  if isViewOp (L.graph.op p) then st
  else if L.graph.op p = .mulMatId then appendMm L R H r τ st p
  else appendOp L R H r τ st p

/-- `append_bucket_chain_compact`, its tables taken for large enough. -/
def appendChain : Chain := L.compute.foldl (chainStep L R H r τ) {}

/-- The last twin is folded to one column for every token of the round. -/
def Folds (st : Chain) : Prop := ∃ p ∈ st.twins.getLast?, (twinShape L R r p).ne2 = r.nActive

instance (st : Chain) : Decidable (Folds L R r st) := by
  unfold Folds
  infer_instance

end round

section layer

variable (L : Layer) (R : Routing) (H : Residence) (devs : Targets)

/-- What the round loop takes until it ends or fails: the tokens and the ids of every round, and its
chain. -/
def roundsUse : List MixRound → List Use
  | [] => []
  | r :: rs =>
      if r.width = 0 ∨ r.nActive = 0 then roundsUse rs
      else if (buildScatterPlan (tRound (buildMixPlan R) r) R.nTokens).order.length ≠ r.nActive then
        [.index r.nActive]
      else
        let st := appendChain L R H r (targetOf devs r)
        [.index r.nActive, .index (cells r), .index (cells r)] ++ st.gathers.made ++
          if Folds L R r st then roundsUse rs else []

def layerUse : List Use := roundsUse L R H devs (buildMixPlan R).rounds

def builtRounds : List MixRound :=
  (buildMixPlan R).rounds.filter fun r => !decide (r.width = 0 ∨ r.nActive = 0)

/-- The distinct producers outside the closure. -/
def externalLeaves : List ℕ :=
  ((L.compute.flatMap fun p => (L.graph.tensor p).sources.map (producer L.graph)).filter
    fun q => decide (q ∉ L.compute)).dedup

def nPerSlot : ℕ := max 2 ((externalLeaves L).filter fun q => decide (PerSlot L R q)).length

def i32Size : ℕ :=
  ((builtRounds R).map fun r => 2 * cells r + 2 * r.nActive + nPerSlot L R * cells r).sum + 64

/-- The longest activation that no operation computes. -/
def dIn : ℕ :=
  (L.compute.map fun p =>
    if L.graph.op p = .mulMatId then
      match (L.graph.tensor p).src[1]?.join with
      | some cur => if L.graph.op cur = .none then (L.shape cur).ne0 else 0
      | none => 0
    else 0).foldl max 0

/-- The leaves that are taken whole, as far as the estimate sees them. -/
def extRef : ℕ :=
  (L.compute.map fun p =>
    if L.graph.op p = .mulMatId ∨ L.replaced p = true then 0
    else
      ((L.graph.tensor p).sources.map fun q =>
        if producer L.graph q ∈ L.compute ∨ PerSlot L R (producer L.graph q) then 0
        else L.graph.nbytes (producer L.graph q) + 4096).sum).sum

def stageEst : ℕ :=
  32 * 1024 * 1024 +
    ((builtRounds R).map fun r => dIn L * R.nTokens * 4 + R.nExpertUsed * R.nTokens * 4 + R.nExpert * 4 +
      (cells r * 4 * 4 + 4096)).sum +
    extRef L R * max (buildMixPlan R).rounds.length 1

def indexes (us : List Use) : List ℕ :=
  us.filterMap fun u => match u with
    | .index n => some n
    | .stage _ _ => none

def uploads (pool : ℕ) (us : List Use) : List ℕ :=
  us.filterMap fun u => match u with
    | .index _ => none
    | .stage pool' bytes => if pool' = pool then some bytes else none

/-- `a32`: the ranges of the bump allocator. -/
def handOut : ℕ → List ℕ → List (ℕ × ℕ)
  | _, [] => []
  | used, n :: ns => (used, n) :: handOut (used + n) ns

def align64 (x : ℕ) : ℕ := (x + 63) / 64 * 64

def stageUsed (bytes : List ℕ) : ℕ := bytes.foldl (fun used n => align64 used + n) 0

/-- Every range of indices lies inside the scratch, and behind the ranges before it. -/
structure IndexKept : Prop where
  inside : ∀ a ∈ handOut 0 (indexes (layerUse L R H devs)), a.1 + a.2 ≤ i32Size L R
  apart : (handOut 0 (indexes (layerUse L R H devs))).Pairwise fun a b => a.1 + a.2 ≤ b.1

/-- No upload for a device ends behind the estimate. -/
def StageFits : Prop :=
  ∀ pool ∈ devs.pools, ∀ bytes, bytes <+: uploads pool (layerUse L R H devs) → stageUsed bytes ≤ stageEst L R

end layer

end RoundScratch
end StreamMoE
