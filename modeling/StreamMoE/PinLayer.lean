import Mathlib.Data.Int.Notation
import StreamMoE.SchedEnv

/-! `expert_scheduler::pin_layer` as a program of the executing thread: every access to a slot
word, a directory entry, the request queue or the batch is one step. -/
namespace StreamMoE
namespace PinLayer

open AtomicProg SlotWord SchedConfig Sched

structure Handle where
  slot : ℕ
  gen : ℕ
  layer : ℕ
  expert : ℕ
  pool : ℕ
  deriving DecidableEq, Repr

inductive Failure
  | badLayer | outCap | loadFailed | notFound
  deriving DecidableEq, Repr

/-- What the call returns: a count with the handles written to `out`, or -1. -/
inductive PinResult
  | pinned (n : ℕ) (out : List Handle)
  | failed (why : Failure)
  deriving DecidableEq, Repr

def PinResult.code : PinResult → ℤ
  | .pinned n _ => n
  | .failed _ => -1

/-- `scan` of the directory by a thread that does not write it: the state of an entry is read
before its slot. -/
def scanPools (layer expert : ℕ) : List ℕ → Prog Sys (Option (ℕ × ℕ))
  | [] => .ret none
  | p :: ps => do
      let s ← Prog.get
      if (s.dir ⟨layer, expert, p⟩).state = .ready then do
        let s ← Prog.get
        match (s.dir ⟨layer, expert, p⟩).slot with
        | some i => .ret (some (i, p))
        | none => scanPools layer expert ps
      else scanPools layer expert ps

def nextToken (s : Sys) : Sys := { s with token := (s.token + 1) % 2 ^ 64 }

def touchLastUsed (layer expert token : ℕ) (s : Sys) : Sys :=
  { s with
    lastUsed := Function.update s.lastUsed layer
      (Function.update (s.lastUsed layer) expert token) }

def resetBatch (b : ℕ) (s : Sys) : Sys :=
  { s with batch := Function.update s.batch b ⟨0, false⟩ }

def push (r : Request) (s : Sys) : Option Sys :=
  if s.requests.length < requestCapacity then some { s with requests := s.requests ++ [r] }
  else none

variable (C : Config) (b layer : ℕ)

/-- The loop over the needed experts: the handles of those that are resident and the experts
that are missing. -/
def pinHits : List ℕ → List Handle → List ℕ → Prog Sys (List Handle × List ℕ)
  | [], out, missing => .ret (out, missing)
  | e :: es, out, missing => do
      match ← scanPools layer e (List.range C.nPools) with
      | none => pinHits es out (missing ++ [e])
      | some (i, pool) => do
          let s ← Prog.getModify fun s => s.tryPin (.batch (some b)) i
          match SlotWord.tryPin (s.word i) with
          | none => pinHits es out (missing ++ [e])
          | some w => do
              let t ← Prog.getModify nextToken
              Prog.modify (touchLastUsed layer e ((t.token + 1) % 2 ^ 64))
              pinHits es (out ++ [⟨i, slotWordGeneration w, layer, e, pool⟩]) missing

def unpinHandles : List Handle → Prog Sys Unit
  | [] => .ret ()
  | h :: hs => do
      Prog.modify fun s =>
        if h.slot < C.geometry.numSlots then s.unpin (.batch (some b)) h.slot else s
      unpinHandles hs

/-- The scan for the slots the scheduler pinned. -/
def collect (want : ℕ) : List ℕ → List Handle → Prog Sys PinResult
  | [], out => .ret (.pinned want out)
  | e :: es, out => do
      match ← scanPools layer e (List.range C.nPools) with
      | none => do
          unpinHandles C b out
          .ret (.failed .notFound)
      | some (i, pool) => do
          let s ← Prog.get
          collect want es (out ++ [⟨i, slotWordGeneration (s.word i), layer, e, pool⟩])

def requestFor (missing : List ℕ) : Request :=
  { layer := layer, nLoadTarget := missing.length, batch := some b,
    needed := fun e => decide (e ∈ missing) }

/-- `batch_await_t::wait` leaves with the count reached or the failure flag seen. -/
def waitBatch (target : ℕ) : Prog Sys Unit :=
  Prog.await fun s => decide (target ≤ (s.batch b).done) || (s.batch b).failed

def pinLayer (needed : ℕ → Bool) (outCap : ℕ) : Prog Sys PinResult :=
  let want := (List.range C.topo.nExpert).filter needed
  if C.topo.nLayer ≤ layer then .ret (.failed .badLayer)
  else if want.length = 0 then .ret (.pinned 0 [])
  else if outCap < want.length then .ret (.failed .outCap)
  else do
    let (out, missing) ← pinHits C b layer want [] []
    if missing.length = 0 then .ret (.pinned want.length out)
    else do
      Prog.modify (resetBatch b)
      Prog.act (push (requestFor b layer missing)) fun _ => .ret ()
      waitBatch b missing.length
      let s ← Prog.get
      if (s.batch b).failed then do
        unpinHandles C b out
        .ret (.failed .loadFailed)
      else collect C b layer want.length missing out

section rules

variable {γ : Type} {K : Contract Sys γ} {φ : Sys × γ → Prop} {x : Sys × γ} {C : Config} {b layer : ℕ}

theorem rule_scanPools (hφ : Stable K φ) (expert : ℕ) (ps : List ℕ) (hx : K.inv x) (h : φ x) :
    Safe K (scanPools layer expert ps) (fun _ => φ) x := by
  induction ps generalizing x with
  | nil => exact Safe.ret hφ hx h fun _ _ hy => hy
  | cons p ps ih =>
    refine Safe.get hφ hx h ?_
    intro y hy hφy
    split
    · refine Safe.get hφ hy hφy ?_
      intro z hz hφz
      split
      · exact Safe.ret hφ hz hφz fun _ _ hu => hu
      · exact ih hz hφz
    · exact ih hy hφy

theorem rule_unpinHandles (hφ : Stable K φ)
    (hunpin : ∀ y (a : Handle), K.inv y → φ y →
      let s := if a.slot < C.geometry.numSlots then y.1.unpin (.batch (some b)) a.slot else y.1
      ∃ g, K.guar y (s, g) ∧ φ (s, g))
    (hs : List Handle) (hx : K.inv x) (h : φ x) : Safe K (unpinHandles C b hs) (fun _ => φ) x := by
  induction hs generalizing x with
  | nil => exact Safe.ret hφ hx h fun _ _ hy => hy
  | cons a hs ih =>
    refine Safe.modify hφ hx h ?_
    intro y hy hφy
    obtain ⟨g, hguar, hnext⟩ := hunpin y a hy hφy
    exact ⟨g, hguar, ih (K.guar_inv y _ hy hguar) hnext⟩

/-- The last scan reads the slots, or gives the handles back. -/
theorem rule_collect (hφ : Stable K φ)
    (hunpin : ∀ y (a : Handle), K.inv y → φ y →
      let s := if a.slot < C.geometry.numSlots then y.1.unpin (.batch (some b)) a.slot else y.1
      ∃ g, K.guar y (s, g) ∧ φ (s, g))
    (want : ℕ) (es : List ℕ) {out : List Handle} (hx : K.inv x) (h : φ x) :
    Safe K (collect C b layer want es out) (fun _ => φ) x := by
  induction es generalizing x out with
  | nil => exact Safe.ret hφ hx h fun _ _ hy => hy
  | cons e es ih =>
    refine Safe.bind hx (Safe.mono ?_ (rule_scanPools hφ e (List.range C.nPools) hx h))
    intro r y hy hφy
    cases r with
    | none =>
      refine Safe.bind hy (Safe.mono ?_ (rule_unpinHandles hφ hunpin out hy hφy))
      intro _ z hz hφz
      exact Safe.ret hφ hz hφz fun _ _ hu => hu
    | some ip =>
      refine Safe.get hφ hy hφy ?_
      intro z hz hφz
      exact ih hz hφz

end rules

end PinLayer
end StreamMoE
