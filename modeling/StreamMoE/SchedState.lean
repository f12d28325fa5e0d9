import Mathlib.Logic.Function.Basic
import StreamMoE.SchedConfig
import StreamMoE.SlotWord

/-! The state of `expert_scheduler`: slot words, expert directory, load ring, move queues,
the active request and the cells of the batches that wait for it. -/
namespace StreamMoE
namespace Sched

open SlotWord SchedConfig

inductive ExpertState
  | absent | loading | ready | movingOut | movingIn | failed
  deriving DecidableEq, Repr

/-- Index of a directory entry. -/
structure Key where
  layer : ℕ
  expert : ℕ
  pool : ℕ
  deriving DecidableEq, Repr

/-- `slot` is `none` for `SLOT_UNASSIGNED`. -/
structure DirEntry where
  state : ExpertState
  slot : Option ℕ
  deriving DecidableEq, Repr

structure LoadTask where
  layer : ℕ
  expert : ℕ
  pool : ℕ
  slot : ℕ
  pending : ℕ
  failed : Bool
  deriving DecidableEq, Repr

structure MoveTask where
  layer : ℕ
  expert : ℕ
  srcPool : ℕ
  srcSlot : ℕ
  dstPool : ℕ
  dstSlot : ℕ
  deriving DecidableEq, Repr

/-- `batch` names the `batch_await_t` behind `batch_ready` and `failed`. -/
structure Request where
  layer : ℕ
  nLoadTarget : ℕ
  batch : Option ℕ
  needed : ℕ → Bool

structure Batch where
  done : ℕ
  failed : Bool
  deriving DecidableEq, Repr

structure Active where
  present : Bool
  layer : ℕ
  stillNeed : ℕ → Bool
  nLeft : ℕ
  pinnedSlots : List ℕ
  batch : Option ℕ
  stallArmed : Bool

def Active.cleared : Active :=
  { present := false, layer := 0, stillNeed := fun _ => false, nLeft := 0, pinnedSlots := [],
    batch := none, stallArmed := false }

/-- No expert below `n` is still needed and none is left to count. -/
def Active.allSettled (A : Active) (n : ℕ) : Bool :=
  A.nLeft == 0 && (List.range n).all fun e => !A.stillNeed e

/-- Who holds a pin: the scheduler on behalf of the active request, the thread that waited
for a batch, or a thread that pinned by itself. -/
inductive Holder
  | scheduler
  | batch (id : Option ℕ)
  | thread (id : ℕ)
  deriving DecidableEq, Repr

/-- A pin that was taken and not given back: the generation `try_pin` returned and the bytes
the slot held then. -/
structure Pin where
  holder : Holder
  slot : ℕ
  gen : ℕ
  content : Option (ℕ × ℕ)
  deriving DecidableEq, Repr

/-- `content` names the expert whose bytes a slot holds, if it holds one; `pins` is the record
of the pins that are out. The flag of `moving` tells that the worker has copied the bytes. -/
structure Sys where
  word : ℕ → Word
  dir : Key → DirEntry
  lastUsed : ℕ → ℕ → ℕ
  token : ℕ
  content : ℕ → Option (ℕ × ℕ)
  loadFree : List ℕ
  loadInUse : ℕ → Bool
  load : ℕ → LoadTask
  moveSubmit : List MoveTask
  moving : Option (MoveTask × Bool)
  moveDone : List MoveTask
  active : Active
  requests : List Request
  batch : ℕ → Batch
  pins : List Pin

def LoadTask.key (t : LoadTask) : Key := ⟨t.layer, t.expert, t.pool⟩

def MoveTask.dstKey (m : MoveTask) : Key := ⟨m.layer, m.expert, m.dstPool⟩

def absentEntry : DirEntry := ⟨.absent, none⟩

def initialSys (C : Config) : Sys :=
  { word := fun _ => slotWord SlotState.empty.code 0 0
    dir := fun _ => absentEntry
    lastUsed := fun _ _ => 0
    token := 0
    content := fun _ => none
    loadFree := List.range C.maxInFlight
    loadInUse := fun _ => false
    load := fun _ => ⟨0, 0, 0, 0, 0, false⟩
    moveSubmit := []
    moving := none
    moveDone := []
    active := Active.cleared
    requests := []
    batch := fun _ => ⟨0, false⟩
    pins := [] }

namespace Sys

/-- `transition` stores the slot before the state and readers load the state first: one step. -/
def setDir (s : Sys) (k : Key) (st : ExpertState) (slot : Option ℕ) : Sys :=
  { s with dir := Function.update s.dir k ⟨st, slot⟩ }

def setWord (s : Sys) (i : ℕ) (w : Word) : Sys := { s with word := Function.update s.word i w }

/-- READY-only lookup in one pool. -/
def find (s : Sys) (k : Key) : Option ℕ := if (s.dir k).state = .ready then (s.dir k).slot else none

/-- The first pool with a READY copy, and its slot. -/
def scan (s : Sys) (nPools layer expert : ℕ) : Option (ℕ × ℕ) :=
  (List.range nPools).findSome? fun p => (s.find ⟨layer, expert, p⟩).map fun i => (i, p)

def tryPin (s : Sys) (h : Holder) (i : ℕ) : Sys :=
  match SlotWord.tryPin (s.word i) with
  | none => s
  | some w =>
      { s.setWord i w with
        pins := { holder := h, slot := i, gen := slotWordGeneration w, content := s.content i } ::
          s.pins }

def unpin (s : Sys) (h : Holder) (i : ℕ) : Sys :=
  { s.setWord i (SlotWord.unpin (s.word i)) with
    pins := s.pins.eraseP fun r => r.holder == h && r.slot == i }

def beginEvict (s : Sys) (i : ℕ) : Sys :=
  match SlotWord.beginEvict (s.word i) with
  | none => s
  | some w => s.setWord i w

def beginReload (s : Sys) (i : ℕ) : Sys := s.setWord i (SlotWord.beginReload (s.word i))

def releaseToEmpty (s : Sys) (i : ℕ) : Sys := s.setWord i (SlotWord.releaseToEmpty (s.word i))

def markReady (s : Sys) (i : ℕ) : Sys := s.setWord i (SlotWord.markReady (s.word i))

def markFailed (s : Sys) (i : ℕ) : Sys := s.setWord i (SlotWord.markFailed (s.word i))

def activeClearState (s : Sys) : Sys := { s with active := Active.cleared }

/-- The pins of the active request now belong to the thread that waits for the batch. -/
def handOver (s : Sys) : Sys :=
  { s with
    pins := s.pins.map fun r =>
      if r.holder = .scheduler then { r with holder := .batch s.active.batch } else r }

def activeFinish (s : Sys) : Sys := activeClearState s.handOver

/-- `failed` is stored and the bookkeeping cleared. -/
def failBatch (s : Sys) : Sys :=
  activeClearState
    (match s.active.batch with
    | none => s
    | some b => { s with batch := Function.update s.batch b { s.batch b with failed := true } })

/-- One `fetch_add` on the batch word. The pins change hands with the count that lets the thread
that waits go on; `n` bounds the experts. -/
def bumpBatch (s : Sys) (n : ℕ) : Sys :=
  let t := if s.active.allSettled n then s.handOver else s
  match s.active.batch with
  | none => t
  | some b =>
      { t with
        batch := Function.update s.batch b
          { s.batch b with done := ((s.batch b).done + 1) % 2 ^ 32 } }

/-- The pin of a settled expert with the bookkeeping of the scheduler thread. -/
def settleStep (s : Sys) (e i : ℕ) : Sys :=
  match SlotWord.tryPin (s.word i) with
  | none => s
  | some _ =>
      { s.tryPin .scheduler i with
        active :=
          { s.active with
            stillNeed := Function.update s.active.stillNeed e false
            pinnedSlots := s.active.pinnedSlots ++ [i]
            nLeft := s.active.nLeft - 1
            stallArmed := if s.active.nLeft = 0 then s.active.stallArmed else false } }

/-- The first lines of `active_register`. -/
def activeInit (s : Sys) (r : Request) : Sys :=
  { s with
    active :=
      { present := true, layer := r.layer, stillNeed := r.needed, nLeft := r.nLoadTarget,
        pinnedSlots := [], batch := r.batch, stallArmed := false } }

def popRequest (s : Sys) : Sys := { s with requests := s.requests.tail }

def armStall (s : Sys) (b : Bool) : Sys := { s with active := { s.active with stallArmed := b } }

/-- The device reports one request of a load that is still pending. The report is the last
one when no request is left; a load without a failure has then filled its slot. -/
def takeEvent (s : Sys) (idx : ℕ) (ok : Bool) : Option Sys :=
  let t := s.load idx
  if t.pending = 0 then none
  else
    some
      { s with
        load := Function.update s.load idx
          { t with pending := t.pending - 1, failed := t.failed || !ok }
        content := if t.pending = 1 ∧ (t.failed || !ok) = false then
          Function.update s.content t.slot (some (t.layer, t.expert)) else s.content }

def freeTask (s : Sys) (idx : ℕ) : Sys :=
  { s with loadFree := s.loadFree ++ [idx], loadInUse := Function.update s.loadInUse idx false }

def popMove (s : Sys) : Sys := { s with moveDone := s.moveDone.tail }

def pushMove (s : Sys) (m : MoveTask) : Sys := { s with moveSubmit := s.moveSubmit ++ [m] }

/-- Moves whose control-plane tail has not begun. -/
def moves (s : Sys) : List MoveTask :=
  s.moveDone ++ ((s.moving.map Prod.fst).toList ++ s.moveSubmit)

end Sys

/-- The slices submitted from slice `i` on: their number, and whether one was refused or has no
column to go to. -/
def submitSlices (accept : ℕ → Bool) : ℕ → ℕ → ℕ × Bool
  | 0, _ => (0, false)
  | n + 1, i =>
      if accept i then ((submitSlices accept n (i + 1)).1 + 1, (submitSlices accept n (i + 1)).2)
      else (0, true)

/-- `start_async_load` takes the last free element and gives it back when no slice was
submitted. The element is private to the scheduler thread until the device reports. -/
def startLoad (C : Config) (accept : ℕ → Bool) (i layer expert : ℕ) (s : Sys) : Sys :=
  match s.loadFree.getLast? with
  | none => s
  | some idx =>
      let r := submitSlices accept (C.topo.numTensors layer expert) 0
      let pool := ((PoolGeometry.subpoolOfSlot C.geometry i).map PoolGeometry.Subpool.pool).getD 0
      let t : LoadTask :=
        { layer := layer, expert := expert, pool := pool, slot := i, pending := r.1,
          failed := r.2 }
      if r.1 = 0 then { s with load := Function.update s.load idx t }
      else
        { s with
          loadFree := s.loadFree.dropLast
          loadInUse := Function.update s.loadInUse idx true
          load := Function.update s.load idx t }

end Sched
end StreamMoE
