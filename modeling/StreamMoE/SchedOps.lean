import Mathlib.Data.Rat.Init
import StreamMoE.AtomicProg
import StreamMoE.SchedState

/-! The operations of the scheduler thread as programs: every access to data that another
thread uses is one step. -/
namespace StreamMoE
namespace Sched

open AtomicProg SlotWord SchedConfig PoolGeometry

/-- What one operation meets: the eviction score of an expert by recency, the answers of
`submit_batch` for its loads, and whether the stall window has passed. -/
structure Oracle where
  score : ℕ → ℕ → ℕ → Rat
  accept : ℕ → ℕ → ℕ → Bool
  expired : Bool

def transition (k : Key) (st : ExpertState) (slot : Option ℕ) : Prog Sys Unit :=
  .modify fun s => s.setDir k st slot

/-- The free-slot loop over `n` slots from slot `i`. -/
def findEmpty : ℕ → ℕ → Prog Sys (Option ℕ)
  | 0, _ => .ret none
  | n + 1, i => do
      let s ← Prog.get
      if slotWordState (s.word i) = SlotState.empty.code then .ret (some i) else findEmpty n (i + 1)

/-- The group's layers as a ring from `layer` downwards. -/
def ringLayers (layers : List ℕ) (layer : ℕ) : Option (List ℕ) :=
  if layer ∈ layers then
    some ((List.range layers.length).map fun k =>
      layers.getD ((layers.idxOf layer + layers.length - k) % layers.length) 0)
  else none

/-- An evictable expert of a layer: its slot, if it passes every test of the scan. -/
def evictable (s : Sys) (sp : Subpool) (pool layer expert : ℕ) (allowFresh : Bool) : Option ℕ :=
  match s.find ⟨layer, expert, pool⟩ with
  | none => none
  | some i =>
      if i < sp.slotBegin ∨ sp.slotBegin + sp.nSlots ≤ i then none
      else if slotWordState (s.word i) ≠ SlotState.ready.code ∨ slotWordRefcount (s.word i) ≠ 0 then
        none
      else if allowFresh = false ∧ s.lastUsed layer expert = 0 then none
      else some i

/-- The lowest score of one layer; `best` is the candidate so far. -/
def searchLayer (o : Oracle) (cur : ℕ) (sp : Subpool) (pool : ℕ) (allowFresh : Bool) (layer : ℕ) :
    List ℕ → Option (Rat × ℕ × ℕ) → Prog Sys (Option (ℕ × ℕ))
  | [], best => .ret (best.map Prod.snd)
  | e :: es, best => do
      let s ← Prog.get
      match evictable s sp pool layer e allowFresh with
      | none => searchLayer o cur sp pool allowFresh layer es best
      | some i =>
          let score := o.score layer e (cur - s.lastUsed layer e)
          if best.all fun b => decide (score < b.1) then
            searchLayer o cur sp pool allowFresh layer es (some (score, i, e))
          else searchLayer o cur sp pool allowFresh layer es best

/-- The first layer of the ring with a candidate: slot, layer and expert of the victim. -/
def searchRing (o : Oracle) (nExpert cur : ℕ) (sp : Subpool) (pool : ℕ) (allowFresh : Bool) :
    List ℕ → Prog Sys (Option (ℕ × ℕ × ℕ))
  | [] => .ret none
  | layer :: layers => do
      match ← searchLayer o cur sp pool allowFresh layer (List.range nExpert) none with
      | some (i, e) => .ret (some (i, layer, e))
      | none => searchRing o nExpert cur sp pool allowFresh layers

variable (C : Config) (o : Oracle)

/-- Fresh experts are candidates only in the second pass. -/
def findVictim (sp : Subpool) (gidx layer pool : ℕ) : Prog Sys (Option (ℕ × ℕ × ℕ)) := do
  let s ← Prog.get
  match ringLayers ((C.topo.groups[gidx]?.map Group.layers).getD []) layer with
  | none => .ret none
  | some ring => do
      match ← searchRing o C.topo.nExpert s.token sp pool false ring with
      | some v => .ret (some v)
      | none => searchRing o C.topo.nExpert s.token sp pool true ring

/-- The column checks of `submit_move`. -/
def moveCols (src dst : ℕ) : Bool :=
  match subpoolOfSlot C.geometry src, subpoolOfSlot C.geometry dst with
  | some ssp, some dsp =>
      ssp.group == dsp.group && ssp.cols.length == dsp.cols.length &&
        (ssp.cols.zip dsp.cols).all fun c =>
          c.1.stride == c.2.stride && colSlice ssp c.1 src != 0 && colSlice dsp c.2 dst != 0
  | _, _ => false

def submitMove (m : MoveTask) : Prog Sys Bool :=
  if moveCols C m.srcSlot m.dstSlot then do
    Prog.modify fun s => s.pushMove m
    .ret true
  else .ret false

/-- The demotion of a victim from a device region: whether its move was submitted.
`reserve` finds a slot in main memory. -/
def demote (reserve : ℕ → ℕ → Prog Sys (Option ℕ)) (sp : Subpool) (v vLayer vExpert : ℕ) :
    Prog Sys Bool :=
  match ramSubpool C sp.group with
  | none => .ret false
  | some rsp =>
      if rsp.expertSize = sp.expertSize ∧ rsp.cols.length = sp.cols.length then do
        match ← reserve vLayer vExpert with
        | none => .ret false
        | some dst => do
            let ok ← submitMove C
              { layer := vLayer, expert := vExpert, srcPool := sp.pool, srcSlot := v,
                dstPool := 0, dstSlot := dst }
            if ok then do
              transition ⟨vLayer, vExpert, 0⟩ .movingIn (some dst)
              .ret true
            else do
              transition ⟨vLayer, vExpert, 0⟩ .absent none
              Prog.modify fun s => s.releaseToEmpty dst
              .ret false
      else .ret false

/-- The victim's slot for the new expert, unless the slot waits for a demotion. -/
def evict (reserve : ℕ → ℕ → Prog Sys (Option ℕ)) (sp : Subpool) (layer expert v vLayer vExpert : ℕ) :
    Prog Sys (Option ℕ) := do
  let s ← Prog.getModify fun s => s.beginEvict v
  if (SlotWord.beginEvict (s.word v)).isNone then .ret none
  else do
    transition ⟨vLayer, vExpert, sp.pool⟩ .absent none
    Prog.await fun s => slotWordRefcount (s.word v) == 0
    let moved ← if sp.pool = 0 then .ret false else demote C reserve sp v vLayer vExpert
    if moved then .ret none
    else do
      Prog.modify fun s => s.beginReload v
      transition ⟨layer, expert, sp.pool⟩ .loading (some v)
      .ret (some v)

/-- `alloc_or_evict` with the call it makes to itself for pool 0 as a parameter. -/
def allocWith (reserve : ℕ → ℕ → Prog Sys (Option ℕ)) (layer expert pool : ℕ) :
    Prog Sys (Option ℕ) :=
  match groupOf C layer with
  | none => .ret none
  | some gidx =>
      match regionOf C pool gidx with
      | none => .ret none
      | some sp => do
          match ← findEmpty sp.nSlots sp.slotBegin with
          | some i => do
              transition ⟨layer, expert, pool⟩ .loading (some i)
              Prog.modify fun s => s.beginReload i
              .ret (some i)
          | none => do
              match ← findVictim C o sp gidx layer pool with
              | none => .ret none
              | some (v, vLayer, vExpert) => evict C reserve sp layer expert v vLayer vExpert

/-- A region of pool 0 has no level below it, so its evictions reserve nothing. -/
def allocRam (layer expert : ℕ) : Prog Sys (Option ℕ) :=
  allocWith C o (fun _ _ => .ret none) layer expert 0

def allocOrEvict (layer expert pool : ℕ) : Prog Sys (Option ℕ) :=
  allocWith C o (allocRam C o) layer expert pool

/-- The source's recursion. -/
theorem allocOrEvict_eq (layer expert pool : ℕ) :
    allocOrEvict C o layer expert pool =
      allocWith C o (fun l e => allocOrEvict C o l e 0) layer expert pool := by
  have h₀ : ∀ r r' l e, allocWith C o r l e 0 = allocWith C o r' l e 0 := by
    intro r r' l e
    unfold allocWith
    split
    · rfl
    · split
      · rfl
      · rename_i sp hsp
        have hpool : sp.pool = 0 := (regionOf_spec C hsp).2.1
        have hevict : ∀ v vl ve, evict C r sp l e v vl ve = evict C r' sp l e v vl ve := by
          intro v vl ve
          simp only [evict, hpool, if_true]
        simp only [hevict]
  have hram : allocRam C o = fun l e => allocOrEvict C o l e 0 := by
    funext l e
    exact h₀ _ _ l e
  rw [allocOrEvict, ← hram]

def startAsyncLoad (i layer expert : ℕ) : Prog Sys (Option ℕ) := do
  let s ← Prog.getModify (startLoad C (o.accept layer expert) i layer expert)
  .ret (s.loadFree.getLast?.bind fun idx =>
    if (submitSlices (o.accept layer expert) (C.topo.numTensors layer expert) 0).1 = 0 then none
    else some idx)

def unpinAll : List ℕ → Prog Sys Unit
  | [] => .ret ()
  | i :: is => do
      Prog.modify fun s => if i < C.geometry.numSlots then s.unpin .scheduler i else s
      unpinAll is

/-- Every pin taken for the active request is released before `failed` is stored. -/
def activeFail : Prog Sys Unit := do
  let s ← Prog.get
  unpinAll C s.active.pinnedSlots
  Prog.modify Sys.failBatch

def activeSettle (layer expert i : ℕ) : Prog Sys Unit := do
  let s ← Prog.get
  if s.active.present = true ∧ layer = s.active.layer ∧ s.active.stillNeed expert = true then do
    let s ← Prog.getModify fun s => s.settleStep expert i
    if (SlotWord.tryPin (s.word i)).isNone ∨ s.active.nLeft = 0 then activeFail C
    else Prog.modify fun s =>
      if s.active.nLeft = 0 then (s.bumpBatch C.topo.nExpert).activeFinish
      else s.bumpBatch C.topo.nExpert
  else .ret ()

/-- The triage loop of `active_register`; false when it gave up. -/
def triage : List ℕ → Prog Sys Bool
  | [] => .ret true
  | e :: es => do
      let s ← Prog.get
      if s.active.stillNeed e then
        match s.scan C.nPools s.active.layer e with
        | none => triage es
        | some (i, _) => do
            let s ← Prog.get
            if slotWordState (s.word i) ≠ SlotState.ready.code then triage es
            else do
              let s ← Prog.getModify fun s => s.settleStep e i
              if (SlotWord.tryPin (s.word i)).isNone then triage es
              else if s.active.nLeft = 0 then do
                activeFail C
                .ret false
              else do
                Prog.modify fun s => s.bumpBatch C.topo.nExpert
                triage es
      else triage es

def activeRegister (r : Request) : Prog Sys Unit := do
  Prog.modify fun s => s.activeInit r
  let ok ← triage C (List.range C.topo.nExpert)
  if ok then Prog.modify fun s => if s.active.nLeft = 0 then s.activeFinish else s
  else .ret ()

def anyPool (s : Sys) (layer expert : ℕ) (q : ExpertState → Bool) : Bool :=
  (List.range C.nPools).any fun p => q (s.dir ⟨layer, expert, p⟩).state

/-- The device region of the group first, then main memory. -/
def allocFor (gidx layer expert : ℕ) : Prog Sys (Option ℕ) := do
  let slot ← match vramSubpool C gidx with
    | none => .ret none
    | some dsp => allocOrEvict C o layer expert dsp.pool
  match slot with
  | some i => .ret (some i)
  | none => allocOrEvict C o layer expert 0

/-- The serve loop over the experts left: whether a load was started and whether a slot was
missing; none when the layer has no group. -/
def serveLoop : List ℕ → Bool → Bool → Prog Sys (Option (Bool × Bool))
  | [], started, noSlot => .ret (some (started, noSlot))
  | e :: es, started, noSlot => do
      let s ← Prog.get
      if s.active.stillNeed e = false then serveLoop es started noSlot
      else if s.loadFree = [] then .ret (some (started, noSlot))
      else
        match groupOf C s.active.layer with
        | none => do
            activeFail C
            .ret none
        | some gidx =>
            if anyPool C s s.active.layer e (· == .ready) then do
              match s.scan C.nPools s.active.layer e with
              | none => .ret ()
              | some (i, _) => activeSettle C s.active.layer e i
              serveLoop es started noSlot
            else if anyPool C s s.active.layer e
                (fun st => st == .loading || st == .movingIn || st == .movingOut) then
              serveLoop es started noSlot
            else do
              match ← allocFor C o gidx s.active.layer e with
              | none => serveLoop es started true
              | some i => do
                  match ← startAsyncLoad C o i s.active.layer e with
                  | none => do
                      transition ⟨s.active.layer, e,
                        ((subpoolOfSlot C.geometry i).map Subpool.pool).getD 0⟩ .absent none
                      .ret (some (started, noSlot))
                  | some _ => serveLoop es true noSlot

/-- The stall bound of the active request. -/
def checkStall (started noSlot : Bool) : Prog Sys Bool := do
  let s ← Prog.get
  if started = true ∨ s.active.nLeft = 0 then do
    Prog.modify fun s => s.armStall false
    .ret started
  else if noSlot = false then .ret started
  else if s.active.stallArmed = false then do
    Prog.modify fun s => s.armStall true
    .ret started
  else if o.expired then do
    activeFail C
    .ret true
  else .ret started

def acceptRequests : Prog Sys Bool := do
  let s ← Prog.get
  if s.active.present then do
    match ← serveLoop C o (List.range C.topo.nExpert) false false with
    | none => .ret true
    | some (started, noSlot) => checkStall C o started noSlot
  else do
    let s ← Prog.getModify Sys.popRequest
    match s.requests with
    | [] => .ret false
    | r :: _ => do
        activeRegister C r
        let _ ← serveLoop C o (List.range C.topo.nExpert) false false
        .ret true

/-- The word and the entry of a load with all its reports in. -/
def finishLoad (t : LoadTask) (failed : Bool) : Prog Sys Unit :=
  if failed then do
    Prog.modify fun s => s.markFailed t.slot
    transition t.key .absent none
  else do
    Prog.modify fun s => s.markReady t.slot
    transition t.key .ready (some t.slot)

/-- What a finished load means for the active request. -/
def reportActive (t : LoadTask) (failed : Bool) : Prog Sys Unit := do
  let s ← Prog.get
  if s.active.present = true ∧ t.layer = s.active.layer ∧ s.active.stillNeed t.expert = true then
    if failed then activeFail C else activeSettle C t.layer t.expert t.slot
  else .ret ()

def drainCompletion (idx : ℕ) (ok : Bool) : Prog Sys Unit := do
  let s ← Prog.act (fun s => s.takeEvent idx ok) .ret
  let t := s.load idx
  if t.pending = 1 then do
    finishLoad t (t.failed || !ok)
    reportActive C t (t.failed || !ok)
    Prog.modify fun s => s.freeTask idx
  else .ret ()

/-- The completions of one call, as pairs of a ring element and its outcome. -/
def drainCompletions : List (ℕ × Bool) → Prog Sys Unit
  | [] => .ret ()
  | (idx, ok) :: done => do
      drainCompletion C idx ok
      drainCompletions done

/-- `n` bounds the finished moves one call finds. -/
def drainMoves : ℕ → Prog Sys Unit
  | 0 => .ret ()
  | n + 1 => do
      let s ← Prog.getModify Sys.popMove
      match s.moveDone with
      | [] => .ret ()
      | m :: _ => do
          Prog.modify fun s => s.markReady m.dstSlot
          transition m.dstKey .ready (some m.dstSlot)
          activeSettle C m.layer m.expert m.dstSlot
          Prog.modify fun s => s.releaseToEmpty m.srcSlot
          drainMoves n

end Sched
end StreamMoE
