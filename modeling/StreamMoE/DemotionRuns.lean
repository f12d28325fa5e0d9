import StreamMoE.MoveDrain
import StreamMoE.SlotBytes

/-! The bytes behind the slots while the scheduler runs beside the move worker, the devices and the
pinning threads: a demoted expert reaches its new slot byte for byte. -/
namespace StreamMoE
namespace DemotionRuns

open AtomicProg ThreadLoop TransitionSystem ByteMemory SlotWord SchedConfig PoolGeometry Sched
open SchedRuns SlotBytes

/-- The scheduler with the memory of its regions; `left` are the byte copies that the worker has not
made yet for the move it works on. -/
structure Host where
  sched : SchedRuns.State
  mem : ℕ → UInt8
  left : List (ℕ × ℕ)

inductive HostAct
  | sched (a : Act)
  | land (idx a : ℕ) (v : UInt8)
  | copy (p : ℕ × ℕ)

/-- A device pool is read through the reader `read pool` it was registered with, main memory by
`memcpy`. -/
def readByte (read : ℕ → (ℕ → UInt8) → ℕ → UInt8) (pool : ℕ) (mem : ℕ → UInt8) (a : ℕ) : UInt8 :=
  if pool = 0 then mem a else read pool mem a

/-- Loads write bytes of the slot they fill; the worker makes its copies in any order and reports a
move without one left. -/
def hostStep (C : Config) (read : ℕ → (ℕ → UInt8) → ℕ → UInt8) (x : Host) : HostAct → Option Host
  | .sched (.env (.land _)) => none
  | .sched (.env .takeMove) =>
      ((system C).step x.sched (.env .takeMove)).map fun r =>
        { x with
          sched := r
          left := (r.state.moving.map fun m => copies C m.1.srcSlot m.1.dstSlot).getD [] }
  | .sched (.env .copyMove) =>
      if x.left = [] then ((system C).step x.sched (.env .copyMove)).map fun r => { x with sched := r }
      else none
  | .sched a => ((system C).step x.sched a).map fun r => { x with sched := r }
  | .land idx a v =>
      if inSlot C (x.sched.state.load idx).slot a then
        ((system C).step x.sched (.env (.land idx))).map fun r =>
          { x with sched := r, mem := Function.update x.mem a v }
      else none
  | .copy p =>
      match x.sched.state.moving with
      | some (m, false) =>
          if p ∈ x.left then
            some
              { x with
                mem := Function.update x.mem p.1 (readByte read m.srcPool x.mem p.2)
                left := x.left.erase p }
          else none
      | _ => none

def hostSystem (C : Config) (read : ℕ → (ℕ → UInt8) → ℕ → UInt8) : Machine Host HostAct :=
  { init := fun x => (system C).init x.sched ∧ x.left = [], step := hostStep C read }

/-- The same system, started in one state. -/
def runsFrom (C : Config) (read : ℕ → (ℕ → UInt8) → ℕ → UInt8) (x : Host) : Machine Host HostAct :=
  { init := fun y => y = x, step := hostStep C read }

variable {C : Config} {read : ℕ → (ℕ → UInt8) → ℕ → UInt8}

section watched

/-- What is known of the scheduler in a reachable state. -/
structure Watched (C : Config) (r : SchedRuns.State) (g : Ghost) : Prop where
  inv : (schedContract C .nothing).inv (r.state, g)
  safe : Safe (schedContract C .nothing) r.prog (fun _ => At AtRest) (r.state, g)
  standing : Standing C r.prog r.state
  home : LeavesHome C (r.state, g)

/-- One step of the scheduler's loop. -/
inductive Happens (C : Config) : SchedRuns.State → Ghost → Act → SchedRuns.State → Ghost → Prop
  | call (s u c g) : Happens C ⟨s, .ret u⟩ g (.call c) ⟨s, c.prog C⟩ g
  | step (s f k t g g') : f s = some t → Step C .nothing (s, g) (t, g') →
      Happens C ⟨s, .act f k⟩ g .step ⟨t, k s⟩ g'
  | env (s p e t g) : envStep s e = some t → Happens C ⟨s, p⟩ g (.env e) ⟨t, p⟩ g

theorem Watched.init {r : SchedRuns.State} (h : (system C).init r) : Watched C r initialGhost := by
  cases h
  have hinv : (schedContract C .nothing).inv (initialSys C, initialGhost) :=
    ⟨initialSys_wf C, fun _ => initialSys_noFailure C, fun _ => initialSys_noneAbandoned C⟩
  refine ⟨hinv, Safe.ret (stable_at AtRest) hinv (initialSys_atRest C) fun _ _ hy => hy,
    .plain _ _ trivial, ?_⟩
  intro i l hl
  cases hl

theorem Watched.step {r r' : SchedRuns.State} {g : Ghost} {a : Act} (h : Watched C r g)
    (hstep : (system C).step r a = some r') : ∃ g', Happens C r g a r' g' ∧ Watched C r' g' := by
  obtain ⟨s, p⟩ := r
  cases a with
  | call c =>
    cases p with
    | ret u =>
      cases hstep
      exact ⟨g, .call s u c g, h.inv, safe_call (honored_nothing c) h.inv (h.safe.result h.inv),
        standing_call c s, h.home⟩
    | act f k => cases hstep
  | step =>
    cases p with
    | ret u => cases hstep
    | act f k =>
      obtain ⟨t, ht, rfl⟩ := Option.map_eq_some_iff.mp hstep
      obtain ⟨g', hguar, hk⟩ := h.safe.step h.inv ht
      exact ⟨g', .step s f k t g g' ht hguar, (schedContract C .nothing).guar_inv _ _ h.inv hguar, hk,
        (h.standing.step ht).1, h.home.step h.inv.1 hguar⟩
  | env e =>
    obtain ⟨t, ht, rfl⟩ := Option.map_eq_some_iff.mp hstep
    have hrely : (schedContract C .nothing).rely (s, g) (t, g) := ⟨rfl, e, ht⟩
    exact ⟨g, .env s p e t g ht, (schedContract C .nothing).rely_inv _ _ h.inv hrely,
      h.safe.stable (.single hrely), h.standing.stable (staysEvicting_env ht), h.home⟩

/-- The copies left are some of the move the worker is at. -/
def LeftOk (C : Config) (x : Host) : Prop :=
  ∀ p ∈ x.left, ∃ m, x.sched.state.moving = some (m, false) ∧ p ∈ copies C m.srcSlot m.dstSlot

/-- A step of the host: one of the scheduler's loop beside which the bytes stay, a byte of a load,
or a byte of a move. -/
inductive Moves (C : Config) (read : ℕ → (ℕ → UInt8) → ℕ → UInt8) :
    Host → Ghost → HostAct → Host → Ghost → Prop
  | keep (r g a r' g' mem left) : Happens C r g a r' g' → a ≠ .env .takeMove →
      (a = .env .copyMove → left = []) →
      Moves C read ⟨r, mem, left⟩ g (.sched a) ⟨r', mem, left⟩ g'
  | takeMove (s p g mem left m ms) : s.moving = none → s.moveSubmit = m :: ms →
      Moves C read ⟨⟨s, p⟩, mem, left⟩ g (.sched (.env .takeMove))
        ⟨⟨{ s with moving := some (m, false), moveSubmit := ms }, p⟩, mem,
          copies C m.srcSlot m.dstSlot⟩ g
  | land (s p g idx a v mem left) : 0 < (s.load idx).pending →
      inSlot C (s.load idx).slot a = true →
      Moves C read ⟨⟨s, p⟩, mem, left⟩ g (.land idx a v)
        ⟨⟨{ s with content := Function.update s.content (s.load idx).slot none }, p⟩,
          Function.update mem a v, left⟩ g
  | copy (r g m p mem left) : r.state.moving = some (m, false) → p ∈ left →
      Moves C read ⟨r, mem, left⟩ g (.copy p)
        ⟨r, Function.update mem p.1 (readByte read m.srcPool mem p.2), left.erase p⟩ g

theorem Watched.hostStep {x x' : Host} {g : Ghost} {a : HostAct} (h : Watched C x.sched g)
    (hstep : hostStep C read x a = some x') :
    ∃ g', Moves C read x g a x' g' ∧ Watched C x'.sched g' := by
  obtain ⟨r, mem, left⟩ := x
  have hkeep : ∀ {b : Act}, b ≠ .env .takeMove → (b = .env .copyMove → left = []) →
      ((system C).step r b).map (fun r => (⟨r, mem, left⟩ : Host)) = some x' →
      ∃ g', Moves C read ⟨r, mem, left⟩ g (.sched b) x' g' ∧ Watched C x'.sched g' := by
    intro b hb hcopy hmap
    obtain ⟨r', hr, rfl⟩ := Option.map_eq_some_iff.mp hmap
    obtain ⟨g', hhappens, hw⟩ := h.step hr
    exact ⟨g', .keep r g b r' g' mem left hhappens hb hcopy, hw⟩
  cases a with
  | sched b =>
    cases b with
    | call c => exact hkeep (by simp) (by simp) hstep
    | step => exact hkeep (by simp) (by simp) hstep
    | env e =>
      cases e with
      | land idx => cases hstep
      | takeMove =>
        obtain ⟨r', hr, rfl⟩ := Option.map_eq_some_iff.mp hstep
        obtain ⟨g', hhappens, hw⟩ := h.step hr
        obtain ⟨s, p⟩ := r
        cases hhappens with
        | env _ _ _ t _ ht =>
          simp only [envStep] at ht
          split at ht
          · rename_i m ms hmoving hsubmit
            cases ht
            exact ⟨g, .takeMove s p g mem left m ms hmoving hsubmit, hw⟩
          · cases ht
      | copyMove =>
        simp only [DemotionRuns.hostStep] at hstep
        split at hstep
        · rename_i hleft
          exact hkeep (by simp) (fun _ => hleft) hstep
        · cases hstep
      | tryPin _ _ | unpin _ _ | strayUnpin _ | push _ | finishMove | nextToken | touch _ _ _
      | resetBatch _ => exact hkeep (by simp) (by simp) hstep
  | land idx a v =>
    simp only [DemotionRuns.hostStep] at hstep
    split at hstep
    · rename_i hin
      obtain ⟨r', hr, rfl⟩ := Option.map_eq_some_iff.mp hstep
      obtain ⟨g', hhappens, hw⟩ := h.step hr
      obtain ⟨s, p⟩ := r
      cases hhappens with
      | env _ _ _ t _ ht =>
        simp only [envStep] at ht
        split at ht
        · cases ht
        · rename_i hp
          cases ht
          exact ⟨g, .land s p g idx a v mem left (Nat.pos_of_ne_zero hp) hin, hw⟩
    · cases hstep
  | copy p =>
    simp only [DemotionRuns.hostStep] at hstep
    split at hstep
    · rename_i m hmoving
      split at hstep
      · rename_i hp
        cases hstep
        exact ⟨g, .copy r g m p mem left hmoving hp, h⟩
      · cases hstep
    · cases hstep

end watched

section queues

variable {s t : Sys} {e : EnvAct} {m : MoveTask}

/-- The worker is at the same move, or just done with one. -/
theorem moving_env (h : envStep s e = some t) (htake : e ≠ .takeMove) (hcopy : e ≠ .copyMove) :
    t.moving = s.moving ∨ ∃ m, s.moving = some (m, true) ∧ t.moving = none := by
  cases e with
  | takeMove => exact absurd rfl htake
  | copyMove => exact absurd rfl hcopy
  | tryPin b i =>
    simp only [envStep] at h
    split at h <;> cases h
    exact .inl (sameSlots_tryPin s b i).moving
  | finishMove =>
    simp only [envStep] at h
    split at h
    · rename_i m hmoving
      cases h
      exact .inr ⟨m, hmoving, rfl⟩
    · cases h
  | unpin _ _ | push _ | land _ =>
    simp only [envStep] at h
    split at h <;> cases h
    exact .inl rfl
  | strayUnpin _ | nextToken | touch _ _ _ | resetBatch _ =>
    cases h
    exact .inl rfl

/-- A move counts as copied when the worker says so. -/
theorem copied_env (h : envStep s e = some t) (hm : m ∈ t.copied) :
    m ∈ s.copied ∨ (e = .copyMove ∧ s.moving = some (m, false)) := by
  cases e with
  | tryPin b i =>
    simp only [envStep] at h
    split at h <;> cases h
    rw [(sameSlots_tryPin s b i).copied_eq] at hm
    exact .inl hm
  | takeMove =>
    simp only [envStep] at h
    split at h
    · rename_i m' ms hmoving hsubmit
      cases h
      simpa [Sys.copied, hmoving, Option.filter] using hm
    · cases h
  | copyMove =>
    simp only [envStep] at h
    split at h
    · rename_i m' hmoving
      cases h
      simp only [Sys.copied, Option.filter, if_true, Option.map_some, Option.toList_some,
        List.mem_append, List.mem_singleton] at hm
      rcases hm with hm | rfl
      · exact .inl (List.mem_append_left _ hm)
      · exact .inr ⟨rfl, hmoving⟩
    · cases h
  | finishMove =>
    simp only [envStep] at h
    split at h
    · rename_i m' hmoving
      cases h
      simpa [Sys.copied, hmoving, Option.filter] using hm
    · cases h
  | unpin _ _ | push _ | land _ =>
    simp only [envStep] at h
    split at h <;> cases h
    exact .inl hm
  | strayUnpin _ | nextToken | touch _ _ _ | resetBatch _ =>
    cases h
    exact .inl hm

theorem copied_step {promise : Promise} {x y : Sys × Ghost} (h : Step C promise x y)
    (hm : m ∈ y.1.copied) : m ∈ x.1.copied := by
  obtain ⟨hmoving, hcases⟩ := Step.queues h
  rw [Sys.copied, hmoving] at hm
  rw [Sys.copied]
  rcases hcases with ⟨hdone, _⟩ | ⟨m', b, hdone, _⟩
  · rwa [hdone] at hm
  · rw [hdone]
    exact List.mem_cons_of_mem m' hm

theorem LeftOk.step {x x' : Host} {g g' : Ghost} {a : HostAct} (h : LeftOk C x)
    (hstep : Moves C read x g a x' g') : LeftOk C x' := by
  cases hstep with
  | keep r _ b r' _ mem left hhappens htake hcopy =>
    intro p hp
    obtain ⟨m, hmoving, hin⟩ := h p hp
    dsimp only at hmoving hp
    refine ⟨m, ?_, hin⟩
    cases hhappens with
    | call => exact hmoving
    | step s f k t _ _ hf hguar => exact (Step.queues hguar).1.trans hmoving
    | env s p' e t _ he =>
      have hcopy' : e ≠ .copyMove := by
        rintro rfl
        rw [hcopy rfl] at hp
        cases hp
      rcases moving_env he (fun h => htake (by rw [h])) hcopy' with hsame | ⟨m', hm', _⟩
      · exact hsame.trans hmoving
      · rw [hm'] at hmoving
        cases hmoving
  | takeMove s p g mem left m ms => exact fun q hq => ⟨m, rfl, hq⟩
  | land s p g idx a v mem left => exact h
  | copy r g m p mem left hmoving hp => exact fun q hq => h q (List.mem_of_mem_erase hq)

end queues

section apart

variable {s : Sys} {g : Ghost} {m m' : MoveTask}

/-- No load fills a slot of a move. -/
theorem load_ne (hwf : WF C (s, g)) {idx : ℕ} (hp : 0 < (s.load idx).pending) (hm : m ∈ s.moves) :
    (s.load idx).slot ≠ m.srcSlot ∧ (s.load idx).slot ≠ m.dstSlot := by
  have hload := (hwf.ring.loading idx hp).1
  obtain ⟨hsrc, b, hdst⟩ := hwf.moves.tasks m hm
  dsimp only at hload hsrc hdst
  constructor <;> intro heq
  · rw [heq, hsrc] at hload
    cases hload
  · rw [heq, hdst] at hload
    cases hload

theorem dst_ne_src (hwf : WF C (s, g)) (hm : m ∈ s.moves) (hm' : m' ∈ s.moves) :
    m'.dstSlot ≠ m.srcSlot := by
  obtain ⟨hsrc, _⟩ := hwf.moves.tasks m hm
  obtain ⟨_, b, hdst⟩ := hwf.moves.tasks m' hm'
  intro heq
  rw [heq, hsrc] at hdst
  cases hdst

/-- Two moves share no slot. -/
theorem move_ne (hwf : WF C (s, g)) (hm : m ∈ s.moves) (hm' : m' ∈ s.moves) (hne : m' ≠ m) :
    m'.srcSlot ≠ m.srcSlot ∧ m'.dstSlot ≠ m.dstSlot :=
  ⟨fun heq => hne (List.inj_on_of_nodup_map hwf.moves.srcs hm' hm heq),
    fun heq => hne (List.inj_on_of_nodup_map hwf.moves.dsts hm' hm heq)⟩

/-- The two regions of a move have one group. -/
structure Joined (C : Config) (m : MoveTask) (ssp dsp : Subpool) : Prop where
  src : subpoolOfSlot C.geometry m.srcSlot = some ssp
  dst : subpoolOfSlot C.geometry m.dstSlot = some dsp
  group : ssp.group = dsp.group

theorem joined_of_move {r : SchedRuns.State} (h : Watched C r g) (hm : m ∈ r.state.moves) :
    ∃ ssp dsp, Joined C m ssp dsp := by
  have hwf := h.inv.1
  obtain ⟨hsrc, b, hdst⟩ := hwf.moves.tasks m hm
  dsimp only at hsrc hdst
  obtain ⟨_, ssp, hs, _, hsg⟩ := h.home m.srcSlot m.layer (by dsimp only; rw [hsrc]; rfl)
  have hclaim : (g.own m.dstSlot).claim = some (m.dstKey, b.state) := by
    rw [hdst]
    rfl
  obtain ⟨dsp, hd, _, hdg⟩ := hwf.region m.dstSlot m.dstKey b.state hclaim
  refine ⟨ssp, dsp, hs, hd, ?_⟩
  have hgroup : groupOf C m.layer = some dsp.group := hdg
  rw [hsg] at hgroup
  exact Option.some.inj hgroup

end apart

end DemotionRuns
end StreamMoE
