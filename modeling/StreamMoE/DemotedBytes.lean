import StreamMoE.DemotionRuns

/-! From `submit_move` until its entry is READY: the bytes of a demoted expert and the two slots they
lie in. -/
namespace StreamMoE
namespace DemotionRuns

open AtomicProg ThreadLoop TransitionSystem ByteMemory SlotWord SchedConfig PoolGeometry Sched
open SchedRuns SlotBytes

variable {C : Config} {read : ℕ → (ℕ → UInt8) → ℕ → UInt8}

section tracking

/-- The bytes of the source stay, and those that are copied are in place. -/
structure InFlight (C : Config) (m : MoveTask) (B : ℕ → UInt8) (x : Host) : Prop where
  mem : m ∈ x.sched.state.moves
  src : ∀ a, inSlot C m.srcSlot a = true → x.mem a = B a
  part : x.sched.state.moving = some (m, false) →
    Copying B x.mem (copies C m.srcSlot m.dstSlot) x.left
  full : m ∈ x.sched.state.copied → Copying B x.mem (copies C m.srcSlot m.dstSlot) []

/-- The finished move has been taken and its entry is not yet READY. -/
structure Landing (C : Config) (m : MoveTask) (B : ℕ → UInt8) (x : Host) (g : Ghost) : Prop where
  bytes : Copying B x.mem (copies C m.srcSlot m.dstSlot) []
  evicting : Evicting x.sched.state m.srcSlot
  point : ∃ n b, (x.sched.prog = landMove C m n ∧ g.own m.dstSlot = .arrived m.dstKey b) ∨
    (x.sched.prog = enterMove C m n ∧ g.own m.dstSlot = .landed m.dstKey b)

structure Entered (C : Config) (m : MoveTask) (B : ℕ → UInt8) (x : Host) : Prop where
  bytes : Copying B x.mem (copies C m.srcSlot m.dstSlot) []
  evicting : Evicting x.sched.state m.srcSlot
  entry : x.sched.state.dir m.dstKey = ⟨.ready, some m.dstSlot⟩

variable {m : MoveTask} {B : ℕ → UInt8} {x x' : Host} {g g' : Ghost} {ssp dsp : Subpool}

theorem frame_dst (hlaid : Laid C) (hj : Joined C m ssp dsp) {mem : ℕ → UInt8}
    {left : List (ℕ × ℕ)} (h : Copying B mem (copies C m.srcSlot m.dstSlot) left) {i a : ℕ}
    (v : UInt8) (ha : inSlot C i a = true) (hi : i ≠ m.dstSlot) :
    Copying B (Function.update mem a v) (copies C m.srcSlot m.dstSlot) left := by
  refine h.frame v ?_
  rintro p hp rfl
  exact hi (inSlot_unique hlaid ha (copies_inSlot hlaid hj.src hj.dst hj.group hp).1)

/-- Another byte is written. -/
theorem InFlight.write (hlaid : Laid C) (hj : Joined C m ssp dsp) (h : InFlight C m B x) {i a : ℕ}
    {v : UInt8} (ha : inSlot C i a = true) (hsrc : i ≠ m.srcSlot) (hdst : i ≠ m.dstSlot)
    (hmem : x'.mem = Function.update x.mem a v) (hmoves : x'.sched.state.moves = x.sched.state.moves)
    (hmoving : x'.sched.state.moving = x.sched.state.moving)
    (hcopied : x'.sched.state.copied = x.sched.state.copied)
    (hleft : x.sched.state.moving = some (m, false) → x'.left = x.left) : InFlight C m B x' := by
  refine ⟨hmoves ▸ h.mem, ?_, ?_, ?_⟩
  · intro b hb
    have hne : b ≠ a := by
      rintro rfl
      exact hsrc (inSlot_unique hlaid ha hb)
    rw [hmem, Function.update_of_ne hne]
    exact h.src b hb
  · intro hm
    rw [hmoving] at hm
    rw [hmem, hleft hm]
    exact frame_dst hlaid hj (h.part hm) v ha hdst
  · intro hm
    rw [hcopied] at hm
    rw [hmem]
    exact frame_dst hlaid hj (h.full hm) v ha hdst

/-- The worker copies a byte of the move. -/
theorem InFlight.copy (hlaid : Laid C) (hj : Joined C m ssp dsp) (hne : m.dstSlot ≠ m.srcSlot)
    {r : SchedRuns.State} {mem : ℕ → UInt8} {left : List (ℕ × ℕ)} {p : ℕ × ℕ}
    (h : InFlight C m B ⟨r, mem, left⟩) (hp : p ∈ copies C m.srcSlot m.dstSlot) :
    InFlight C m B ⟨r, Function.update mem p.1 (mem p.2), left.erase p⟩ := by
  obtain ⟨hpd, hps⟩ := copies_inSlot hlaid hj.src hj.dst hj.group hp
  have hsrc : mem p.2 = B p.2 := h.src p.2 hps
  have hfun : ∀ q ∈ copies C m.srcSlot m.dstSlot, q.1 = p.1 → q.2 = p.2 :=
    fun q hq heq => copies_functional hlaid hj.src hj.dst hj.group hp hq heq
  refine ⟨h.mem, ?_, ?_, ?_⟩
  · intro a ha
    have hap : a ≠ p.1 := by
      rintro rfl
      exact hne (inSlot_unique hlaid hpd ha)
    dsimp only
    rw [Function.update_of_ne hap]
    exact h.src a ha
  · intro hm
    exact (h.part hm).copy hsrc hfun
  · intro hm
    exact (h.full hm).copy hsrc hfun

/-- The scheduler's loop goes on. -/
theorem InFlight.happens {r r' : SchedRuns.State} {mem : ℕ → UInt8} {left : List (ℕ × ℕ)} {a : Act}
    (h : InFlight C m B ⟨r, mem, left⟩) (hw : Watched C r g) (hw' : Watched C r' g')
    (hstep : Happens C r g a r' g') (htake : a ≠ .env .takeMove)
    (hcopy : a = .env .copyMove → left = []) :
    InFlight C m B ⟨r', mem, left⟩ ∨ Landing C m B ⟨r', mem, left⟩ g' := by
  cases hstep with
  | call s u c => exact .inl ⟨h.mem, h.src, h.part, h.full⟩
  | env s p e t _ he =>
    have hmem := h.mem
    refine .inl ⟨(mem_moves_env he).mpr h.mem, h.src, ?_, ?_⟩
    · intro hm
      by_cases hc : e = .copyMove
      · subst hc
        simp only [envStep] at he
        split at he <;> cases he
        cases hm
      · rcases moving_env he (fun h => htake (by rw [h])) hc with hsame | ⟨_, _, hnone⟩
        · exact h.part (hsame.symm.trans hm)
        · dsimp only at hm
          rw [hnone] at hm
          cases hm
    · intro hm
      rcases copied_env he hm with hm | ⟨rfl, hm⟩
      · exact h.full hm
      · have hpart := h.part hm
        dsimp only at hpart
        rw [hcopy rfl] at hpart
        exact hpart
  | step s f k t _ _ hf hguar =>
    have hmem := h.mem
    obtain ⟨hmoving, hcases⟩ := Step.queues hguar
    have hkeep : m ∈ t.moves → InFlight C m B ⟨⟨t, k s⟩, mem, left⟩ :=
      fun hin => ⟨hin, h.src, fun hm => h.part (hmoving.symm.trans hm),
        fun hm => h.full (copied_step hguar hm)⟩
    dsimp only at hmem hmoving hcases
    rw [Sys.moves] at hmem
    rcases hcases with ⟨hdone, l, hsubmit⟩ | ⟨m', b, hdone, hsubmit, hg⟩
    · refine .inl (hkeep ?_)
      rw [Sys.moves, hdone, hmoving, hsubmit]
      simp only [List.mem_append] at hmem ⊢
      tauto
    · by_cases heq : m = m'
      · subst heq
        -- the move is taken: the thread stands behind the head of `drain_moves`
        right
        have hcopied : m ∈ s.copied := by simp [Sys.copied, hdone]
        have hown := congrArg Ghost.own hg
        have hdst : g'.own m.dstSlot = .arrived m.dstKey b := by
          rw [hown, Ghost.setOwn_self]
        have hne : m.srcSlot ≠ m.dstSlot := by
          have hin : m ∈ s.moves := by simp [Sys.moves, hdone]
          exact (dst_ne_src hw.inv.1 hin hin).symm
        have hsrc : g'.own m.srcSlot = .drained m.layer m.expert := by
          rw [hown, Ghost.setOwn_of_ne _ _ hne, Ghost.setOwn_self]
        refine ⟨h.full hcopied, ?_, ?_⟩
        · have hst := hw'.inv.1.state m.srcSlot
          dsimp only at hst
          rw [hsrc] at hst
          exact hst
        · rcases (hw.standing.step hf).2 with hsame | ⟨m'', n, hhead, hk⟩
          · rw [hdone] at hsame
            exact absurd (congrArg List.length hsame) (by simp)
          · rw [hdone] at hhead
            cases hhead
            exact ⟨n, b, .inl ⟨hk, hdst⟩⟩
      · refine .inl (hkeep ?_)
        rw [hdone] at hmem
        rw [Sys.moves, hmoving, hsubmit]
        simp only [List.cons_append, List.mem_cons, heq, false_or] at hmem
        exact hmem

theorem readByte_eq (hread : ∀ pool mem a, read pool mem a = mem a) (pool : ℕ) (mem : ℕ → UInt8)
    (a : ℕ) : readByte read pool mem a = mem a := by
  unfold readByte
  split
  · rfl
  · exact hread pool mem a

theorem mem_moves_of_moving {s : Sys} {m : MoveTask} {b : Bool} (h : s.moving = some (m, b)) :
    m ∈ s.moves := by
  simp [Sys.moves, h]

/-- While the move is in a queue or with the worker, every step of the host leaves it there or takes
it off the queue of the finished ones. -/
theorem InFlight.step (hlaid : Laid C) (hread : ∀ pool mem a, read pool mem a = mem a)
    (hj : Joined C m ssp dsp) (hw : Watched C x.sched g) (hw' : Watched C x'.sched g')
    (hleft : LeftOk C x) (h : InFlight C m B x) {a : HostAct} (hstep : Moves C read x g a x' g') :
    InFlight C m B x' ∨ Landing C m B x' g' := by
  cases hstep with
  | keep r _ b r' _ mem left hhappens htake hcopy =>
    exact h.happens hw hw' hhappens htake hcopy
  | takeMove s p _ mem left m' ms hmoving hsubmit =>
    left
    have he : envStep s .takeMove = some { s with moving := some (m', false), moveSubmit := ms } := by
      simp only [envStep, hmoving, hsubmit]
    refine ⟨(mem_moves_env he).mpr h.mem, h.src, ?_, ?_⟩
    · intro hm
      cases hm
      exact copying_self
    · intro hm
      rcases copied_env he hm with hm | ⟨hcopy, _⟩
      · exact h.full hm
      · cases hcopy
  | land s p _ idx b v mem left hp hin =>
    left
    obtain ⟨hsrc, hdst⟩ := load_ne hw.inv.1 hp h.mem
    exact h.write hlaid hj hin hsrc hdst rfl rfl rfl rfl fun _ => rfl
  | copy r _ m' p mem left hmoving hp =>
    left
    obtain ⟨m'', hmoving', hin⟩ := hleft p hp
    rw [hmoving] at hmoving'
    cases hmoving'
    have hm' := mem_moves_of_moving hmoving
    rw [readByte_eq hread]
    by_cases heq : m' = m
    · subst heq
      exact h.copy hlaid hj (dst_ne_src hw.inv.1 hm' hm') hin
    · obtain ⟨ssp', dsp', hj'⟩ := joined_of_move hw hm'
      have hbyte := (copies_inSlot hlaid hj'.src hj'.dst hj'.group hin).1
      refine h.write hlaid hj hbyte (dst_ne_src hw.inv.1 h.mem hm')
        (move_ne hw.inv.1 h.mem hm' heq).2 rfl rfl rfl rfl ?_
      intro hm
      dsimp only at hm
      rw [hmoving] at hm
      cases hm
      exact absurd rfl heq

theorem landed_of_markReady {s t : Sys} {g g' : Ghost} {k : Key} {b : Inbound} {i : ℕ}
    (hwf : WF C (s, g)) (hwf' : WF C (t, g')) (hguar : Step C .nothing (s, g) (t, g'))
    (ht : t.word i = SlotWord.markReady (s.word i)) (hi : g.own i = .arrived k b) :
    g'.own i = .landed k b := by
  rcases Step.arrived hwf hguar hi with harr | hland
  · have hread := reads_of hwf i
    rw [hi] at hread
    have hready := hread.markReady.state
    have hst := hwf'.state i
    dsimp only at hst
    rw [harr, ht, hready] at hst
    cases hst
  · exact hland

/-- Between the taking of the finished move and its entry, the bytes of both slots stay. -/
theorem Landing.step (hlaid : Laid C) (hj : Joined C m ssp dsp) (hne : m.dstSlot ≠ m.srcSlot)
    (hw : Watched C x.sched g) (hw' : Watched C x'.sched g') (hleft : LeftOk C x)
    (h : Landing C m B x g) {a : HostAct} (hstep : Moves C read x g a x' g') :
    Landing C m B x' g' ∨ Entered C m B x' := by
  obtain ⟨hbytes, hev, n, b, hpoint⟩ := h
  have hown : g.own m.dstSlot = .arrived m.dstKey b ∨ g.own m.dstSlot = .landed m.dstKey b := by
    rcases hpoint with ⟨_, hi⟩ | ⟨_, hi⟩
    · exact .inl hi
    · exact .inr hi
  cases hstep with
  | keep r _ b' r' _ mem left hhappens htake hcopy =>
    cases hhappens with
    | call s u c => rcases hpoint with ⟨hp, _⟩ | ⟨hp, _⟩ <;> cases hp
    | env s p e t _ he => exact .inl ⟨hbytes, staysEvicting_env he m.srcSlot hev, n, b, hpoint⟩
    | step s f k t _ _ hf hguar =>
      rcases hpoint with ⟨hp, hi⟩ | ⟨hp, hi⟩
      · left
        cases hp
        cases hf
        have hword : (s.markReady m.dstSlot).word m.dstSlot =
            SlotWord.markReady (s.word m.dstSlot) := Function.update_self ..
        have hland := landed_of_markReady hw.inv.1 hw'.inv.1 hguar hword hi
        refine ⟨hbytes, ?_, n, b, .inr ⟨rfl, hland⟩⟩
        have hsame : (s.markReady m.dstSlot).word m.srcSlot = s.word m.srcSlot :=
          Function.update_of_ne hne.symm ..
        rw [Evicting]
        dsimp only
        rw [hsame]
        exact hev
      · right
        cases hp
        cases hf
        exact ⟨hbytes, hev, Function.update_self ..⟩
  | takeMove s p _ mem left m' ms hmoving hsubmit => exact .inl ⟨hbytes, hev, n, b, hpoint⟩
  | land s p _ idx c v mem left hp hin =>
    left
    have hdst : (s.load idx).slot ≠ m.dstSlot := by
      intro heq
      have hload := (hw.inv.1.ring.loading idx hp).1
      dsimp only at hload
      rw [heq] at hload
      rcases hown with hi | hi <;> rw [hload] at hi <;> cases hi
    exact ⟨frame_dst hlaid hj hbytes v hin hdst, hev, n, b, hpoint⟩
  | copy r _ m' p mem left hmoving hp =>
    left
    obtain ⟨m'', hmoving', hin⟩ := hleft p hp
    rw [hmoving] at hmoving'
    cases hmoving'
    have hm' := mem_moves_of_moving hmoving
    obtain ⟨ssp', dsp', hj'⟩ := joined_of_move hw hm'
    have hbyte := (copies_inSlot hlaid hj'.src hj'.dst hj'.group hin).1
    have hdst : m'.dstSlot ≠ m.dstSlot := by
      intro heq
      obtain ⟨_, b', htarget⟩ := hw.inv.1.moves.tasks m' hm'
      dsimp only at htarget
      rw [heq] at htarget
      rcases hown with hi | hi <;> rw [htarget] at hi <;> cases hi
    exact ⟨frame_dst hlaid hj hbytes _ hbyte hdst, hev, n, b, hpoint⟩

/-- A move that is new in the queue: nothing of it is copied. -/
theorem inFlight_of_submit (hw : Watched C x.sched g) (hstep : Moves C read x g a x' g') (hnew : m ∉ x.sched.state.moves)
    (hm : m ∈ x'.sched.state.moves) : InFlight C m x'.mem x' := by
  cases hstep with
  | keep r _ b r' _ mem left hhappens htake hcopy =>
    cases hhappens with
    | call s u c => exact absurd hm hnew
    | env s p e t _ he => exact absurd ((mem_moves_env he).mp hm) hnew
    | step s f k t _ _ hf hguar =>
      refine ⟨hm, fun _ _ => rfl, ?_, ?_⟩
      · intro hmoving
        have hsame : s.moving = some (m, false) := (Step.queues hguar).1.symm.trans hmoving
        exact absurd (mem_moves_of_moving hsame) hnew
      · intro hcopied
        exact absurd (hw.inv.1.moves.sub m (copied_step hguar hcopied)) hnew
  | takeMove s p _ mem left m' ms hmoving hsubmit =>
    have he : envStep s .takeMove = some { s with moving := some (m', false), moveSubmit := ms } := by
      simp only [envStep, hmoving, hsubmit]
    exact absurd ((mem_moves_env he).mp hm) hnew
  | land s p _ idx b v mem left hp hin => exact absurd hm hnew
  | copy r _ m' p mem left hmoving hp => exact absurd hm hnew

end tracking

section runs

variable {m : MoveTask} {B : ℕ → UInt8} {x x' y : Host} {g : Ghost}

theorem watched_of_reach (h : Reach (hostSystem C read) anyStep x) :
    ∃ g, Watched C x.sched g ∧ LeftOk C x := by
  refine h.invariant (I := fun x => ∃ g, Watched C x.sched g ∧ LeftOk C x) ?_ ?_
  · rintro x ⟨hinit, hleft⟩
    refine ⟨initialGhost, Watched.init hinit, ?_⟩
    intro p hp
    rw [hleft] at hp
    cases hp
  · rintro x a x' ⟨g, hw, hleft⟩ _ hstep
    obtain ⟨g', hmoves, hw'⟩ := hw.hostStep hstep
    exact ⟨g', hw', hleft.step hmoves⟩

/-- How far the move has come while its entry is not READY, or that its entry is. -/
def Tracked (C : Config) (m : MoveTask) (B : ℕ → UInt8) (y : Host) (g : Ghost) : Prop :=
  InFlight C m B y ∨ Landing C m B y g ∨ Entered C m B y

theorem tracked_of_reach (hlaid : Laid C) (hread : ∀ pool mem a, read pool mem a = mem a)
    (hw : Watched C x.sched g) (hleft : LeftOk C x) (h : InFlight C m B x)
    (hy : Reach (runsFrom C read x) (fun z _ => (z.sched.state.dir m.dstKey).state ≠ .ready) y) :
    ∃ g, Watched C y.sched g ∧ Tracked C m B y g := by
  obtain ⟨ssp, dsp, hj⟩ := joined_of_move hw h.mem
  have hne := dst_ne_src hw.inv.1 h.mem h.mem
  have hrun : ∃ g, Watched C y.sched g ∧ LeftOk C y ∧ Tracked C m B y g := by
    refine hy.invariant (I := fun y => ∃ g, Watched C y.sched g ∧ LeftOk C y ∧ Tracked C m B y g)
      ?_ ?_
    · rintro _ rfl
      exact ⟨g, hw, hleft, .inl h⟩
    · rintro z a z' ⟨g, hw, hleft, htracked⟩ hguard hstep
      obtain ⟨g', hmoves, hw'⟩ := hw.hostStep hstep
      refine ⟨g', hw', hleft.step hmoves, ?_⟩
      rcases htracked with h | h | h
      · rcases h.step hlaid hread hj hw hw' hleft hmoves with h | h
        · exact .inl h
        · exact .inr (.inl h)
      · exact .inr (h.step hlaid hj hne hw hw' hleft hmoves)
      · exact absurd (by rw [h.entry]) hguard
  obtain ⟨g, hw, _, htracked⟩ := hrun
  exact ⟨g, hw, htracked⟩

/-- `alloc_or_evict` takes EMPTY slots and slots it can evict. -/
def Allocatable (s : Sys) (i : ℕ) : Prop :=
  slotWordState (s.word i) = SlotState.empty.code ∨ (SlotWord.beginEvict (s.word i)).isSome = true

theorem not_allocatable_of_evicting {s : Sys} {i : ℕ} (h : Evicting s i) : ¬ Allocatable s i := by
  rintro (hempty | hevict)
  · rw [Evicting, hempty] at h
    cases h
  · have hnone : SlotWord.beginEvict (s.word i) = none := by
      rw [SlotWord.beginEvict, if_neg]
      rw [h]
      decide
    rw [hnone] at hevict
    cases hevict

/-- Both slots are the move's alone: the bytes of the source are those of memory `B`, no load and no
other move is for either slot, and the target takes no pin. -/
structure Reserved (C : Config) (m : MoveTask) (B : ℕ → UInt8) (y : Host) : Prop where
  bytes : ∀ a, inSlot C m.srcSlot a = true → y.mem a = B a
  loads : ∀ idx, 0 < (y.sched.state.load idx).pending →
    (y.sched.state.load idx).slot ≠ m.srcSlot ∧ (y.sched.state.load idx).slot ≠ m.dstSlot
  moves : ∀ m' ∈ y.sched.state.moves, m' ≠ m → m'.srcSlot ≠ m.srcSlot ∧ m'.srcSlot ≠ m.dstSlot ∧
    m'.dstSlot ≠ m.srcSlot ∧ m'.dstSlot ≠ m.dstSlot
  unpinned : slotWordRefcount (y.sched.state.word m.dstSlot) = 0 ∧
    SlotWord.tryPin (y.sched.state.word m.dstSlot) = none

theorem InFlight.reserved (hw : Watched C y.sched g) (h : InFlight C m B y) : Reserved C m B y := by
  have hwf := hw.inv.1
  refine ⟨h.src, fun idx hp => load_ne hwf hp h.mem, ?_, ?_⟩
  · intro m' hm' hne
    obtain ⟨hsrc, hdst⟩ := move_ne hwf h.mem hm' hne
    exact ⟨hsrc, (dst_ne_src hwf hm' h.mem).symm, dst_ne_src hwf h.mem hm', hdst⟩
  · obtain ⟨_, b, hdst⟩ := hwf.moves.tasks m h.mem
    dsimp only at hdst
    have hreads := reads_of hwf m.dstSlot
    have hzero := hwf.unpinned m.dstSlot
    dsimp only at hzero
    rw [hdst] at hreads hzero
    refine ⟨hzero rfl, ?_⟩
    rcases hreads.tryPin with ⟨_, _, hready, _⟩ | ⟨hnone, _⟩
    · cases hready
    · exact hnone

/-- Column by column, slot `dst` in memory `M` has the bytes that slot `src` has in memory `B`. -/
def SameColumns (C : Config) (src dst : ℕ) (B M : ℕ → UInt8) : Prop :=
  ∃ ssp dsp, subpoolOfSlot C.geometry src = some ssp ∧ subpoolOfSlot C.geometry dst = some dsp ∧
    ssp.cols.length = dsp.cols.length ∧
      ∀ (n : ℕ) (c d : Column), ssp.cols[n]? = some c → dsp.cols[n]? = some d →
        c.stride = d.stride ∧ ∀ k < d.stride, M (colSlice dsp d dst + k) = B (colSlice ssp c src + k)

theorem sameColumns_of_done (hlaid : Laid C) {src dst : ℕ} {ssp dsp : Subpool}
    (hs : subpoolOfSlot C.geometry src = some ssp) (hd : subpoolOfSlot C.geometry dst = some dsp)
    (hgroup : ssp.group = dsp.group) {M : ℕ → UInt8} (h : Copying B M (copies C src dst) []) :
    SameColumns C src dst B M := by
  have hstrides := hlaid.strides_eq hs hd hgroup
  refine ⟨ssp, dsp, hs, hd, ?_, ?_⟩
  · simpa using congrArg List.length hstrides
  · intro n c d hc hd'
    have hstride := congrArg (·[n]?) hstrides
    simp only [List.getElem?_map, hc, hd', Option.map_some, Option.some.injEq] at hstride
    refine ⟨hstride, ?_⟩
    intro k hk
    have hp : (colSlice dsp d dst + k, colSlice ssp c src + k) ∈ copies C src dst :=
      (mem_copies hs hd).mpr ⟨n, c, d, k, hc, hd', by omega, rfl⟩
    exact h.done _ hp

theorem not_ready_of_claim {r : SchedRuns.State} {k : Key} {i : ℕ} {b : Inbound}
    (hw : Watched C r g) (hclaim : (g.own i).claim = some (k, b.state)) :
    (r.state.dir k).state ≠ .ready := by
  have hentry := (hw.inv.1.dir.named k i b.state).mpr hclaim
  dsimp only at hentry
  rw [hentry]
  cases b <;> simp [Inbound.state]

theorem evicting_of_inFlight (hw : Watched C y.sched g) (h : InFlight C m B y) :
    Evicting y.sched.state m.srcSlot := by
  have hst := hw.inv.1.state m.srcSlot
  have hsrc := (hw.inv.1.moves.tasks m h.mem).1
  dsimp only at hst hsrc
  rw [hsrc] at hst
  exact hst

/-- Every run that goes on from the submission of a demotion, up to the state in which its entry is
READY: until it is, the source is not allocatable and as long as the move is in a queue or with the
worker both slots are reserved; once it is, the columns of the target are those of the source. -/
theorem demotion_preserves_content (hlaid : Laid C) (hread : ∀ pool mem a, read pool mem a = mem a)
    {a : HostAct} (hx : Reach (hostSystem C read) anyStep x) (hsubmit : hostStep C read x a = some x')
    (hnew : m ∉ x.sched.state.moves) (hm : m ∈ x'.sched.state.moves)
    (hy : Reach (runsFrom C read x') (fun z _ => (z.sched.state.dir m.dstKey).state ≠ .ready) y) :
    x'.sched.state.content m.srcSlot = some (m.layer, m.expert) ∧
    ¬ Allocatable y.sched.state m.srcSlot ∧
    (m ∈ y.sched.state.moves → Reserved C m x'.mem y) ∧
    ((y.sched.state.dir m.dstKey).state = .ready →
      y.sched.state.dir m.dstKey = ⟨.ready, some m.dstSlot⟩ ∧
      y.sched.state.content m.dstSlot = some (m.layer, m.expert) ∧
      SameColumns C m.srcSlot m.dstSlot x'.mem y.mem) := by
  obtain ⟨g, hw, hleft⟩ := watched_of_reach hx
  obtain ⟨g', hmoves, hw'⟩ := hw.hostStep hsubmit
  have hstart := inFlight_of_submit hw hmoves hnew hm
  obtain ⟨gy, hwy, htracked⟩ :=
    tracked_of_reach hlaid hread hw' (hleft.step hmoves) hstart hy
  have hcontent : x'.sched.state.content m.srcSlot = some (m.layer, m.expert) := by
    refine hw'.inv.1.content m.srcSlot _ ?_
    have hsrc := (hw'.inv.1.moves.tasks m hm).1
    dsimp only at hsrc ⊢
    rw [hsrc]
    rfl
  refine ⟨hcontent, ?_⟩
  rcases htracked with h | h | h
  · refine ⟨not_allocatable_of_evicting (evicting_of_inFlight hwy h), fun _ => h.reserved hwy, ?_⟩
    intro hready
    obtain ⟨_, b, hdst⟩ := hwy.inv.1.moves.tasks m h.mem
    dsimp only at hdst
    exact absurd hready (not_ready_of_claim (b := b) (i := m.dstSlot) hwy (by rw [hdst]; rfl))
  · obtain ⟨n, b, hpoint⟩ := h.point
    have hown : gy.own m.dstSlot = .arrived m.dstKey b ∨ gy.own m.dstSlot = .landed m.dstKey b := by
      rcases hpoint with ⟨_, hi⟩ | ⟨_, hi⟩
      · exact .inl hi
      · exact .inr hi
    refine ⟨not_allocatable_of_evicting h.evicting, ?_, ?_⟩
    · intro hin
      obtain ⟨_, b', hdst⟩ := hwy.inv.1.moves.tasks m hin
      dsimp only at hdst
      rcases hown with hi | hi <;> rw [hdst] at hi <;> cases hi
    · intro hready
      have hclaim : (gy.own m.dstSlot).claim = some (m.dstKey, b.state) := by
        rcases hown with hi | hi <;> rw [hi] <;> rfl
      exact absurd hready (not_ready_of_claim hwy hclaim)
  · have hresident := Owner.of_claim_ready ((hwy.inv.1.dir.named _ _ _).mp h.entry)
    refine ⟨not_allocatable_of_evicting h.evicting, ?_, ?_⟩
    · intro hin
      obtain ⟨_, b', hdst⟩ := hwy.inv.1.moves.tasks m hin
      dsimp only at hdst hresident
      rcases hresident with hi | hi <;> rw [hdst] at hi <;> cases hi
    · intro _
      refine ⟨h.entry, hwy.inv.1.content m.dstSlot _ ?_, ?_⟩
      · dsimp only at hresident ⊢
        rcases hresident with hi | hi <;> rw [hi] <;> rfl
      · obtain ⟨ssp, dsp, hj⟩ := joined_of_move hw' hm
        exact sameColumns_of_done hlaid hj.src hj.dst hj.group h.bytes

end runs

section twoTiers

/-- Two layers of one expert over two columns: a device region of one slot and two slots in main
memory, whose second columns lie at different offsets. -/
def twoTierTopology : Topology :=
  { nLayer := 2, nExpert := 1, numTensors := fun _ _ => 1
    groups := [{ layers := [0, 1], expertSize := 3, totalBytes := 6, strides := [1, 2] }] }

def deviceRegion : VRegion := { pool := 1, group := 0, base := 20, nSlots := 1 }

def twoTierConfig : Config :=
  (SchedConfig.init twoTierTopology 6 (fun _ => 6) 1 0 [deviceRegion]).get (by decide)

theorem laid_twoTierConfig : Laid twoTierConfig := by
  refine laid_of_init (Option.some_get _).symm (by decide) (List.pairwise_singleton _ _) ?_
  intro r hr
  rw [List.mem_singleton.mp hr]
  exact .inl (by decide)

def hostMap : ℕ → (ℕ → UInt8) → ℕ → UInt8 := fun _ mem a => mem a

def hostStart : Host := ⟨start twoTierConfig, fun _ => 0, []⟩

/-- The expert of the first layer is loaded into the device slot and given back, and the scheduler
serves the second layer up to the submission of the demotion. -/
def serveBoth : List HostAct :=
  .sched (.env (.push (request 0))) :: .sched (.call (.accept smallOracle)) ::
    List.replicate 10 (.sched .step) ++
    .land 15 20 7 :: .land 15 21 8 :: .land 15 22 9 ::
      .sched (.call (.drainCompletions [(15, true)])) ::
        (List.replicate 8 (.sched .step) ++
          .sched (.env (.unpin (.batch (some 0)) 2)) :: .sched (.env (.push (request 1))) ::
            .sched (.call (.accept smallOracle)) :: List.replicate 18 (.sched .step))

/-- The worker copies the bytes and `drain_moves` enters the expert. -/
def moveOver : List HostAct :=
  List.replicate 6 (.sched .step) ++
    .sched (.env .takeMove) :: .copy (4, 22) :: .copy (1, 20) :: .copy (3, 21) ::
      .sched (.env .copyMove) :: .sched (.env .finishMove) :: .sched (.call (.drainMoves 1)) ::
        List.replicate 3 (.sched .step)

def firstMove : MoveTask :=
  { layer := 0, expert := 0, srcPool := 1, srcSlot := 2, dstPool := 0, dstSlot := 0 }

theorem exists_of_any {α : Type} {o : Option α} {p : α → Bool} (h : o.any p = true) :
    ∃ a, o = some a ∧ p a = true := by
  cases o with
  | none => cases h
  | some a => exact ⟨a, rfl, h⟩

theorem demotion_preserves_content_ofFirstLayer :
    ∃ x y : Host, firstMove ∈ x.sched.state.moves ∧
      y.sched.state.dir ⟨0, 0, 0⟩ = ⟨.ready, some 0⟩ ∧ ¬ Allocatable y.sched.state 2 ∧
      SameColumns twoTierConfig 2 0 x.mem y.mem := by
  have hrun : (run (hostSystem twoTierConfig hostMap) serveBoth hostStart).any (fun x =>
      decide (firstMove ∉ x.sched.state.moves) &&
        (hostStep twoTierConfig hostMap x (.sched .step)).any fun x' =>
          decide (firstMove ∈ x'.sched.state.moves) &&
            (guardedRun (runsFrom twoTierConfig hostMap x')
              (fun z _ => (z.sched.state.dir firstMove.dstKey).state ≠ .ready) moveOver x').any
              fun y => decide ((y.sched.state.dir firstMove.dstKey).state = .ready)) = true := by
    decide +kernel
  obtain ⟨x, hx, hrun⟩ := exists_of_any hrun
  obtain ⟨hnew, hrun⟩ := Bool.and_eq_true_iff.mp hrun
  obtain ⟨x', hsubmit, hrun⟩ := exists_of_any hrun
  obtain ⟨hm, hrun⟩ := Bool.and_eq_true_iff.mp hrun
  obtain ⟨y, hy, hready⟩ := exists_of_any hrun
  have hinit : (hostSystem twoTierConfig hostMap).init hostStart := ⟨rfl, rfl⟩
  have hreach : Reach (hostSystem twoTierConfig hostMap) anyStep x :=
    Reach.run_of_forall _ (fun _ _ _ => trivial) (.init hinit) hx
  have hlater := Reach.guardedRun moveOver (.init rfl) hy
  obtain ⟨_, halloc, _, hend⟩ := demotion_preserves_content laid_twoTierConfig (fun _ _ _ => rfl)
    hreach hsubmit (of_decide_eq_true hnew) (of_decide_eq_true hm) hlater
  obtain ⟨hentry, _, hsame⟩ := hend (of_decide_eq_true hready)
  exact ⟨x', y, of_decide_eq_true hm, hentry, halloc, hsame⟩

end twoTiers

end DemotionRuns
end StreamMoE
