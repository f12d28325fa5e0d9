import StreamMoE.SchedEnv
import StreamMoE.SchedOps

/-! The active request: registering, settling and failing it keeps the scheduler's contract and
touches neither slots' owners nor directory nor load ring. -/
namespace StreamMoE
namespace Sched

open AtomicProg SlotWord SchedConfig

/-- An assertion about what only the scheduler writes. -/
def At (ψ : View → Ghost → Prop) (x : Sys × Ghost) : Prop := ψ x.1.view x.2

theorem stable_at {C : Config} {promise : Promise} (ψ : View → Ghost → Prop) :
    Stable (schedContract C promise) (At ψ) := stable_view ψ

/-- The part of the state that serving the active request leaves alone. -/
structure Frame where
  own : ℕ → Owner
  dir : Key → DirEntry
  loadFree : List ℕ
  loadInUse : ℕ → Bool
  load : ℕ → LoadTask

def frameOf (v : View) (g : Ghost) : Frame := ⟨g.own, v.dir, v.loadFree, v.loadInUse, v.load⟩

/-- The pins owed are those in the ledger, and without a request the bookkeeping is clear. -/
structure Linked (v : View) (g : Ghost) : Prop where
  owed : g.owed = v.active.pinnedSlots
  cleared : v.active.present = false → v.active = Active.cleared
  phase : g.phase = if v.active.present then .active else .idle

theorem Linked.congr {v v' : View} {g g' : Ghost} (h : Linked v g) (hactive : v'.active = v.active)
    (howed : g'.owed = g.owed) (hphase : g'.phase = g.phase) : Linked v' g' := by
  refine ⟨?_, ?_, ?_⟩
  · rw [howed, hactive]
    exact h.owed
  · rw [hactive]
    exact h.cleared
  · rw [hphase, hactive]
    exact h.phase

/-- The frame with an exact active request. -/
def ActiveAt (F : Frame) (A : Active) (owed : List ℕ) (φ : Phase → Prop) (v : View) (g : Ghost) :
    Prop := frameOf v g = F ∧ v.active = A ∧ g.owed = owed ∧ φ g.phase

def Settles (F : Frame) (v : View) (g : Ghost) : Prop := frameOf v g = F ∧ Linked v g

/-- The last expert is counted and the bookkeeping not yet cleared. -/
def Handed (C : Config) (F : Frame) (v : View) (g : Ghost) : Prop :=
  frameOf v g = F ∧ g.phase = .handed ∧ v.active.present = true ∧
    v.active.allSettled C.topo.nExpert = true

theorem failBatch_view (s : Sys) : s.failBatch.view = { s.view with active := Active.cleared } := by
  unfold Sys.failBatch
  split <;> rfl

theorem bumpBatch_view (s : Sys) (n : ℕ) : (s.bumpBatch n).view = s.view := by
  unfold Sys.bumpBatch
  dsimp only
  split <;> split <;> rfl

def Active.settled (A : Active) (e i : ℕ) : Active :=
  { A with
    stillNeed := Function.update A.stillNeed e false
    pinnedSlots := A.pinnedSlots ++ [i]
    nLeft := A.nLeft - 1
    stallArmed := if A.nLeft = 0 then A.stallArmed else false }

theorem settleStep_view {s : Sys} {e i : ℕ} {w : Word} (h : SlotWord.tryPin (s.word i) = some w) :
    (s.settleStep e i).view = { s.view with active := s.active.settled e i } := by
  simp only [Sys.settleStep, h]
  have hview := tryPin_view s .scheduler i
  simp only [Sys.view, View.mk.injEq] at hview ⊢
  obtain ⟨h₁, h₂, h₃, h₄, _⟩ := hview
  exact ⟨h₁, h₂, h₃, h₄, rfl⟩

theorem settleStep_none {s : Sys} {e i : ℕ} (h : SlotWord.tryPin (s.word i) = none) :
    s.settleStep e i = s := by
  simp only [Sys.settleStep, h]

theorem Active.stillNeed_of_allSettled {A : Active} {n e : ℕ} (h : A.allSettled n = true)
    (he : e < n) : A.stillNeed e = false := by
  simp only [Active.allSettled, Bool.and_eq_true, List.all_eq_true, Bool.not_eq_true'] at h
  exact h.2 e (List.mem_range.mpr he)

theorem Active.nLeft_of_allSettled {A : Active} {n : ℕ} (h : A.allSettled n = true) : A.nLeft = 0 := by
  simp only [Active.allSettled, Bool.and_eq_true, beq_iff_eq] at h
  exact h.1

theorem Active.allSettled_of_nLeft {A : Active} (n : ℕ) (h : A.nLeft ≠ 0) : A.allSettled n = false := by
  simp [Active.allSettled, h]

variable {C : Config} {promise : Promise} {F : Frame} {A : Active} {x : Sys × Ghost}

theorem calm_of_frame {g : Ghost} {v : View} (hcalm : ∀ i k, F.own i ≠ .evicting k)
    (hF : frameOf v g = F) : Calm g := by
  have hown : g.own = F.own := congrArg Frame.own hF
  intro i k
  rw [hown]
  exact hcalm i k

theorem safe_unpinAll (is : List ℕ) (hcalm : ∀ i k, F.own i ≠ .evicting k)
    (hx : (schedContract C promise).inv x) (h : At (ActiveAt F A is (Phase.busy · = true)) x) :
    Safe (schedContract C promise) (unpinAll C is)
      (fun _ => At (ActiveAt F A [] (Phase.busy · = true))) x := by
  induction is generalizing x with
  | nil => exact Safe.ret (stable_at _) hx h fun _ _ hy => hy
  | cons i is ih =>
    refine Safe.modify (stable_at _) hx h ?_
    rintro ⟨s, g⟩ hy ⟨hF, hA, howed, hbusy⟩
    dsimp only at hF hA howed
    have hlt : i < C.geometry.numSlots := by
      have hmem := hy.1.owed i
      dsimp only at hmem
      rw [howed] at hmem
      exact hmem List.mem_cons_self
    simp only [if_pos hlt]
    have hstep : Step C promise (s, g) (s.unpin .scheduler i,
        { g with owed := is, idle := [], phase := .failing }) :=
      .unpinOwed s g i is (calm_of_frame hcalm hF) hbusy howed
    exact ⟨_, hstep, ih ((schedContract C promise).guar_inv _ _ hy hstep) ⟨hF, hA, rfl, rfl⟩⟩

theorem safe_activeFail (hx : (schedContract C promise).inv x) (hcalm : ∀ i k, F.own i ≠ .evicting k)
    (hA : A.present = true) (h : At (ActiveAt F A A.pinnedSlots (Phase.busy · = true)) x) :
    Safe (schedContract C promise) (activeFail C)
      (fun _ => At (ActiveAt F Active.cleared [] (· = .idle))) x := by
  refine Safe.get (stable_at _) hx h ?_
  intro y hy hφ
  have hpinned : y.1.active.pinnedSlots = A.pinnedSlots := congrArg Active.pinnedSlots hφ.2.1
  rw [hpinned]
  refine Safe.bind hy (Safe.mono ?_ (safe_unpinAll _ hcalm hy hφ))
  intro _ z hz hφz
  refine Safe.modifyLast (stable_at _) hz hφz ?_
  rintro ⟨s, g⟩ hs ⟨hF, hA', howed, hbusy⟩
  have hpresent : s.active.present = true := by
    have hact : s.active = A := hA'
    rw [hact, hA]
  have hstep : Step C promise (s, g) (s.failBatch, { g with idle := [], phase := .idle }) :=
    .failBatch s g (calm_of_frame hcalm hF) hbusy hpresent howed
  refine ⟨_, hstep, Safe.ret (stable_at _) ((schedContract C promise).guar_inv _ _ hs hstep) ?_
    fun _ _ hy => hy⟩
  refine ⟨?_, ?_, howed, rfl⟩
  · dsimp only
    rw [failBatch_view]
    exact hF
  · dsimp only
    rw [failBatch_view]

theorem settles_cleared {v : View} {g : Ghost} (h : ActiveAt F Active.cleared [] (· = .idle) v g) :
    Settles F v g := by
  obtain ⟨hF, hA, howed, hphase⟩ := h
  refine ⟨hF, ?_, ?_, ?_⟩
  · rw [howed, hA]
    rfl
  · intro _
    exact hA
  · rw [hphase, hA]
    rfl

theorem Settles.activeAt {v : View} {g : Ghost} (h : Settles F v g) (hp : v.active.present = true) :
    ActiveAt F v.active v.active.pinnedSlots (· = .active) v g := by
  refine ⟨h.1, rfl, h.2.owed, ?_⟩
  rw [h.2.phase, hp]
  rfl

theorem ActiveAt.settles {v : View} {g : Ghost} (h : ActiveAt F A A.pinnedSlots (· = .active) v g)
    (hp : A.present = true) : Settles F v g := by
  obtain ⟨hF, hA, howed, hphase⟩ := h
  refine ⟨hF, ?_, ?_, ?_⟩
  · rw [howed, hA]
  · intro habs
    rw [hA, hp] at habs
    cases habs
  · rw [hphase, hA, hp]
    rfl

theorem settle_step (C : Config) (promise : Promise) {s : Sys} {g : Ghost} {i : ℕ} {k : Key} {w : Word}
    (hcalm : ∀ i k, F.own i ≠ .evicting k) (hi : F.own i = .resident k) (hA : A.present = true)
    (hlayer : A.layer = k.layer) (hneed : A.stillNeed k.expert = true)
    (h : ActiveAt F A A.pinnedSlots (· = .active) s.view g) (hw : SlotWord.tryPin (s.word i) = some w) :
    Step C promise (s, g) (s.settleStep k.expert i,
      { g with owed := g.owed ++ [i], idle := [], phase := .owing }) ∧
      At (ActiveAt F (A.settled k.expert i) (A.settled k.expert i).pinnedSlots (· = .owing))
        (s.settleStep k.expert i, { g with owed := g.owed ++ [i], idle := [], phase := .owing }) := by
  obtain ⟨hF, hA', howed, hphase⟩ := h
  have hown : g.own = F.own := congrArg Frame.own hF
  have hact : s.active = A := hA'
  refine ⟨?_, ?_, ?_, ?_, rfl⟩
  · refine .settle s g i k w (calm_of_frame hcalm hF) hphase ?_ ?_ ?_ ?_ hw
    · rw [hact, hA]
    · rw [hact, hlayer]
    · rw [hact, hneed]
    · rw [hown, hi]
  · dsimp only
    rw [settleStep_view hw]
    exact hF
  · dsimp only
    rw [settleStep_view hw]
    dsimp only
    rw [hact]
  · dsimp only
    rw [howed]
    rfl

/-- A counted expert with others left to settle. -/
theorem bump_at {s : Sys} {g : Ghost} (h : ActiveAt F A A.pinnedSlots (· = .owing) s.view g) :
    At (ActiveAt F A A.pinnedSlots (· = .active))
      (s.bumpBatch C.topo.nExpert, { g with idle := [], phase := .active }) := by
  obtain ⟨hF, hA, howed, _⟩ := h
  have hview := bumpBatch_view s C.topo.nExpert
  refine ⟨?_, ?_, howed, rfl⟩
  · dsimp only
    rw [hview]
    exact hF
  · dsimp only
    rw [hview]
    exact hA

/-- The last bump clears the request. -/
theorem safe_bump (hx : (schedContract C promise).inv x) (hcalm : ∀ i k, F.own i ≠ .evicting k)
    (hA : A.present = true) (h : At (ActiveAt F A A.pinnedSlots (· = .owing)) x) :
    Safe (schedContract C promise)
      (Prog.modify fun s => if s.active.nLeft = 0 then (s.bumpBatch C.topo.nExpert).activeFinish
        else s.bumpBatch C.topo.nExpert)
      (fun _ => At (Settles F)) x := by
  refine Safe.modifyLast (stable_at _) hx h ?_
  rintro ⟨s, g⟩ hs hφ
  have hcalm' := calm_of_frame hcalm hφ.1
  have hact : s.active = A := hφ.2.1
  have hpresent : s.active.present = true := by rw [hact, hA]
  by_cases hleft : s.active.nLeft = 0
  · simp only [if_pos hleft]
    have hstep : Step C promise (s, g) ((s.bumpBatch C.topo.nExpert).activeFinish,
        { g with owed := [], idle := [], phase := .idle }) :=
      .bumpFinish s g hcalm' hφ.2.2.2 hpresent hleft
    refine ⟨_, hstep, Safe.ret (stable_at (ActiveAt F Active.cleared [] (· = .idle)))
      ((schedContract C promise).guar_inv _ _ hs hstep) ?_ fun _ _ hy => settles_cleared hy⟩
    refine ⟨?_, rfl, rfl, rfl⟩
    have hview := bumpBatch_view s C.topo.nExpert
    have hframe : frameOf (s.bumpBatch C.topo.nExpert).activeFinish.view
        { g with owed := [], idle := [], phase := .idle } =
          frameOf (s.bumpBatch C.topo.nExpert).view g := rfl
    dsimp only
    rw [hframe, hview]
    exact hφ.1
  · simp only [if_neg hleft]
    have hstep : Step C promise (s, g)
        (s.bumpBatch C.topo.nExpert, { g with idle := [], phase := .active }) :=
      .bump s g hcalm' hφ.2.2.2 hpresent (Active.allSettled_of_nLeft _ hleft)
    refine ⟨_, hstep, Safe.ret (stable_at (ActiveAt F A A.pinnedSlots (· = .active)))
      ((schedContract C promise).guar_inv _ _ hs hstep) (bump_at hφ) fun _ _ hy => hy.settles hA⟩

theorem safe_activeSettle {layer expert p i : ℕ} (hx : (schedContract C promise).inv x)
    (hcalm : ∀ i k, F.own i ≠ .evicting k) (hi : F.own i = .resident ⟨layer, expert, p⟩)
    (h : At (Settles F) x) :
    Safe (schedContract C promise) (activeSettle C layer expert i) (fun _ => At (Settles F)) x := by
  refine Safe.get (stable_at _) hx h ?_
  intro y hy hφ
  split
  · rename_i hcond
    obtain ⟨hpresent, hlayer, hneed⟩ := hcond
    have hat : At (ActiveAt F y.1.active y.1.active.pinnedSlots (· = .active)) y :=
      hφ.activeAt hpresent
    refine Safe.getModify (stable_at _) hy hat ?_
    rintro ⟨s, g⟩ hs hsat
    have hact : s.active = y.1.active := hsat.2.1
    cases hw : SlotWord.tryPin (s.word i) with
    | none =>
      dsimp only
      rw [settleStep_none hw]
      refine ⟨g, .stutter _, ?_⟩
      rw [if_pos (.inl rfl)]
      have hbusy : At (ActiveAt F y.1.active y.1.active.pinnedSlots (Phase.busy · = true)) (s, g) :=
        ⟨hsat.1, hsat.2.1, hsat.2.2.1, by rw [hsat.2.2.2]; rfl⟩
      exact Safe.mono (fun _ _ _ => settles_cleared) (safe_activeFail hs hcalm hpresent hbusy)
    | some w =>
      obtain ⟨hstep, hat'⟩ := settle_step C promise hcalm hi hpresent
        hlayer.symm hneed hsat hw
      have hinv := (schedContract C promise).guar_inv _ _ hs hstep
      refine ⟨_, hstep, ?_⟩
      dsimp only
      by_cases hleft : s.active.nLeft = 0
      · rw [if_pos (.inr hleft)]
        have hbusy : At (ActiveAt F (y.1.active.settled expert i)
            (y.1.active.settled expert i).pinnedSlots (Phase.busy · = true))
            (s.settleStep expert i, { g with owed := g.owed ++ [i], idle := [], phase := .owing }) :=
          ⟨hat'.1, hat'.2.1, hat'.2.2.1, rfl⟩
        exact Safe.mono (fun _ _ _ => settles_cleared) (safe_activeFail (A := y.1.active.settled expert i) hinv hcalm
          hpresent hbusy)
      · rw [if_neg (by simp [hleft])]
        exact safe_bump (A := y.1.active.settled expert i) hinv hcalm hpresent hat'
  · exact Safe.ret (stable_at _) hy hφ fun _ _ hz => hz

/-- A READY entry names a resident slot while nothing is being evicted. -/
theorem resident_of_scan {s : Sys} {g : Ghost} (h : WF C (s, g)) (hcalm : Calm g)
    {nPools layer e i p : ℕ} (hscan : s.scan nPools layer e = some (i, p)) :
    g.own i = .resident ⟨layer, e, p⟩ := by
  obtain ⟨p', _, hp'⟩ := List.exists_of_findSome?_eq_some hscan
  obtain ⟨j, hj, heq⟩ := Option.map_eq_some_iff.mp hp'
  cases heq
  unfold Sys.find at hj
  split at hj
  · rename_i hst
    have hentry : s.dir ⟨layer, e, p⟩ = ⟨.ready, some i⟩ := by
      rw [← hst, ← hj]
    have hclaim := (h.dir.named _ i _).mp hentry
    rcases Owner.of_claim_ready hclaim with hown | hown
    · exact hown
    · exact absurd hown (hcalm i _)
  · cases hj

theorem safe_triage (es : List ℕ) (hes : ∀ e ∈ es, e < C.topo.nExpert)
    (hx : (schedContract C promise).inv x) (hcalm : ∀ i k, F.own i ≠ .evicting k)
    (h : At (fun v g => (Settles F v g ∧ v.active.present = true) ∨ Handed C F v g) x) :
    Safe (schedContract C promise) (triage C es) (fun ok => At fun v g =>
      (ok = true → (Settles F v g ∧ v.active.present = true) ∨ Handed C F v g) ∧
      (ok = false → Settles F v g)) x := by
  induction es generalizing x with
  | nil =>
    refine Safe.ret (stable_at _) hx h ?_
    exact fun y _ hy => ⟨fun _ => hy, fun hf => by cases hf⟩
  | cons e es ih =>
    have hrest : ∀ e' ∈ es, e' < C.topo.nExpert := fun e' he' => hes e' (List.mem_cons_of_mem e he')
    refine Safe.get (stable_at _) hx h ?_
    intro y hy hφy
    split
    · rename_i hneed
      -- an expert that is still needed: the request has not been handed over
      have hset : Settles F y.1.view y.2 ∧ y.1.active.present = true := by
        rcases hφy with hset | ⟨_, _, _, hall⟩
        · exact hset
        · have hnot := Active.stillNeed_of_allSettled hall (hes e List.mem_cons_self)
          have hneed' : y.1.view.active.stillNeed e = true := hneed
          rw [hneed'] at hnot
          cases hnot
      have hpresent := hset.2
      split
      · exact ih hrest hy hφy
      · rename_i i p hscan
        have hown := resident_of_scan hy.1 (calm_of_frame hcalm hset.1.1) hscan
        have hi : F.own i = .resident ⟨y.1.active.layer, e, p⟩ := by
          rw [← hset.1.1]
          exact hown
        have hat : At (ActiveAt F y.1.active y.1.active.pinnedSlots (· = .active)) y :=
          hset.1.activeAt hpresent
        refine Safe.get (stable_at _) hy hat ?_
        intro z hz hφz
        split
        · exact ih hrest hz (.inl ⟨hφz.settles hpresent, by rw [hφz.2.1]; exact hpresent⟩)
        · refine Safe.getModify (stable_at _) hz hφz ?_
          rintro ⟨s, g⟩ hs hsat
          have hact : s.active = y.1.active := hsat.2.1
          cases hw : SlotWord.tryPin (s.word i) with
          | none =>
            dsimp only
            rw [settleStep_none hw]
            refine ⟨g, .stutter _, ?_⟩
            have hnone : (none : Option Word).isNone = true := rfl
            rw [if_pos hnone]
            exact ih hrest hs (.inl ⟨hsat.settles hpresent, by rw [hsat.2.1]; exact hpresent⟩)
          | some w =>
            obtain ⟨hstep, hat'⟩ := settle_step C promise hcalm hi hpresent rfl
              hneed hsat hw
            have hinv := (schedContract C promise).guar_inv _ _ hs hstep
            refine ⟨_, hstep, ?_⟩
            dsimp only
            have hsome : (some w).isNone = false := rfl
            simp only [hsome, Bool.false_eq_true, if_false]
            by_cases hleft : s.active.nLeft = 0
            · rw [if_pos hleft]
              have hbusy : At (ActiveAt F (y.1.active.settled e i)
                  (y.1.active.settled e i).pinnedSlots (Phase.busy · = true))
                  (s.settleStep e i, { g with owed := g.owed ++ [i], idle := [], phase := .owing }) :=
                ⟨hat'.1, hat'.2.1, hat'.2.2.1, rfl⟩
              refine Safe.bind hinv (Safe.mono ?_
                (safe_activeFail (A := y.1.active.settled e i) hinv hcalm hpresent hbusy))
              intro _ u hu hφu
              refine Safe.ret (stable_at _) hu hφu ?_
              exact fun _ _ hv => ⟨fun hf => absurd hf (by simp), fun _ => settles_cleared hv⟩
            · rw [if_neg hleft]
              refine Safe.modify (stable_at _) hinv hat' ?_
              rintro ⟨s', g'⟩ hs' hφ'
              have hact' : s'.active = y.1.active.settled e i := hφ'.2.1
              have hpresent' : s'.active.present = true := by
                rw [hact']
                exact hpresent
              have hcalm' := calm_of_frame hcalm hφ'.1
              cases hall : s'.active.allSettled C.topo.nExpert with
              | true =>
                have hbump : Step C promise (s', g') (s'.bumpBatch C.topo.nExpert,
                    { g' with owed := [], idle := [], phase := .handed }) :=
                  .bumpLast s' g' hcalm' hφ'.2.2.2 hpresent' hall
                refine ⟨_, hbump, ih hrest ((schedContract C promise).guar_inv _ _ hs' hbump)
                  (.inr ?_)⟩
                have hview := bumpBatch_view s' C.topo.nExpert
                refine ⟨?_, rfl, ?_, ?_⟩ <;> dsimp only <;> rw [hview]
                · exact hφ'.1
                · exact hpresent'
                · exact hall
              | false =>
                have hbump : Step C promise (s', g') (s'.bumpBatch C.topo.nExpert,
                    { g' with idle := [], phase := .active }) :=
                  .bump s' g' hcalm' hφ'.2.2.2 hpresent' hall
                have hat'' := bump_at (C := C) hφ'
                refine ⟨_, hbump, ih hrest ((schedContract C promise).guar_inv _ _ hs' hbump)
                  (.inl ⟨hat''.settles hpresent, ?_⟩)⟩
                have hA := hat''.2.1
                dsimp only at hA ⊢
                rw [hA]
                exact hpresent
    · exact ih hrest hy hφy

theorem safe_activeRegister {r : Request} (hx : (schedContract C promise).inv x)
    (hcalm : ∀ i k, F.own i ≠ .evicting k)
    (h : At (ActiveAt F Active.cleared [] (· = .popped r)) x) :
    Safe (schedContract C promise) (activeRegister C r) (fun _ => At (Settles F)) x := by
  refine Safe.modify (stable_at _) hx h ?_
  rintro ⟨s, g⟩ hs ⟨hF, hA, howed, hphase⟩
  have hact : s.active = Active.cleared := hA
  have hstep : Step C promise (s, g) (s.activeInit r, { g with phase := .active }) :=
    .register s g r hphase (by rw [hact]; rfl) howed
  have hinv := (schedContract C promise).guar_inv _ _ hs hstep
  have hat : At (fun v g => (Settles F v g ∧ v.active.present = true) ∨ Handed C F v g)
      (s.activeInit r, { g with phase := .active }) :=
    .inl ⟨⟨hF, howed, fun habs => absurd habs (by simp [Sys.view, Sys.activeInit]), rfl⟩, rfl⟩
  have hexperts : ∀ e ∈ List.range C.topo.nExpert, e < C.topo.nExpert :=
    fun e he => List.mem_range.mp he
  refine ⟨_, hstep, Safe.bind hinv (Safe.mono ?_ (safe_triage _ hexperts hinv hcalm hat))⟩
  intro ok y hy hφ
  cases ok with
  | false => exact Safe.ret (stable_at _) hy hφ fun _ _ hz => hz.2 rfl
  | true =>
    rw [if_pos rfl]
    have hφ' : At (fun v g => (Settles F v g ∧ v.active.present = true) ∨ Handed C F v g) y :=
      hφ.1 rfl
    refine Safe.modifyLast (stable_at _) hy hφ' ?_
    rintro ⟨s', g'⟩ hs' hcases
    have hfin : ∀ (hF : frameOf s'.view g' = F), (g'.phase = .active ∨ g'.phase = .handed) →
        s'.active.present = true → s'.active.nLeft = 0 →
        ∃ g'', (schedContract C promise).guar (s', g') (s'.activeFinish, g'') ∧
          Safe (schedContract C promise) (.ret ()) (fun _ => At (Settles F)) (s'.activeFinish, g'') := by
      intro hF hph hpr hleft
      have hstep' : Step C promise (s', g')
          (s'.activeFinish, { g' with owed := [], idle := [], phase := .idle }) :=
        .finish s' g' (calm_of_frame hcalm hF) hph hpr hleft
      refine ⟨_, hstep', Safe.ret (stable_at (ActiveAt F Active.cleared [] (· = .idle)))
        ((schedContract C promise).guar_inv _ _ hs' hstep') ?_ fun _ _ hz => settles_cleared hz⟩
      exact ⟨hF, rfl, rfl, rfl⟩
    rcases hcases with ⟨hset, hpresent⟩ | ⟨hF', hph, hpresent, hall⟩
    · by_cases hleft : s'.active.nLeft = 0
      · simp only [if_pos hleft]
        have hpresent' : s'.active.present = true := hpresent
        refine hfin hset.1 (.inl ?_) hpresent' hleft
        have hphase' := hset.2.phase
        rw [hphase', hpresent]
        rfl
      · simp only [if_neg hleft]
        exact ⟨g', .stutter _, Safe.ret (stable_at (Settles F)) hs' hset fun _ _ hz => hz⟩
    · have hleft : s'.active.nLeft = 0 := Active.nLeft_of_allSettled hall
      simp only [if_pos hleft]
      exact hfin hF' (.inr hph) hpresent hleft

end Sched
end StreamMoE
