import StreamMoE.AllocSafe

/-! The operations the scheduler thread calls in turn, `accept_requests`, `drain_completions` and
`drain_moves`, keep its contract and end with every slot settled. -/
namespace StreamMoE
namespace Sched

open AtomicProg SlotWord SchedConfig PoolGeometry

/-- The bookkeeping is linked and the rest of the state fits `P`. -/
def Resting (P : Frame → Prop) (v : View) (g : Ghost) : Prop := P (frameOf v g) ∧ Linked v g

def noneHeld : ℕ → Option Owner := fun _ => none

def heldFrame (H : ℕ → Option Owner) (F : Frame) : Prop := HeldOk H F.own

/-- What stands between two operations of the scheduler. -/
def AtRest : View → Ghost → Prop := Resting (heldFrame noneHeld)

def Accepts (C : Config) (o : Oracle) : Prop :=
  (∀ l e i, o.accept l e i = true) ∧ ∀ l e, C.topo.numTensors l e ≠ 0

/-- Of every load a slice is accepted. -/
def Starts (C : Config) (o : Oracle) : Prop :=
  ∀ l e, (submitSlices (o.accept l e) (C.topo.numTensors l e) 0).1 ≠ 0

/-- What an operation meets of the devices fits the promise. -/
structure Honors (C : Config) (promise : Promise) (o : Oracle) : Prop where
  starts : promise.starts → Starts C o
  sound : promise.sound → ∀ l e, (submitSlices (o.accept l e) (C.topo.numTensors l e) 0).2 = false

variable {C : Config} {promise : Promise} {P : Frame → Prop} {H : ℕ → Option Owner}
  {x : Sys × Ghost}

theorem HeldOk.calm {own : ℕ → Owner} (h : HeldOk H own) (hH : ∀ i a, H i = some a → ∀ k, a ≠ .evicting k)
    (i : ℕ) (k : Key) : own i ≠ .evicting k := by
  intro hown
  cases hi : H i with
  | none =>
    have hsettled := (h i).2 hi
    rw [hown] at hsettled
    cases hsettled
  | some a => exact hH i a hi k ((h i).1 a hi ▸ hown)

theorem noneHeld_calm (i : ℕ) (a : Owner) (h : noneHeld i = some a) (k : Key) : a ≠ .evicting k := by
  cases h

theorem evicts_noneHeld : Evicts noneHeld := fun i a h => by cases h

section active

variable (hP : ∀ F, P F → ∀ i k, F.own i ≠ .evicting k)
include hP

theorem safe_settleResting {layer expert p i : ℕ} (hx : (schedContract C promise).inv x)
    (hi : x.2.own i = .resident ⟨layer, expert, p⟩) (h : At (Resting P) x) :
    Safe (schedContract C promise) (activeSettle C layer expert i) (fun _ => At (Resting P)) x := by
  have hsettles : At (Settles (frameOf x.1.view x.2)) x := ⟨rfl, h.2⟩
  refine Safe.mono ?_ (safe_activeSettle hx (hP _ h.1) hi hsettles)
  intro _ y _ hy
  refine ⟨?_, hy.2⟩
  rw [hy.1]
  exact h.1

theorem safe_failResting (hx : (schedContract C promise).inv x)
    (h : At (fun v g => Resting P v g ∧ v.active.present = true) x) :
    Safe (schedContract C promise) (activeFail C) (fun _ => At (Resting P)) x := by
  have hat : At (ActiveAt (frameOf x.1.view x.2) x.1.active x.1.active.pinnedSlots
      (Phase.busy · = true)) x := by
    refine ⟨rfl, rfl, h.1.2.owed, ?_⟩
    rw [h.1.2.phase, h.2]
    rfl
  refine Safe.mono ?_ (safe_activeFail hx (hP _ h.1.1) h.2 hat)
  intro _ y _ hy
  have hset := settles_cleared hy
  refine ⟨?_, hset.2⟩
  rw [hset.1]
  exact h.1.1

end active

theorem Owner.claim_state {a : Owner} {k : Key} {st : ExpertState} (h : a.claim = some (k, st)) :
    st = .ready ∨ (st = .loading ∨ st = .movingIn) := by
  cases a with
  | arrived k' b | landed k' b | target k' b => cases b <;> cases h <;> simp [Inbound.state]
  | _ => cases h <;> simp

/-- The serve loop's tests of the pools rule out every copy of the expert. -/
theorem absent_of_anyPool {s : Sys} {g : Ghost} (h : WF C (s, g)) {l e : ℕ}
    (hready : anyPool C s l e (· == .ready) = false)
    (hmoving : anyPool C s l e
      (fun st => st == .loading || st == .movingIn || st == .movingOut) = false) (p : ℕ) :
    (s.dir ⟨l, e, p⟩).state = .absent := by
  by_contra hst
  cases hslot : (s.dir ⟨l, e, p⟩).slot with
  | none =>
    have habsent := h.dir.unnamed _ hslot
    dsimp only at habsent
    rw [habsent] at hst
    exact hst rfl
  | some i =>
    have hentry : s.dir ⟨l, e, p⟩ = ⟨(s.dir ⟨l, e, p⟩).state, some i⟩ := by rw [← hslot]
    have hclaim := (h.dir.named _ _ _).mp hentry
    have hp : p < C.nPools := (h.region i _ _ hclaim).pool_lt
    have hmem : p ∈ List.range C.nPools := List.mem_range.mpr hp
    simp only [anyPool, List.any_eq_false] at hready hmoving
    have h₁ := hready p hmem
    have h₂ := hmoving p hmem
    rcases Owner.claim_state hclaim with he | he | he <;> rw [he] at h₁ h₂ <;> simp at h₁ h₂

theorem submitSlices_all {accept : ℕ → Bool} (h : ∀ i, accept i = true) (n i : ℕ) :
    submitSlices accept n i = (n, false) := by
  induction n generalizing i with
  | zero => rfl
  | succ n ih => simp [submitSlices, h i, ih]

theorem Accepts.honors {o : Oracle} (h : Accepts C o) : Honors C promise o := by
  refine ⟨?_, ?_⟩
  · intro _ l e
    rw [submitSlices_all (h.1 l e)]
    exact h.2 l e
  · intro _ l e
    rw [submitSlices_all (h.1 l e)]

section alloc

variable {K : Steady} {N : ℕ → ℕ → Prop} {o : Oracle}

theorem safe_allocFor {gidx layer expert : ℕ} (hserve : K.Serves C) (hN : N layer expert)
    (hx : (schedContract C promise).inv x) (h : At (AllocAt K N noneHeld) x) :
    Safe (schedContract C promise) (allocFor C o gidx layer expert)
      (fun r => At fun v g => ∃ p, AllocPost K N noneHeld ⟨layer, expert, p⟩ v g r) x := by
  have hram : ∀ y, (schedContract C promise).inv y → At (AllocAt K N noneHeld) y →
      Safe (schedContract C promise) (allocOrEvict C o layer expert 0)
        (fun r => At fun v g => ∃ p, AllocPost K N noneHeld ⟨layer, expert, p⟩ v g r) y := by
    intro y hy hφ
    exact Safe.mono (fun r _ _ hz => ⟨0, hz⟩) (safe_allocOrEvict hserve evicts_noneHeld hN hy hφ)
  unfold allocFor
  split
  · exact hram x hx h
  · rename_i dsp _
    refine Safe.bind hx (Safe.mono ?_ (safe_allocOrEvict hserve evicts_noneHeld hN hx h))
    intro r y hy hφ
    cases r with
    | none => exact hram y hy hφ
    | some i =>
      refine Safe.ret (stable_at (AllocAt K _ _)) hy hφ.2 ?_
      intro z _ hz
      exact ⟨dsp.pool, rfl, hz⟩

/-- The load of a reserved slot starts, or the slot stays reserved and the devices refused. -/
theorem safe_startAsyncLoad {i p layer expert : ℕ} (hok : Honors C promise o)
    (hfree : K.loadFree ≠ []) (hx : (schedContract C promise).inv x)
    (h : At (AllocAt K N (Function.update noneHeld i (some (.reserved ⟨layer, expert, p⟩)))) x) :
    Safe (schedContract C promise) (startAsyncLoad C o i layer expert)
      (fun r => At fun v g => v.active = K.active ∧ g.owed = K.owed ∧ g.phase = K.phase ∧
        (r.isSome → HeldOk noneHeld g.own) ∧
        (r = none → ¬ promise.starts ∧
          HeldOk (Function.update noneHeld i (some (.reserved ⟨layer, expert, p⟩))) g.own)) x := by
  refine Safe.getModify (stable_at _) hx h ?_
  rintro ⟨s, g⟩ hs ⟨hK, _, hheld⟩
  have hact : s.active = K.active := congrArg Steady.active hK
  have howed : g.owed = K.owed := congrArg Steady.owed hK
  have hphase : g.phase = K.phase := congrArg Steady.phase hK
  have hload : s.loadFree = K.loadFree := congrArg Steady.loadFree hK
  have hown := hheld.own_eq
  obtain ⟨idx, hidx⟩ : ∃ idx, s.loadFree.getLast? = some idx := by
    rw [hload]
    exact ⟨_, List.getLast?_eq_some_getLast hfree⟩
  have hactive : (startLoad C (o.accept layer expert) i layer expert s).active = K.active := by
    rw [← hact]
    simp only [startLoad, hidx]
    split <;> rfl
  by_cases hzero : (submitSlices (o.accept layer expert) (C.topo.numTensors layer expert) 0).1 = 0
  · have hstep : Step C promise (s, g) (startLoad C (o.accept layer expert) i layer expert s, g) :=
      .startNone s g i ⟨layer, expert, p⟩ _ hown (.inr hzero)
    have hnot : ¬ promise.starts := fun hl => hok.starts hl layer expert hzero
    have hat : At (fun v g => v.active = K.active ∧ g.owed = K.owed ∧ g.phase = K.phase ∧
        HeldOk (Function.update noneHeld i (some (.reserved ⟨layer, expert, p⟩))) g.own)
        (startLoad C (o.accept layer expert) i layer expert s, g) := ⟨hactive, howed, hphase, hheld⟩
    refine ⟨g, hstep, Safe.ret (stable_at _) ((schedContract C promise).guar_inv _ _ hs hstep) hat ?_⟩
    intro z _ hz
    have hnone : ((some idx).bind fun idx => if (submitSlices (o.accept layer expert)
        (C.topo.numTensors layer expert) 0).1 = 0 then none else some idx) = none := if_pos hzero
    dsimp only
    rw [hidx, hnone]
    exact ⟨hz.1, hz.2.1, hz.2.2.1, fun hf => absurd hf (by simp), fun _ => ⟨hnot, hz.2.2.2⟩⟩
  · have hstep : Step C promise (s, g) (startLoad C (o.accept layer expert) i layer expert s,
        g.setOwn i (.loading ⟨layer, expert, p⟩ idx)) := by
      exact .startLoad s g i ⟨layer, expert, p⟩ _ idx hown hidx hzero fun hl => hok.sound hl _ _
    have hat : At (fun v g => v.active = K.active ∧ g.owed = K.owed ∧ g.phase = K.phase ∧
        HeldOk noneHeld g.own)
        (startLoad C (o.accept layer expert) i layer expert s,
          g.setOwn i (.loading ⟨layer, expert, p⟩ idx)) :=
      ⟨hactive, howed, hphase, hheld.drop rfl rfl⟩
    refine ⟨_, hstep, Safe.ret (stable_at _) ((schedContract C promise).guar_inv _ _ hs hstep) hat ?_⟩
    intro z _ hz
    have hsome : ((some idx).bind fun idx => if (submitSlices (o.accept layer expert)
        (C.topo.numTensors layer expert) 0).1 = 0 then none else some idx) = some idx := if_neg hzero
    dsimp only
    rw [hidx, hsome]
    exact ⟨hz.1, hz.2.1, hz.2.2.1, fun _ => hz.2.2.2, fun hf => absurd hf (by simp)⟩

end alloc

theorem heldFrame_calm (hH : ∀ i a, H i = some a → ∀ k, a ≠ .evicting k) (F : Frame)
    (h : heldFrame H F) (i : ℕ) (k : Key) : F.own i ≠ .evicting k := HeldOk.calm h hH i k

theorem safe_serveLoop {o : Oracle} (hok : Honors C promise o) (es : List ℕ) (started noSlot : Bool)
    (hes : ∀ e ∈ es, e < C.topo.nExpert) (hx : (schedContract C promise).inv x) (h : At AtRest x) :
    Safe (schedContract C promise) (serveLoop C o es started noSlot) (fun _ => At AtRest) x := by
  induction es generalizing started noSlot x with
  | nil => exact Safe.ret (stable_at AtRest) hx h fun _ _ hy => hy
  | cons e es ih =>
    have hrest : ∀ e' ∈ es, e' < C.topo.nExpert := fun e' he' => hes e' (List.mem_cons_of_mem e he')
    have hstop : ∀ (r : Option (Bool × Bool)) y, (schedContract C promise).inv y → At AtRest y →
        Safe (schedContract C promise) (.ret r) (fun _ => At AtRest) y :=
      fun r y hy hφ => Safe.ret (stable_at AtRest) hy hφ fun _ _ hz => hz
    refine Safe.get (stable_at _) hx h ?_
    intro y hy hφ
    split
    · exact ih _ _ hrest hy hφ
    · rename_i hneed
      have hneed' : y.1.active.stillNeed e = true := by simpa using hneed
      have hpresent : y.1.active.present = true := by
        by_contra habs
        have habs' : y.1.active.present = false := by simpa using habs
        have hclear : y.1.active = Active.cleared := hφ.2.cleared habs'
        rw [hclear] at hneed'
        cases hneed'
      split
      · exact hstop _ y hy hφ
      · rename_i hfree
        split
        · have hat : At (fun v g => AtRest v g ∧ v.active.present = true) y := ⟨hφ, hpresent⟩
          refine Safe.bind hy (Safe.mono ?_
            (safe_failResting (heldFrame_calm noneHeld_calm) hy hat))
          exact fun _ z hz hφz => hstop none z hz hφz
        · split
          · -- a copy became READY since the request was registered
            split
            · exact ih _ _ hrest hy hφ
            · rename_i i p hscan
              refine Safe.bind hy (Safe.mono ?_ (safe_settleResting
                (heldFrame_calm noneHeld_calm) hy
                (resident_of_scan hy.1 (HeldOk.calm hφ.1 noneHeld_calm) hscan) hφ))
              exact fun _ z hz hφz => ih _ _ hrest hz hφz
          · rename_i hready
            split
            · exact ih _ _ hrest hy hφ
            · rename_i hmoving
              have habs := absent_of_anyPool hy.1 (by simpa using hready) (by simpa using hmoving)
              have hserve : (steadyOf y.1.view y.2).Serves C :=
                ⟨hφ.2.phase.trans (if_pos hpresent), hpresent, e, hes e List.mem_cons_self, hneed'⟩
              have hat : At (AllocAt (steadyOf y.1.view y.2)
                  (fun l' e' => l' = y.1.active.layer ∧ e' = e) noneHeld) y := by
                refine ⟨rfl, ?_, hφ.1⟩
                rintro l' e' ⟨rfl, rfl⟩ p
                exact habs p
              -- the request is as it was when an allocation that found no slot returns
              have hlink : ∀ v g, v.active = y.1.active → g.owed = y.2.owed → g.phase = y.2.phase →
                  HeldOk noneHeld g.own → AtRest v g := by
                intro v g hv hg hph hheld
                exact ⟨hheld, hφ.2.congr hv hg hph⟩
              refine Safe.bind hy (Safe.mono ?_ (safe_allocFor hserve ⟨rfl, rfl⟩ hy hat))
              intro r z hz hφz
              obtain ⟨p, hpost⟩ := hφz
              cases r with
              | none =>
                have hK := hpost.1
                refine ih _ _ hrest hz (hlink _ _ ?_ ?_ ?_ hpost.2.2)
                · exact congrArg Steady.active hK
                · exact congrArg Steady.owed hK
                · exact congrArg Steady.phase hK
              | some i =>
                refine Safe.bind hz (Safe.mono ?_ (safe_startAsyncLoad hok hfree hz hpost.2))
                intro r' u hu hφu
                obtain ⟨hact, howed, hphase, hsome, hnone⟩ := hφu
                cases r' with
                | some idx => exact ih _ _ hrest hu (hlink _ _ hact howed hphase (hsome rfl))
                | none =>
                  have hat' : At (fun v g => v.active = y.1.active ∧ g.owed = y.2.owed ∧
                      g.phase = y.2.phase ∧ HeldOk (Function.update noneHeld i
                        (some (.reserved ⟨y.1.active.layer, e, p⟩))) g.own) u :=
                    ⟨hact, howed, hphase, (hnone rfl).2⟩
                  refine Safe.modify (stable_at _) hu hat' ?_
                  rintro ⟨s, g⟩ hs ⟨hact', howed', hphase', hheld⟩
                  have hown := hheld.own_eq
                  have hpool : ((subpoolOfSlot C.geometry i).map Subpool.pool).getD 0 = p := by
                    have hclaim : (g.own i).claim = some (⟨y.1.active.layer, e, p⟩, .loading) := by
                      rw [hown]
                      rfl
                    obtain ⟨sp, hsp, hp, _⟩ := hs.1.region i _ _ hclaim
                    rw [hsp]
                    exact hp
                  rw [hpool]
                  have hstep : Step C promise (s, g)
                      (s.setDir ⟨y.1.active.layer, e, p⟩ .absent none, g.setOwn i .abandoned) :=
                    .abandon s g i _ (hnone rfl).1 hown
                  refine ⟨_, hstep, hstop _ _ ((schedContract C promise).guar_inv _ _ hs hstep) ?_⟩
                  exact hlink _ _ hact' howed' hphase' (hheld.drop rfl rfl)

theorem safe_checkStall {o : Oracle} {started noSlot : Bool} (hx : (schedContract C promise).inv x)
    (h : At AtRest x) :
    Safe (schedContract C promise) (checkStall C o started noSlot) (fun _ => At AtRest) x := by
  have hret : ∀ (b : Bool) y, (schedContract C promise).inv y → At AtRest y →
      Safe (schedContract C promise) (.ret b) (fun _ => At AtRest) y :=
    fun b y hy hφ => Safe.ret (stable_at AtRest) hy hφ fun _ _ hz => hz
  have harm : ∀ (b r : Bool) y, (schedContract C promise).inv y →
      At (fun v g => AtRest v g ∧ (v.active.present = true ∨ b = false)) y →
      Safe (schedContract C promise) (do
        Prog.modify fun s => s.armStall b
        Prog.ret r) (fun _ => At AtRest) y := by
    intro b r y hy hφ
    refine Safe.modify (stable_at _) hy hφ ?_
    rintro ⟨s, g⟩ hs ⟨⟨hheld, hlink⟩, hb⟩
    have hstep : Step C promise (s, g) (s.armStall b, g) := .arm s g b
    refine ⟨g, hstep, hret r _ ((schedContract C promise).guar_inv _ _ hs hstep)
      ⟨hheld, ?_, ?_, hlink.phase⟩⟩
    · exact hlink.owed
    · intro habs
      have habs' : s.active.present = false := habs
      rcases hb with hp | rfl
      · have hp' : s.active.present = true := hp
        rw [hp'] at habs'
        cases habs'
      · have hclear : s.active = Active.cleared := hlink.cleared habs'
        change { s.active with stallArmed := false } = Active.cleared
        rw [hclear]
        rfl
  have hpresent : ∀ y : Sys × Ghost, At AtRest y → y.1.active.nLeft ≠ 0 → y.1.active.present = true := by
    intro y hφ hleft
    by_contra habs
    have habs' : y.1.active.present = false := by simpa using habs
    have hclear : y.1.active = Active.cleared := hφ.2.cleared habs'
    rw [hclear] at hleft
    exact hleft rfl
  refine Safe.get (stable_at _) hx h ?_
  intro y hy hφ
  split
  · exact harm false started y hy ⟨hφ, .inr rfl⟩
  · rename_i hcond
    have hleft : y.1.active.nLeft ≠ 0 := fun hz => hcond (.inr hz)
    have hφ' : At (fun v g => AtRest v g ∧ v.active.present = true) y := ⟨hφ, hpresent y hφ hleft⟩
    split
    · exact hret started y hy hφ
    · split
      · exact harm true started y hy ⟨hφ, .inl (hpresent y hφ hleft)⟩
      · split
        · refine Safe.bind hy (Safe.mono ?_ (safe_failResting (heldFrame_calm noneHeld_calm) hy hφ'))
          exact fun _ z hz hφz => hret true z hz hφz
        · exact hret started y hy hφ

theorem safe_acceptRequests {o : Oracle} (hok : Honors C promise o)
    (hx : (schedContract C promise).inv x) (h : At AtRest x) :
    Safe (schedContract C promise) (acceptRequests C o) (fun _ => At AtRest) x := by
  have hret : ∀ (b : Bool) y, (schedContract C promise).inv y → At AtRest y →
      Safe (schedContract C promise) (.ret b) (fun _ => At AtRest) y :=
    fun b y hy hφ => Safe.ret (stable_at AtRest) hy hφ fun _ _ hz => hz
  have hexperts : ∀ e ∈ List.range C.topo.nExpert, e < C.topo.nExpert := fun e he => List.mem_range.mp he
  refine Safe.get (stable_at _) hx h ?_
  intro y hy hφ
  split
  · refine Safe.bind hy (Safe.mono ?_ (safe_serveLoop hok _ false false hexperts hy hφ))
    intro r z hz hφz
    cases r with
    | none => exact hret true z hz hφz
    | some r => exact safe_checkStall hz hφz
  · rename_i hpresent
    have hat : At (ActiveAt (frameOf y.1.view y.2) Active.cleared [] (· = .idle)) y := by
      have habs : y.1.active.present = false := by simpa using hpresent
      have hclear : y.1.active = Active.cleared := hφ.2.cleared habs
      refine ⟨rfl, hclear, ?_, ?_⟩
      · rw [hφ.2.owed]
        exact congrArg Active.pinnedSlots hclear
      · rw [hφ.2.phase]
        exact if_neg hpresent
    refine Safe.getModify (stable_at _) hy hat ?_
    rintro ⟨s, g⟩ hs ⟨hF, hA, howed, hphase⟩
    have hact : s.active = Active.cleared := hA
    have hstep : Step C promise (s, g) (s.popRequest, { g with phase := s.popPhase }) :=
      .pop s g hphase (by rw [hact]; rfl)
    have hinv := (schedContract C promise).guar_inv _ _ hs hstep
    have hback : ∀ z, At (Settles (frameOf y.1.view y.2)) z → At AtRest z := by
      intro z hz
      refine ⟨?_, hz.2⟩
      rw [hz.1]
      exact hφ.1
    have hpopped : ∀ ph, s.popPhase = ph →
        At (ActiveAt (frameOf y.1.view y.2) Active.cleared [] (· = ph))
          (s.popRequest, { g with phase := s.popPhase }) := fun ph hph => ⟨hF, hA, howed, hph⟩
    refine ⟨_, hstep, ?_⟩
    split
    · rename_i hnil
      have hidle : s.popPhase = .idle := by
        have hnil' : s.requests = [] := hnil
        rw [Sys.popPhase, hnil']
      exact hret false _ hinv (hback _ (settles_cleared (hpopped _ hidle)))
    · rename_i r rest hcons
      have hr : s.popPhase = .popped r := by
        have hcons' : s.requests = r :: rest := hcons
        rw [Sys.popPhase, hcons']
      refine Safe.bind hinv (Safe.mono ?_ (safe_activeRegister hinv
        (HeldOk.calm hφ.1 noneHeld_calm) (hpopped _ hr)))
      intro _ z hz hφz
      refine Safe.bind hz (Safe.mono ?_ (safe_serveLoop hok _ false false hexperts hz (hback z hφz)))
      exact fun _ u hu hφu => hret true u hu hφu

/-- A ring element whose last report has been read waits to be freed. -/
def reported (H : ℕ → Option Owner) (idx : ℕ) (F : Frame) : Prop :=
  HeldOk H F.own ∧ F.loadInUse idx = true ∧ (F.load idx).pending = 0

theorem reported_calm {idx : ℕ} (hH : ∀ i a, H i = some a → ∀ k, a ≠ .evicting k) (F : Frame)
    (h : reported H idx F) (i : ℕ) (k : Key) : F.own i ≠ .evicting k := HeldOk.calm h.1 hH i k

theorem safe_finishLoad {idx : ℕ} {t : LoadTask} {failed : Bool}
    (hx : (schedContract C promise).inv x)
    (h : At (Resting (reported (Function.update noneHeld t.slot (some
      (if failed then .broken t.key else .arrived t.key .loading))) idx)) x) :
    Safe (schedContract C promise) (finishLoad t failed)
      (fun _ => At (Resting fun F => reported noneHeld idx F ∧
        (failed = false → F.own t.slot = .resident t.key))) x := by
  cases failed with
  | true =>
    refine Safe.modify (stable_at _) hx h ?_
    rintro ⟨s, g⟩ hs ⟨⟨hheld, hrep⟩, hlink⟩
    have hstep : Step C promise (s, g) (s.markFailed t.slot, g.setOwn t.slot (.failing t.key)) :=
      .markFailed s g t.slot t.key hheld.own_eq
    have hat : At (Resting (reported (Function.update noneHeld t.slot (some (.failing t.key))) idx))
        (s.markFailed t.slot, g.setOwn t.slot (.failing t.key)) :=
      ⟨⟨hheld.change _, hrep⟩, hlink.congr rfl rfl rfl⟩
    refine ⟨_, hstep, Safe.modifyLast (stable_at _)
      ((schedContract C promise).guar_inv _ _ hs hstep) hat ?_⟩
    rintro ⟨s', g'⟩ hs' ⟨⟨hheld', hrep'⟩, hlink'⟩
    have hfail : Step C promise (s', g') (s'.setDir t.key .absent none, g'.setOwn t.slot .failed) :=
      .fail s' g' t.slot t.key hheld'.own_eq
    refine ⟨_, hfail, Safe.ret (stable_at (Resting (reported noneHeld idx)))
      ((schedContract C promise).guar_inv _ _ hs' hfail) ?_ ?_⟩
    · exact ⟨⟨hheld'.drop rfl rfl, hrep'⟩, hlink'.congr rfl rfl rfl⟩
    · exact fun _ _ hz => ⟨⟨hz.1, fun hf => absurd hf (by simp)⟩, hz.2⟩
  | false =>
    refine Safe.modify (stable_at _) hx h ?_
    rintro ⟨s, g⟩ hs ⟨⟨hheld, hrep⟩, hlink⟩
    have hstep : Step C promise (s, g) (s.markReady t.slot, g.setOwn t.slot (.landed t.key .loading)) :=
      .markReady s g t.slot t.key .loading hheld.own_eq
    have hat : At (Resting (reported (Function.update noneHeld t.slot
        (some (.landed t.key .loading))) idx))
        (s.markReady t.slot, g.setOwn t.slot (.landed t.key .loading)) :=
      ⟨⟨hheld.change _, hrep⟩, hlink.congr rfl rfl rfl⟩
    refine ⟨_, hstep, Safe.modifyLast (stable_at _)
      ((schedContract C promise).guar_inv _ _ hs hstep) hat ?_⟩
    rintro ⟨s', g'⟩ hs' ⟨⟨hheld', hrep'⟩, hlink'⟩
    have hsettle : Step C promise (s', g') (s'.setDir t.key .ready (some t.slot),
        g'.setOwn t.slot (.resident t.key)) :=
      .settleDir s' g' t.slot t.key .loading hheld'.own_eq
    refine ⟨_, hsettle, Safe.ret (stable_at (Resting fun F => reported noneHeld idx F ∧
      F.own t.slot = .resident t.key)) ((schedContract C promise).guar_inv _ _ hs' hsettle) ?_ ?_⟩
    · exact ⟨⟨⟨hheld'.drop rfl rfl, hrep'⟩, Ghost.setOwn_self ..⟩, hlink'.congr rfl rfl rfl⟩
    · exact fun _ _ hz => ⟨⟨hz.1.1, fun _ => hz.1.2⟩, hz.2⟩

theorem safe_reportActive {t : LoadTask} {failed : Bool} (hP : ∀ F, P F → ∀ i k, F.own i ≠ .evicting k)
    (hown : ∀ F, P F → failed = false → F.own t.slot = .resident t.key)
    (hx : (schedContract C promise).inv x) (h : At (Resting P) x) :
    Safe (schedContract C promise) (reportActive C t failed) (fun _ => At (Resting P)) x := by
  refine Safe.get (stable_at _) hx h ?_
  intro y hy hφ
  split
  · rename_i hcond
    cases failed with
    | true =>
      have hat : At (fun v g => Resting P v g ∧ v.active.present = true) y := ⟨hφ, hcond.1⟩
      exact safe_failResting hP hy hat
    | false => exact safe_settleResting hP hy (hown _ hφ.1 rfl) hφ
  · exact Safe.ret (stable_at (Resting P)) hy hφ fun _ _ hz => hz

theorem safe_drainCompletion {idx : ℕ} {ok : Bool} (hok : promise.sound → ok = true)
    (hx : (schedContract C promise).inv x) (h : At AtRest x) :
    Safe (schedContract C promise) (drainCompletion C idx ok) (fun _ => At AtRest) x := by
  refine Safe.act (stable_at _) hx h ?_
  rintro ⟨s, g⟩ hs ⟨hheld, hlink⟩ s' hev
  dsimp only at hev
  obtain ⟨hpos, hs'⟩ := takeEvent_eq hev
  obtain ⟨hloading, huse⟩ := hs.1.ring.loading idx hpos
  dsimp only at hloading huse
  have hview : s'.view = { s.view with load := s'.load } := by
    rw [hs']
    rfl
  dsimp only
  by_cases hlast : (s.load idx).pending = 1
  · simp only [ret_bind, if_pos hlast]
    have hpending : (s'.load idx).pending = 0 := by
      rw [hs']
      dsimp only
      rw [Function.update_self]
      dsimp only
      omega
    -- the owner the last report leads to
    have hstep : ∃ a, (a = if (s.load idx).failed || !ok then Owner.broken (s.load idx).key
        else .arrived (s.load idx).key .loading) ∧
        Step C promise (s, g) (s', g.setOwn (s.load idx).slot a) := by
      cases hf : (s.load idx).failed || !ok with
      | true =>
        refine ⟨_, rfl, .break s g idx ok s' ?_ hev hlast hf⟩
        intro hl
        have hsound := (hs.2.1 hl).unfailed idx hpos
        dsimp only at hsound
        rw [hsound, hok hl] at hf
        cases hf
      | false => exact ⟨_, rfl, .arrive s g idx ok s' hev hlast hf⟩
    obtain ⟨a, ha, hstep⟩ := hstep
    have hinv := (schedContract C promise).guar_inv _ _ hs hstep
    have hat : At (Resting (reported (Function.update noneHeld (s.load idx).slot (some
        (if (s.load idx).failed || !ok then .broken (s.load idx).key
          else .arrived (s.load idx).key .loading))) idx)) (s', g.setOwn (s.load idx).slot a) := by
      rw [← ha]
      refine ⟨⟨hheld.set _ a, ?_, hpending⟩, hlink.congr (by rw [hview]) rfl rfl⟩
      dsimp only [frameOf]
      rw [hview]
      exact huse
    refine ⟨_, hstep, Safe.bind hinv (Safe.mono ?_ (safe_finishLoad hinv hat))⟩
    intro _ y hy hφ
    refine Safe.bind hy (Safe.mono ?_ (safe_reportActive
      (fun F hF => reported_calm noneHeld_calm F hF.1) (fun F hF => hF.2) hy hφ))
    intro _ z hz hφz
    refine Safe.modifyLast (stable_at _) hz hφz ?_
    rintro ⟨t, g'⟩ ht ⟨⟨⟨hheld', hrep⟩, _⟩, hlink'⟩
    have hfree : Step C promise (t, g') (t.freeTask idx, g') := .freeTask t g' idx hrep.1 hrep.2
    refine ⟨g', hfree, Safe.ret (stable_at AtRest) ((schedContract C promise).guar_inv _ _ ht hfree)
      ?_ fun _ _ hu => hu⟩
    exact ⟨hheld', hlink'.congr rfl rfl rfl⟩
  · simp only [ret_bind, if_neg hlast]
    have hstep : Step C promise (s, g) (s', g) := .event s g idx ok s' hev hlast hok
    refine ⟨g, hstep, Safe.ret (stable_at AtRest) ((schedContract C promise).guar_inv _ _ hs hstep)
      ?_ fun _ _ hu => hu⟩
    exact ⟨hheld, hlink.congr (by rw [hview]) rfl rfl⟩

theorem safe_drainCompletions (done : List (ℕ × Bool)) (hok : promise.sound → ∀ d ∈ done, d.2 = true)
    (hx : (schedContract C promise).inv x) (h : At AtRest x) :
    Safe (schedContract C promise) (drainCompletions C done) (fun _ => At AtRest) x := by
  induction done generalizing x with
  | nil => exact Safe.ret (stable_at AtRest) hx h fun _ _ hy => hy
  | cons d done ih =>
    obtain ⟨idx, ok⟩ := d
    have hhead : promise.sound → ok = true := fun hl => hok hl (idx, ok) List.mem_cons_self
    refine Safe.bind hx (Safe.mono ?_ (safe_drainCompletion hhead hx h))
    intro _ y hy hφ
    exact ih (fun hl d' hd' => hok hl d' (List.mem_cons_of_mem _ hd')) hy hφ

theorem safe_drainMoves (n : ℕ) (hx : (schedContract C promise).inv x) (h : At AtRest x) :
    Safe (schedContract C promise) (drainMoves C n) (fun _ => At AtRest) x := by
  induction n generalizing x with
  | zero => exact Safe.ret (stable_at AtRest) hx h fun _ _ hy => hy
  | succ n ih =>
    refine Safe.getModify (stable_at _) hx h ?_
    rintro ⟨s, g⟩ hs ⟨hheld, hlink⟩
    cases hdone : s.moveDone with
    | nil =>
      have hsame : s.popMove = s := by
        unfold Sys.popMove
        rw [hdone]
        cases s
        cases hdone
        rfl
      dsimp only
      rw [hsame]
      refine ⟨g, .stutter _, ?_⟩
      exact Safe.ret (stable_at AtRest) hs ⟨hheld, hlink⟩ fun _ _ hy => hy
    | cons m rest =>
      have hmem : m ∈ s.moves := by simp [Sys.moves, hdone]
      obtain ⟨hsrc, b, hdst⟩ := hs.1.moves.tasks m hmem
      dsimp only at hsrc hdst
      have hne : m.dstSlot ≠ m.srcSlot := by
        intro heq
        rw [heq, hsrc] at hdst
        cases hdst
      have hpop : Step C promise (s, g) (s.popMove,
          (g.setOwn m.srcSlot (.drained m.layer m.expert)).setOwn m.dstSlot (.arrived m.dstKey b)) :=
        .popMove s g m rest b hdone hdst
      have hinv := (schedContract C promise).guar_inv _ _ hs hpop
      -- the operation holds the source until the expert is settled in its new slot
      let D := Function.update noneHeld m.srcSlot (some (Owner.drained m.layer m.expert))
      have hD : D m.dstSlot = none := by
        change Function.update noneHeld m.srcSlot _ m.dstSlot = none
        rw [Function.update_of_ne hne]
        rfl
      have hDcalm : ∀ i a, D i = some a → ∀ k, a ≠ .evicting k := by
        intro i a ha k
        by_cases hi : i = m.srcSlot
        · subst hi
          change Function.update noneHeld _ _ _ = _ at ha
          rw [Function.update_self] at ha
          cases ha
          simp
        · change Function.update noneHeld _ _ _ = _ at ha
          rw [Function.update_of_ne hi] at ha
          cases ha
      have hat : At (Resting (heldFrame (Function.update D m.dstSlot (some (.arrived m.dstKey b)))))
          (s.popMove,
            (g.setOwn m.srcSlot (.drained m.layer m.expert)).setOwn m.dstSlot (.arrived m.dstKey b)) :=
        ⟨(hheld.set _ _).set _ _, hlink.congr rfl rfl rfl⟩
      refine ⟨_, hpop, ?_⟩
      dsimp only
      refine Safe.modify (stable_at _) hinv hat ?_
      rintro ⟨s₁, g₁⟩ hs₁ ⟨hheld₁, hlink₁⟩
      have hready : Step C promise (s₁, g₁) (s₁.markReady m.dstSlot,
          g₁.setOwn m.dstSlot (.landed m.dstKey b)) :=
        .markReady s₁ g₁ m.dstSlot m.dstKey b (HeldOk.own_eq hheld₁)
      have hat₁ : At (Resting (heldFrame (Function.update D m.dstSlot (some (.landed m.dstKey b)))))
          (s₁.markReady m.dstSlot, g₁.setOwn m.dstSlot (.landed m.dstKey b)) :=
        ⟨HeldOk.change hheld₁ _, hlink₁.congr rfl rfl rfl⟩
      refine ⟨_, hready, Safe.modify (stable_at _)
        ((schedContract C promise).guar_inv _ _ hs₁ hready) hat₁ ?_⟩
      rintro ⟨s₂, g₂⟩ hs₂ ⟨hheld₂, hlink₂⟩
      have hsettle : Step C promise (s₂, g₂) (s₂.setDir m.dstKey .ready (some m.dstSlot),
          g₂.setOwn m.dstSlot (.resident m.dstKey)) :=
        .settleDir s₂ g₂ m.dstSlot m.dstKey b (HeldOk.own_eq hheld₂)
      have hinv₂ := (schedContract C promise).guar_inv _ _ hs₂ hsettle
      have hat₂ : At (Resting (heldFrame D)) (s₂.setDir m.dstKey .ready (some m.dstSlot),
          g₂.setOwn m.dstSlot (.resident m.dstKey)) :=
        ⟨HeldOk.drop hheld₂ hD rfl, hlink₂.congr rfl rfl rfl⟩
      refine ⟨_, hsettle, Safe.bind hinv₂ (Safe.mono ?_
        (safe_settleResting (heldFrame_calm hDcalm) hinv₂ (Ghost.setOwn_self ..) hat₂))⟩
      intro _ y hy hφ
      refine Safe.modify (stable_at _) hy hφ ?_
      rintro ⟨s₃, g₃⟩ hs₃ ⟨hheld₃, hlink₃⟩
      have hrelease : Step C promise (s₃, g₃) (s₃.releaseToEmpty m.srcSlot,
          g₃.setOwn m.srcSlot .free) :=
        .release s₃ g₃ m.srcSlot (.inr ⟨m.layer, m.expert, HeldOk.own_eq hheld₃⟩)
      refine ⟨_, hrelease, ih ((schedContract C promise).guar_inv _ _ hs₃ hrelease) ?_⟩
      exact ⟨HeldOk.drop hheld₃ rfl rfl, hlink₃.congr rfl rfl rfl⟩

end Sched
end StreamMoE
