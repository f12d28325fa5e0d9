import StreamMoE.ActiveSafe

/-! `alloc_or_evict` keeps the scheduler's contract and ends with a slot reserved for the expert
or with none. -/
namespace StreamMoE
namespace Sched

open AtomicProg SlotWord SchedConfig PoolGeometry

/-- Owners that may stand between two operations of the scheduler. -/
def Owner.settled : Owner → Bool
  | .free | .loading _ _ | .resident _ | .failed | .abandoned | .source _ _ => true
  | .target _ .movingIn => true
  | _ => false

/-- The operation at work owns the slots `H` lists; every other slot is settled. -/
def HeldOk (H : ℕ → Option Owner) (own : ℕ → Owner) : Prop :=
  ∀ i, (∀ a, H i = some a → own i = a) ∧ (H i = none → (own i).settled = true)

/-- What an allocation leaves alone. -/
structure Steady where
  active : Active
  owed : List ℕ
  phase : Phase
  loadFree : List ℕ
  loadInUse : ℕ → Bool
  load : ℕ → LoadTask

def steadyOf (v : View) (g : Ghost) : Steady := ⟨v.active, g.owed, g.phase, v.loadFree, v.loadInUse, v.load⟩

def Steady.Serves (C : Config) (K : Steady) : Prop :=
  K.phase = .active ∧ K.active.present = true ∧ ∃ e < C.topo.nExpert, K.active.stillNeed e = true

/-- The experts in `N` are in no pool. -/
def Absent (N : ℕ → ℕ → Prop) (dir : Key → DirEntry) : Prop :=
  ∀ l e, N l e → ∀ p, (dir ⟨l, e, p⟩).state = .absent

def AllocAt (K : Steady) (N : ℕ → ℕ → Prop) (H : ℕ → Option Owner) (v : View) (g : Ghost) : Prop :=
  steadyOf v g = K ∧ Absent N v.dir ∧ HeldOk H g.own

/-- The slot found for an expert is reserved for it. -/
def AllocPost (K : Steady) (N : ℕ → ℕ → Prop) (H : ℕ → Option Owner) (k : Key) (v : View) (g : Ghost) :
    Option ℕ → Prop
  | none => AllocAt K N H v g
  | some i => H i = none ∧ AllocAt K (fun l e => N l e ∧ ¬ (l = k.layer ∧ e = k.expert))
      (Function.update H i (some (.reserved k))) v g

/-- A victim was READY in its pool and its refcount was read as zero. -/
def Victim (sp : Subpool) (g : Ghost) (i : ℕ) (k : Key) : Prop :=
  i ∈ g.idle ∧ g.own i = .resident k ∧ sp.owns i = true

section held

variable {H : ℕ → Option Owner} {own : ℕ → Owner} {i : ℕ} {a b : Owner}

theorem HeldOk.set (h : HeldOk H own) (i : ℕ) (a : Owner) :
    HeldOk (Function.update H i (some a)) (Function.update own i a) := by
  intro j
  by_cases hj : j = i
  · subst hj
    rw [Function.update_self, Function.update_self]
    exact ⟨fun b hb => Option.some.inj hb, fun hn => absurd hn (by simp)⟩
  · rw [Function.update_of_ne hj, Function.update_of_ne hj]
    exact h j

theorem HeldOk.change (h : HeldOk (Function.update H i (some b)) own) (a : Owner) :
    HeldOk (Function.update H i (some a)) (Function.update own i a) := by
  have hset := h.set i a
  rwa [Function.update_idem] at hset

theorem HeldOk.drop (h : HeldOk (Function.update H i (some b)) own) (hi : H i = none)
    (ha : a.settled = true) : HeldOk H (Function.update own i a) := by
  intro j
  by_cases hj : j = i
  · subst hj
    rw [Function.update_self, hi]
    exact ⟨fun c hc => absurd hc (by simp), fun _ => ha⟩
  · have hold := h j
    rw [Function.update_of_ne hj] at hold
    rw [Function.update_of_ne hj]
    exact hold

theorem HeldOk.own_eq (h : HeldOk (Function.update H i (some a)) own) : own i = a :=
  (h i).1 a (Function.update_self ..)

theorem Absent.clear {N : ℕ → ℕ → Prop} {dir : Key → DirEntry} (h : Absent N dir) (k : Key) :
    Absent N (Function.update dir k ⟨.absent, none⟩) := by
  intro l e hN p
  by_cases hk : (⟨l, e, p⟩ : Key) = k
  · rw [hk, Function.update_self]
  · rw [Function.update_of_ne hk]
    exact h l e hN p

theorem Absent.set {N : ℕ → ℕ → Prop} {dir : Key → DirEntry} (h : Absent N dir) {k : Key}
    (hk : ¬ N k.layer k.expert) (entry : DirEntry) : Absent N (Function.update dir k entry) := by
  intro l e hN p
  have hne : (⟨l, e, p⟩ : Key) ≠ k := by
    intro heq
    rw [← heq] at hk
    exact hk hN
  rw [Function.update_of_ne hne]
  exact h l e hN p

end held

theorem Owner.free_of_empty {a : Owner} (hst : a.state = .empty) (hs : a.settled = true) :
    a = .free := by
  cases a with
  | free => rfl
  | reserving k => exact absurd hs (by simp [Owner.settled])
  | _ => cases hst

variable {C : Config} {promise : Promise} {K : Steady} {N : ℕ → ℕ → Prop} {H : ℕ → Option Owner}
  {x : Sys × Ghost}

/-- Slots held by an operation that allocates are being evicted. -/
def Evicts (H : ℕ → Option Owner) : Prop := ∀ i a, H i = some a → a.state = .evicting

theorem held_none {g : Ghost} (hH : Evicts H) (h : HeldOk H g.own) {i : ℕ}
    (hst : (g.own i).state ≠ .evicting) : H i = none := by
  cases hi : H i with
  | none => rfl
  | some a =>
    have hown := (h i).1 a hi
    exact absurd (hown ▸ hH i a hi) hst

theorem safe_findEmpty (hH : Evicts H) (n i : ℕ) (hx : (schedContract C promise).inv x)
    (h : At (AllocAt K N H) x) :
    Safe (schedContract C promise) (findEmpty n i) (fun r => At fun v g => AllocAt K N H v g ∧
      ∀ j, r = some j → (i ≤ j ∧ j < i + n) ∧ g.own j = .free ∧ H j = none) x := by
  induction n generalizing i x with
  | zero =>
    refine Safe.ret (stable_at _) hx h ?_
    exact fun y _ hy => ⟨hy, fun j hj => by cases hj⟩
  | succ n ih =>
    refine Safe.get (stable_at _) hx h ?_
    intro y hy hφ
    split
    · rename_i hempty
      have hst := hy.1.state i
      rw [hempty] at hst
      have hstate := code_injective hst.symm
      have hnone := held_none (i := i) hH hφ.2.2 (by rw [hstate]; simp)
      have hsettled := (hφ.2.2 i).2 hnone
      have hfree := Owner.free_of_empty hstate hsettled
      have hφ' : At (fun v g => AllocAt K N H v g ∧ g.own i = .free) y := ⟨hφ, hfree⟩
      refine Safe.ret (stable_at _) hy hφ' ?_
      intro z _ hz
      refine ⟨hz.1, ?_⟩
      intro j hj
      cases hj
      exact ⟨by omega, hz.2, hnone⟩
    · refine Safe.mono ?_ (ih (i + 1) hy hφ)
      intro r z _ hz
      refine ⟨hz.1, ?_⟩
      intro j hj
      obtain ⟨hb, hrest⟩ := hz.2 j hj
      exact ⟨by omega, hrest⟩

/-- A slot that passes the tests of the scan is resident and was not pinned. -/
theorem evictable_spec {s : Sys} {g : Ghost} (h : WF C (s, g)) {sp : Subpool} {pool layer e i : ℕ}
    {fresh : Bool} (hev : evictable s sp pool layer e fresh = some i) :
    g.own i = .resident ⟨layer, e, pool⟩ ∧ sp.owns i = true ∧ slotWordRefcount (s.word i) = 0 := by
  unfold evictable at hev
  split at hev
  · cases hev
  · rename_i j hfind
    split at hev
    · cases hev
    · rename_i hrange
      split at hev
      · cases hev
      · rename_i hword
        split at hev
        · cases hev
        · cases hev
          obtain ⟨hready, hrc⟩ := not_or.mp hword
          have hentry : s.dir ⟨layer, e, pool⟩ = ⟨.ready, some i⟩ := by
            unfold Sys.find at hfind
            split at hfind
            · rename_i hst
              rw [← hst, ← hfind]
            · cases hfind
          have hclaim := (h.dir.named _ _ _).mp hentry
          have hst := h.state i
          dsimp only at hst hclaim
          rw [not_not.mp hready] at hst
          have hstate := code_injective hst.symm
          refine ⟨?_, ?_, not_not.mp hrc⟩
          · rcases Owner.of_claim_ready hclaim with hr | hr
            · exact hr
            · rw [hr] at hstate
              cases hstate
          · simp only [Subpool.owns, decide_eq_true_eq]
            omega

theorem safe_searchLayer {o : Oracle} {cur : ℕ} {sp : Subpool} {pool : ℕ} {fresh : Bool} {layer : ℕ}
    (hserve : K.Serves C) (es : List ℕ) (best : Option (Rat × ℕ × ℕ))
    (hx : (schedContract C promise).inv x)
    (h : At (fun v g => AllocAt K N H v g ∧
      ∀ b, best = some b → Victim sp g b.2.1 ⟨layer, b.2.2, pool⟩) x) :
    Safe (schedContract C promise) (searchLayer o cur sp pool fresh layer es best)
      (fun r => At fun v g => AllocAt K N H v g ∧
        ∀ i e, r = some (i, e) → Victim sp g i ⟨layer, e, pool⟩) x := by
  induction es generalizing best x with
  | nil =>
    refine Safe.ret (stable_at _) hx h ?_
    intro y _ hy
    refine ⟨hy.1, ?_⟩
    intro i e hr
    obtain ⟨b, hb, heq⟩ := Option.map_eq_some_iff.mp hr
    have hvic := hy.2 b hb
    rw [heq] at hvic
    exact hvic
  | cons e es ih =>
    refine Safe.getWith (stable_at _) hx h ?_
    rintro ⟨s, g⟩ hy hφ
    dsimp only
    cases hev : evictable s sp pool layer e fresh with
    | none => exact ⟨g, .stutter _, ih best hy hφ⟩
    | some i =>
      obtain ⟨hown, hsp, hrc⟩ := evictable_spec hy.1 hev
      have hact : s.active = K.active := congrArg Steady.active hφ.1.1
      have hphase : g.phase = K.phase := congrArg Steady.phase hφ.1.1
      have hstep : Step C promise (s, g) (s, { g with idle := i :: g.idle }) :=
        .observe s g i _ (hphase.trans hserve.1) (by rw [Serving, hact]; exact hserve.2) hown hrc
      have hinv := (schedContract C promise).guar_inv _ _ hy hstep
      refine ⟨_, hstep, ?_⟩
      dsimp only
      split
      · refine ih _ hinv ⟨hφ.1, ?_⟩
        intro b hb
        cases hb
        exact ⟨List.mem_cons_self, hown, hsp⟩
      · refine ih _ hinv ⟨hφ.1, ?_⟩
        intro b hb
        obtain ⟨h₁, h₂, h₃⟩ := hφ.2 b hb
        exact ⟨List.mem_cons_of_mem i h₁, h₂, h₃⟩

theorem safe_searchRing {o : Oracle} {n cur : ℕ} {sp : Subpool} {pool : ℕ} {fresh : Bool}
    (hserve : K.Serves C) (layers : List ℕ) (hx : (schedContract C promise).inv x)
    (h : At (AllocAt K N H) x) :
    Safe (schedContract C promise) (searchRing o n cur sp pool fresh layers)
      (fun r => At fun v g => AllocAt K N H v g ∧
        ∀ i l e, r = some (i, l, e) → Victim sp g i ⟨l, e, pool⟩) x := by
  induction layers generalizing x with
  | nil =>
    refine Safe.ret (stable_at _) hx h ?_
    exact fun y _ hy => ⟨hy, fun i l e hr => by cases hr⟩
  | cons layer layers ih =>
    have hstart : At (fun v g => AllocAt K N H v g ∧
        ∀ b, (none : Option (Rat × ℕ × ℕ)) = some b → Victim sp g b.2.1 ⟨layer, b.2.2, pool⟩) x :=
      ⟨h, fun b hb => by cases hb⟩
    refine Safe.bind hx (Safe.mono ?_ (safe_searchLayer hserve _ none hx hstart))
    intro r y hy hφ
    cases r with
    | none => exact ih hy hφ.1
    | some ie =>
      obtain ⟨i, e⟩ := ie
      refine Safe.ret (stable_at _) hy hφ ?_
      intro z _ hz
      refine ⟨hz.1, ?_⟩
      intro i' l' e' hr
      cases hr
      exact hz.2 i e rfl

theorem safe_findVictim {o : Oracle} {sp : Subpool} {gidx layer pool : ℕ} (hserve : K.Serves C)
    (hx : (schedContract C promise).inv x) (h : At (AllocAt K N H) x) :
    Safe (schedContract C promise) (findVictim C o sp gidx layer pool)
      (fun r => At fun v g => AllocAt K N H v g ∧
        ∀ i l e, r = some (i, l, e) → Victim sp g i ⟨l, e, pool⟩) x := by
  refine Safe.get (stable_at _) hx h ?_
  intro y hy hφ
  split
  · refine Safe.ret (stable_at _) hy hφ ?_
    exact fun z _ hz => ⟨hz, fun i l e hr => by cases hr⟩
  · rename_i ring _
    refine Safe.bind hy (Safe.mono ?_ (safe_searchRing hserve ring hy hφ))
    intro r z hz hφz
    cases r with
    | none => exact safe_searchRing hserve ring hz hφz.1
    | some v => exact Safe.ret (stable_at _) hz hφz fun _ _ hu => hu

theorem not_absent_of_resident {s : Sys} {g : Ghost} (h : WF C (s, g)) (hN : Absent N s.dir) {i : ℕ}
    {k : Key} {a : Owner} {st : ExpertState} (hown : g.own i = a) (ha : a.claim = some (k, st)) :
    ¬ N k.layer k.expert := by
  intro hk
  have hclaim : (g.own i).claim = some (k, st) := by rw [hown, ha]
  have hst := h.dir.state_eq hclaim
  exact Owner.claim_ne_absent hclaim (hst ▸ hN _ _ hk k.pool)

/-- What `reserve` is asked for: a slot in pool 0. -/
def ReserveOk (C : Config) (promise : Promise) (K : Steady)
    (reserve : ℕ → ℕ → Prog Sys (Option ℕ)) : Prop :=
  ∀ (N : ℕ → ℕ → Prop) (H : ℕ → Option Owner) (l e : ℕ) (x : Sys × Ghost), Evicts H → N l e →
    (schedContract C promise).inv x → At (AllocAt K N H) x →
    Safe (schedContract C promise) (reserve l e)
      (fun r => At fun v g => AllocPost K N H ⟨l, e, 0⟩ v g r) x

/-- The queued move and the entry of its destination. -/
theorem safe_submitMove {m : MoveTask} (hm : m.dstPool = 0) (hne : m.dstSlot ≠ m.srcSlot)
    (hsrc : H m.srcSlot = none) (hdst : H m.dstSlot = none) (hN : ¬ N m.layer m.expert)
    (hx : (schedContract C promise).inv x)
    (h : At (AllocAt K N (Function.update (Function.update H m.srcSlot
      (some (.drained m.layer m.expert))) m.dstSlot (some (.reserved m.dstKey)))) x) :
    Safe (schedContract C promise)
      (Prog.bind (submitMove C m) fun ok =>
        if ok then do
          transition ⟨m.layer, m.expert, 0⟩ .movingIn (some m.dstSlot)
          Prog.ret true
        else do
          transition ⟨m.layer, m.expert, 0⟩ .absent none
          Prog.modify fun s => s.releaseToEmpty m.dstSlot
          Prog.ret false)
      (fun r => At fun v g => AllocAt K N
        (if r then H else Function.update H m.srcSlot (some (.drained m.layer m.expert))) v g) x := by
  have hkey : m.dstKey = ⟨m.layer, m.expert, 0⟩ := by rw [MoveTask.dstKey, hm]
  have hdst' : Function.update H m.srcSlot (some (.drained m.layer m.expert)) m.dstSlot = none := by
    rw [Function.update_of_ne hne, hdst]
  unfold submitMove
  split
  · refine Safe.act (stable_at _) hx h ?_
    rintro ⟨s, g⟩ hs ⟨hK, habs, hheld⟩ t ht
    cases ht
    have hown₂ : g.own m.dstSlot = .reserved m.dstKey := hheld.own_eq
    have hown₁ : g.own m.srcSlot = .drained m.layer m.expert := by
      apply (hheld m.srcSlot).1
      rw [Function.update_of_ne hne.symm, Function.update_self]
    have hstep : Step C promise (s, g) (s.pushMove m,
        (g.setOwn m.srcSlot (.source m.layer m.expert)).setOwn m.dstSlot
          (.target m.dstKey .loading)) := .submitMove s g m hown₁ hown₂
    have hinv := (schedContract C promise).guar_inv _ _ hs hstep
    have hheld' : HeldOk (Function.update H m.dstSlot (some (.target m.dstKey .loading)))
        (Function.update (Function.update g.own m.srcSlot (.source m.layer m.expert)) m.dstSlot
          (.target m.dstKey .loading)) := by
      rw [Function.update_comm hne.symm] at hheld
      have hsrc' : Function.update H m.dstSlot (some (.reserved m.dstKey)) m.srcSlot = none := by
        rw [Function.update_of_ne hne.symm, hsrc]
      exact (hheld.drop hsrc' rfl).change _
    have hat : At (AllocAt K N (Function.update H m.dstSlot (some (.target m.dstKey .loading))))
        (s.pushMove m, (g.setOwn m.srcSlot (.source m.layer m.expert)).setOwn m.dstSlot
          (.target m.dstKey .loading)) := ⟨hK, habs, hheld'⟩
    refine ⟨_, hstep, ?_⟩
    simp only [ret_bind, if_true]
    refine Safe.modify (stable_at _) hinv hat ?_
    rintro ⟨s', g'⟩ hs' ⟨hK', habs', hh⟩
    have hown : g'.own m.dstSlot = .target ⟨m.layer, m.expert, 0⟩ .loading := hkey ▸ hh.own_eq
    have hmove : Step C promise (s', g') (s'.setDir ⟨m.layer, m.expert, 0⟩ .movingIn (some m.dstSlot),
        g'.setOwn m.dstSlot (.target ⟨m.layer, m.expert, 0⟩ .movingIn)) :=
      .moveIn s' g' m.dstSlot _ hown
    refine ⟨_, hmove, Safe.ret (stable_at (AllocAt K N H))
      ((schedContract C promise).guar_inv _ _ hs' hmove) ?_ fun _ _ hz => hz⟩
    exact ⟨hK', habs'.set hN _, hh.drop hdst rfl⟩
  · simp only [ret_bind, Bool.false_eq_true, if_false]
    refine Safe.modify (stable_at _) hx h ?_
    rintro ⟨s, g⟩ hs ⟨hK, habs, hheld⟩
    have hown : g.own m.dstSlot = .reserved ⟨m.layer, m.expert, 0⟩ := hkey ▸ hheld.own_eq
    have hstep : Step C promise (s, g) (s.setDir ⟨m.layer, m.expert, 0⟩ .absent none,
        g.setOwn m.dstSlot .unclaimed) := .unreserve s g m.dstSlot _ hown
    have hat : At (AllocAt K N (Function.update (Function.update H m.srcSlot
        (some (.drained m.layer m.expert))) m.dstSlot (some .unclaimed)))
        (s.setDir ⟨m.layer, m.expert, 0⟩ .absent none, g.setOwn m.dstSlot .unclaimed) :=
      ⟨hK, habs.clear _, hheld.change _⟩
    refine ⟨_, hstep, Safe.modify (stable_at _)
      ((schedContract C promise).guar_inv _ _ hs hstep) hat ?_⟩
    rintro ⟨s', g'⟩ hs' ⟨hK', habs', hh⟩
    have hrelease : Step C promise (s', g') (s'.releaseToEmpty m.dstSlot, g'.setOwn m.dstSlot .free) :=
      .release s' g' m.dstSlot (.inl hh.own_eq)
    refine ⟨_, hrelease, Safe.ret (stable_at (AllocAt K N
      (Function.update H m.srcSlot (some (.drained m.layer m.expert)))))
      ((schedContract C promise).guar_inv _ _ hs' hrelease) ?_ fun _ _ hz => hz⟩
    exact ⟨hK', habs', hh.drop hdst' rfl⟩

theorem safe_demote {reserve : ℕ → ℕ → Prog Sys (Option ℕ)} {sp : Subpool} {v l e : ℕ}
    (hres : ReserveOk C promise K reserve) (hH : Evicts H) (hv : H v = none) (hN : ¬ N l e)
    (hx : (schedContract C promise).inv x)
    (h : At (AllocAt K (fun l' e' => N l' e' ∨ (l' = l ∧ e' = e))
      (Function.update H v (some (.drained l e)))) x) :
    Safe (schedContract C promise) (demote C reserve sp v l e)
      (fun r => At fun w g => AllocAt K N
        (if r then H else Function.update H v (some (.drained l e))) w g) x := by
  have hweak : ∀ y, At (AllocAt K (fun l' e' => N l' e' ∨ (l' = l ∧ e' = e))
      (Function.update H v (some (.drained l e)))) y →
      At (AllocAt K N (Function.update H v (some (.drained l e)))) y := by
    rintro y ⟨hK, habs, hheld⟩
    exact ⟨hK, fun l' e' hl p => habs l' e' (.inl hl) p, hheld⟩
  have hfalse : ∀ y, (schedContract C promise).inv y →
      At (AllocAt K (fun l' e' => N l' e' ∨ (l' = l ∧ e' = e))
        (Function.update H v (some (.drained l e)))) y →
      Safe (schedContract C promise) (.ret false) (fun r => At fun w g => AllocAt K N
        (if r then H else Function.update H v (some (.drained l e))) w g) y :=
    fun y hy hφ => Safe.ret (stable_at (AllocAt K N (Function.update H v (some (.drained l e)))))
      hy (hweak y hφ) fun _ _ hz => hz
  unfold demote
  split
  · exact hfalse x hx h
  · split
    · have hH' : Evicts (Function.update H v (some (.drained l e))) := by
        intro i a ha
        by_cases hi : i = v
        · subst hi
          rw [Function.update_self] at ha
          cases ha
          rfl
        · rw [Function.update_of_ne hi] at ha
          exact hH i a ha
      refine Safe.bind hx (Safe.mono ?_ (hres _ _ l e x hH' (.inr ⟨rfl, rfl⟩) hx h))
      intro r y hy hφ
      cases r with
      | none => exact hfalse y hy hφ
      | some dst =>
        obtain ⟨hdst, hK, habs, hheld⟩ := hφ
        have hne : dst ≠ v := by
          intro he
          rw [he, Function.update_self] at hdst
          cases hdst
        have hdst' : H dst = none := by rwa [Function.update_of_ne hne] at hdst
        have habs' : Absent N y.1.view.dir := by
          intro l' e' hl p
          refine habs l' e' ⟨.inl hl, ?_⟩ p
          rintro ⟨rfl, rfl⟩
          exact hN hl
        exact safe_submitMove (m := ⟨l, e, sp.pool, v, 0, dst⟩) rfl hne hv hdst' hN hy
          ⟨hK, habs', hheld⟩
    · exact hfalse x hx h

/-- The eviction of a victim ends with its slot reserved or with a demotion under way. -/
theorem safe_evict {reserve : ℕ → ℕ → Prog Sys (Option ℕ)} {sp : Subpool}
    {layer expert v l e : ℕ} (hserve : K.Serves C)
    (hres : sp.pool ≠ 0 → ReserveOk C promise K reserve) (hH : Evicts H) (hN : N layer expert)
    (hregion : HomeRegion C v sp.pool layer) (hx : (schedContract C promise).inv x)
    (h : At (fun w g => AllocAt K N H w g ∧ Victim sp g v ⟨l, e, sp.pool⟩) x) :
    Safe (schedContract C promise) (evict C reserve sp layer expert v l e)
      (fun r => At fun w g => AllocPost K N H ⟨layer, expert, sp.pool⟩ w g r) x := by
  refine Safe.getModify (stable_at _) hx h ?_
  rintro ⟨s, g⟩ hs ⟨⟨hK, habs, hheld⟩, hidle, hown, hsp⟩
  have hact : s.active = K.active := congrArg Steady.active hK
  have hphase : g.phase = K.phase := congrArg Steady.phase hK
  have hreads := reads_of hs.1 v
  rw [hown] at hreads
  obtain ⟨w, hw, _⟩ := hreads.beginEvict
  have hNv : ¬ N l e := not_absent_of_resident hs.1 habs hown rfl
  have hHv : H v = none := held_none hH hheld (by rw [hown]; simp [Owner.state])
  have hstep : Step C promise (s, g) (s.beginEvict v, g.setOwn v (.evicting ⟨l, e, sp.pool⟩)) :=
    .beginEvict s g v _ (hphase.trans hserve.1) (by rw [Serving, hact]; exact hserve.2) hown hidle
  have hinv := (schedContract C promise).guar_inv _ _ hs hstep
  have hview : (s.beginEvict v).view = s.view := by
    unfold Sys.beginEvict
    split <;> rfl
  have hat : At (AllocAt K N (Function.update H v (some (.evicting ⟨l, e, sp.pool⟩))))
      (s.beginEvict v, g.setOwn v (.evicting ⟨l, e, sp.pool⟩)) := by
    refine ⟨?_, ?_, hheld.set v _⟩
    · dsimp only
      rw [hview]
      exact hK
    · dsimp only
      rw [hview]
      exact habs
  refine ⟨_, hstep, ?_⟩
  dsimp only
  have hsome : (some w : Option Word).isNone = false := rfl
  rw [hw, hsome]
  simp only [Bool.false_eq_true, if_false]
  -- the entry is cleared: the victim is in no pool from here on
  refine Safe.modify (stable_at _) hinv hat ?_
  rintro ⟨s₁, g₁⟩ hs₁ ⟨hK₁, habs₁, hheld₁⟩
  have hown₁ : g₁.own v = .evicting ⟨l, e, sp.pool⟩ := hheld₁.own_eq
  have hclear : Step C promise (s₁, g₁) (s₁.setDir ⟨l, e, sp.pool⟩ .absent none,
      g₁.setOwn v (.vacating l e)) := .clear s₁ g₁ v _ hown₁
  have hinv₁ := (schedContract C promise).guar_inv _ _ hs₁ hclear
  have hgone : ∀ p, ((Function.update s₁.dir ⟨l, e, sp.pool⟩ ⟨.absent, none⟩) ⟨l, e, p⟩).state =
      .absent := by
    intro p
    by_cases hp : p = sp.pool
    · rw [hp, Function.update_self]
    · have hne : (⟨l, e, p⟩ : Key) ≠ ⟨l, e, sp.pool⟩ := by
        intro heq
        cases heq
        exact hp rfl
      rw [Function.update_of_ne hne]
      by_contra hst
      cases hslot : (s₁.dir ⟨l, e, p⟩).slot with
      | none =>
        have habsent := hs₁.1.dir.unnamed _ hslot
        rw [habsent] at hst
        exact hst rfl
      | some j =>
        have hentry : s₁.dir ⟨l, e, p⟩ = ⟨(s₁.dir ⟨l, e, p⟩).state, some j⟩ := by rw [← hslot]
        have hclaim := (hs₁.1.dir.named _ _ _).mp hentry
        have hclaimV : (g₁.own v).claim = some (⟨l, e, sp.pool⟩, .ready) := by rw [hown₁]; rfl
        have hjv := hs₁.1.dir.single _ _ _ _ _ _ hclaim hclaimV rfl rfl
        subst hjv
        dsimp only at hclaim hclaimV
        rw [hclaimV] at hclaim
        have hkey := congrArg Prod.fst (Option.some.inj hclaim)
        exact hp (congrArg Key.pool hkey).symm
  have hat₁ : At (AllocAt K (fun l' e' => N l' e' ∨ (l' = l ∧ e' = e))
      (Function.update H v (some (.vacating l e))))
      (s₁.setDir ⟨l, e, sp.pool⟩ .absent none, g₁.setOwn v (.vacating l e)) := by
    refine ⟨hK₁, ?_, hheld₁.change _⟩
    rintro l' e' (hl | ⟨rfl, rfl⟩) p
    · exact habs₁.clear _ l' e' hl p
    · exact hgone p
  refine ⟨_, hclear, ?_⟩
  -- no pin is left once the count has drained
  refine Safe.await (stable_at _) hinv₁ hat₁ ?_
  rintro ⟨s₂, g₂⟩ hs₂ ⟨hK₂, habs₂, hheld₂⟩ hrc
  have hown₂ : g₂.own v = .vacating l e := hheld₂.own_eq
  have hdrain : Step C promise (s₂, g₂) (s₂, g₂.setOwn v (.drained l e)) :=
    .drain s₂ g₂ v l e hown₂ (by simpa using hrc)
  have hinv₂ := (schedContract C promise).guar_inv _ _ hs₂ hdrain
  have hat₂ : At (AllocAt K (fun l' e' => N l' e' ∨ (l' = l ∧ e' = e))
      (Function.update H v (some (.drained l e)))) (s₂, g₂.setOwn v (.drained l e)) :=
    ⟨hK₂, habs₂, hheld₂.change _⟩
  refine ⟨_, hdrain, ?_⟩
  have hrest : ∀ (moved : Bool) y, (schedContract C promise).inv y →
      At (fun w g => AllocAt K N
        (if moved then H else Function.update H v (some (.drained l e))) w g) y →
      Safe (schedContract C promise)
        (if moved then Prog.ret none
        else do
          Prog.modify fun s => s.beginReload v
          transition ⟨layer, expert, sp.pool⟩ .loading (some v)
          Prog.ret (some v))
        (fun r => At fun w g => AllocPost K N H ⟨layer, expert, sp.pool⟩ w g r) y := by
    intro moved y hy hφ
    cases moved with
    | true => exact Safe.ret (stable_at (AllocAt K N H)) hy hφ fun _ _ hz => hz
    | false =>
      have hφ' : At (AllocAt K N (Function.update H v (some (.drained l e)))) y := hφ
      refine Safe.modify (stable_at _) hy hφ' ?_
      rintro ⟨s₃, g₃⟩ hs₃ ⟨hK₃, habs₃, hheld₃⟩
      have hrecycle : Step C promise (s₃, g₃) (s₃.beginReload v, g₃.setOwn v .unclaimed) :=
        .recycle s₃ g₃ v l e hheld₃.own_eq
      have hinv₃ := (schedContract C promise).guar_inv _ _ hs₃ hrecycle
      have hat₃ : At (AllocAt K N (Function.update H v (some .unclaimed)))
          (s₃.beginReload v, g₃.setOwn v .unclaimed) := ⟨hK₃, habs₃, hheld₃.change _⟩
      refine ⟨_, hrecycle, Safe.modify (stable_at _) hinv₃ hat₃ ?_⟩
      rintro ⟨s₄, g₄⟩ hs₄ ⟨hK₄, habs₄, hheld₄⟩
      have hclaim : Step C promise (s₄, g₄) (s₄.setDir ⟨layer, expert, sp.pool⟩ .loading (some v),
          g₄.setOwn v (.reserved ⟨layer, expert, sp.pool⟩)) :=
        .claim s₄ g₄ v _ hheld₄.own_eq (fun p => habs₄ layer expert hN p) hregion
      refine ⟨_, hclaim, Safe.ret (stable_at (AllocAt K
        (fun l' e' => N l' e' ∧ ¬ (l' = layer ∧ e' = expert))
        (Function.update H v (some (.reserved ⟨layer, expert, sp.pool⟩)))))
        ((schedContract C promise).guar_inv _ _ hs₄ hclaim) ?_ fun _ _ hz => ⟨hHv, hz⟩⟩
      refine ⟨hK₄, ?_, hheld₄.change _⟩
      have hsub : Absent (fun l' e' => N l' e' ∧ ¬ (l' = layer ∧ e' = expert)) s₄.dir :=
        fun l' e' hl p => habs₄ l' e' hl.1 p
      exact hsub.set (fun hk => hk.2 ⟨rfl, rfl⟩) _
  split
  · exact hrest false _ hinv₂ ⟨hat₂.1, fun l' e' hl p => hat₂.2.1 l' e' (.inl hl) p, hat₂.2.2⟩
  · rename_i hpool
    exact Safe.bind hinv₂ (Safe.mono hrest (safe_demote (hres hpool) hH hHv hNv hinv₂ hat₂))

theorem safe_allocWith {o : Oracle} {reserve : ℕ → ℕ → Prog Sys (Option ℕ)}
    {layer expert pool : ℕ} (hserve : K.Serves C)
    (hres : pool ≠ 0 → ReserveOk C promise K reserve) (hH : Evicts H) (hN : N layer expert)
    (hx : (schedContract C promise).inv x) (h : At (AllocAt K N H) x) :
    Safe (schedContract C promise) (allocWith C o reserve layer expert pool)
      (fun r => At fun w g => AllocPost K N H ⟨layer, expert, pool⟩ w g r) x := by
  have hnone : ∀ y, (schedContract C promise).inv y → At (AllocAt K N H) y →
      Safe (schedContract C promise) (.ret none)
        (fun r => At fun w g => AllocPost K N H ⟨layer, expert, pool⟩ w g r) y :=
    fun y hy hφ => Safe.ret (stable_at (AllocAt K N H)) hy hφ fun _ _ hz => hz
  unfold allocWith
  split
  · exact hnone x hx h
  · rename_i gidx hgroup
    split
    · exact hnone x hx h
    · rename_i sp hsp
      have hpool : sp.pool = pool := (regionOf_spec C hsp).2.1
      refine Safe.bind hx (Safe.mono ?_ (safe_findEmpty hH _ _ hx h))
      intro r y hy hφ
      cases r with
      | some i =>
        -- a free slot: the entry is published before the slot leaves EMPTY
        refine Safe.modify (stable_at _) hy hφ ?_
        rintro ⟨s, g⟩ hs ⟨⟨hK, habs, hheld⟩, hfound⟩
        obtain ⟨⟨hlo, hhi⟩, hfree, hHi⟩ := hfound i rfl
        have hregion : HomeRegion C i pool layer :=
          ⟨gidx, sp, hgroup, hsp, by simp only [Subpool.owns, decide_eq_true_eq]; omega⟩
        have hreserve : Step C promise (s, g) (s.setDir ⟨layer, expert, pool⟩ .loading (some i),
            g.setOwn i (.reserving ⟨layer, expert, pool⟩)) :=
          .reserve s g i _ hfree (fun p => habs layer expert hN p) hregion
        have hinv := (schedContract C promise).guar_inv _ _ hs hreserve
        have hsub : Absent (fun l' e' => N l' e' ∧ ¬ (l' = layer ∧ e' = expert)) s.dir :=
          fun l' e' hl p => habs l' e' hl.1 p
        have hat : At (AllocAt K (fun l' e' => N l' e' ∧ ¬ (l' = layer ∧ e' = expert))
            (Function.update H i (some (.reserving ⟨layer, expert, pool⟩))))
            (s.setDir ⟨layer, expert, pool⟩ .loading (some i),
              g.setOwn i (.reserving ⟨layer, expert, pool⟩)) :=
          ⟨hK, hsub.set (fun hk => hk.2 ⟨rfl, rfl⟩) _, hheld.set i _⟩
        refine ⟨_, hreserve, Safe.modify (stable_at _) hinv hat ?_⟩
        rintro ⟨s', g'⟩ hs' ⟨hK', habs', hheld'⟩
        have hreload : Step C promise (s', g') (s'.beginReload i,
            g'.setOwn i (.reserved ⟨layer, expert, pool⟩)) :=
          .reload s' g' i _ hheld'.own_eq
        refine ⟨_, hreload, Safe.ret (stable_at (AllocAt K
          (fun l' e' => N l' e' ∧ ¬ (l' = layer ∧ e' = expert))
          (Function.update H i (some (.reserved ⟨layer, expert, pool⟩)))))
          ((schedContract C promise).guar_inv _ _ hs' hreload) ?_ fun _ _ hz => ⟨hHi, hz⟩⟩
        exact ⟨hK', habs', hheld'.change _⟩
      | none =>
        have hφ' : At (AllocAt K N H) y := hφ.1
        refine Safe.bind hy (Safe.mono ?_ (safe_findVictim hserve hy hφ'))
        intro r z hz hφz
        cases r with
        | none => exact hnone z hz hφz.1
        | some vle =>
          obtain ⟨v, l, e⟩ := vle
          have hvic := hφz.2 v l e rfl
          subst hpool
          exact safe_evict hserve hres hH hN ⟨gidx, sp, hgroup, hsp, hvic.2.2⟩ hz ⟨hφz.1, hvic⟩

theorem reserveOk_allocRam {o : Oracle} (hserve : K.Serves C) :
    ReserveOk C promise K (allocRam C o) := by
  intro N H l e x hH hN hx h
  exact safe_allocWith hserve (fun hp => absurd rfl hp) hH hN hx h

/-- A reserved slot is new, names the expert in the pool, and nothing else is left half done. -/
theorem safe_allocOrEvict {o : Oracle} {layer expert pool : ℕ} (hserve : K.Serves C) (hH : Evicts H)
    (hN : N layer expert) (hx : (schedContract C promise).inv x) (h : At (AllocAt K N H) x) :
    Safe (schedContract C promise) (allocOrEvict C o layer expert pool)
      (fun r => At fun w g => AllocPost K N H ⟨layer, expert, pool⟩ w g r) x :=
  safe_allocWith hserve (fun _ => reserveOk_allocRam hserve) hH hN hx h

end Sched
end StreamMoE
