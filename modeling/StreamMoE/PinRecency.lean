import StreamMoE.PinRuns

/-! Which calls of `pin_layer` store a new recency for every expert they return. -/
namespace StreamMoE
namespace PinRecency

open AtomicProg ThreadLoop TransitionSystem SchedConfig Sched SchedRuns PinLayer PinRuns

variable {C : Config}

section others

/-- The counter and what the directory stores of it. -/
def SameRecency (s s' : Sys) : Prop := s'.lastUsed = s.lastUsed ∧ s'.token = s.token

theorem sameRecency_tryPin (s : Sys) (h : Holder) (i : ℕ) : SameRecency s (s.tryPin h i) := by
  unfold Sys.tryPin
  split <;> exact ⟨rfl, rfl⟩

theorem sameRecency_settleStep (s : Sys) (e i : ℕ) : SameRecency s (s.settleStep e i) := by
  unfold Sys.settleStep
  split
  · exact ⟨rfl, rfl⟩
  · exact sameRecency_tryPin s .scheduler i

theorem sameRecency_bumpBatch (s : Sys) (n : ℕ) : SameRecency s (s.bumpBatch n) := by
  unfold Sys.bumpBatch Sys.handOver
  dsimp only
  split <;> split <;> exact ⟨rfl, rfl⟩

theorem step_sameRecency {promise : Promise} {x y : Sys × Ghost} (hstep : Step C promise x y) :
    SameRecency x.1 y.1 := by
  cases hstep with
  | startLoad s g i k accept idx | startNone s g i k accept =>
    simp only [startLoad]
    split
    · exact ⟨rfl, rfl⟩
    · split <;> exact ⟨rfl, rfl⟩
  | event s g idx ok s' hev | arrive s g idx ok s' hev | «break» s g idx ok s' hnot hev =>
    obtain ⟨_, rfl⟩ := takeEvent_eq hev
    exact ⟨rfl, rfl⟩
  | settle s g i k w => exact sameRecency_settleStep s k.expert i
  | bump s g | bumpLast s g | bumpFinish s g => exact sameRecency_bumpBatch s C.topo.nExpert
  | failBatch s g =>
    unfold SameRecency Sys.failBatch Sys.activeClearState
    split <;> exact ⟨rfl, rfl⟩
  | beginEvict s g i k =>
    simp only [Sys.beginEvict]
    split <;> exact ⟨rfl, rfl⟩
  | _ => exact ⟨rfl, rfl⟩

/-- A step of another thread that neither draws a token nor stores one. -/
def storesNone : EnvAct → Bool
  | .nextToken | .touch _ _ _ => false
  | _ => true

theorem sameRecency_env {s s' : Sys} {a : EnvAct} (ha : storesNone a = true)
    (hstep : envStep s a = some s') : SameRecency s s' := by
  cases a with
  | nextToken | touch l e t => cases ha
  | strayUnpin i | resetBatch b =>
    cases hstep
    exact ⟨rfl, rfl⟩
  | tryPin h i =>
    simp only [envStep] at hstep
    split at hstep
    · cases hstep
    · cases hstep
      exact sameRecency_tryPin s h i
  | _ =>
    simp only [envStep] at hstep
    split at hstep <;> cases hstep
    exact ⟨rfl, rfl⟩

/-- A label of the scheduler's machine under which no recency is stored. -/
def quietLabel : Act → Bool
  | .env a => storesNone a
  | _ => true

theorem sameRecency_sched {guard : SchedRuns.State → Act → Prop} {r r' : SchedRuns.State} {a : Act}
    (h : Reach (system C) guard r) (ha : quietLabel a = true) (hstep : (system C).step r a = some r') :
    SameRecency r.state r'.state := by
  obtain ⟨g, hinv, _, hsafe⟩ := kept_of_reach .nothing (J := fun _ => True)
    (fun _ c _ => honored_nothing c) trivial (fun _ _ _ _ _ => trivial) (fun _ _ _ _ _ _ _ _ => trivial) h
  obtain ⟨s, p⟩ := r
  cases a with
  | call c =>
    cases p with
    | ret u =>
      cases hstep
      exact ⟨rfl, rfl⟩
    | act f k => cases hstep
  | step =>
    cases p with
    | ret u => cases hstep
    | act f k =>
      obtain ⟨t, ht, rfl⟩ := Option.map_eq_some_iff.mp hstep
      obtain ⟨_, hguar, _⟩ := hsafe.step hinv ht
      exact step_sameRecency hguar
  | env e =>
    obtain ⟨t, ht, rfl⟩ := Option.map_eq_some_iff.mp hstep
    exact sameRecency_env ha ht

end others

section call

/-- The tokens drawn, counted without the wrap of the counter, and whether the call has submitted a
request. -/
structure Tally where
  drawn : ℕ
  asked : Bool

/-- No recency lies beyond the counter while that has not wrapped. -/
def Counted (x : Sys × Tally) : Prop :=
  x.1.token = x.2.drawn % 2 ^ 64 ∧ (x.2.drawn < 2 ^ 64 → ∀ l e, x.1.lastUsed l e ≤ x.2.drawn)

structure Access (x y : Sys × Tally) : Prop where
  drawn : x.2.drawn ≤ y.2.drawn ∧ y.2.drawn ≤ x.2.drawn + 1
  asked : y.2.asked = (x.2.asked || decide (x.1.requests.length < y.1.requests.length))
  counted : Counted x → Counted y

/-- The executing thread while nobody else draws a token or stores one. -/
def recencyContract : Contract Sys Tally where
  inv := Counted
  rely x y := y.2 = x.2 ∧ SameRecency x.1 y.1
  guar := Access
  rely_inv := by
    rintro ⟨s, t⟩ ⟨s', t'⟩ h ⟨ht, hlast, htoken⟩
    dsimp only at ht hlast htoken
    subst ht
    unfold Counted
    dsimp only
    rw [hlast, htoken]
    exact h
  guar_inv _ _ hx hxy := hxy.counted hx
  guar_refl x := ⟨⟨Nat.le_refl _, Nat.le_succ _⟩, by simp, id⟩

theorem access_same {y : Sys × Tally} {s : Sys} (hreq : s.requests = y.1.requests)
    (h : SameRecency y.1 s) : Access y (s, y.2) := by
  refine ⟨⟨Nat.le_refl _, Nat.le_succ _⟩, by simp [hreq], ?_⟩
  intro hy
  unfold Counted
  dsimp only
  rw [h.1, h.2]
  exact hy

theorem access_nextToken (y : Sys × Tally) :
    Access y (nextToken y.1, { y.2 with drawn := y.2.drawn + 1 }) := by
  refine ⟨⟨Nat.le_succ _, Nat.le_refl _⟩, by simp [nextToken], ?_⟩
  rintro ⟨htoken, hlast⟩
  refine ⟨?_, ?_⟩
  · simp only [nextToken, htoken]
    omega
  · intro hlt l e
    exact Nat.le_trans (hlast (by dsimp only at hlt; omega) l e) (Nat.le_succ _)

theorem access_touch {y : Sys × Tally} (layer expert : ℕ) {t : ℕ} (ht : t = y.2.drawn % 2 ^ 64) :
    Access y (touchLastUsed layer expert t y.1, y.2) := by
  refine ⟨⟨Nat.le_refl _, Nat.le_succ _⟩, by simp [touchLastUsed], ?_⟩
  rintro ⟨htoken, hlast⟩
  refine ⟨htoken, ?_⟩
  intro hlt l e
  simp only [touchLastUsed]
  by_cases hl : l = layer
  · subst hl
    rw [Function.update_self]
    by_cases he : e = expert
    · subst he
      rw [Function.update_self, ht]
      exact Nat.mod_le _ _
    · rw [Function.update_of_ne he]
      exact hlast hlt l e
  · rw [Function.update_of_ne hl]
    exact hlast hlt l e

/-- An assertion about the recencies and the tally. -/
def On (ψ : (ℕ → ℕ → ℕ) → Tally → Prop) (y : Sys × Tally) : Prop := ψ y.1.lastUsed y.2

theorem stable_on (ψ : (ℕ → ℕ → ℕ) → Tally → Prop) : Stable recencyContract (On ψ) := by
  rintro ⟨s, t⟩ ⟨s', t'⟩ _ ⟨ht, hlast, _⟩ h
  dsimp only at ht hlast
  unfold On at h ⊢
  dsimp only
  rw [ht, hlast]
  exact h

variable {x : Sys × Tally} {b layer : ℕ} {ψ : (ℕ → ℕ → ℕ) → Tally → Prop}

theorem safe_ret {α : Type} {a : α} {Q : α → Sys × Tally → Prop} (hx : recencyContract.inv x) (h : On ψ x)
    (hQ : ∀ y, On ψ y → Q a y) : Safe recencyContract (.ret a) Q x :=
  Safe.ret (stable_on ψ) hx h fun y _ hy => hQ y hy

theorem on_unpin (y : Sys × Tally) (a : Handle) (_ : recencyContract.inv y) (h : On ψ y) :
    let s := if a.slot < C.geometry.numSlots then y.1.unpin (.batch (some b)) a.slot else y.1
    ∃ t, recencyContract.guar y (s, t) ∧ On ψ (s, t) := by
  refine ⟨y.2, ?_, ?_⟩
  · split
    · exact access_same rfl ⟨rfl, rfl⟩
    · exact recencyContract.guar_refl y
  · unfold On
    split <;> exact h

/-- The experts in `pinned` have a recency beyond `n₀`, those outside the recency they had. -/
def Noted (layer : ℕ) (before : ℕ → ℕ) (n₀ : ℕ) (pinned : List ℕ) (asked : Bool)
    (lastUsed : ℕ → ℕ → ℕ) (t : Tally) : Prop :=
  t.asked = asked ∧ n₀ ≤ t.drawn ∧
    (t.drawn < 2 ^ 64 → ∀ e ∈ pinned, n₀ < lastUsed layer e) ∧
    ∀ e, e ∉ pinned → lastUsed layer e = before e

variable {before : ℕ → ℕ} {n₀ : ℕ} {asked : Bool}

/-- The token drawn last goes to one more expert. -/
theorem Noted.touch {pinned : List ℕ} {lastUsed : ℕ → ℕ → ℕ} {e d tok : ℕ} {t : Tally}
    (h : Noted layer before n₀ pinned asked lastUsed ⟨d, t.asked⟩) (hd : t.drawn = d + 1)
    (htok : tok = t.drawn % 2 ^ 64) :
    Noted layer before n₀ (pinned ++ [e]) asked
      (Function.update lastUsed layer (Function.update (lastUsed layer) e tok)) t := by
  obtain ⟨hasked, hle, hpinned, hrest⟩ := h
  dsimp only at hle hpinned
  unfold Noted
  simp only [Function.update_self]
  refine ⟨hasked, by omega, ?_, ?_⟩
  · intro hlt e' he'
    by_cases heq : e' = e
    · subst heq
      rw [Function.update_self, htok, Nat.mod_eq_of_lt hlt]
      omega
    · rw [Function.update_of_ne heq]
      refine hpinned (by omega) e' ?_
      simpa [heq] using he'
  · intro e' he'
    have hout : e' ∉ pinned ∧ e' ≠ e := by simpa [not_or] using he'
    rw [Function.update_of_ne hout.2]
    exact hrest e' hout.1

theorem recency_pinHits {want : List ℕ} (es : List ℕ) {out : List Handle} {missing : List ℕ}
    (hx : recencyContract.inv x) (h : On (Noted layer before n₀ (out.map Handle.expert) asked) x)
    (hperm : (out.map Handle.expert ++ missing ++ es).Perm want) :
    Safe recencyContract (pinHits C b layer es out missing)
      (fun r y => On (Noted layer before n₀ (r.1.map Handle.expert) asked) y ∧
        (r.1.map Handle.expert ++ r.2).Perm want) x := by
  induction es generalizing x out missing with
  | nil =>
    refine safe_ret hx h ?_
    intro y hy
    exact ⟨hy, by simpa using hperm⟩
  | cons e es ih =>
    have hmiss : (out.map Handle.expert ++ (missing ++ [e]) ++ es).Perm want := by simpa using hperm
    refine Safe.bind hx (Safe.mono ?_ (rule_scanPools (stable_on _) e (List.range C.nPools) hx h))
    intro r y hy hψ
    cases r with
    | none => exact ih hy hψ hmiss
    | some ip =>
      obtain ⟨i, pool⟩ := ip
      refine Safe.getModify (stable_on _) hy hψ ?_
      intro z hz hψz
      have hsame := sameRecency_tryPin z.1 (.batch (some b)) i
      have hpin : Access z (z.1.tryPin (.batch (some b)) i, z.2) := by
        refine access_same ?_ hsame
        unfold Sys.tryPin
        split <;> rfl
      have hz' := recencyContract.guar_inv z _ hz hpin
      have hψz' : On (Noted layer before n₀ (out.map Handle.expert) asked)
          (z.1.tryPin (.batch (some b)) i, z.2) := by
        unfold On
        dsimp only
        rw [hsame.1]
        exact hψz
      refine ⟨_, hpin, ?_⟩
      split
      · exact ih hz' hψz' hmiss
      · refine Safe.getModify (stable_on _) hz' hψz' ?_
        intro t ht hψt
        refine ⟨_, access_nextToken t, ?_⟩
        have hdrawn : On (fun lastUsed t' => t'.drawn = t.2.drawn + 1 ∧
            Noted layer before n₀ (out.map Handle.expert) asked lastUsed ⟨t.2.drawn, t'.asked⟩)
            (nextToken t.1, { t.2 with drawn := t.2.drawn + 1 }) := ⟨rfl, hψt⟩
        refine Safe.modify (stable_on _) (recencyContract.guar_inv t _ ht (access_nextToken t)) hdrawn ?_
        rintro u hu ⟨hud, huasked, hule, hupinned, hurest⟩
        have htok : (t.1.token + 1) % 2 ^ 64 = u.2.drawn % 2 ^ 64 := by
          rw [hud, ht.1]
          omega
        have htouch := access_touch layer e htok
        refine ⟨_, htouch, ih (recencyContract.guar_inv u _ hu htouch) ?_ ?_⟩
        · rw [List.map_append]
          exact Noted.touch ⟨huasked, hule, hupinned, hurest⟩ hud htok
        · rw [List.map_append]
          exact (perm_out _ _ _ _).symm.trans hperm

/-- The result of a call: without a request every needed expert has a recency beyond the one before, with
one some needed expert has the recency it had. -/
def Outcome (C : Config) (c : PinCall) (before : ℕ → ℕ) (r : PinResult) (y : Sys × Tally) : Prop :=
  ∀ n out, r = .pinned n out → y.2.drawn < 2 ^ 64 →
    (y.2.asked = false → ∀ e < C.topo.nExpert, c.needed e = true → before e < y.1.lastUsed c.layer e) ∧
    (y.2.asked = true → ∃ e < C.topo.nExpert, c.needed e = true ∧ y.1.lastUsed c.layer e = before e)

theorem outcome_failed {c : PinCall} {why : Failure} {y : Sys × Tally} :
    Outcome C c before (.failed why) y := by
  intro n out h
  cases h

theorem mem_want {c : PinCall} {e : ℕ} :
    e ∈ (List.range C.topo.nExpert).filter c.needed ↔ e < C.topo.nExpert ∧ c.needed e = true := by
  rw [List.mem_filter, List.mem_range]

theorem outcome_hits {c : PinCall} {pinned : List ℕ} {y : Sys × Tally}
    (hold : ∀ e, before e ≤ n₀) (hperm : pinned.Perm ((List.range C.topo.nExpert).filter c.needed))
    (h : On (Noted c.layer before n₀ pinned false) y) (r : PinResult) : Outcome C c before r y := by
  obtain ⟨hasked, _, hpinned, _⟩ := h
  intro n out _ hlt
  refine ⟨?_, ?_⟩
  · intro _ e he hneed
    exact Nat.lt_of_le_of_lt (hold e) (hpinned hlt e (hperm.mem_iff.mpr (mem_want.mpr ⟨he, hneed⟩)))
  · intro htrue
    rw [hasked] at htrue
    cases htrue

theorem outcome_asked {c : PinCall} {pinned missing : List ℕ} {y : Sys × Tally} (hne : missing.length ≠ 0)
    (hperm : (pinned ++ missing).Perm ((List.range C.topo.nExpert).filter c.needed))
    (h : On (Noted c.layer before n₀ pinned true) y) (r : PinResult) : Outcome C c before r y := by
  obtain ⟨hasked, _, _, hrest⟩ := h
  intro n out _ _
  refine ⟨?_, ?_⟩
  · intro hfalse
    rw [hasked] at hfalse
    cases hfalse
  · intro _
    obtain ⟨e, he⟩ := List.exists_mem_of_length_pos (Nat.pos_of_ne_zero hne)
    have hnodup : (pinned ++ missing).Nodup := hperm.nodup_iff.mpr (List.nodup_range.filter _)
    have hout : e ∉ pinned := fun hmem => (List.nodup_append.mp hnodup).2.2 e hmem e he rfl
    obtain ⟨hlt, hneed⟩ := mem_want.mp (hperm.mem_iff.mp (List.mem_append_right pinned he))
    exact ⟨e, hlt, hneed, hrest e hout⟩

/-- The queue is longer by the request. -/
theorem access_push {y : Sys × Tally} {r : Request} {s : Sys} (h : push r y.1 = some s) :
    Access y (s, { y.2 with asked := true }) ∧ s.lastUsed = y.1.lastUsed := by
  unfold push at h
  split at h
  · cases h
    exact ⟨⟨⟨Nat.le_refl _, Nat.le_succ _⟩, by simp, id⟩, rfl⟩
  · cases h

theorem recency_pinLayer (c : PinCall) (hx : recencyContract.inv x) (hasked : x.2.asked = false)
    (hlt : x.2.drawn < 2 ^ 64) :
    Safe recencyContract (c.prog C) (Outcome C c (x.1.lastUsed c.layer)) x := by
  have hold : ∀ e, x.1.lastUsed c.layer e ≤ x.2.drawn := hx.2 hlt c.layer
  have hstart : On (Noted c.layer (x.1.lastUsed c.layer) x.2.drawn [] false) x :=
    ⟨hasked, Nat.le_refl _, fun _ e he => absurd he List.not_mem_nil, fun _ _ => rfl⟩
  unfold PinCall.prog pinLayer
  dsimp only
  split
  · exact safe_ret hx hstart fun _ _ => outcome_failed
  · split
    · rename_i hnone
      refine safe_ret hx hstart fun y hy => outcome_hits hold ?_ hy _
      rw [List.length_eq_zero_iff.mp hnone]
    · split
      · exact safe_ret hx hstart fun _ _ => outcome_failed
      · have hwant : (List.map Handle.expert [] ++ [] ++
            (List.range C.topo.nExpert).filter c.needed).Perm
              ((List.range C.topo.nExpert).filter c.needed) := List.Perm.refl _
        refine Safe.bind hx (Safe.mono ?_ (recency_pinHits _ hx hstart hwant))
        rintro ⟨out, missing⟩ y hy ⟨hψ, hperm⟩
        dsimp only at hψ hperm ⊢
        split
        · rename_i hzero
          refine safe_ret hy hψ fun z hz => outcome_hits hold ?_ hz _
          rwa [List.length_eq_zero_iff.mp hzero, List.append_nil] at hperm
        · rename_i hne
          refine Safe.modify (stable_on _) hy hψ ?_
          intro z hz hψz
          have hreset : Access z (resetBatch c.batch z.1, z.2) := access_same rfl ⟨rfl, rfl⟩
          refine ⟨_, hreset, ?_⟩
          refine Safe.act (stable_on _) (recencyContract.guar_inv z _ hz hreset) hψz ?_
          intro t ht hψt t' hpush
          obtain ⟨hguar, hlast⟩ := access_push hpush
          have hψt' : On (Noted c.layer (x.1.lastUsed c.layer) x.2.drawn (out.map Handle.expert) true)
              (t', { t.2 with asked := true }) := by
            unfold On
            dsimp only
            rw [hlast]
            exact ⟨rfl, hψt.2⟩
          refine ⟨_, hguar, ?_⟩
          refine Safe.await (stable_on _) (recencyContract.guar_inv t _ ht hguar) hψt' ?_
          intro u hu hψu _
          refine ⟨u.2, recencyContract.guar_refl u, ?_⟩
          refine Safe.get (stable_on _) hu hψu ?_
          intro v hv hψv
          split
          · refine Safe.bind hv (Safe.mono ?_ (rule_unpinHandles (stable_on _) on_unpin out hv hψv))
            intro _ w hw hψw
            exact safe_ret hw hψw fun _ _ => outcome_failed
          · refine Safe.mono ?_ (rule_collect (stable_on _) on_unpin _ missing hv hψv)
            intro r w _ hψw
            exact outcome_asked hne hperm hψw r

end call

section runs

/-- The pair with the recencies at the begin of the latest call, and whether that call has submitted a
request. -/
structure Recorded where
  pair : Pair
  before : ℕ → ℕ → ℕ
  asked : Bool

/-- The next access of the executing thread puts a request into the queue. -/
def submits (x : Pair) : Bool :=
  match x.call with
  | some (_, .act f _) =>
      (f x.sched.state).any fun t => decide (x.sched.state.requests.length < t.requests.length)
  | _ => false

def record (r : Recorded) (x : Pair) : PairAct → Recorded
  | .begin _ => ⟨x, r.pair.sched.state.lastUsed, false⟩
  | .exec => ⟨x, r.before, r.asked || submits r.pair⟩
  | .sched _ => ⟨x, r.before, r.asked⟩

def recordedSystem (C : Config) : Machine Recorded PairAct :=
  { init := fun r => (pairSystem C).init r.pair ∧ r.before = (fun _ _ => 0) ∧ r.asked = false
    step := fun r a => ((pairSystem C).step r.pair a).map fun x => record r x a }

/-- Nobody but the executing thread draws tokens, and the counter has room for one more. -/
def oneThread (r : Recorded) : PairAct → Bool
  | .sched a => quietLabel a
  | .exec => decide (r.pair.sched.state.token + 1 < 2 ^ 64)
  | .begin _ => true

def OneThread (r : Recorded) (a : PairAct) : Prop := oneThread r a = true

instance (r : Recorded) (a : PairAct) : Decidable (OneThread r a) :=
  inferInstanceAs (Decidable (_ = true))

theorem pair_of_recorded {guard : Recorded → PairAct → Prop} {r : Recorded}
    (h : Reach (recordedSystem C) guard r) : Reach (pairSystem C) anyStep r.pair := by
  induction h with
  | init h => exact .init h.1
  | @step r a r' _ _ hstep ih =>
    obtain ⟨x, hx, rfl⟩ := Option.map_eq_some_iff.mp hstep
    have hpair : (record r x a).pair = x := by cases a <;> rfl
    rw [hpair]
    exact .step ih trivial hx

/-- The tally of a reachable state, and what is left of the call under way. -/
structure Traced (C : Config) (r : Recorded) (t : Tally) : Prop where
  fits : t.drawn < 2 ^ 64
  asked : t.asked = r.asked
  counted : Counted (r.pair.sched.state, t)
  call : ∀ c p, r.pair.call = some (c, p) →
    Safe recencyContract p (Outcome C c (r.before c.layer)) (r.pair.sched.state, t)

theorem Traced.init {r : Recorded} (h : (recordedSystem C).init r) : Traced C r ⟨0, false⟩ := by
  obtain ⟨⟨hsched, hcall⟩, _, hasked⟩ := h
  refine ⟨by decide, hasked.symm, ?_, ?_⟩
  · rw [hsched]
    exact ⟨rfl, fun _ _ _ => Nat.le_refl 0⟩
  · intro c p hc
    rw [hcall] at hc
    cases hc

theorem Traced.step {r r' : Recorded} {a : PairAct} {t : Tally} (hreach : Reach (system C) anyStep r.pair.sched)
    (h : Traced C r t) (ha : OneThread r a) (hstep : (recordedSystem C).step r a = some r') :
    ∃ t', Traced C r' t' := by
  obtain ⟨x, hx, rfl⟩ := Option.map_eq_some_iff.mp hstep
  cases a with
  | sched a =>
    obtain ⟨s, hs, rfl⟩ := Option.map_eq_some_iff.mp hx
    have hrely : recencyContract.rely (r.pair.sched.state, t) (s.state, t) :=
      ⟨rfl, sameRecency_sched hreach ha hs⟩
    exact ⟨t, h.fits, h.asked, recencyContract.rely_inv _ _ h.counted hrely,
      fun c p hc => (h.call c p hc).stable (.single hrely)⟩
  | begin c =>
    have hx' : x = { r.pair with call := some (c, c.prog C) } := by
      simp only [pairSystem, pairStep] at hx
      split at hx
      · cases hx
      · exact (Option.some.inj hx).symm
    subst hx'
    refine ⟨⟨t.drawn, false⟩, h.fits, rfl, h.counted, ?_⟩
    intro c' p hc
    cases hc
    have hcounted : Counted (r.pair.sched.state, ⟨t.drawn, false⟩) := h.counted
    exact recency_pinLayer c hcounted rfl h.fits
  | exec =>
    simp only [pairSystem, pairStep] at hx
    split at hx
    · rename_i c f k hc
      obtain ⟨s, hs, rfl⟩ := Option.map_eq_some_iff.mp hx
      obtain ⟨t', hguar, hk⟩ := (h.call c _ hc).step h.counted hs
      have htoken : r.pair.sched.state.token = t.drawn := by
        rw [h.counted.1]
        exact Nat.mod_eq_of_lt h.fits
      have hroom : r.pair.sched.state.token + 1 < 2 ^ 64 := of_decide_eq_true ha
      have hdrawn := hguar.drawn.2
      refine ⟨t', by dsimp only at hdrawn; omega, ?_, hguar.counted h.counted, ?_⟩
      · rw [hguar.asked]
        simp only [record, submits, hc, hs, Option.any_some, h.asked]
      · intro c' p hc'
        cases hc'
        exact hk
    · cases hx

theorem traced_of_reach {r : Recorded} (h : Reach (recordedSystem C) OneThread r) : ∃ t, Traced C r t := by
  induction h with
  | init h => exact ⟨_, Traced.init h⟩
  | step hreach ha hstep ih =>
    obtain ⟨t, ht⟩ := ih
    exact ht.step (pair_kept (pair_of_recorded hreach)).1 ha hstep

/-- While one thread pins, a call that returns has stored a greater recency for every expert it was asked
for exactly when it has submitted no request. -/
theorem recency_recorded {r : Recorded} (h : Reach (recordedSystem C) OneThread r) {c : PinCall} {n : ℕ}
    {out : List Handle} (hc : r.pair.call = some (c, .ret (.pinned n out))) :
    (∀ e < C.topo.nExpert, c.needed e = true →
      r.before c.layer e < r.pair.sched.state.lastUsed c.layer e ∧
        r.pair.sched.state.lastUsed c.layer e ≠ 0) ↔ r.asked = false := by
  obtain ⟨t, ht⟩ := traced_of_reach h
  obtain ⟨hquiet, hasked⟩ := (ht.call c _ hc).result ht.counted n out rfl ht.fits
  rw [ht.asked] at hquiet hasked
  constructor
  · intro hall
    cases hr : r.asked with
    | false => rfl
    | true =>
      -- an expert that the scheduler pinned has the recency it had
      obtain ⟨e, he, hneed, hsame⟩ := hasked hr
      have hlt := (hall e he hneed).1
      rw [hsame] at hlt
      exact absurd hlt (Nat.lt_irrefl _)
  · intro hr e he hneed
    have hlt := hquiet hr e he hneed
    exact ⟨hlt, Nat.ne_of_gt (Nat.zero_lt_of_lt hlt)⟩

section small

/-- The call of one expert that is in no slot yet; the scheduler loads and pins it. -/
def missRun : List PairAct :=
  .begin ⟨0, fun e => e == 0, 1, 0⟩ :: List.replicate 3 .exec ++
    ((loadRun true).tail.map .sched ++ List.replicate 5 .exec)

def recordedStart : Recorded := ⟨⟨start smallConfig, none⟩, fun _ _ => 0, false⟩

/-- Layer of the latest call, whether it needs the first expert, that expert's recency, whether a request was
submitted, and the result. -/
def summary (r : Recorded) : Option (ℕ × Bool × ℕ × Bool × PinResult) :=
  r.pair.call.bind fun d =>
    r.pair.result.map fun res =>
      (d.1.layer, d.1.needed 0, r.pair.sched.state.lastUsed d.1.layer 0, r.asked, res)

theorem exists_recorded {as : List PairAct} {asked : Bool} {used n : ℕ} {out : List Handle}
    (h : ((guardedRun (recordedSystem smallConfig) OneThread as recordedStart).bind summary) =
      some (0, true, used, asked, .pinned n out)) :
    ∃ r c, Reach (recordedSystem smallConfig) OneThread r ∧
      r.pair.call = some (c, .ret (.pinned n out)) ∧ c.needed 0 = true ∧
      r.pair.sched.state.lastUsed c.layer 0 = used ∧ r.asked = asked := by
  obtain ⟨r, hr, hsum⟩ := Option.bind_eq_some_iff.mp h
  obtain ⟨⟨c, p⟩, hcall, hmap⟩ := Option.bind_eq_some_iff.mp hsum
  obtain ⟨res, hres, hmap⟩ := Option.map_eq_some_iff.mp hmap
  simp only [Prod.mk.injEq] at hmap
  obtain ⟨_, hneed, hused, hasked, rfl⟩ := hmap
  have hinit : (recordedSystem smallConfig).init recordedStart := ⟨⟨rfl, rfl⟩, rfl, rfl⟩
  refine ⟨r, c, Reach.guardedRun as (.init hinit) hr, ?_, hneed, hused, hasked⟩
  rw [hcall]
  simp only [Pair.result, hcall] at hres
  cases p with
  | ret a =>
    cases hres
    rfl
  | act f k => cases hres

/-- An expert that is resident is pinned by the call itself. -/
theorem recency_recorded_hit : ∃ (r : Recorded) (c : PinCall), r.pair.call = some (c, .ret (.pinned 1 [⟨0, 1, 0, 0, 0⟩])) ∧
    r.pair.sched.state.lastUsed c.layer 0 = 1 ∧
    ∀ e < smallConfig.topo.nExpert, c.needed e = true →
      r.before c.layer e < r.pair.sched.state.lastUsed c.layer e ∧
        r.pair.sched.state.lastUsed c.layer e ≠ 0 := by
  obtain ⟨r, c, hreach, hcall, _, hused, hasked⟩ :=
    @exists_recorded pinRun false 1 1 [⟨0, 1, 0, 0, 0⟩] (by decide +kernel)
  exact ⟨r, c, hcall, hused, (recency_recorded hreach hcall).mpr hasked⟩

/-- The call of the missing expert returns it with the recency of an expert never used. -/
theorem not_recency_recorded : ¬ ∀ (C : Config) (r : Recorded), Reach (recordedSystem C) OneThread r →
    ∀ c n out, r.pair.call = some (c, .ret (.pinned n out)) →
      ∀ e < C.topo.nExpert, c.needed e = true →
        r.before c.layer e < r.pair.sched.state.lastUsed c.layer e ∧
          r.pair.sched.state.lastUsed c.layer e ≠ 0 := by
  intro h
  obtain ⟨r, c, hreach, hcall, hneed, hused, _⟩ :=
    @exists_recorded missRun true 0 1 [⟨0, 1, 0, 0, 0⟩] (by decide +kernel)
  exact (h smallConfig r hreach c 1 _ hcall 0 (by decide) hneed).2 hused

end small

end runs

end PinRecency
end StreamMoE
