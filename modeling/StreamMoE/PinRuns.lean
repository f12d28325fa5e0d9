import StreamMoE.PinLayer
import StreamMoE.SchedRuns

/-! Calls of `pin_layer` beside the scheduler and everybody else, and where the slots are that the
directory names and that a call hands out. -/
namespace StreamMoE
namespace PinRuns

open AtomicProg ThreadLoop TransitionSystem SchedConfig Sched SchedRuns PinLayer

variable {C : Config}

section home

/-- Every slot that is claimed for a key lies in the key's home region. -/
def ClaimsHome (C : Config) (x : Sys × Ghost) : Prop :=
  ∀ i k st, (x.2.own i).claim = some (k, st) → HomeRegion C i k.pool k.layer

theorem ClaimsHome.setOwn {s s' : Sys} {g : Ghost} (h : ClaimsHome C (s, g)) {i : ℕ} {a : Owner}
    (ha : ∀ k st, a.claim = some (k, st) → HomeRegion C i k.pool k.layer) :
    ClaimsHome C (s', g.setOwn i a) := by
  intro j k st hj
  by_cases hji : j = i
  · subst hji
    dsimp only at hj
    rw [Ghost.setOwn_self] at hj
    exact ha k st hj
  · dsimp only at hj
    rw [Ghost.setOwn_of_ne g a hji] at hj
    exact h j k st hj

/-- The slot goes on with the key it had. -/
theorem ClaimsHome.keep {s s' : Sys} {g : Ghost} (h : ClaimsHome C (s, g)) {i : ℕ} {a b : Owner}
    (hown : g.own i = b)
    (ha : ∀ k st, a.claim = some (k, st) → ∃ st', b.claim = some (k, st')) :
    ClaimsHome C (s', g.setOwn i a) := by
  refine h.setOwn ?_
  intro k st hk
  obtain ⟨st', hb⟩ := ha k st hk
  rw [← hown] at hb
  exact h i k st' hb

/-- The slot is nobody's afterwards. -/
theorem ClaimsHome.drop {s s' : Sys} {g : Ghost} (h : ClaimsHome C (s, g)) {i : ℕ} {a : Owner}
    (ha : a.claim = none) : ClaimsHome C (s', g.setOwn i a) := by
  refine h.setOwn ?_
  intro k st hk
  rw [ha] at hk
  cases hk

theorem ClaimsHome.step {promise : Promise} {x y : Sys × Ghost} (hwf : WF C x) (h : ClaimsHome C x)
    (hstep : Step C promise x y) : ClaimsHome C y := by
  cases hstep with
  | reserve s g i k hown habs hhome | claim s g i k hown habs hhome =>
    refine h.setOwn ?_
    intro k' st hk
    cases hk
    exact hhome
  | reload s g i k hown | startLoad s g i k accept idx hown | markReady s g i k b hown
  | settleDir s g i k b hown | markFailed s g i k hown | moveIn s g i k hown =>
    refine h.keep hown ?_
    intro k' st hk
    cases hk
    exact ⟨_, rfl⟩
  | beginEvict s g i k hphase hserve hown =>
    refine h.keep hown ?_
    intro k' st hk
    cases hk
    exact ⟨_, rfl⟩
  | arrive s g idx ok s' hev hp =>
    have hown := (hwf.ring.loading idx (by dsimp only; omega)).1
    refine h.keep hown ?_
    intro k' st hk
    cases hk
    exact ⟨_, rfl⟩
  | «break» s g idx ok s' hl hev hp =>
    have hown := (hwf.ring.loading idx (by dsimp only; omega)).1
    refine h.keep hown ?_
    intro k' st hk
    cases hk
    exact ⟨_, rfl⟩
  | abandon | fail | clear | drain | recycle | unreserve | release => exact h.drop rfl
  | submitMove s g m hsrc hdst =>
    have hdrop : ClaimsHome C (s, g.setOwn m.srcSlot (.source m.layer m.expert)) := h.drop rfl
    refine hdrop.setOwn ?_
    intro k st hk
    cases hk
    exact h m.dstSlot m.dstKey .loading (by dsimp only; rw [hdst]; rfl)
  | popMove s g m rest b hdone hdst =>
    have hdrop : ClaimsHome C (s, g.setOwn m.srcSlot (.drained m.layer m.expert)) := h.drop rfl
    refine hdrop.setOwn ?_
    intro k st hk
    cases hk
    exact h m.dstSlot m.dstKey _ (by dsimp only; rw [hdst]; rfl)
  | _ => exact h

/-- Every slot the directory names lies in the one region its pool and group fill. -/
def Homed (C : Config) (s : Sys) : Prop :=
  ∀ k i, (s.dir k).slot = some i → HomeRegion C i k.pool k.layer

theorem homed_of_reach {guard : SchedRuns.State → Act → Prop} {r : SchedRuns.State}
    (h : Reach (system C) guard r) : Homed C r.state := by
  have hinit : ClaimsHome C (initialSys C, initialGhost) := by
    intro i k st hk
    cases hk
  obtain ⟨g, hinv, hclaims, _⟩ := kept_of_reach .nothing (fun _ c _ => honored_nothing c) hinit
    (fun x y hx hclaims hstep => hclaims.step hx.1 hstep) (fun _ _ _ _ _ _ hclaims _ => hclaims) h
  intro k i hi
  have hentry : r.state.dir k = ⟨(r.state.dir k).state, some i⟩ := by rw [← hi]
  exact hclaims i k _ ((hinv.1.dir.named k i _).mp hentry)

end home

section call

structure PinCall where
  layer : ℕ
  needed : ℕ → Bool
  outCap : ℕ
  batch : ℕ

def PinCall.prog (C : Config) (c : PinCall) : Prog Sys PinResult :=
  pinLayer C c.batch c.layer c.needed c.outCap

/-- The scheduler and its environment, and the latest call of one thread. -/
structure Pair where
  sched : SchedRuns.State
  call : Option (PinCall × Prog Sys PinResult)

inductive PairAct
  | sched (a : Act)
  | begin (c : PinCall)
  | exec

def pairStep (C : Config) (x : Pair) : PairAct → Option Pair
  | .sched a => ((system C).step x.sched a).map fun r => { x with sched := r }
  | .begin c =>
      match x.call with
      | some (_, .act _ _) => none
      | _ => some { x with call := some (c, c.prog C) }
  | .exec =>
      match x.call with
      | some (c, .act f k) =>
          (f x.sched.state).map fun t =>
            { sched := { x.sched with state := t }, call := some (c, k x.sched.state) }
      | _ => none

def pairSystem (C : Config) : Machine Pair PairAct :=
  { init := fun x => (system C).init x.sched ∧ x.call = none, step := pairStep C }

/-- What a call may rely on, and that each of its accesses is one another thread could make. -/
def callContract (C : Config) : Contract Sys Unit where
  inv x := Homed C x.1
  rely _ y := Homed C y.1
  guar x y := y.1 = x.1 ∨ ∃ a, envStep x.1 a = some y.1
  rely_inv _ _ _ hy := hy
  guar_inv x y hx hxy := by
    have hdir : y.1.dir = x.1.dir := by
      rcases hxy with hxy | ⟨a, ha⟩
      · rw [hxy]
      · exact congrArg View.dir (envStep_view ha)
    rw [Homed, hdir]
    exact hx
  guar_refl _ := .inl rfl

variable {x : Sys × Unit} {b layer : ℕ}

theorem stable_true : Stable (callContract C) fun _ => True := fun _ _ _ _ _ => trivial

theorem safe_scanPools (expert : ℕ) (ps : List ℕ) (hx : (callContract C).inv x) :
    Safe (callContract C) (scanPools layer expert ps)
      (fun r _ => ∀ i p, r = some (i, p) → HomeRegion C i p layer) x := by
  induction ps generalizing x with
  | nil => exact Safe.ret stable_true hx trivial fun _ _ _ i p hr => by cases hr
  | cons p ps ih =>
    refine Safe.get stable_true hx trivial ?_
    intro y hy _
    split
    · refine Safe.get stable_true hy trivial ?_
      intro z hz _
      split
      · rename_i i hi
        refine Safe.ret stable_true hz trivial ?_
        intro _ _ _ j q hr
        cases hr
        exact hz ⟨layer, expert, p⟩ i hi
      · exact ih hz
    · exact ih hy

/-- Handles of distinct experts of the layer, each in its expert's home region. -/
structure Handed (C : Config) (layer : ℕ) (out : List Handle) : Prop where
  layer_eq : ∀ h ∈ out, h.layer = layer
  home : ∀ h ∈ out, HomeRegion C h.slot h.pool layer

theorem Handed.nil : Handed C layer [] :=
  ⟨fun _ h => absurd h List.not_mem_nil, fun _ h => absurd h List.not_mem_nil⟩

theorem Handed.push {out : List Handle} (h : Handed C layer out) {i gen expert pool : ℕ}
    (hi : HomeRegion C i pool layer) : Handed C layer (out ++ [⟨i, gen, layer, expert, pool⟩]) := by
  refine ⟨?_, ?_⟩
  · intro a ha
    rcases List.mem_append.mp ha with ha | ha
    · exact h.layer_eq a ha
    · rw [List.mem_singleton.mp ha]
  · intro a ha
    rcases List.mem_append.mp ha with ha | ha
    · exact h.home a ha
    · rw [List.mem_singleton.mp ha]
      exact hi

theorem nodup_missing {out missing es : List ℕ} {e : ℕ} (h : (out ++ missing ++ e :: es).Nodup) :
    (out ++ (missing ++ [e]) ++ es).Nodup := by
  simpa using h

/-- An expert of the rest that goes to the end of the experts handed out. -/
theorem perm_out (out missing es : List ℕ) (e : ℕ) :
    (out ++ missing ++ e :: es).Perm (out ++ [e] ++ missing ++ es) := by
  simp only [List.append_assoc, List.singleton_append, List.perm_append_left_iff]
  exact List.perm_middle

theorem nodup_out {out missing es : List ℕ} {e : ℕ} (h : (out ++ missing ++ e :: es).Nodup) :
    (out ++ [e] ++ missing ++ es).Nodup := (perm_out out missing es e).nodup h

theorem safe_pinHits (es : List ℕ) {out : List Handle} {missing : List ℕ}
    (hx : (callContract C).inv x) (hout : Handed C layer out)
    (hnodup : (out.map Handle.expert ++ missing ++ es).Nodup) :
    Safe (callContract C) (pinHits C b layer es out missing)
      (fun r _ => Handed C layer r.1 ∧ (r.1.map Handle.expert ++ r.2).Nodup) x := by
  induction es generalizing x out missing with
  | nil =>
    refine Safe.ret stable_true hx trivial ?_
    intro _ _ _
    exact ⟨hout, by simpa using hnodup⟩
  | cons e es ih =>
    refine Safe.bind hx (Safe.mono ?_ (safe_scanPools e (List.range C.nPools) hx))
    intro r y hy hr
    cases r with
    | none => exact ih hy hout (nodup_missing hnodup)
    | some ip =>
      obtain ⟨i, pool⟩ := ip
      refine Safe.getModify stable_true hy trivial ?_
      intro z hz _
      refine ⟨(), .inr ⟨.tryPin (.batch (some b)) i, rfl⟩, ?_⟩
      have hz' : (callContract C).inv (z.1.tryPin (.batch (some b)) i, ()) :=
        (callContract C).guar_inv z _ hz (.inr ⟨.tryPin (.batch (some b)) i, rfl⟩)
      split
      · exact ih hz' hout (nodup_missing hnodup)
      · refine Safe.getModify stable_true hz' trivial ?_
        intro t ht _
        refine ⟨(), .inr ⟨.nextToken, rfl⟩, ?_⟩
        refine Safe.modify stable_true ((callContract C).guar_inv t _ ht (.inr ⟨.nextToken, rfl⟩))
          trivial ?_
        intro u hu _
        refine ⟨(), .inr ⟨.touch layer e _, rfl⟩, ?_⟩
        refine ih ((callContract C).guar_inv u _ hu (.inr ⟨.touch layer e _, rfl⟩))
          (hout.push (hr i pool rfl)) ?_
        rw [List.map_append]
        exact nodup_out hnodup

/-- A handle is given back as another thread would do it. -/
theorem unpinHandle_env (b : ℕ) (h : Handle) (s : Sys) :
    (if h.slot < C.geometry.numSlots then s.unpin (.batch (some b)) h.slot else s) = s ∨
      ∃ a, envStep s a =
        some (if h.slot < C.geometry.numSlots then s.unpin (.batch (some b)) h.slot else s) := by
  split
  · right
    by_cases hpin : s.pins.any (fun r => r.holder == .batch (some b) && r.slot == h.slot) = true
    · exact ⟨.unpin (.batch (some b)) h.slot, by simp [envStep, hpin]⟩
    · -- no pin to give back: only the word changes
      have hnone : s.pins.eraseP (fun r => r.holder == .batch (some b) && r.slot == h.slot) =
          s.pins := by
        refine List.eraseP_of_forall_not ?_
        intro r hr hp
        exact hpin (List.any_eq_true.mpr ⟨r, hr, hp⟩)
      refine ⟨.strayUnpin h.slot, ?_⟩
      simp only [envStep, Sys.unpin, hnone]
      rfl
  · exact .inl rfl

theorem safe_unpinHandles (hs : List Handle) (hx : (callContract C).inv x) :
    Safe (callContract C) (unpinHandles C b hs) (fun _ _ => True) x := by
  induction hs generalizing x with
  | nil => exact Safe.ret stable_true hx trivial fun _ _ _ => trivial
  | cons h hs ih =>
    refine Safe.modify stable_true hx trivial ?_
    intro y hy _
    have hguar : (callContract C).guar y
        (if h.slot < C.geometry.numSlots then y.1.unpin (.batch (some b)) h.slot else y.1, ()) :=
      unpinHandle_env b h y.1
    exact ⟨(), hguar, ih ((callContract C).guar_inv _ _ hy hguar)⟩

/-- What a call of `pin_layer` hands out. -/
def Granted (C : Config) (layer : ℕ) (r : PinResult) : Prop :=
  ∀ n out, r = .pinned n out → Handed C layer out ∧ (out.map Handle.expert).Nodup

theorem granted_failed {why : Failure} : Granted C layer (.failed why) := by
  intro n out h
  cases h

theorem safe_collect (want : ℕ) (es : List ℕ) {out : List Handle} (hx : (callContract C).inv x)
    (hout : Handed C layer out) (hnodup : (out.map Handle.expert ++ es).Nodup) :
    Safe (callContract C) (collect C b layer want es out) (fun r _ => Granted C layer r) x := by
  induction es generalizing x out with
  | nil =>
    refine Safe.ret stable_true hx trivial ?_
    intro _ _ _ n out' h
    cases h
    exact ⟨hout, by simpa using hnodup⟩
  | cons e es ih =>
    refine Safe.bind hx (Safe.mono ?_ (safe_scanPools e (List.range C.nPools) hx))
    intro r y hy hr
    cases r with
    | none =>
      refine Safe.bind hy (Safe.mono ?_ (safe_unpinHandles out hy))
      intro _ z hz _
      exact Safe.ret stable_true hz trivial fun _ _ _ => granted_failed
    | some ip =>
      obtain ⟨i, pool⟩ := ip
      refine Safe.get stable_true hy trivial ?_
      intro z hz _
      refine ih hz (hout.push (hr i pool rfl)) ?_
      rw [List.map_append]
      simpa using hnodup

theorem safe_pinLayer (c : PinCall) (hx : (callContract C).inv x) :
    Safe (callContract C) (c.prog C) (fun r _ => Granted C c.layer r) x := by
  have hfailed : ∀ (why : Failure) (y : Sys × Unit), (callContract C).inv y →
      Safe (callContract C) (.ret (.failed why)) (fun r _ => Granted C c.layer r) y :=
    fun why y hy => Safe.ret stable_true hy trivial fun _ _ _ => granted_failed
  have hdone : ∀ {out : List Handle} (n : ℕ) (y : Sys × Unit), (callContract C).inv y →
      Handed C c.layer out → (out.map Handle.expert).Nodup →
      Safe (callContract C) (.ret (.pinned n out)) (fun r _ => Granted C c.layer r) y := by
    intro out n y hy hout hnodup
    refine Safe.ret stable_true hy trivial ?_
    intro _ _ _ n' out' h
    cases h
    exact ⟨hout, hnodup⟩
  unfold PinCall.prog pinLayer
  dsimp only
  split
  · exact hfailed _ x hx
  · split
    · exact hdone 0 x hx Handed.nil List.nodup_nil
    · split
      · exact hfailed _ x hx
      · have hwant : (List.map Handle.expert [] ++ [] ++
            (List.range C.topo.nExpert).filter c.needed).Nodup :=
          List.nodup_range.filter _
        refine Safe.bind hx (Safe.mono ?_ (safe_pinHits _ hx Handed.nil hwant))
        rintro ⟨out, missing⟩ y hy ⟨hout, hnodup⟩
        dsimp only
        split
        · exact hdone _ y hy hout (List.nodup_append.mp hnodup).1
        · -- the missing experts go to the scheduler as one request
          refine Safe.modify stable_true hy trivial ?_
          intro z hz _
          refine ⟨(), .inr ⟨.resetBatch c.batch, rfl⟩, ?_⟩
          refine Safe.act stable_true ((callContract C).guar_inv z _ hz
            (.inr ⟨.resetBatch c.batch, rfl⟩)) trivial ?_
          intro t ht _ t' hpush
          have hguar : (callContract C).guar t (t', ()) := .inr ⟨.push _, hpush⟩
          refine ⟨(), hguar, ?_⟩
          refine Safe.await stable_true ((callContract C).guar_inv _ _ ht hguar) trivial ?_
          intro u hu _ _
          refine ⟨(), (callContract C).guar_refl u, ?_⟩
          refine Safe.get stable_true hu trivial ?_
          intro v hv _
          split
          · refine Safe.bind hv (Safe.mono ?_ (safe_unpinHandles out hv))
            intro _ w hw _
            exact hfailed _ w hw
          · exact safe_collect _ missing hv hout hnodup

end call

/-- What the latest call returned. -/
def Pair.result (x : Pair) : Option PinResult :=
  match x.call with
  | some (_, .ret r) => some r
  | _ => none

/-- A call under way, or its result, in a reachable state. -/
theorem pair_kept {guard : Pair → PairAct → Prop} {x : Pair} (h : Reach (pairSystem C) guard x) :
    Reach (system C) anyStep x.sched ∧ ∀ c p, x.call = some (c, p) →
      Safe (callContract C) p (fun r _ => Granted C c.layer r) (x.sched.state, ()) := by
  induction h with
  | init h =>
    refine ⟨.init h.1, ?_⟩
    intro c p hc
    rw [h.2] at hc
    cases hc
  | step _ _ hstep ih =>
    rename_i x a x' hreach hguard
    obtain ⟨hsched, hcall⟩ := ih
    cases a with
    | sched a =>
      obtain ⟨r, hr, rfl⟩ := Option.map_eq_some_iff.mp hstep
      have hreach' : Reach (system C) anyStep r := .step hsched trivial hr
      refine ⟨hreach', ?_⟩
      intro c p hc
      exact (hcall c p hc).stable (.single (homed_of_reach hreach'))
    | begin c =>
      simp only [pairSystem, pairStep] at hstep
      have hx' : x' = { x with call := some (c, c.prog C) } := by
        split at hstep
        · cases hstep
        · exact (Option.some.inj hstep).symm
      subst hx'
      refine ⟨hsched, ?_⟩
      intro c' p hc
      cases hc
      exact safe_pinLayer c (homed_of_reach hsched)
    | exec =>
      simp only [pairSystem, pairStep] at hstep
      split at hstep
      · rename_i c f k hc
        obtain ⟨t, ht, rfl⟩ := Option.map_eq_some_iff.mp hstep
        obtain ⟨_, hguar, hk⟩ := (hcall c _ hc).step (homed_of_reach hsched) ht
        refine ⟨?_, ?_⟩
        · rcases hguar with heq | ⟨a, ha⟩
          · have hsame : t = x.sched.state := heq
            rw [hsame]
            exact hsched
          · refine .step (a := .env a) hsched trivial ?_
            exact congrArg (Option.map fun t => (⟨t, x.sched.prog⟩ : SchedRuns.State)) ha
        · intro c' p hc'
          cases hc'
          exact hk
      · cases hstep

/-- Whatever runs beside it, a call returns handles of distinct experts in their home regions. -/
theorem granted_of_reach {guard : Pair → PairAct → Prop} {x : Pair}
    (h : Reach (pairSystem C) guard x) {c : PinCall} {r : PinResult}
    (hr : x.call = some (c, .ret r)) : Granted C c.layer r := by
  obtain ⟨hsched, hcall⟩ := pair_kept h
  exact (hcall c _ hr).result (homed_of_reach hsched)

section small

/-- The expert is loaded and then pinned by one call. -/
def pinRun : List PairAct :=
  (loadRun true).map .sched ++ .begin ⟨0, fun e => e == 0, 1, 0⟩ :: List.replicate 5 .exec

theorem reach_result (as : List PairAct) {layer : ℕ} {r : PinResult}
    (hlayer : ((run (pairSystem C) as ⟨start C, none⟩).bind fun x => x.call.map fun c => c.1.layer) =
      some layer)
    (hresult : (run (pairSystem C) as ⟨start C, none⟩).bind Pair.result = some r) :
    ∃ x c, Reach (pairSystem C) anyStep x ∧ c.layer = layer ∧ x.call = some (c, .ret r) := by
  obtain ⟨x, hx, hr⟩ := Option.bind_eq_some_iff.mp hresult
  have hinit : (pairSystem C).init ⟨start C, none⟩ := ⟨rfl, rfl⟩
  have hreach : Reach (pairSystem C) anyStep x :=
    Reach.run_of_guard (fun _ _ => trivial) as (.init hinit) hx
  rw [hx, Option.bind_some] at hlayer
  unfold Pair.result at hr
  split at hr
  · rename_i c _ hcall
    cases hr
    rw [hcall] at hlayer
    exact ⟨x, c, hreach, Option.some.inj hlayer, hcall⟩
  · cases hr

end small

end PinRuns
end StreamMoE
