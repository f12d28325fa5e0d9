import Mathlib.Data.List.TakeWhile
import StreamMoE.ExpertAddress
import StreamMoE.MixCover

/-! The pins and the device work of one closure: `exec_moe_closure` with the outcomes of its parts,
and whether a device may still run when pins are released and buffers freed. -/
namespace StreamMoE
namespace ClosurePins

open AtomicProg SchedConfig Sched PinLayer MixSplit MixCover ExpertAddress

/-- What the calling thread does to pins, devices and the buffers of the rounds. -/
inductive Event
  | pin (h : Handle)
  | submit (pool : ℕ)
  | sync (pool : ℕ)
  | free (buffers : ℕ)
  | unpin (h : Handle)
  deriving DecidableEq, Repr

inductive Status
  | success | failed
  deriving DecidableEq, Repr

/-- A device target: its pool and the nodes of its graph. -/
structure Target where
  pool : ℕ
  nodes : ℕ
  deriving DecidableEq, Repr

/-- How the parts of the call turn out: the device targets in the order of the map, none if targets
or graphs cannot be made; the buffers of the rounds; the submissions by pool; the CPU graph; the
fold on the host. -/
structure Outcome where
  staged : Option (List Target)
  owned : ℕ
  submits : ℕ → Bool
  cpuNodes : ℕ
  cpu : Bool
  fold : Bool

section burst

variable (o : Outcome)

/-- The submissions, up to the first that fails. -/
def submitAll : List Target → List Event × Bool
  | [] => ([], true)
  | t :: ts =>
      if t.nodes = 0 then submitAll ts
      else if o.submits t.pool = false then ([], false)
      else
        let rest := submitAll ts
        (.submit t.pool :: rest.1, rest.2)

/-- Submit to the devices, run the CPU graph, wait for the devices, fold. -/
def burst (ts : List Target) : List Event × Status :=
  let submitted := submitAll o ts
  if submitted.2 = false then (submitted.1, .failed)
  else if 0 < o.cpuNodes ∧ o.cpu = false then (submitted.1, .failed)
  else (submitted.1 ++ ts.map fun t => .sync t.pool, if o.fold then .success else .failed)

/-- `exec_layer_burst_chain_buckets`; the guard frees the buffers on every way out behind it. -/
def execBuckets (rounds : List MixRound) : List Event × Status :=
  if rounds = [] then ([], .failed)
  else
    match o.staged with
    | none => ([.free o.owned], .failed)
    | some ts => ((burst o ts).1 ++ [.free o.owned], (burst o ts).2)

end burst

/-- The routing ids of a closure; no data until they are computed. -/
structure Ids where
  nK : ℕ
  nT : ℕ
  data : Option (ℕ → ℤ)

/-- The closure of the layer: whether it has nodes, and the ids of its first `MUL_MAT_ID`. -/
structure Closure where
  compute : Bool
  ids : Option Ids

/-- The distinct experts of the ids, in the order they are met. -/
def keysOf (nExpert : ℕ) (ids : List ℤ) : List ℕ :=
  ids.foldl (fun keys (e : ℤ) =>
    if 0 ≤ e ∧ e < nExpert ∧ e.toNat ∉ keys then keys ++ [e.toNat] else keys) []

section closure

variable (C : Config) (layer : ℕ)

def idsCompact (nK nT : ℕ) (ids : ℕ → ℤ) : List ℤ := (List.range (nT * nK)).map ids

def pinCall (b nK nT : ℕ) (ids : ℕ → ℤ) : Prog Sys PinResult :=
  let keys := keysOf C.topo.nExpert (idsCompact nK nT ids)
  pinLayer C b layer (fun e => decide (e ∈ keys)) keys.length

/-- The arguments of `build_mix_plan`. -/
def mixInput (pins : List Handle) (nK nT : ℕ) (ids : ℕ → ℤ) : MixInput where
  ids := ids
  nExpertUsed := nK
  nTokens := nT
  expertPool := expertPool C.topo.nExpert pins
  nExpert := C.topo.nExpert
  nPools := C.nPools

/-- `exec_moe_closure` when `pin_layer` returns `r`. -/
def execMoeClosure (x : Closure) (r : PinResult) (o : Outcome) : List Event × Status :=
  if x.compute = false then ([], .success)
  else
    match x.ids with
    | none => ([], .failed)
    | some i =>
        if i.nT = 0 ∨ i.nK = 0 then ([], .success)
        else
          match i.data with
          | none => ([], .failed)
          | some ids =>
              match r with
              | .failed _ => ([], .failed)
              | .pinned n pins =>
                  if n ≠ (keysOf C.topo.nExpert (idsCompact i.nK i.nT ids)).length then
                    (pins.map .pin, .failed)
                  else
                    let run := execBuckets o (buildMixPlan (mixInput C pins i.nK i.nT ids)).rounds
                    (pins.map .pin ++ run.1 ++ pins.map .unpin, run.2)

end closure

def taken (es : List Event) : List Handle :=
  es.filterMap fun e => match e with
    | .pin h => some h
    | _ => none

def released (es : List Event) : List Handle :=
  es.filterMap fun e => match e with
    | .unpin h => some h
    | _ => none

/-- The devices whose graphs may run still: submitted and not waited for since. -/
def mayRun : List Event → List ℕ → List ℕ
  | [], run => run
  | .submit p :: es, run => mayRun es (p :: run)
  | .sync p :: es, run => mayRun es (run.filter fun q => decide (q ≠ p))
  | _ :: es, run => mayRun es run

/-- A pin is given back, or buffers are freed. -/
def Event.releases : Event → Prop
  | .unpin _ => True
  | .free n => n ≠ 0
  | _ => False

/-- Every pin is released once, and no device may run when pins or buffers are. -/
structure PinsOutlive (es : List Event) : Prop where
  once : released es = taken es
  idle : ∀ before e behind, es = before ++ e :: behind → e.releases → mayRun before [] = []

section pin

variable (C : Config) (b layer : ℕ)

theorem returns_pinHits (es : List ℕ) : ∀ (out : List Handle) (missing : List ℕ) {r},
    Returns (pinHits C b layer es out missing) r →
      r.1.length + r.2.length = out.length + missing.length + es.length := by
  induction es with
  | nil =>
    intro out missing r h
    cases h
    rfl
  | cons e es ih =>
    intro out missing r h
    rw [pinHits, bind_eq] at h
    obtain ⟨found, _, h⟩ := returns_bind h
    cases found with
    | none =>
      have hlen := ih _ _ h
      simp only [List.length_append, List.length_cons, List.length_nil] at hlen ⊢
      omega
    | some ip =>
      simp only [bind_eq] at h
      obtain ⟨s, _, h⟩ := returns_bind h
      cases hw : SlotWord.tryPin (s.word ip.1) with
      | none =>
        rw [hw] at h
        have hlen := ih _ _ h
        simp only [List.length_append, List.length_cons, List.length_nil] at hlen ⊢
        omega
      | some w =>
        rw [hw] at h
        obtain ⟨t, _, h⟩ := returns_bind h
        obtain ⟨_, _, h⟩ := returns_bind h
        have hlen := ih _ _ h
        simp only [List.length_append, List.length_cons, List.length_nil] at hlen ⊢
        omega

/-- A count that is returned is that of the handles. -/
def Counted (want : ℕ) (r : PinResult) : Prop :=
  ∀ n out, r = .pinned n out → n = want ∧ out.length = want

theorem returns_collect (want : ℕ) (es : List ℕ) : ∀ (out : List Handle) {r},
    out.length + es.length = want → Returns (collect C b layer want es out) r → Counted want r := by
  induction es with
  | nil =>
    intro out r hlen h
    cases h
    rintro n out' heq
    cases heq
    exact ⟨rfl, by simpa using hlen⟩
  | cons e es ih =>
    intro out r hlen h
    rw [collect, bind_eq] at h
    obtain ⟨found, _, h⟩ := returns_bind h
    cases found with
    | none =>
      simp only [bind_eq] at h
      obtain ⟨_, _, h⟩ := returns_bind h
      cases h
      rintro n out' heq
      cases heq
    | some ip =>
      simp only [bind_eq] at h
      obtain ⟨s, _, h⟩ := returns_bind h
      refine ih _ ?_ h
      simp only [List.length_append, List.length_cons, List.length_nil] at hlen ⊢
      omega

theorem returns_pinLayer {needed : ℕ → Bool} {outCap : ℕ} {r : PinResult}
    (h : Returns (pinLayer C b layer needed outCap) r) :
    Counted ((List.range C.topo.nExpert).filter needed).length r := by
  unfold pinLayer at h
  dsimp only at h
  split at h
  · cases h
    rintro n out heq
    cases heq
  · split at h
    · rename_i hzero
      cases h
      rintro n out heq
      cases heq
      exact ⟨hzero.symm, hzero.symm⟩
    · split at h
      · cases h
        rintro n out heq
        cases heq
      · rw [bind_eq] at h
        obtain ⟨hits, hhits, h⟩ := returns_bind h
        have hlen := returns_pinHits C b layer _ _ _ hhits
        simp only [List.length_nil, Nat.zero_add] at hlen
        split at h
        · rename_i hnone
          cases h
          rintro n out heq
          cases heq
          exact ⟨rfl, by omega⟩
        · simp only [bind_eq] at h
          obtain ⟨_, _, h⟩ := returns_bind h
          obtain ⟨_, _, h⟩ := returns_bind h
          obtain ⟨_, _, h⟩ := returns_bind h
          obtain ⟨s, _, h⟩ := returns_bind h
          split at h
          · obtain ⟨_, _, h⟩ := returns_bind h
            cases h
            rintro n out heq
            cases heq
          · exact returns_collect C b layer _ _ _ (by omega) h

/-- The keys are distinct experts of the model. -/
theorem keysOf_spec (nExpert : ℕ) (ids : List ℤ) :
    (keysOf nExpert ids).Nodup ∧ ∀ e ∈ keysOf nExpert ids, e < nExpert := by
  have hfold : ∀ (ids : List ℤ) (keys : List ℕ), keys.Nodup → (∀ e ∈ keys, e < nExpert) →
      (ids.foldl (fun keys (e : ℤ) =>
        if 0 ≤ e ∧ e < nExpert ∧ e.toNat ∉ keys then keys ++ [e.toNat] else keys) keys).Nodup ∧
      ∀ e ∈ ids.foldl (fun keys (e : ℤ) =>
        if 0 ≤ e ∧ e < nExpert ∧ e.toNat ∉ keys then keys ++ [e.toNat] else keys) keys,
          e < nExpert := by
    intro ids
    induction ids with
    | nil => exact fun keys hnodup hlt => ⟨hnodup, hlt⟩
    | cons e ids ih =>
      intro keys hnodup hlt
      rw [List.foldl_cons]
      split
      · rename_i h
        refine ih _ ?_ ?_
        · simpa [List.nodup_append, hnodup] using fun a ha (heq : a = e.toNat) => h.2.2 (heq ▸ ha)
        · intro k hk
          rcases List.mem_append.mp hk with hk | hk
          · exact hlt k hk
          · rw [List.mem_singleton.mp hk]
            omega
      · exact ih _ hnodup hlt
  exact hfold ids [] List.nodup_nil (by simp)

theorem length_wanted (nExpert : ℕ) (ids : List ℤ) :
    ((List.range nExpert).filter fun e => decide (e ∈ keysOf nExpert ids)).length =
      (keysOf nExpert ids).length := by
  obtain ⟨hnodup, hlt⟩ := keysOf_spec nExpert ids
  refine List.Perm.length_eq ?_
  rw [List.perm_ext_iff_of_nodup (List.nodup_range.filter _) hnodup]
  intro e
  simpa using hlt e

/-- `pin_layer` returns a handle for every key, or fails. -/
theorem counted_pinCall {nK nT : ℕ} {ids : ℕ → ℤ} {r : PinResult}
    (h : Returns (pinCall C layer b nK nT ids) r) :
    Counted (keysOf C.topo.nExpert (idsCompact nK nT ids)).length r := by
  have hcounted := returns_pinLayer C b layer h
  rwa [length_wanted] at hcounted

end pin

section rounds

/-- Without pins no expert has a pool. -/
theorem rounds_of_no_pins (C : Config) (nK nT : ℕ) (ids : ℕ → ℤ) :
    (buildMixPlan (mixInput C [] nK nT ids)).rounds = [] := by
  have hcell : ∀ t k, cellPool (mixInput C [] nK nT ids) t k = none := by
    intro t k
    simp [cellPool, mixInput, expertPool]
  have hpeels : allPeels (mixInput C [] nK nT ids) = [] := by
    apply List.eq_nil_iff_forall_not_mem.mpr
    intro x hx
    obtain ⟨p, _, hmem⟩ := List.mem_flatMap.mp hx
    obtain ⟨_, hlt, hmem⟩ := mem_peels (bounds_pairwise _ p) hmem
    have hne := activeToks_ne_nil hmem
    apply hne
    rw [MixExec.activeToks, List.filter_eq_nil_iff]
    intro t ht
    have hzero : (poolHits (mixInput C [] nK nT ids)).count p t = 0 := by
      rw [← length_ksOf, ksOf_eq _ p (List.mem_range.mp ht)]
      simp [hcell]
    simp only [decide_eq_true_eq]
    omega
  rw [buildMixPlan_extend, hpeels]
  simp [extend, emptyPlan, roundsFrom]

end rounds

section events

theorem taken_append (es es' : List Event) : taken (es ++ es') = taken es ++ taken es' :=
  List.filterMap_append

theorem released_append (es es' : List Event) : released (es ++ es') = released es ++ released es' :=
  List.filterMap_append

theorem mayRun_append (es es' : List Event) (run : List ℕ) :
    mayRun (es ++ es') run = mayRun es' (mayRun es run) := by
  induction es generalizing run with
  | nil => rfl
  | cons e es ih => cases e <;> simp [mayRun, ih]

/-- Pins, releases and freed buffers leave the devices as they are. -/
def Event.quiet : Event → Bool
  | .submit _ | .sync _ => false
  | _ => true

theorem mayRun_quiet {es : List Event} (h : ∀ e ∈ es, e.quiet = true) (run : List ℕ) :
    mayRun es run = run := by
  induction es with
  | nil => rfl
  | cons e es ih =>
    have he := h e List.mem_cons_self
    have hes := ih fun e' he' => h e' (List.mem_cons_of_mem _ he')
    cases e <;> simp_all [mayRun, Event.quiet]

/-- Waiting for every device leaves none that may run. -/
theorem mayRun_syncs {ps : List ℕ} : ∀ {run : List ℕ}, (∀ p ∈ run, p ∈ ps) →
    mayRun (ps.map Event.sync) run = [] := by
  induction ps with
  | nil =>
    intro run h
    exact List.eq_nil_iff_forall_not_mem.mpr fun p hp => by simpa using h p hp
  | cons p ps ih =>
    intro run h
    refine ih fun q hq => ?_
    obtain ⟨hq, hne⟩ := List.mem_filter.mp hq
    exact List.mem_of_ne_of_mem (of_decide_eq_true hne) (h q hq)

theorem mayRun_submits (ps run : List ℕ) :
    mayRun (ps.map Event.submit) run = ps.reverse ++ run := by
  induction ps generalizing run with
  | nil => rfl
  | cons p ps ih => simp [mayRun, ih]

end events

section outcome

variable {o : Outcome} {ts : List Target}

/-- The targets with something to run. -/
def active (ts : List Target) : List Target := ts.filter fun t => decide (t.nodes ≠ 0)

theorem submitAll_eq (o : Outcome) (ts : List Target) : submitAll o ts =
    (((active ts).takeWhile fun t => o.submits t.pool).map fun t => .submit t.pool,
      (active ts).all fun t => o.submits t.pool) := by
  induction ts with
  | nil => rfl
  | cons t ts ih =>
    by_cases hnodes : t.nodes = 0
    · simp [submitAll, active, hnodes, ih]
    · cases hsubmit : o.submits t.pool <;> simp [submitAll, active, hnodes, hsubmit, ih]

/-- After a submission that succeeds none fails, nor does the CPU graph. -/
def SafeFailures (o : Outcome) (ts : List Target) : Prop :=
  ∀ t, (active ts).head? = some t → o.submits t.pool = true →
    (∀ t' ∈ active ts, o.submits t'.pool = true) ∧ (o.cpuNodes = 0 ∨ o.cpu = true)

/-- The burst waits for all it has submitted, or only submits. -/
theorem burst_cases (o : Outcome) (ts : List Target) :
    ((∀ t ∈ active ts, o.submits t.pool = true) ∧ (o.cpuNodes = 0 ∨ o.cpu = true) ∧
      (burst o ts).1 = ((active ts).map Target.pool).map Event.submit ++
        (ts.map Target.pool).map Event.sync) ∨
    (¬ ((∀ t ∈ active ts, o.submits t.pool = true) ∧ (o.cpuNodes = 0 ∨ o.cpu = true)) ∧
      (burst o ts).1 =
        (((active ts).takeWhile fun t => o.submits t.pool).map Target.pool).map Event.submit) := by
  by_cases hall : ∀ t ∈ active ts, o.submits t.pool = true
  · have htake : (active ts).takeWhile (fun t => o.submits t.pool) = active ts :=
      List.takeWhile_eq_self_iff.mpr hall
    have htrue : (active ts).all (fun t => o.submits t.pool) = true := List.all_eq_true.mpr hall
    by_cases hcpu : o.cpuNodes = 0 ∨ o.cpu = true
    · refine .inl ⟨hall, hcpu, ?_⟩
      have hno : ¬ (0 < o.cpuNodes ∧ o.cpu = false) := by
        rcases hcpu with h | h <;> simp [h]
      simp [burst, submitAll_eq, htake, htrue, if_neg hno, Function.comp_def]
    · refine .inr ⟨fun h => hcpu h.2, ?_⟩
      have hyes : 0 < o.cpuNodes ∧ o.cpu = false := by
        simpa [Nat.pos_iff_ne_zero] using hcpu
      simp [burst, submitAll_eq, htake, htrue, if_pos hyes, Function.comp_def]
  · refine .inr ⟨fun h => hall h.1, ?_⟩
    have hfalse : (active ts).all (fun t => o.submits t.pool) = false := by
      rw [← Bool.not_eq_true, List.all_eq_true]
      exact hall
    simp [burst, submitAll_eq, hfalse, Function.comp_def]

theorem mayRun_burst_iff : mayRun (burst o ts).1 [] = [] ↔ SafeFailures o ts := by
  rcases burst_cases o ts with ⟨hall, hcpu, heq⟩ | ⟨hbad, heq⟩
  · have hidle : mayRun (burst o ts).1 [] = [] := by
      rw [heq, mayRun_append, mayRun_submits]
      refine mayRun_syncs fun p hp => ?_
      simp only [List.append_nil, List.mem_reverse, List.mem_map] at hp ⊢
      obtain ⟨t, ht, rfl⟩ := hp
      exact ⟨t, (List.mem_filter.mp ht).1, rfl⟩
    exact ⟨fun _ _ _ _ => ⟨hall, hcpu⟩, fun _ => hidle⟩
  · rw [heq, mayRun_submits]
    cases hactive : active ts with
    | nil => exact ⟨fun _ t ht => by simp [hactive] at ht, by simp⟩
    | cons t rest =>
      cases hsubmit : o.submits t.pool with
      | false =>
        refine ⟨fun _ t' ht' hok => ?_, by simp [hsubmit]⟩
        have heq : t = t' := by simpa [hactive] using ht'
        subst heq
        simp [hsubmit] at hok
      | true =>
        refine ⟨fun h => ?_, fun h => absurd (h t (by simp [hactive]) hsubmit) hbad⟩
        simp [hsubmit] at h

theorem taken_burst : taken (burst o ts).1 = [] := by
  rcases burst_cases o ts with ⟨_, _, heq⟩ | ⟨_, heq⟩ <;>
    simp [heq, taken]

theorem released_burst : released (burst o ts).1 = [] := by
  rcases burst_cases o ts with ⟨_, _, heq⟩ | ⟨_, heq⟩ <;>
    simp [heq, released]

theorem not_releases_burst {e : Event} (h : e ∈ (burst o ts).1) : ¬ e.releases := by
  rcases burst_cases o ts with ⟨_, _, heq⟩ | ⟨_, heq⟩ <;>
    (rw [heq] at h; simp only [List.mem_append, List.mem_map] at h)
  · rcases h with ⟨p, _, rfl⟩ | ⟨p, _, rfl⟩ <;> exact id
  · obtain ⟨p, _, rfl⟩ := h
    exact id

end outcome

section closure

variable {C : Config} {b layer : ℕ} {x : Closure} {r : PinResult} {o : Outcome}

/-- The call gets as far as the submissions, with these pins and targets. -/
def Reaches (C : Config) (x : Closure) (r : PinResult) (o : Outcome) (pins : List Handle)
    (ts : List Target) : Prop :=
  x.compute = true ∧ ∃ i ids, x.ids = some i ∧ i.nT ≠ 0 ∧ i.nK ≠ 0 ∧ i.data = some ids ∧
    r = .pinned (keysOf C.topo.nExpert (idsCompact i.nK i.nT ids)).length pins ∧
    (buildMixPlan (mixInput C pins i.nK i.nT ids)).rounds ≠ [] ∧ o.staged = some ts

def PinReturns (C : Config) (b layer : ℕ) (x : Closure) (r : PinResult) : Prop :=
  ∀ i ids, x.ids = some i → i.data = some ids → Returns (pinCall C layer b i.nK i.nT ids) r

/-- No device is touched and every pin is given back. -/
structure Untouched (es : List Event) : Prop where
  quiet : ∀ e ∈ es, e.quiet = true
  once : released es = taken es

theorem untouched_nil : Untouched [] := ⟨by simp, rfl⟩

theorem once_around (pins : List Handle) {es : List Event} (hreleased : released es = [])
    (htaken : taken es = []) : released (pins.map Event.pin ++ es ++ pins.map .unpin) =
      taken (pins.map Event.pin ++ es ++ pins.map .unpin) := by
  simp only [released_append, taken_append, hreleased, htaken]
  simp [released, taken, List.filterMap_map]

theorem untouched_around (pins : List Handle) {es : List Event} (h : es = [] ∨ ∃ n, es = [.free n]) :
    Untouched (pins.map Event.pin ++ es ++ pins.map .unpin) := by
  refine ⟨fun e he => ?_, ?_⟩
  · simp only [List.mem_append, List.mem_map] at he
    rcases he with (⟨p, _, rfl⟩ | he) | ⟨p, _, rfl⟩
    · rfl
    · rcases h with rfl | ⟨n, rfl⟩
      · simp at he
      · rw [List.mem_singleton.mp he]
        rfl
    · rfl
  · rcases h with rfl | ⟨n, rfl⟩ <;> exact once_around pins rfl rfl

/-- `exec_layer_burst_chain_buckets` ends before the submissions, or behind the burst. -/
theorem execBuckets_cases (o : Outcome) (rounds : List MixRound) :
    (∃ ts, rounds ≠ [] ∧ o.staged = some ts ∧
      (execBuckets o rounds).1 = (burst o ts).1 ++ [.free o.owned]) ∨
    ((∀ ts, ¬ (rounds ≠ [] ∧ o.staged = some ts)) ∧
      ((execBuckets o rounds).1 = [] ∨ ∃ n, (execBuckets o rounds).1 = [.free n])) := by
  by_cases hrounds : rounds = []
  · exact .inr ⟨fun ts h => h.1 hrounds, .inl (by simp [execBuckets, hrounds])⟩
  · cases hstaged : o.staged with
    | none => exact .inr ⟨by simp, .inr ⟨o.owned, by simp [execBuckets, hrounds, hstaged]⟩⟩
    | some ts => exact .inl ⟨ts, hrounds, rfl, by simp [execBuckets, hrounds, hstaged]⟩

/-- Either the submissions are reached, or no device is touched and every pin is given back. -/
theorem execMoeClosure_cases (o : Outcome) (hr : PinReturns C b layer x r) :
    (∃ pins ts, Reaches C x r o pins ts ∧ pins ≠ [] ∧ (execMoeClosure C x r o).1 =
      pins.map .pin ++ ((burst o ts).1 ++ [.free o.owned]) ++ pins.map .unpin) ∨
    ((∀ pins ts, ¬ Reaches C x r o pins ts) ∧ Untouched (execMoeClosure C x r o).1) := by
  unfold execMoeClosure
  split
  · rename_i hcompute
    exact .inr ⟨fun _ _ h => by simp [Reaches, hcompute] at h, untouched_nil⟩
  rename_i hcompute
  split
  · rename_i hids
    exact .inr ⟨fun _ _ h => by simp [Reaches, hids] at h, untouched_nil⟩
  rename_i i hids
  split
  · rename_i hzero
    refine .inr ⟨?_, untouched_nil⟩
    rintro _ _ ⟨_, i', ids, hi, hT, hK, _⟩
    obtain rfl := Option.some.inj (hids.symm.trans hi)
    exact hzero.elim hT hK
  rename_i hzero
  split
  · rename_i hdata
    refine .inr ⟨?_, untouched_nil⟩
    rintro _ _ ⟨_, i', ids, hi, _, _, hids', _⟩
    obtain rfl := Option.some.inj (hids.symm.trans hi)
    simp [hdata] at hids'
  rename_i ids hdata
  split
  · refine .inr ⟨?_, untouched_nil⟩
    rintro _ _ ⟨_, _, _, _, _, _, _, hpinned, _⟩
    cases hpinned
  rename_i n pins
  obtain ⟨rfl, -⟩ := counted_pinCall C b layer (hr i ids hids hdata) n pins rfl
  rw [if_neg (by simp)]
  rcases execBuckets_cases o (buildMixPlan (mixInput C pins i.nK i.nT ids)).rounds with
    ⟨ts, hrounds, hstaged, heq⟩ | ⟨hearly, heq⟩
  · refine .inl ⟨pins, ts, ⟨by simpa using hcompute, i, ids, hids, fun h => hzero (.inl h),
      fun h => hzero (.inr h), hdata, rfl, hrounds, hstaged⟩, ?_, by simp only [heq]⟩
    rintro rfl
    exact hrounds (rounds_of_no_pins C i.nK i.nT ids)
  · refine .inr ⟨?_, untouched_around pins heq⟩
    rintro pins' ts ⟨_, i', ids', hi, _, _, hids', hpinned, hreached⟩
    obtain rfl := Option.some.inj (hids.symm.trans hi)
    obtain rfl := Option.some.inj (hdata.symm.trans hids')
    obtain ⟨_, rfl⟩ := PinResult.pinned.inj hpinned
    exact hearly ts hreached

/-- No device may run when something is released behind a part that leaves none. -/
theorem idle_of_split {es rest before behind : List Event} {e : Event}
    (hes : ∀ e ∈ es, ¬ e.releases) (hidle : mayRun es [] = []) (hrest : ∀ e ∈ rest, e.quiet = true)
    (h : es ++ rest = before ++ e :: behind) (he : e.releases) : mayRun before [] = [] := by
  rcases List.append_eq_append_iff.mp h with ⟨mid, rfl, hmid⟩ | ⟨mid, rfl, hmid⟩
  · rw [mayRun_append, hidle]
    refine mayRun_quiet (fun e' he' => hrest e' ?_) []
    rw [hmid]
    exact List.mem_append_left _ he'
  · cases mid with
    | nil => simpa using hidle
    | cons e' mid =>
      obtain ⟨rfl, _⟩ := List.cons.inj hmid
      exact absurd he (hes e (by simp))

/-- The pins are released once and never while a device may run, exactly if no submission and no CPU
graph fails behind a submission that succeeded. -/
theorem pinsOutlive_iff_safeFailures (hr : PinReturns C b layer x r) (o : Outcome) :
    PinsOutlive (execMoeClosure C x r o).1 ↔
      ∀ pins ts, Reaches C x r o pins ts → SafeFailures o ts := by
  rcases execMoeClosure_cases o hr with ⟨pins, ts, hreached, hpins, heq⟩ | ⟨hnot, huntouched⟩
  · have hts : ∀ {pins' ts'}, Reaches C x r o pins' ts' → ts' = ts := by
      rintro pins' ts' ⟨_, _, _, _, _, _, _, _, _, h'⟩
      obtain ⟨_, _, _, _, _, _, _, _, _, h⟩ := hreached
      exact Option.some.inj (h'.symm.trans h)
    have hquiet : mayRun (pins.map Event.pin) [] = [] := mayRun_quiet (by simp [Event.quiet]) []
    have hburst : mayRun (pins.map Event.pin ++ (burst o ts).1) [] = [] ↔ SafeFailures o ts := by
      rw [mayRun_append, hquiet, mayRun_burst_iff]
    constructor
    · intro h pins' ts' hreached'
      rw [hts hreached', ← hburst]
      obtain ⟨p, pins, rfl⟩ := List.exists_cons_of_ne_nil hpins
      have hidle := h.idle ((p :: pins).map Event.pin ++ ((burst o ts).1 ++ [.free o.owned])) (.unpin p)
        (pins.map Event.unpin) (by rw [heq]; simp) trivial
      rw [← List.append_assoc, mayRun_append] at hidle
      simpa [mayRun] using hidle
    · intro h
      have hidle := hburst.mpr (h pins ts hreached)
      refine ⟨?_, ?_⟩
      · rw [heq]
        refine once_around pins ?_ ?_
        · rw [released_append, released_burst]
          rfl
        · rw [taken_append, taken_burst]
          rfl
      · intro before e behind hsplit he
        have hassoc : (pins.map Event.pin ++ (burst o ts).1) ++
            (.free o.owned :: pins.map Event.unpin) = before ++ e :: behind := by
          rw [← hsplit, heq]
          simp
        refine idle_of_split ?_ hidle ?_ hassoc he
        · intro e' he'
          rcases List.mem_append.mp he' with hmem | hmem
          · obtain ⟨p, _, rfl⟩ := List.mem_map.mp hmem
            exact id
          · exact not_releases_burst hmem
        · simp [Event.quiet]
  · refine ⟨fun _ pins ts h => absurd h (hnot pins ts), fun _ => ⟨huntouched.once, ?_⟩⟩
    intro before e behind hsplit _
    refine mayRun_quiet (fun e' he' => huntouched.quiet e' ?_) []
    rw [hsplit]
    exact List.mem_append_left _ he'

end closure

section twoPools

/-- One layer of two experts, with slots in memory and on one device. -/
def twoPoolTopology : Topology :=
  { nLayer := 1, nExpert := 2, numTensors := fun _ _ => 1
    groups := [{ layers := [0], expertSize := 1, totalBytes := 2, strides := [1] }] }

def twoPools : Config :=
  (SchedConfig.init twoPoolTopology 2 (fun _ => 0) 1 0 [⟨1, 0, 100, 2⟩]).get (by decide)

/-- One token that takes the expert in memory and the one on the device. -/
def oneToken : Closure := ⟨true, some ⟨2, 1, some fun k => k⟩⟩

def twoPins : List Handle := [⟨0, 1, 0, 0, 0⟩, ⟨2, 1, 0, 1, 1⟩]

def residents : Sys :=
  { initialSys twoPools with
    word := fun _ => SlotWord.slotWord SlotWord.SlotState.ready.code 0 1
    dir := fun k => if k.expert = 0 ∧ k.pool = 0 then ⟨.ready, some 0⟩
      else if k.expert = 1 ∧ k.pool = 1 then ⟨.ready, some 2⟩ else absentEntry }

theorem pinReturns_twoPins : PinReturns twoPools 0 0 oneToken (.pinned 2 twoPins) := by
  intro i ids hi hids
  obtain rfl := Option.some.inj hi
  obtain rfl := Option.some.inj hids
  have hrun : ((pinCall twoPools 0 0 2 1 fun k => k).alone residents).map Prod.fst =
      some (.pinned 2 twoPins) := by decide +kernel
  obtain ⟨⟨r, s⟩, halone, rfl⟩ := Option.map_eq_some_iff.mp hrun
  exact returns_of_alone halone

/-- One device target and a CPU graph, both of which run. -/
theorem pinsOutlive_twoPools : PinsOutlive (execMoeClosure twoPools oneToken (.pinned 2 twoPins)
    ⟨some [⟨1, 12⟩], 3, fun _ => true, 9, true, true⟩).1 := by
  refine (pinsOutlive_iff_safeFailures pinReturns_twoPins _).mpr ?_
  rintro pins ts ⟨_, _, _, _, _, _, _, _, _, hts⟩ t ht _
  obtain rfl := Option.some.inj hts
  exact ⟨fun _ _ => rfl, .inr rfl⟩

/-- The CPU graph fails while the device graph runs: the buffers are freed and the pins released. -/
theorem not_pinsOutlive_cpuFailure : PinReturns twoPools 0 0 oneToken (.pinned 2 twoPins) ∧
    ¬ PinsOutlive (execMoeClosure twoPools oneToken (.pinned 2 twoPins)
      ⟨some [⟨1, 12⟩], 3, fun _ => true, 9, false, true⟩).1 := by
  refine ⟨pinReturns_twoPins, fun h => ?_⟩
  have hevents : (execMoeClosure twoPools oneToken (.pinned 2 twoPins)
      ⟨some [⟨1, 12⟩], 3, fun _ => true, 9, false, true⟩).1 =
        twoPins.map .pin ++ [.submit 1] ++ .free 3 :: twoPins.map .unpin := by decide +kernel
  have hidle := h.idle (twoPins.map .pin ++ [.submit 1]) (.free 3) _ hevents
    (Nat.succ_ne_zero 2)
  exact absurd hidle (by decide)

end twoPools

end ClosurePins
end StreamMoE
