import StreamMoE.ChainClosure
import StreamMoE.RelayDispatch
import StreamMoE.TransitionSystem

/-! When the staging of uploads is left alone until they have arrived: the wait that `dispatch_relay_batch`
leaves to the segment behind it. -/
namespace StreamMoE
namespace UploadStaging

open AsyncCopies ComputeGraph LayerPlan ArenaLayout RelayDispatch TransitionSystem

section conditions

variable {Dev : Type*} [DecidableEq Dev] (c : Capture) (m : Placement Dev) (P : Platform Dev)

/-- The device of the segment computes something of it. -/
structure Computes (x : Segment Dev) : Prop where
  own : target m P x.dev = some x.dev
  device : x.dev ≠ m.host
  supported : supported c P x.dev x.nodes = true
  nodes : graphNodes c P x.nodes ≠ []
  graph : P.newGraph (graphNodes c P x.nodes).length = true

structure Packs (batch : List (Shell Dev)) (d : Dev) (s : Staging Dev) : Prop where
  items : between c m m.host d batch ≠ []
  backend : P.backend d = true
  buf : (ensure P d (needed c (between c m m.host d batch)) s).1.buf ≠ none

/-- Something is uploaded out of the staging before the segment, and not waited for. -/
def Staged (s : Stagings Dev) (x : Segment Dev) : Prop :=
  x.dev ≠ m.host ∧ Packs c m P x.incoming x.dev s.up

/-- As far as they are run, the segments with such uploads compute. -/
def Meets : List (Segment Dev) → Stagings Dev → Prop
  | [], _ => True
  | x :: xs, s => (Staged c m P s x → Computes c m P x) ∧
      ((runSegment c m P x s).2.2 = true → Meets xs (runSegment c m P x s).1)

/-- The condition on a call. -/
def Waits (s : Run Dev) (a : Action Dev) : Prop :=
  match a.call with
  | .topo pass executed => Meets a.capture a.placement a.platform
      (topoSegments a.capture a.placement pass executed) s.stagings
  | .copies _ => True

/-- Runs start without staging. -/
def machine (Dev : Type*) [DecidableEq Dev] : Machine (Run Dev) (Action Dev) where
  init s := s = ⟨{}, []⟩
  step s a := some (step s a)

end conditions

section groups

variable {Dev : Type*} [DecidableEq Dev] {c : Capture} {m : Placement Dev} {P : Platform Dev}
variable {batch : List (Shell Dev)} {skip : Option Dev} {d : Dev} {s : Staging Dev}

omit [DecidableEq Dev] in
theorem no_copy_freed (s : Staging Dev) (e : Dev) (b : ℕ) : .copy e b ∉ s.freed := by
  simp [Staging.freed]

theorem no_copy_moveTo (s : Staging Dev) (d e : Dev) (b : ℕ) : .copy e b ∉ (s.moveTo d).2 := by
  unfold Staging.moveTo
  split
  · exact no_copy_freed s e b
  · exact List.not_mem_nil

theorem no_copy_ensure (n : ℕ) (e : Dev) (b : ℕ) : .copy e b ∉ (ensure P d n s).2 := by
  have hmove := no_copy_moveTo s d e b
  have hfreed := no_copy_freed (s.moveTo d).1 e b
  unfold ensure
  simp only
  split_ifs <;> simp [hmove, hfreed]

/-- A group that is not packed is copied at once. -/
theorem no_copy_uploadGroup (h : ¬ Packs c m P batch d s) (e : Dev) (b : ℕ) :
    .copy e b ∉ (uploadGroup c m P skip batch d s).2 := by
  by_cases hitems : between c m m.host d batch = []
  · simp [uploadGroup, hitems]
  cases hbuf : (ensure P d (needed c (between c m m.host d batch)) s).1.buf with
  | none => simp [uploadGroup, hitems, hbuf, no_copy_ensure]
  | some b' =>
    have hbackend : P.backend d = false := by
      by_contra htrue
      exact h ⟨hitems, by simpa using htrue, by simp [hbuf]⟩
    simp [uploadGroup, hitems, hbuf, hbackend, no_copy_ensure]

theorem uploadGroup_packs (h : Packs c m P batch d s) : ∃ xs ys, (∀ e b, .copy e b ∉ xs) ∧
    (∀ e ∈ ys, ∃ b, e = .copy d b) ∧ ys ≠ [] ∧ (uploadGroup c m P skip batch d s).2 =
      xs ++ ys ++ (if skip = some d then [] else [.sync d]) := by
  obtain ⟨b, hbuf⟩ := Option.ne_none_iff_exists'.mp h.buf
  refine ⟨(ensure P d (needed c (between c m m.host d batch)) s).2 ++
    (between c m m.host d batch).map fun _ => .write b,
    (between c m m.host d batch).map fun _ => .copy d b, ?_, ?_, by simpa using h.items, ?_⟩
  · intro e b'
    simp [no_copy_ensure]
  · intro e he
    obtain ⟨_, _, rfl⟩ := List.mem_map.mp he
    exact ⟨b, rfl⟩
  · simp [uploadGroup, h.items, hbuf, h.backend]

theorem settled_uploadGroup (hskip : skip ≠ some d) : Settled (uploadGroup c m P skip batch d s).2 := by
  by_cases h : Packs c m P batch d s
  · obtain ⟨xs, ys, hx, hy, _, heq⟩ := @uploadGroup_packs Dev _ c m P batch skip d s h
    rw [heq, if_neg hskip]
    exact settled_burst hx hy
  · exact settled_of_no_copy (no_copy_uploadGroup h)

omit [DecidableEq Dev] in
theorem settled_eachGroup {group : Dev → Staging Dev → Staging Dev × List (Event Dev ℕ)}
    (ds : List Dev) : (∀ d ∈ ds, ∀ s, Settled (group d s).2) →
      ∀ s, Settled (eachGroup group ds s).2 := by
  induction ds with
  | nil => exact fun _ _ => settled_nil
  | cons d ds ih =>
    intro h s
    obtain ⟨hd, hds⟩ := List.forall_mem_cons.mp h
    exact (hd s).append (ih hds _)

/-- Downloads bring waits alone. -/
theorem no_copy_downloads (ds : List Dev) : ∀ (s : Staging Dev) (e : Dev) (b : ℕ),
    .copy e b ∉ (eachGroup (downloadGroup c m P batch) ds s).2 := by
  induction ds with
  | nil => simp [eachGroup]
  | cons d ds ih =>
    intro s e b
    have hgroup : .copy e b ∉ (downloadGroup c m P batch d s).2 := by
      unfold downloadGroup
      simp only
      split_ifs <;> simp
    simp [eachGroup, hgroup, ih]

/-- Without a skipped wait nothing is left in flight. -/
theorem settled_dispatch (batch : List (Shell Dev)) (s : Stagings Dev) :
    Settled (dispatch c m P none batch s).2 := by
  have hup := @settled_eachGroup Dev (uploadGroup c m P none batch) (P.order (uploadDevs c m batch))
    (fun d _ s => settled_uploadGroup (by simp)) s.up
  exact hup.append (settled_of_no_copy (no_copy_downloads _ _))

end groups

section segments

variable {Dev : Type*} [DecidableEq Dev] {c : Capture} {m : Placement Dev} {P : Platform Dev}

/-- What comes in before a segment is for its device. -/
def Incoming (x : Segment Dev) : Prop := ∀ r ∈ x.incoming, r.dev = x.dev

variable {x : Segment Dev}

theorem uploadDevs_incoming (h : Incoming x) :
    uploadDevs c m x.incoming = [] ∨ uploadDevs c m x.incoming = [x.dev] ∧ x.dev ≠ m.host := by
  have hall : ∀ d ∈ uploadDevs c m x.incoming, d = x.dev ∧ d ≠ m.host := by
    intro d hd
    obtain ⟨r, hr, rfl⟩ := List.mem_map.mp (List.mem_dedup.mp hd)
    obtain ⟨hmem, hcond⟩ := List.mem_filter.mp hr
    exact ⟨h r hmem, (of_decide_eq_true hcond).2.2⟩
  have hnodup : (uploadDevs c m x.incoming).Nodup := List.nodup_dedup _
  cases hlist : uploadDevs c m x.incoming with
  | nil => exact .inl rfl
  | cons d ds =>
    rw [hlist] at hall hnodup
    obtain ⟨hd, hds⟩ := List.forall_mem_cons.mp hall
    have hnil : ds = [] := by
      refine List.eq_nil_iff_forall_not_mem.mpr fun e he => ?_
      have hsame : e = d := (hds e he).1.trans hd.1.symm
      exact (List.nodup_cons.mp hnodup).1 (hsame ▸ he)
    rw [hnil, hd.1]
    exact .inr ⟨rfl, hd.1 ▸ hd.2⟩

theorem downloadDevs_incoming (h : Incoming x) (hdev : x.dev ≠ m.host) :
    downloadDevs c m x.incoming = [] := by
  have hnone : ∀ d, d ∉ downloadDevs c m x.incoming := by
    intro d hd
    obtain ⟨r, hr, _⟩ := List.mem_map.mp (List.mem_dedup.mp hd)
    obtain ⟨hmem, hcond⟩ := List.mem_filter.mp hr
    exact hdev ((h r hmem).symm.trans (of_decide_eq_true hcond).2.2)
  exact List.eq_nil_iff_forall_not_mem.mpr hnone

/-- What is staged before a segment is copied to its device and not waited for. -/
theorem incoming_staged (h : Incoming x) {s : Stagings Dev} (hstaged : Staged c m P s x) : ∃ xs ys,
    (∀ e b, .copy e b ∉ xs) ∧ (∀ e ∈ ys, ∃ b, e = .copy x.dev b) ∧ ys ≠ [] ∧
      (dispatch c m P (some x.dev) x.incoming s).2 = xs ++ ys := by
  obtain ⟨hdev, hpacks⟩ := hstaged
  have hone : uploadDevs c m x.incoming = [x.dev] := by
    rcases uploadDevs_incoming (c := c) (m := m) h with hnone | ⟨hone, _⟩
    · obtain ⟨r, hr⟩ := List.exists_mem_of_ne_nil _ hpacks.items
      obtain ⟨hmem, hcond⟩ := List.mem_filter.mp hr
      have hcond := of_decide_eq_true hcond
      have hin : r.dev ∈ uploadDevs c m x.incoming := by
        refine List.mem_dedup.mpr (List.mem_map_of_mem (List.mem_filter.mpr ⟨hmem, decide_eq_true ?_⟩))
        exact ⟨hcond.1, hcond.2.1, hcond.2.2 ▸ hdev⟩
      rw [hnone] at hin
      cases hin
    · exact hone
  have horder : P.order [] = [] := (P.order_perm []).eq_nil
  have horder' : P.order [x.dev] = [x.dev] := List.perm_singleton.mp (P.order_perm [x.dev])
  have hgot := downloadDevs_incoming (c := c) h hdev
  obtain ⟨xs, ys, hx, hy, hne, heq⟩ :=
    @uploadGroup_packs Dev _ c m P x.incoming (some x.dev) x.dev s.up hpacks
  refine ⟨xs, ys, hx, hy, hne, ?_⟩
  simpa [dispatch, hone, hgot, horder, horder', eachGroup] using heq

theorem no_copy_incoming (h : Incoming x) {s : Stagings Dev} (hstaged : ¬ Staged c m P s x) (e : Dev)
    (b : ℕ) : .copy e b ∉ (dispatch c m P (some x.dev) x.incoming s).2 := by
  have hdown := @no_copy_downloads Dev _ c m P x.incoming
  rcases uploadDevs_incoming (c := c) (m := m) h with hnone | ⟨hone, hdev⟩
  · have horder : P.order [] = [] := (P.order_perm []).eq_nil
    simp [dispatch, hnone, horder, eachGroup, hdown]
  · have horder : P.order [x.dev] = [x.dev] := List.perm_singleton.mp (P.order_perm [x.dev])
    have hgroup := @no_copy_uploadGroup Dev _ c m P x.incoming (some x.dev) x.dev s.up
      (fun hpacks => hstaged ⟨hdev, hpacks⟩) e b
    simp [dispatch, hone, horder, eachGroup, hdown, hgroup]

theorem flushSegment_of_computes (h : Computes c m P x) :
    flushSegment c m P x.dev x.nodes = ([.sync x.dev], P.success x.dev (graphNodes c P x.nodes)) := by
  simp [flushSegment, h.own, h.supported, h.nodes, h.graph, h.device]

/-- Nothing but a wait, and one for the device of the segment only if this computes. -/
theorem flushSegment_events (x : Segment Dev) : (flushSegment c m P x.dev x.nodes).1 = [] ∨
    (flushSegment c m P x.dev x.nodes).1 = [.sync x.dev] ∧ Computes c m P x := by
  cases htarget : target m P x.dev with
  | none => exact .inl (by simp [flushSegment, htarget])
  | some be =>
    by_cases hsup : supported c P be x.nodes = true
    swap
    · exact .inl (by simp [flushSegment, htarget, hsup])
    by_cases hnodes : graphNodes c P x.nodes = []
    · exact .inl (by simp [flushSegment, htarget, hsup, hnodes])
    by_cases hgraph : P.newGraph (graphNodes c P x.nodes).length = true
    swap
    · exact .inl (by simp [flushSegment, htarget, hsup, hnodes, hgraph])
    by_cases hhost : be = m.host
    · subst hhost
      exact .inl (by simp [flushSegment, htarget, hsup, hnodes, hgraph])
    have hbe : be = x.dev := by
      unfold target at htarget
      split_ifs at htarget
      · exact absurd (Option.some.inj htarget).symm hhost
      · exact absurd (Option.some.inj htarget).symm hhost
      · exact (Option.some.inj htarget).symm
    subst hbe
    have hcomp : Computes c m P x := ⟨htarget, hhost, hsup, hnodes, hgraph⟩
    exact .inr ⟨congrArg Prod.fst (flushSegment_of_computes hcomp), hcomp⟩

theorem no_copy_flushSegment (x : Segment Dev) (e : Dev) (b : ℕ) :
    .copy e b ∉ (flushSegment c m P x.dev x.nodes).1 := by
  rcases flushSegment_events (c := c) (m := m) (P := P) x with hnone | ⟨hsync, _⟩
  · simp [hnone]
  · simp [hsync]

/-- Up to its computation, a segment leaves a copy in flight exactly if something is staged for it and it
does not compute. -/
theorem inFlight_iff (h : Incoming x) (s : Stagings Dev) :
    (∃ d b, InFlight ((dispatch c m P (some x.dev) x.incoming s).2 ++
      (flushSegment c m P x.dev x.nodes).1) d b) ↔ Staged c m P s x ∧ ¬ Computes c m P x := by
  by_cases hstaged : Staged c m P s x
  · obtain ⟨xs, ys, hx, hy, hne, heq⟩ := incoming_staged h hstaged
    rw [heq, and_iff_right hstaged]
    rcases flushSegment_events (c := c) (m := m) (P := P) x with hnone | ⟨hsync, hcomp⟩
    · have hnot : ¬ Computes c m P x := by
        intro hcomp
        simp [flushSegment_of_computes hcomp] at hnone
      rw [hnone, List.append_nil]
      exact iff_of_true ⟨x.dev, inFlight_copies xs hy hne⟩ hnot
    · rw [hsync]
      refine iff_of_false ?_ (not_not.mpr hcomp)
      rintro ⟨d, b, hflight⟩
      exact (settled_burst hx hy).quiet d b hflight
  · refine iff_of_false ?_ fun hboth => hstaged hboth.1
    rintro ⟨d, b, hflight⟩
    exact not_inFlight (by simp [no_copy_incoming h hstaged, no_copy_flushSegment]) hflight

/-- A segment leaves nothing in flight, if it computes what it lets others wait for. -/
theorem settled_flushed (h : Incoming x) {s : Stagings Dev} (hwait : Staged c m P s x → Computes c m P x) :
    Settled ((dispatch c m P (some x.dev) x.incoming s).2 ++ (flushSegment c m P x.dev x.nodes).1) := by
  by_cases hstaged : Staged c m P s x
  · obtain ⟨xs, ys, hx, hy, _, heq⟩ := incoming_staged h hstaged
    rw [heq, flushSegment_of_computes (hwait hstaged)]
    exact settled_burst hx hy
  · exact settled_of_no_copy (by simp [no_copy_incoming h hstaged, no_copy_flushSegment])

theorem settled_runSegment (h : Incoming x) {s : Stagings Dev}
    (hwait : Staged c m P s x → Computes c m P x) : Settled (runSegment c m P x s).2.1 := by
  have hflushed := settled_flushed h hwait
  unfold runSegment
  simp only
  split_ifs
  · exact hflushed.append (settled_dispatch _ _)
  · exact hflushed

theorem settled_runSegments (xs : List (Segment Dev)) (h : ∀ x ∈ xs, Incoming x) : ∀ s : Stagings Dev,
    Meets c m P xs s → Settled (runSegments c m P xs s).2 := by
  induction xs with
  | nil => exact fun _ _ => settled_nil
  | cons x xs ih =>
    intro s hmeets
    obtain ⟨hx, hxs⟩ := List.forall_mem_cons.mp h
    have hfirst := settled_runSegment hx hmeets.1
    unfold runSegments
    simp only
    split_ifs with hok
    · exact hfirst.append (ih hxs _ (hmeets.2 hok))
    · exact hfirst

theorem incoming_withRelays (a : Pass) (xs : List (Dev × ℕ × List ℕ)) : ∀ (executed : List ℕ)
    (flushed : List Dev), ∀ x ∈ withRelays c m a executed flushed xs, Incoming x := by
  induction xs with
  | nil => simp [withRelays]
  | cons y ys ih =>
    intro executed flushed x hx
    rcases List.mem_cons.mp hx with rfl | hx
    · intro r hr
      obtain ⟨e, he, rfl⟩ := List.mem_map.mp hr
      have hsel := (List.mem_filter.mp he).2
      simp only [selected, scopeOf, if_true, Bool.and_eq_true, decide_eq_true_eq] at hsel
      exact of_decide_eq_true hsel.2.2.1
    · exact ih _ _ x hx

theorem incoming_topoSegments (a : Pass) (executed : List ℕ) :
    ∀ x ∈ topoSegments c m a executed, Incoming x := by
  unfold topoSegments
  split
  · simp
  · exact incoming_withRelays a _ _ _

/-- One call. -/
theorem settled_step {s : Run Dev} {a : Action Dev} (hs : Settled s.trace) (h : Waits s a) :
    Settled (step s a).trace := by
  obtain ⟨c, m, P, call⟩ := a
  cases call with
  | topo pass executed => exact hs.append (settled_runSegments _ (incoming_topoSegments pass executed) _ h)
  | copies batch => exact hs.append (settled_dispatch batch _)

theorem settled_of_reach {s : Run Dev} (h : Reach (machine Dev) Waits s) : Settled s.trace := by
  refine h.invariant (I := fun s => Settled s.trace) ?_ ?_
  · rintro s rfl
    exact settled_nil
  · rintro s a s' hs hwaits ⟨⟩
    exact settled_step hs hwaits

/-- In runs whose segments compute after every upload that is left to them, no staging is written or freed
while a copy out of it is in flight; and only such a segment ends with nothing in flight. -/
theorem uploads_safe (Dev : Type*) [DecidableEq Dev] :
    (∀ s, Reach (machine Dev) Waits s → Safe s.trace) ∧
      ∀ (c : Capture) (m : Placement Dev) (P : Platform Dev) (x : Segment Dev) (s : Stagings Dev),
        Incoming x → ((∃ d b, InFlight ((dispatch c m P (some x.dev) x.incoming s).2 ++
          (flushSegment c m P x.dev x.nodes).1) d b) ↔ Staged c m P s x ∧ ¬ Computes c m P x) :=
  ⟨fun _ h => (settled_of_reach h).safe, fun _ _ _ _ s h => inFlight_iff h s⟩

end segments

section reshaped

/-- The positions, reshaped on one device, and a norm of the embeddings. -/
def reshapedGraph : Graph :=
  Graph.ofList
    [{ nbytes := 16, name := "inp_pos" },
      { nbytes := 16, name := "inp_embd" },
      { op := .reshape, src := [some 0], viewSrc := some 0, nbytes := 16, name := "inp_pos (reshaped)" },
      { op := .other 0, src := [some 1], nbytes := 16, name := "attn_norm-0" }]
    [2, 3] (by decide) (by decide)

def reshapedCapture : Capture := ChainClosure.capture reshapedGraph fun _ => some 0

/-- The norm runs on device 2, the reshaping on `dev`; the inputs lie on the host. -/
def reshapedOn (dev : ℕ) : Placement ℕ where
  physical p := if p = 2 then dev else 2
  leafDev _ := none
  host := 0
  closureDev := 2
  exportRetained := []
  compactPack := true

def ready : Platform ℕ where
  backend _ := true
  shim _ := false
  hostBuft _ := true
  grant _ _ := true
  supports _ _ := true
  data _ := true
  newGraph _ := true
  success _ _ := true
  order l := l
  order_perm l := .refl l

def headPass : Pass := ⟨[2, 3], 0, none, 0, .head⟩

def headOn (dev : ℕ) : Action ℕ := ⟨reshapedCapture, reshapedOn dev, ready, .topo headPass []⟩

/-- On one device the reshaping is in the segment of the norm. -/
theorem uploads_safe_together : Safe (step ⟨{}, []⟩ (headOn 2)).trace := by
  have hsegments : topoSegments reshapedCapture (reshapedOn 2) headPass [] =
      [⟨2, [2, 3], [⟨0, 2, .layerFront, 0⟩, ⟨1, 2, .layerFront, 0⟩], []⟩] := by decide +kernel
  have hwaits : Waits ⟨{}, []⟩ (headOn 2) := by
    simp only [Waits, headOn, hsegments]
    exact ⟨fun _ => ⟨by decide, by decide, by decide, by decide, rfl⟩, fun _ => trivial⟩
  exact (uploads_safe ℕ).1 _ (.step (.init rfl) hwaits rfl)

/-- On a device of its own it is a segment of aliases: the staging is freed for the other device while its
copy is in flight. -/
theorem not_uploads_safe : ¬ ∀ s, Reach (machine ℕ) anyStep s → Safe s.trace := by
  intro h
  have hsafe := h _ (.step (.init rfl) (a := headOn 1) trivial rfl)
  have htrace : (step ⟨{}, []⟩ (headOn 1)).trace =
      [.write 0, .copy 1 0] ++ .free 0 :: [.write 1, .copy 2 1, .sync 2] := by decide +kernel
  exact hsafe _ _ _ htrace 1 0 (.inr rfl) ⟨[.write 0], [], rfl, List.not_mem_nil⟩

end reshaped

end UploadStaging
end StreamMoE
