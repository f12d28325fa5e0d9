import StreamMoE.RelayRun

/-! The part of a run that each copy is for, the nodes that read it, and the order of the parts. -/
namespace StreamMoE
namespace RelaySteps

open ComputeGraph LayerPlan LayerPlan.Capture ArenaLayout LayerOrder OfferSchedule RelayRun

variable {Dev : Type*} [DecidableEq Dev] {c : Capture} {m : Placement Dev}

/-- The captured node whose result is copied. -/
def Computes (c : Capture) (s : Shell Dev) (n : ℕ) : Prop := n = s.producer ∧ (c.nlayer n).isSome

/-- The nodes with the copy among their operands. -/
def Reads (c : Capture) (m : Placement Dev) (s : Shell Dev) (n : ℕ) : Prop :=
  .shell s ∈ operands c m n

instance (c : Capture) (m : Placement Dev) (s : Shell Dev) (n : ℕ) : Decidable (Reads c m s n) := by
  unfold Reads
  infer_instance

section steps

/-- The part of the run that copies to the shell. -/
def servedStep (s : Shell Dev) : Step :=
  if s.stage = .tail then .tail s.layer else .head s.layer

def scopeSteps (layer : ℕ) (layerHead : Option ℕ) (stage : CallStage) : List Step :=
  match layerHead with
  | some L' => [.tail layer, .head L']
  | none => if stage = .tail then [.tail layer] else [.head layer]

theorem servedStep_of_selects {sc : Scope Dev} {s : Shell Dev} (h : selects c m sc s = true)
    (hstage : sc.layerHead = none → sc.stage ≠ .tailHead) :
    servedStep s ∈ scopeSteps sc.layer sc.layerHead sc.stage := by
  have hmatch : matchesStage c sc s = true := (Bool.and_eq_true_iff.mp h).1
  unfold matchesStage at hmatch
  unfold scopeSteps servedStep
  cases hL : sc.layerHead with
  | none =>
    simp only [hL, singleStage] at hmatch hstage ⊢
    cases hsc : sc.stage with
    | tailHead => exact absurd hsc (hstage trivial)
    | head => simp_all
    | tail => simp_all
  | some L' =>
    simp only [hL, fusedStage] at hmatch ⊢
    grind

theorem mem_segmentLegs {t : TopoCall} {flushed : List Dev} {segs : List (List (ℕ × ℕ))}
    {l : Leg (Shell Dev) ℕ} (h : l ∈ segmentLegs c m t flushed segs) :
    ∃ flushed' seg, l = segmentLeg c m t flushed' seg := by
  induction segs generalizing flushed with
  | nil => cases h
  | cons seg segs ih =>
    rcases List.mem_cons.mp h with rfl | h
    · exact ⟨_, _, rfl⟩
    · exact ih h

theorem servedStep_of_topo {t : TopoCall} (hstage : t.layerHead = none → t.stage ≠ .tailHead)
    {l : Leg (Shell Dev) ℕ} (hl : l ∈ topoSegmentExecute c m t) {s : Shell Dev}
    (h : l.takes s = true) : servedStep s ∈ scopeSteps t.layer t.layerHead t.stage := by
  obtain ⟨flushed, seg, rfl⟩ := mem_segmentLegs hl
  have hsel : ∀ incoming, selects c m (t.scope c m flushed seg incoming) s = true →
      servedStep s ∈ scopeSteps t.layer t.layerHead t.stage := fun _ hsel =>
    servedStep_of_selects hsel hstage
  rcases (Bool.or_eq_true _ _).mp h with h | h
  · exact hsel true h
  · exact hsel false h

theorem servedStep_of_preTail {L : ℕ} {s : Shell Dev} (h : (preTail c m L).takes s = true) :
    servedStep s = .tail L := by
  simp only [Leg.takes, preTail, Bool.or_false, decide_eq_true_eq] at h
  rw [servedStep, if_pos h.2.1, h.1]

/-- A call copies only for the parts it runs. -/
theorem servedStep_mem {call : Call Dev} {l : Leg (Shell Dev) ℕ} (hl : l ∈ call.legs c m)
    {s : Shell Dev} (h : l.takes s = true) : servedStep s ∈ call.steps := by
  cases call with
  | head L =>
    have hserved := servedStep_of_topo (by simp) hl h
    simpa [scopeSteps, Call.steps] using hserved
  | closure L =>
    rw [List.mem_singleton.mp hl] at h
    cases h
  | tail L =>
    rcases List.mem_cons.mp hl with rfl | hl
    · simp [Call.steps, servedStep_of_preTail h]
    · have hserved := servedStep_of_topo (by simp) hl h
      simpa [scopeSteps, Call.steps] using hserved
  | tailHead L L' =>
    rcases List.mem_cons.mp hl with rfl | hl
    · simp [Call.steps, servedStep_of_preTail h]
    · have hserved := servedStep_of_topo (by simp) hl h
      simpa [scopeSteps, Call.steps] using hserved
  | deviceGraph L next D =>
    have hsel : ∀ incoming, selects c m (graphScope c L next D incoming) s = true →
        servedStep s ∈ scopeSteps L next .tail := fun _ hsel =>
      servedStep_of_selects hsel (by simp [graphScope])
    have hserved : servedStep s ∈ scopeSteps L next .tail := by
      rw [List.mem_singleton.mp hl] at h
      rcases (Bool.or_eq_true _ _).mp h with h | h
      · exact hsel true h
      · exact hsel false h
    have hsub : ∀ step ∈ scopeSteps L next .tail, step ∈ (Call.deviceGraph L next D).steps := by
      cases next <;> simp [scopeSteps, Call.steps]
    exact hsub _ hserved

omit [DecidableEq Dev] in
theorem servedStep_tail {s : Shell Dev} (h : s.stage = .tail) : servedStep s = .tail s.layer :=
  if_pos h

omit [DecidableEq Dev] in
theorem servedStep_head {s : Shell Dev} (h : s.stage ≠ .tail) : servedStep s = .head s.layer :=
  if_neg h

end steps

section order

theorem getElem?_layerSteps (layers : List ℕ) (k : ℕ) :
    (layerSteps layers)[3 * k]? = layers[k]?.map Step.head ∧
      (layerSteps layers)[3 * k + 1]? = layers[k]?.map Step.closure ∧
      (layerSteps layers)[3 * k + 2]? = layers[k]?.map Step.tail := by
  induction layers generalizing k with
  | nil => simp [layerSteps]
  | cons L layers ih =>
    have hcons : layerSteps (L :: layers) = .head L :: .closure L :: .tail L :: layerSteps layers := rfl
    rw [hcons]
    cases k with
    | zero => exact ⟨rfl, rfl, rfl⟩
    | succ k =>
      have hsplit : 3 * (k + 1) = 3 * k + 1 + 1 + 1 := by omega
      rw [hsplit]
      exact ih k

theorem head_position {layers : List ℕ} {p L : ℕ} (h : (layerSteps layers)[p]? = some (.head L)) :
    ∃ k, p = 3 * k ∧ layers[k]? = some L := by
  obtain ⟨k, rfl | rfl | rfl⟩ := beat_cases p
  · rw [(getElem?_layerSteps layers k).1] at h
    obtain ⟨L', hL', heq⟩ := Option.map_eq_some_iff.mp h
    cases heq
    exact ⟨k, rfl, hL'⟩
  · rw [(getElem?_layerSteps layers k).2.1] at h
    obtain ⟨_, _, heq⟩ := Option.map_eq_some_iff.mp h
    cases heq
  · rw [(getElem?_layerSteps layers k).2.2] at h
    obtain ⟨_, _, heq⟩ := Option.map_eq_some_iff.mp h
    cases heq

theorem tail_position {layers : List ℕ} {p L : ℕ} (h : (layerSteps layers)[p]? = some (.tail L)) :
    ∃ k, p = 3 * k + 2 ∧ layers[k]? = some L := by
  obtain ⟨k, rfl | rfl | rfl⟩ := beat_cases p
  · rw [(getElem?_layerSteps layers k).1] at h
    obtain ⟨_, _, heq⟩ := Option.map_eq_some_iff.mp h
    cases heq
  · rw [(getElem?_layerSteps layers k).2.1] at h
    obtain ⟨_, _, heq⟩ := Option.map_eq_some_iff.mp h
    cases heq
  · rw [(getElem?_layerSteps layers k).2.2] at h
    obtain ⟨L', hL', heq⟩ := Option.map_eq_some_iff.mp h
    cases heq
    exact ⟨k, rfl, hL'⟩

theorem layer_index {layers : List ℕ} (h : layers.Nodup) {j k L : ℕ} (hj : layers[j]? = some L)
    (hk : layers[k]? = some L) : j = k :=
  (List.getElem?_inj (List.getElem?_eq_some_iff.mp hj).1 h).mp (hj.trans hk.symm)

theorem layerSteps_nodup {layers : List ℕ} (h : layers.Nodup) : (layerSteps layers).Nodup := by
  induction layers with
  | nil => exact List.nodup_nil
  | cons L layers ih =>
    obtain ⟨hL, hrest⟩ := List.nodup_cons.mp h
    have hcons : layerSteps (L :: layers) = .head L :: .closure L :: .tail L :: layerSteps layers := rfl
    have hnot : ∀ step, step ∈ layerSteps layers →
        step ≠ .head L ∧ step ≠ .closure L ∧ step ≠ .tail L := by
      intro step hstep
      obtain ⟨L', hL', hmem⟩ := List.mem_flatMap.mp hstep
      refine ⟨?_, ?_, ?_⟩ <;> rintro rfl <;> simp at hmem <;> exact hL (hmem ▸ hL')
    rw [hcons]
    simp only [List.nodup_cons, List.mem_cons, not_or, reduceCtorEq, not_false_eq_true, true_and]
    exact ⟨fun hmem => (hnot _ hmem).1 rfl, fun hmem => (hnot _ hmem).2.1 rfl,
      fun hmem => (hnot _ hmem).2.2 rfl, ih hrest⟩

variable {layers : List ℕ} {run : List (Call Dev)} (hlayers : layers.Nodup)
  (hsteps : run.flatMap Call.steps = layerSteps layers)

omit [DecidableEq Dev] in
include hsteps in
theorem step_position {i : ℕ} {call : Call Dev} {step : Step} (hi : run[i]? = some call)
    (hmem : step ∈ call.steps) : ∃ j, (call.steps)[j]? = some step ∧
      (layerSteps layers)[offset Call.steps run i + j]? = some step := by
  obtain ⟨j, hj⟩ := List.mem_iff_getElem?.mp hmem
  refine ⟨j, hj, ?_⟩
  rw [← hsteps]
  exact getElem?_flatMap.mpr ⟨i, call, j, hi, hj, rfl⟩

omit [DecidableEq Dev] in
include hlayers hsteps in
/-- Only one call runs a part. -/
theorem step_index {i j : ℕ} {call call' : Call Dev} {step : Step} (hi : run[i]? = some call)
    (hj : run[j]? = some call') (hmem : step ∈ call.steps) (hmem' : step ∈ call'.steps) : i = j := by
  obtain ⟨a, ha, hpos⟩ := step_position hsteps hi hmem
  obtain ⟨b, hb, hpos'⟩ := step_position hsteps hj hmem'
  have heq : offset Call.steps run i + a = offset Call.steps run j + b :=
    (List.getElem?_inj (List.getElem?_eq_some_iff.mp hpos).1 (layerSteps_nodup hlayers)).mp
      (hpos.trans hpos'.symm)
  rcases Nat.lt_trichotomy i j with hlt | heq' | hlt
  · have := offset_add_lt hi ha hlt
    omega
  · exact heq'
  · have := offset_add_lt hj hb hlt
    omega

omit [DecidableEq Dev] in
include hlayers hsteps in
/-- From the head of a layer up to its tail no head of another layer runs but one in the call of
that tail. -/
theorem head_between {i j k L L' : ℕ} {first mid last : Call Dev} (hi : run[i]? = some first)
    (hj : run[j]? = some mid) (hk : run[k]? = some last) (hfirst : Step.head L ∈ first.steps)
    (hmid : Step.head L' ∈ mid.steps) (hlast : Step.tail L ∈ last.steps) (hij : i ≤ j) (hjk : j ≤ k)
    (hne : L' ≠ L) : j = k := by
  by_contra hlt
  have hjk' : j < k := Nat.lt_of_le_of_ne hjk hlt
  obtain ⟨a, ha, hpos⟩ := step_position hsteps hi hfirst
  obtain ⟨b, hb, hpos'⟩ := step_position hsteps hj hmid
  obtain ⟨d, hd, hpos''⟩ := step_position hsteps hk hlast
  obtain ⟨x, hx, hxL⟩ := head_position hpos
  obtain ⟨y, hy, hyL⟩ := head_position hpos'
  obtain ⟨z, hz, hzL⟩ := tail_position hpos''
  obtain rfl := layer_index hlayers hxL hzL
  have hmid' := offset_add_lt hj hb hjk'
  have hxy : x ≠ y := by
    rintro rfl
    exact hne (Option.some.inj (hyL.symm.trans hxL))
  rcases Nat.lt_or_eq_of_le hij with hlt' | rfl
  · have hfirst' := offset_add_lt hi ha hlt'
    omega
  · rw [hi] at hj
    obtain rfl := Option.some.inj hj
    cases first with
    | head K => simp_all [Call.steps]
    | closure K => simp_all [Call.steps]
    | tail K => simp_all [Call.steps]
    | tailHead K K' => simp_all [Call.steps]
    | deviceGraph K next D => cases next <;> simp_all [Call.steps]

omit [DecidableEq Dev] in
include hlayers hsteps in
theorem head_before_tail {i k L : ℕ} {first last : Call Dev} (hi : run[i]? = some first)
    (hk : run[k]? = some last) (hfirst : Step.head L ∈ first.steps)
    (hlast : Step.tail L ∈ last.steps) : i < k := by
  obtain ⟨a, ha, hpos⟩ := step_position hsteps hi hfirst
  obtain ⟨d, hd, hpos'⟩ := step_position hsteps hk hlast
  obtain ⟨x, hx, hxL⟩ := head_position hpos
  obtain ⟨z, hz, hzL⟩ := tail_position hpos'
  obtain rfl := layer_index hlayers hxL hzL
  rcases Nat.lt_trichotomy i k with hlt | rfl | hlt
  · exact hlt
  · rw [hi] at hk
    obtain rfl := Option.some.inj hk
    obtain rfl : d = a + 2 := by omega
    cases first with
    | head K => simp [Call.steps] at hd
    | closure K => simp [Call.steps] at hd
    | tail K => simp [Call.steps] at hd
    | tailHead K K' => simp [Call.steps] at hd
    | deviceGraph K next D => cases next <;> cases a <;> simp [Call.steps] at hd ha
  · have := offset_add_lt hk hd hlt
    omega

end order

section readers

/-- What is known of a copy and a node that reads it. -/
structure Reader (c : Capture) (m : Placement Dev) (s : Shell Dev) (n : ℕ) : Prop where
  layer : n ∈ c.layerNodes s.layer
  outside : n ∉ c.compute s.layer
  dev : nodeDev c m n = s.dev
  source : s.producer ∈ (c.graph.tensor n).sources
  own : c.graph.viewSrc s.producer = none
  away : operandDev c m s.producer ≠ s.dev
  stages : s.stage = .tail ∨ s.stage = .layerFront
  tail : s.stage = .tail → n ∈ c.tail s.layer ∧ c.nlayer s.producer = some s.layer
  front : s.stage ≠ .tail → c.nlayer s.producer = some s.layer → n ∈ c.head s.layer

theorem mem_slots {n k p : ℕ} (h : (k, p) ∈ slots c n) : p ∈ (c.graph.tensor n).sources := by
  obtain ⟨⟨o, i⟩, hmem, ho⟩ := List.mem_filterMap.mp h
  obtain ⟨q, hq, heq⟩ := Option.map_eq_some_iff.mp ho
  cases heq
  exact List.mem_filterMap.mpr ⟨o, (List.mem_zipIdx hmem).2.2 ▸ List.getElem_mem _, hq⟩

theorem mem_head_or_tail {L n : ℕ} (h : n ∈ c.layerNodes L) (hn : n ∉ c.compute L) :
    n ∈ c.head L ∨ n ∈ c.tail L := by
  cases hdown : c.down L n with
  | false => exact Or.inl (List.mem_filter.mpr ⟨h, by simp [hn, hdown]⟩)
  | true => exact Or.inr (List.mem_filter.mpr ⟨h, by simp [hn, hdown]⟩)

theorem reader_of_shellFor {L n k p : ℕ} {s : Shell Dev} (hn : n ∈ c.layerNodes L)
    (hk : (k, p) ∈ slots c n) (h : shellFor c m L n k p = some s) : Reader c m s n := by
  unfold shellFor at h
  split at h
  · cases h
  · rename_i hcond
    cases h
    push Not at hcond
    obtain ⟨hcompute, hview, _, hdev⟩ := hcond
    have hparts := mem_head_or_tail hn hcompute
    refine ⟨hn, hcompute, rfl, mem_slots hk, by simpa using hview, hdev, ?_, fun hstage => ?_,
      fun hstage hlayer => ?_⟩
    · dsimp only [consumerStage]
      grind
    · dsimp only [consumerStage] at hstage ⊢
      grind
    · dsimp only [consumerStage] at hstage hlayer ⊢
      grind

theorem reader_of_reads {s : Shell Dev} {n : ℕ} (h : Reads c m s n) : Reader c m s n := by
  obtain ⟨x, hx, hshell⟩ := List.mem_map.mp h
  unfold operand at hshell
  split at hshell
  · rename_i s' hs'
    cases hshell
    obtain ⟨L, hL, hshell⟩ := Option.bind_eq_some_iff.mp hs'
    exact reader_of_shellFor (nlayer_eq_some.mp hL) hx hshell
  · cases hshell

theorem exists_reads {s : Shell Dev} (h : s ∈ relays c m) : ∃ n, Reads c m s n := by
  obtain ⟨L, _, hL⟩ := List.mem_flatMap.mp h
  obtain ⟨n, hn, hs⟩ := List.mem_flatMap.mp hL
  obtain ⟨x, hx, hshell⟩ := List.mem_filterMap.mp hs
  refine ⟨n, List.mem_map.mpr ⟨x, hx, ?_⟩⟩
  unfold operand
  rw [nlayer_eq_some.mpr hn, Option.bind_some, hshell]

/-- A captured node is copied to a device other than its own. -/
theorem srcDev_ne {s : Shell Dev} {n : ℕ} (h : Reads c m s n) (hcaptured : (c.nlayer s.producer).isSome) :
    srcDev c m s ≠ s.dev := by
  have haway := (reader_of_reads h).away
  unfold operandDev at haway
  unfold srcDev nodeDev
  cases hdev : devOf c m s.producer with
  | none =>
    unfold devOf at hdev
    split at hdev <;> simp_all
  | some d => simpa [hdev] using haway

/-- In the graph's order nothing is read by a node ahead of it. -/
theorem not_mem_sources {l : List ℕ} (hl : l.Sublist c.graph.nodes) {i j p n : ℕ} (hp : l[i]? = some p)
    (hn : l[j]? = some n) (hij : j < i) : p ∉ (c.graph.tensor n).sources := by
  have hpair := c.graph.topological.sublist hl
  obtain ⟨hi, rfl⟩ := List.getElem?_eq_some_iff.mp hp
  obtain ⟨hj, rfl⟩ := List.getElem?_eq_some_iff.mp hn
  exact List.pairwise_iff_getElem.mp hpair j i hj hi hij

theorem not_mem_tail_of_mem_head {L n : ℕ} (h : n ∈ c.head L) : n ∉ c.tail L := by
  intro htail
  have hhead := (List.mem_filter.mp h).2
  have htail' := (List.mem_filter.mp htail).2
  simp_all

theorem layer_of_mem_head {L L' n : ℕ} (h : n ∈ c.head L') (hL : n ∈ c.layerNodes L) : L' = L := by
  have hL' := nlayer_eq_some.mpr (List.mem_filter.mp h).1
  rw [nlayer_eq_some.mpr hL] at hL'
  exact (Option.some.inj hL').symm

theorem layer_of_mem_tail {L L' n : ℕ} (h : n ∈ c.tail L') (hL : n ∈ c.layerNodes L) : L' = L := by
  have hL' := nlayer_eq_some.mpr (List.mem_filter.mp h).1
  rw [nlayer_eq_some.mpr hL] at hL'
  exact (Option.some.inj hL').symm

end readers

end RelaySteps
end StreamMoE
