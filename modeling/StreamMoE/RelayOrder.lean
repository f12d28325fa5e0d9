import StreamMoE.RelayVisits

/-! Whether every copy between devices is made exactly once, behind the node it copies and ahead of
the nodes that read it. -/
namespace StreamMoE
namespace RelayOrder

open ComputeGraph LayerPlan LayerPlan.Capture ArenaLayout LayerOrder OfferSchedule RelayRun RelaySteps
  RelayVisits

variable {Dev : Type*} [DecidableEq Dev] (c : Capture) (m : Placement Dev)

section arrangement

/-- The nodes of a call; a graph on one device leaves aliases out. -/
def callNodes : Call Dev → List ℕ
  | .head L => c.head L
  | .closure L => c.compute L
  | .tail L => c.tail L
  | .tailHead L K => c.tail L ++ c.head K
  | .deviceGraph L next _ =>
      c.compute L ++ (c.tail L ++ nextNodes c next).filter fun p => !isAliasOp (c.graph.op p)

variable (past : List ℕ) (s : Shell Dev)

/-- The original is a leaf, or earlier calls have computed it. -/
def Made : Prop := (c.nlayer s.producer).isSome → s.producer ∈ past

/-- The list computes the original, in a segment with no segment of its device or the copy's before it. -/
def Leads (list : List ℕ) : Prop :=
  s.producer ∈ list ∧ ∀ k, SegHas c m list k s.producer → ∀ j < k,
    ¬ SegOn c m list j (srcDev c m s) ∧ ¬ SegOn c m list j s.dev

/-- The `k`-th segment has nodes of the part. -/
def PartAt (list part : List ℕ) (k : ℕ) : Prop := ∃ n ∈ part, SegHas c m list k n

/-- The copy comes in with the next head: no segment before has been on the original's device. -/
def ComesIn (list head : List ℕ) (k : ℕ) : Prop :=
  PartAt c m list head k ∧ SegOn c m list k s.dev ∧ ∀ j < k, ¬ SegOn c m list j (srcDev c m s)

/-- The copy goes out with the next head. -/
def GoesOut (list head : List ℕ) (k : ℕ) : Prop :=
  PartAt c m list head k ∧ SegOn c m list k (srcDev c m s)

/-- In a head: one of its segments is on a device of the copy's, and the original has been made or
leads. -/
def HeadOrder (L : ℕ) : Prop :=
  (∃ k, SegOn c m (c.head L) k (srcDev c m s) ∨ SegOn c m (c.head L) k s.dev) ∧
    (Made c past s ∨ Leads c m s (c.head L))

/-- In a tail: what lies on the closure's device has been made, anything else has been made or leads. -/
def TailOrder (list : List ℕ) : Prop :=
  if srcDev c m s = m.closureDev then Made c past s else Made c past s ∨ Leads c m s list

/-- In a tail with the next head behind it, for that head. -/
def FrontOrder (L K : ℕ) : Prop :=
  let list := c.tail L ++ c.head K
  if s.producer ∈ c.tail L then
    -- what the tail makes leaves with the tail
    Made c past s ∨ ∀ k, SegHas c m list k s.producer → ∀ j < k, ¬ SegOn c m list j (srcDev c m s)
  else if s.producer ∈ c.head K then
    Made c past s ∨ ∀ k, SegHas c m list k s.producer → ∀ j < k,
      ¬ ComesIn c m s list (c.head K) j ∧ ¬ GoesOut c m s list (c.head K) j
  else
    Made c past s ∧ (∃ k, ComesIn c m s list (c.head K) k ∨ GoesOut c m s list (c.head K) k) ∧
      ∀ n ∈ c.head K, Reads c m s n → ∀ j, SegHas c m list j n →
        ∃ k, k ≤ j ∧ ComesIn c m s list (c.head K) k ∨ k < j ∧ GoesOut c m s list (c.head K) k

/-- In a graph on one device: in before it unless the graph computes the original and holds a head, out
behind it. -/
def GraphOrder (L : ℕ) (next : Option ℕ) (D : Dev) : Prop :=
  if s.dev = D ∧ (next = none ∨ s.producer ∉ c.tail L ++ nextNodes c next) then Made c past s
  else srcDev c m s = D ∧ (Made c past s ∨ s.producer ∈ callNodes c (.deviceGraph L next D)) ∧
    ∀ n ∈ callNodes c (.deviceGraph L next D), ¬ Reads c m s n

/-- The call runs the part the copy is for, on devices that let it be made in time; `past` is what earlier
calls have computed. -/
def Arranged (past : List ℕ) (s : Shell Dev) (call : Call Dev) : Prop :=
  servedStep s ∈ call.steps ∧ (∀ n ∈ past, ¬ Reads c m s n) ∧
    match call with
    | .head L => HeadOrder c m past s L
    | .closure _ => False
    | .tail L => TailOrder c m past s (c.tail L)
    | .tailHead L K =>
        if s.stage = .tail then TailOrder c m past s (c.tail L ++ c.head K) else FrontOrder c m past s L K
    | .deviceGraph L next D => GraphOrder c m past s L next D

end arrangement

section segments

variable {c m} {past : List ℕ} {s : Shell Dev}

/-- `Timely` told by the segments of a list. -/
structure InTime (c : Capture) (m : Placement Dev) (past list : List ℕ) (s : Shell Dev)
    (comes goes : ℕ → Prop) : Prop where
  served : ∃ k, comes k ∨ goes k
  behind : (c.nlayer s.producer).isSome → s.producer ∉ past → ∀ k,
    (comes k → ∃ j < k, SegHas c m list j s.producer) ∧ (goes k → ∃ j ≤ k, SegHas c m list j s.producer)
  ahead : ∀ n, Reads c m s n → n ∉ past ∧ ∀ j, SegHas c m list j n → ∃ k, k ≤ j ∧ comes k ∨ k < j ∧ goes k

theorem InTime.congr {list : List ℕ} {comes goes comes' goes' : ℕ → Prop} (hcomes : ∀ k, comes k ↔ comes' k)
    (hgoes : ∀ k, goes k ↔ goes' k) :
    InTime c m past list s comes goes ↔ InTime c m past list s comes' goes' := by
  rw [funext fun k => propext (hcomes k), funext fun k => propext (hgoes k)]

/-- The stretch of the `k`-th segment lets the copy in, or out. -/
theorem timely_stretches (list : List ℕ) (tail head : List (ℕ × ℕ) → Option ℕ) (onward : Option ℕ)
    (carried : List ℕ) :
    Timely (((stretches c m list tail head onward carried).map Visit.stretch).map (Visit.leg c m))
        (fun n => n ∈ past) s (Computes c s) (Reads c m s) ↔
      InTime c m past list s
        (fun k => ∃ seg, (segments c m list)[k]? = some seg ∧
          (stretchAt c m list tail head onward carried k seg).Arrives c m s)
        fun k => ∃ seg, (segments c m list)[k]? = some seg ∧
          (stretchAt c m list tail head onward carried k seg).Leaves c m s := by
  let f : ℕ → List (ℕ × ℕ) → Leg (Shell Dev) ℕ := fun k seg =>
    (Visit.stretch (stretchAt c m list tail head onward carried k seg)).leg c m
  have hget : ∀ k : ℕ,
      (((stretches c m list tail head onward carried).map Visit.stretch).map (Visit.leg c m))[k]? =
        (segments c m list)[k]?.map (f k) := by
    intro k
    rw [List.getElem?_map, List.getElem?_map, stretches, List.getElem?_mapIdx, Option.map_map,
      Option.map_map]
    rfl
  have hbefore : ∀ (k : ℕ) (seg : List (ℕ × ℕ)), (f k seg).before s = true ↔
      (stretchAt c m list tail head onward carried k seg).Arrives c m s := fun k seg => decide_eq_true_iff
  have hafter : ∀ (k : ℕ) (seg : List (ℕ × ℕ)), (f k seg).after s = true ↔
      (stretchAt c m list tail head onward carried k seg).Leaves c m s := fun k seg => decide_eq_true_iff
  have hruns : ∀ k n : ℕ,
      RunsIn (((stretches c m list tail head onward carried).map Visit.stretch).map (Visit.leg c m)) k n ↔
        SegHas c m list k n := by
    intro k n
    unfold RunsIn SegHas
    rw [hget]
    constructor
    · rintro ⟨l, hl, hn⟩
      obtain ⟨seg, hseg, rfl⟩ := Option.map_eq_some_iff.mp hl
      exact ⟨seg, hseg, hn⟩
    · rintro ⟨seg, hseg, hn⟩
      exact ⟨_, by rw [hseg]; rfl, hn⟩
  have hleg : ∀ (k : ℕ) (l : Leg (Shell Dev) ℕ),
      (((stretches c m list tail head onward carried).map Visit.stretch).map (Visit.leg c m))[k]? = some l ↔
        ∃ seg, (segments c m list)[k]? = some seg ∧ l = f k seg := by
    intro k l
    rw [hget, Option.map_eq_some_iff]
    constructor
    · rintro ⟨seg, h, rfl⟩
      exact ⟨seg, h, rfl⟩
    · rintro ⟨seg, h, rfl⟩
      exact ⟨seg, h, rfl⟩
  constructor
  · rintro ⟨⟨l, hl, htakes⟩, hbehind, hahead⟩
    refine ⟨?_, fun hcaptured hpast k => ⟨?_, ?_⟩, fun n hn => ⟨(hahead n hn).1, fun j hj => ?_⟩⟩
    · obtain ⟨k, hk⟩ := List.mem_iff_getElem?.mp hl
      obtain ⟨seg, hseg, rfl⟩ := (hleg k l).mp hk
      rcases takes_iff.mp htakes with h | h
      · exact ⟨k, Or.inl ⟨seg, hseg, (hbefore k seg).mp h⟩⟩
      · exact ⟨k, Or.inr ⟨seg, hseg, (hafter k seg).mp h⟩⟩
    · rintro ⟨seg, hseg, h⟩
      obtain ⟨j, hj, hrun⟩ := ((hbehind k _ ((hleg k _).mpr ⟨seg, hseg, rfl⟩) _ ⟨rfl, hcaptured⟩).1
        ((hbefore k seg).mpr h)).resolve_left hpast
      exact ⟨j, hj, (hruns j _).mp hrun⟩
    · rintro ⟨seg, hseg, h⟩
      obtain ⟨j, hj, hrun⟩ := ((hbehind k _ ((hleg k _).mpr ⟨seg, hseg, rfl⟩) _ ⟨rfl, hcaptured⟩).2
        ((hafter k seg).mpr h)).resolve_left hpast
      exact ⟨j, hj, (hruns j _).mp hrun⟩
    · obtain ⟨k, l', hl', hside⟩ := (hahead n hn).2 j ((hruns j n).mpr hj)
      obtain ⟨seg, hseg, rfl⟩ := (hleg k l').mp hl'
      rw [hbefore, hafter] at hside
      exact ⟨k, hside.imp (.imp_right fun h => ⟨seg, hseg, h⟩) (.imp_right fun h => ⟨seg, hseg, h⟩)⟩
  · rintro ⟨⟨k, hserved⟩, hbehind, hahead⟩
    refine ⟨?_, fun k l hl n hn => ?_, fun n hn => ⟨(hahead n hn).1, fun j hj => ?_⟩⟩
    · rcases hserved with ⟨seg, hseg, h⟩ | ⟨seg, hseg, h⟩
      · exact ⟨_, List.mem_of_getElem? ((hleg k _).mpr ⟨seg, hseg, rfl⟩),
          takes_iff.mpr (Or.inl ((hbefore k seg).mpr h))⟩
      · exact ⟨_, List.mem_of_getElem? ((hleg k _).mpr ⟨seg, hseg, rfl⟩),
          takes_iff.mpr (Or.inr ((hafter k seg).mpr h))⟩
    · obtain ⟨seg, hseg, rfl⟩ := (hleg k l).mp hl
      obtain ⟨rfl, hcaptured⟩ := hn
      by_cases hpast : s.producer ∈ past
      · exact ⟨fun _ => Or.inl hpast, fun _ => Or.inl hpast⟩
      · refine ⟨fun h => Or.inr ?_, fun h => Or.inr ?_⟩
        · obtain ⟨j, hj, hrun⟩ := (hbehind hcaptured hpast k).1 ⟨seg, hseg, (hbefore k seg).mp h⟩
          exact ⟨j, hj, (hruns j _).mpr hrun⟩
        · obtain ⟨j, hj, hrun⟩ := (hbehind hcaptured hpast k).2 ⟨seg, hseg, (hafter k seg).mp h⟩
          exact ⟨j, hj, (hruns j _).mpr hrun⟩
    · obtain ⟨k, hside⟩ := (hahead n hn).2 j ((hruns j n).mp hj)
      rcases hside with ⟨hle, seg, hseg, h⟩ | ⟨hlt, seg, hseg, h⟩
      · exact ⟨k, _, (hleg k _).mpr ⟨seg, hseg, rfl⟩, Or.inl ⟨hle, (hbefore k seg).mpr h⟩⟩
      · exact ⟨k, _, (hleg k _).mpr ⟨seg, hseg, rfl⟩, Or.inr ⟨hlt, (hafter k seg).mpr h⟩⟩

omit [DecidableEq Dev] in
theorem not_made (h : ¬ Made c past s) : (c.nlayer s.producer).isSome ∧ s.producer ∉ past := by
  unfold Made at h
  tauto

theorem segOn_of_reads {list : List ℕ} {k n : ℕ} (hn : Reads c m s n) (hk : SegHas c m list k n) :
    SegOn c m list k s.dev :=
  (reader_of_reads hn).dev ▸ hk.segOn

/-- A copy that comes in at the segments of its device, unless the original's has been visited, and goes
out at those of the original's: what counts is the first segment on either device. -/
theorem inTime_iff_leads (part : ℕ → Prop) (hs : s ∈ relays c m) {list : List ℕ} (hlist : list.Nodup)
    {comes goes : ℕ → Prop}
    (hcomes : ∀ k, comes k ↔
      part k ∧ SegOn c m list k s.dev ∧ ∀ j < k, ¬ SegOn c m list j (srcDev c m s))
    (hgoes : ∀ k, goes k ↔ part k ∧ SegOn c m list k (srcDev c m s))
    (hpart : ∀ j k, j < k → part k → part j) (hproducer : ∀ k, SegHas c m list k s.producer → part k)
    (hreads : ∀ n, Reads c m s n → ∀ k, SegHas c m list k n → part k) :
    InTime c m past list s comes goes ↔
      (∀ n, Reads c m s n → n ∉ past) ∧
        (∃ k, part k ∧ (SegOn c m list k (srcDev c m s) ∨ SegOn c m list k s.dev)) ∧
        (Made c past s ∨ Leads c m s list) := by
  rw [InTime.congr hcomes hgoes]
  obtain ⟨n₀, hn₀⟩ := exists_reads hs
  constructor
  · rintro ⟨⟨k, hserved⟩, hbehind, hahead⟩
    refine ⟨fun n hn => (hahead n hn).1, ⟨k, ?_⟩, ?_⟩
    · rcases hserved with ⟨hk, hdev, _⟩ | ⟨hk, hdev⟩
      · exact ⟨hk, Or.inr hdev⟩
      · exact ⟨hk, Or.inl hdev⟩
    · by_cases hmade : Made c past s
      · exact Or.inl hmade
      · obtain ⟨hcaptured, hpast⟩ := not_made hmade
        have hran := hbehind hcaptured hpast
        refine Or.inr ⟨?_, fun kp hkp j => ?_⟩
        · rcases hserved with h | h
          · obtain ⟨_, _, hj⟩ := (hran k).1 h
            exact hj.mem
          · obtain ⟨_, _, hj⟩ := (hran k).2 h
            exact hj.mem
        · induction j using Nat.strongRecOn with
          | ind j ih =>
            intro hj
            have hpj := hpart j kp hj (hproducer kp hkp)
            refine ⟨fun hsrc => ?_, fun hdst => ?_⟩
            · obtain ⟨i, hi, hp⟩ := (hran j).2 ⟨hpj, hsrc⟩
              have := hp.unique hlist hkp
              omega
            · obtain ⟨i, hi, hp⟩ := (hran j).1 ⟨hpj, hdst, fun i hi => (ih i hi (Nat.lt_trans hi hj)).1⟩
              have := hp.unique hlist hkp
              omega
  · rintro ⟨hpast, hmeets, hmade⟩
    classical
    obtain ⟨hp₀, hends⟩ := Nat.find_spec hmeets
    have hmin : ∀ j < Nat.find hmeets, ¬ SegOn c m list j (srcDev c m s) ∧ ¬ SegOn c m list j s.dev := by
      intro j hj
      have hnot := Nat.find_min hmeets hj
      exact ⟨fun h => hnot ⟨hpart j _ hj hp₀, Or.inl h⟩, fun h => hnot ⟨hpart j _ hj hp₀, Or.inr h⟩⟩
    refine ⟨⟨Nat.find hmeets, ?_⟩, fun hcaptured hnot k => ?_, fun n hn => ⟨hpast n hn, fun j hj => ?_⟩⟩
    · rcases hends with h | h
      · exact Or.inr ⟨hp₀, h⟩
      · exact Or.inl ⟨hp₀, h, fun j hj => (hmin j hj).1⟩
    · obtain ⟨hmem, hleads⟩ := hmade.resolve_left fun h => hnot (h hcaptured)
      obtain ⟨kp, hkp⟩ := exists_segHas (c := c) (m := m) hmem
      refine ⟨fun ⟨_, hdst, _⟩ => ⟨kp, ?_, hkp⟩, fun ⟨_, hsrc⟩ => ⟨kp, ?_, hkp⟩⟩
      · rcases Nat.lt_trichotomy k kp with hlt | rfl | hlt
        · exact absurd hdst (hleads kp hkp k hlt).2
        · exact absurd (hkp.segOn.unique hdst) (srcDev_ne hn₀ hcaptured)
        · exact hlt
      · by_contra hlt
        exact (hleads kp hkp k (Nat.lt_of_not_le hlt)).1 hsrc
    · have hdst := segOn_of_reads hn hj
      have hle : Nat.find hmeets ≤ j := Nat.find_min' hmeets ⟨hreads n hn j hj, Or.inr hdst⟩
      rcases hends with h | h
      · by_cases heq : Nat.find hmeets = j
        · exact ⟨j, Or.inl ⟨Nat.le_refl j, hreads n hn j hj, hdst, fun i hi => (hmin i (heq ▸ hi)).1⟩⟩
        · exact ⟨_, Or.inr ⟨Nat.lt_of_le_of_ne hle heq, hp₀, h⟩⟩
      · exact ⟨_, Or.inl ⟨hle, hp₀, h, fun i hi => (hmin i hi).1⟩⟩

section front

variable {L K : ℕ}

/-- Where a copy for the head leaves the fused list: with the tail if the tail makes the original. -/
def Leaves (c : Capture) (m : Placement Dev) (s : Shell Dev) (L K k : ℕ) : Prop :=
  SegOn c m (c.tail L ++ c.head K) k (srcDev c m s) ∧
    if s.producer ∈ c.tail L then PartAt c m (c.tail L ++ c.head K) (c.tail L) k
    else PartAt c m (c.tail L ++ c.head K) (c.head K) k

/-- A node at the front of a list is in no later segment than one behind it. -/
theorem seg_le {list : List ℕ} {j k n n' : ℕ} (hj : SegHas c m list j n) (hk : SegHas c m list k n')
    (h : ∀ i i' : ℕ, list[i]? = some n → list[i']? = some n' → i ≤ i') : j ≤ k := by
  obtain ⟨seg, i, hseg, hmem, hi⟩ := hj.place
  obtain ⟨seg', i', hseg', hmem', hi'⟩ := hk.place
  by_contra hlt
  have hback := seg_lt hseg' hmem' hseg hmem (Nat.lt_of_not_le hlt)
  have := h i i' hi hi'
  omega

theorem getElem?_front (hapart : ∀ n ∈ c.tail L, n ∉ c.head K) {i n : ℕ}
    (hi : (c.tail L ++ c.head K)[i]? = some n) :
    (n ∈ c.tail L → i < (c.tail L).length) ∧
      (n ∈ c.head K → (c.tail L).length ≤ i ∧ (c.head K)[i - (c.tail L).length]? = some n) := by
  by_cases hlt : i < (c.tail L).length
  · rw [List.getElem?_append_left hlt] at hi
    exact ⟨fun _ => hlt, fun hhead => absurd hhead (hapart n (List.mem_of_getElem? hi))⟩
  · rw [List.getElem?_append_right (Nat.le_of_not_lt hlt)] at hi
    exact ⟨fun htail => absurd (List.mem_of_getElem? hi) (hapart n htail),
      fun _ => ⟨Nat.le_of_not_lt hlt, hi⟩⟩

theorem seg_le_front (hapart : ∀ n ∈ c.tail L, n ∉ c.head K) {j k n n' : ℕ} (hn : n ∈ c.tail L)
    (hn' : n' ∈ c.head K) (hj : SegHas c m (c.tail L ++ c.head K) j n)
    (hk : SegHas c m (c.tail L ++ c.head K) k n') : j ≤ k := by
  refine seg_le hj hk fun i i' hi hi' => ?_
  have hlt := (getElem?_front hapart hi).1 hn
  have hle := ((getElem?_front hapart hi').2 hn').1
  omega

theorem partAt_tail (hapart : ∀ n ∈ c.tail L, n ∉ c.head K) {j k n : ℕ} {d : Dev} (hn : n ∈ c.tail L)
    (hk : SegHas c m (c.tail L ++ c.head K) k n) (hjk : j < k)
    (hj : SegOn c m (c.tail L ++ c.head K) j d) : PartAt c m (c.tail L ++ c.head K) (c.tail L) j := by
  obtain ⟨seg, hseg, _⟩ := hj
  have hne : seg ≠ [] := List.ne_nil_of_mem_splitBy (List.mem_of_getElem? hseg)
  obtain ⟨⟨a, i⟩, hmem⟩ := List.exists_mem_of_ne_nil seg hne
  have ha : SegHas c m (c.tail L ++ c.head K) j a := ⟨seg, hseg, List.mem_map.mpr ⟨_, hmem, rfl⟩⟩
  refine ⟨a, ?_, ha⟩
  rcases List.mem_append.mp ha.mem with htail | hhead
  · exact htail
  · have := seg_le_front hapart hn hhead hk ha
    omega

/-- A node of the head that reads the copy is behind the original. -/
theorem seg_lt_reader (hapart : ∀ n ∈ c.tail L, n ∉ c.head K)
    (hproducer : s.producer ∈ c.tail L ++ c.head K) {j k n : ℕ} (hn : Reads c m s n) (hhead : n ∈ c.head K)
    (hj : SegHas c m (c.tail L ++ c.head K) j s.producer) (hk : SegHas c m (c.tail L ++ c.head K) k n) :
    j < k := by
  have hcaptured : (c.nlayer s.producer).isSome := by
    rcases List.mem_append.mp hproducer with h | h <;>
      exact Option.isSome_iff_exists.mpr ⟨_, nlayer_eq_some.mpr (List.mem_filter.mp h).1⟩
  have hle : j ≤ k := by
    rcases List.mem_append.mp hproducer with htail | hhead'
    · exact seg_le_front hapart htail hhead hj hk
    · refine seg_le hj hk fun i i' hi hi' => ?_
      obtain ⟨hi₁, hget⟩ := (getElem?_front hapart hi).2 hhead'
      obtain ⟨hi₂, hget'⟩ := (getElem?_front hapart hi').2 hhead
      have hsub : (c.head K).Sublist c.graph.nodes := List.filter_sublist.trans List.filter_sublist
      by_contra hlt
      exact not_mem_sources hsub hget hget' (by omega) (reader_of_reads hn).source
  refine Nat.lt_of_le_of_ne hle fun heq => ?_
  subst heq
  exact srcDev_ne hn hcaptured (hj.segOn.unique (segOn_of_reads hn hk))

/-- The fused list, for the copies of the head. -/
theorem inTime_iff_front (hs : s ∈ relays c m) (hlayer : s.layer = K) (hLK : L ≠ K)
    (hlist : (c.tail L ++ c.head K).Nodup) (hapart : ∀ n ∈ c.tail L, n ∉ c.head K)
    {comes goes : ℕ → Prop}
    (hcomes : ∀ k, comes k ↔ ComesIn c m s (c.tail L ++ c.head K) (c.head K) k)
    (hgoes : ∀ k, goes k ↔ Leaves c m s L K k) :
    InTime c m past (c.tail L ++ c.head K) s comes goes ↔
      (∀ n, Reads c m s n → n ∉ past) ∧ FrontOrder c m past s L K := by
  rw [InTime.congr hcomes hgoes]
  have hreader : ∀ n, Reads c m s n → ∀ j, SegHas c m (c.tail L ++ c.head K) j n → n ∈ c.head K := by
    intro n hn j hj
    rcases List.mem_append.mp hj.mem with htail | hhead
    · exact absurd ((layer_of_mem_tail htail (hlayer ▸ (reader_of_reads hn).layer))) hLK
    · exact hhead
  obtain ⟨n₀, hn₀⟩ := exists_reads hs
  by_cases hmem : s.producer ∈ c.tail L ++ c.head K
  · have hcaptured : (c.nlayer s.producer).isSome := by
      rcases List.mem_append.mp hmem with h | h <;>
        exact Option.isSome_iff_exists.mpr ⟨_, nlayer_eq_some.mpr (List.mem_filter.mp h).1⟩
    obtain ⟨kp, hkp⟩ := exists_segHas (c := c) (m := m) hmem
    have hleaves : Leaves c m s L K kp := by
      refine ⟨hkp.segOn, ?_⟩
      split
      · rename_i htail
        exact ⟨_, htail, hkp⟩
      · rename_i htail
        exact ⟨_, (List.mem_append.mp hmem).resolve_left htail, hkp⟩
    have hahead : ∀ n, Reads c m s n → ∀ j, SegHas c m (c.tail L ++ c.head K) j n →
        ∃ k, k ≤ j ∧ ComesIn c m s (c.tail L ++ c.head K) (c.head K) k ∨ k < j ∧ Leaves c m s L K k :=
      fun n hn j hj => ⟨kp, Or.inr ⟨seg_lt_reader hapart hmem hn (hreader n hn j hj) hkp hj, hleaves⟩⟩
    have hapartdev : srcDev c m s ≠ s.dev := srcDev_ne hn₀ hcaptured
    -- what is left of `InTime` is that no offer comes too early
    have hiff : InTime c m past (c.tail L ++ c.head K) s
        (ComesIn c m s (c.tail L ++ c.head K) (c.head K)) (Leaves c m s L K) ↔
        (∀ n, Reads c m s n → n ∉ past) ∧ (Made c past s ∨ ∀ j < kp,
          ¬ ComesIn c m s (c.tail L ++ c.head K) (c.head K) j ∧ ¬ Leaves c m s L K j) := by
      constructor
      · rintro ⟨_, hbehind, hahead⟩
        refine ⟨fun n hn => (hahead n hn).1, ?_⟩
        by_cases hmade : Made c past s
        · exact Or.inl hmade
        · obtain ⟨_, hpast⟩ := not_made hmade
          refine Or.inr fun j hj => ⟨fun h => ?_, fun h => ?_⟩
          · obtain ⟨i, hi, hp⟩ := (hbehind hcaptured hpast j).1 h
            have := hp.unique hlist hkp
            omega
          · obtain ⟨i, hi, hp⟩ := (hbehind hcaptured hpast j).2 h
            have := hp.unique hlist hkp
            omega
      · rintro ⟨hpast, hmade⟩
        refine ⟨⟨kp, Or.inr hleaves⟩, fun _ hnot k => ?_, fun n hn => ⟨hpast n hn, hahead n hn⟩⟩
        have hearly := hmade.resolve_left fun h => hnot (h hcaptured)
        refine ⟨fun h => ⟨kp, ?_, hkp⟩, fun h => ⟨kp, ?_, hkp⟩⟩
        · rcases Nat.lt_trichotomy k kp with hlt | rfl | hlt
          · exact absurd h (hearly k hlt).1
          · exact absurd (hkp.segOn.unique h.2.1) hapartdev
          · exact hlt
        · by_contra hlt
          exact (hearly k (Nat.lt_of_not_le hlt)).2 h
    rw [hiff]
    refine and_congr_right fun _ => ?_
    unfold FrontOrder
    by_cases htail : s.producer ∈ c.tail L
    · rw [if_pos htail]
      refine or_congr_right ⟨fun h k hk j hj hon => ?_, fun h j hj => ⟨?_, ?_⟩⟩
      · obtain rfl := hk.unique hlist hkp
        exact (h j hj).2 ⟨hon, by rw [if_pos htail]; exact partAt_tail hapart htail hk hj hon⟩
      · rintro ⟨⟨n, hn, hjn⟩, _⟩
        have := seg_le_front hapart htail hn hkp hjn
        omega
      · rintro ⟨hon, _⟩
        exact h kp hkp j hj hon
    · rw [if_neg htail, if_pos ((List.mem_append.mp hmem).resolve_left htail)]
      refine or_congr_right ⟨fun h k hk j hj => ?_, fun h j hj => ⟨(h kp hkp j hj).1, ?_⟩⟩
      · obtain rfl := hk.unique hlist hkp
        refine ⟨(h j hj).1, fun hout => (h j hj).2 ⟨hout.2, ?_⟩⟩
        rw [if_neg htail]
        exact hout.1
      · rintro ⟨hon, hpart⟩
        rw [if_neg htail] at hpart
        exact (h kp hkp j hj).2 ⟨hpart, hon⟩
  · have hout : ∀ k, Leaves c m s L K k ↔ GoesOut c m s (c.tail L ++ c.head K) (c.head K) k := by
      intro k
      unfold Leaves GoesOut
      rw [if_neg fun h => hmem (List.mem_append_left _ h), and_comm]
    rw [InTime.congr (fun _ => Iff.rfl) hout]
    have htail : s.producer ∉ c.tail L := fun h => hmem (List.mem_append_left _ h)
    have hhead : s.producer ∉ c.head K := fun h => hmem (List.mem_append_right _ h)
    unfold FrontOrder
    rw [if_neg htail, if_neg hhead]
    constructor
    · rintro ⟨⟨k, hserved⟩, hbehind, hahead⟩
      refine ⟨fun n hn => (hahead n hn).1, ?_, ⟨k, hserved⟩, fun n _ hn => (hahead n hn).2⟩
      by_contra hmade
      obtain ⟨hcaptured, hpast⟩ := not_made hmade
      rcases hserved with h | h
      · obtain ⟨_, _, hp⟩ := (hbehind hcaptured hpast k).1 h
        exact hmem hp.mem
      · obtain ⟨_, _, hp⟩ := (hbehind hcaptured hpast k).2 h
        exact hmem hp.mem
    · rintro ⟨hpast, hmade, hserved, hahead⟩
      exact ⟨hserved, fun hcaptured hnot => absurd (hmade hcaptured) hnot,
        fun n hn => ⟨hpast n hn, fun j hj => hahead n (hreader n hn j hj) hn j hj⟩⟩

end front

section calls

omit [DecidableEq Dev] in
theorem madeBy_iff {nodes : List ℕ} (hown : c.graph.viewSrc s.producer = none) :
    MadeBy c nodes s ↔ s.producer ∈ nodes := by
  simp [MadeBy, relaySrcInSet, hown]

/-- Where the stretches of a list let a copy in. -/
theorem arrives_iff {list : List ℕ} {tail head : List (ℕ × ℕ) → Option ℕ} {onward : Option ℕ}
    {carried : List ℕ} {k : ℕ} :
    (∃ seg, (segments c m list)[k]? = some seg ∧
        (stretchAt c m list tail head onward carried k seg).Arrives c m s) ↔
      (∃ seg, (segments c m list)[k]? = some seg ∧
        (s.stage = .tail ∧ tail seg = some s.layer ∨
          s.stage = .layerFront ∧ head seg = some s.layer ∧ tail seg ≠ some s.layer)) ∧
        SegOn c m list k s.dev ∧ ∀ j < k, ¬ SegOn c m list j (srcDev c m s) := by
  have hseen : srcDev c m s ∉ ((segments c m list).take k).map (segDev c m) ↔
      ∀ j < k, ¬ SegOn c m list j (srcDev c m s) := by
    rw [mem_flushed]
    exact ⟨fun h j hj hon => h ⟨j, hj, hon⟩, fun h ⟨j, hj, hon⟩ => h j hj hon⟩
  have hown : ¬ MadeBy c [] s := by
    simp [MadeBy, relaySrcInSet]
  unfold Stretch.Arrives
  constructor
  · rintro ⟨seg, hseg, hdev, hnot, _, hstage⟩
    exact ⟨⟨seg, hseg, hstage⟩, ⟨seg, hseg, hdev.symm⟩, hseen.mp hnot⟩
  · rintro ⟨⟨seg, hseg, hstage⟩, ⟨seg', hseg', hdev⟩, hnot⟩
    obtain rfl := Option.some.inj (hseg.symm.trans hseg')
    exact ⟨seg, hseg, hdev.symm, hseen.mpr hnot, hown, hstage⟩

/-- Where they let it out. -/
theorem leaves_iff {list : List ℕ} {tail head : List (ℕ × ℕ) → Option ℕ} {onward : Option ℕ}
    {carried : List ℕ} (hown : c.graph.viewSrc s.producer = none) {k : ℕ} :
    (∃ seg, (segments c m list)[k]? = some seg ∧
        (stretchAt c m list tail head onward carried k seg).Leaves c m s) ↔
      (∃ seg, (segments c m list)[k]? = some seg ∧
        (s.stage = .tail ∧ tail seg = some s.layer ∨
          s.stage ≠ .tail ∧ head seg = some s.layer ∧ tail seg ≠ some s.layer ∧ s.producer ∉ carried ∨
          s.stage = .layerFront ∧ onward = some s.layer ∧ tail seg ≠ none ∧ tail seg ≠ some s.layer ∧
            s.producer ∈ carried)) ∧
        SegOn c m list k (srcDev c m s) := by
  unfold Stretch.Leaves
  simp only [madeBy_iff hown]
  constructor
  · rintro ⟨seg, hseg, hdev, hstage⟩
    exact ⟨⟨seg, hseg, hstage⟩, seg, hseg, hdev.symm⟩
  · rintro ⟨⟨seg, hseg, hstage⟩, seg', hseg', hdev⟩
    obtain rfl := Option.some.inj (hseg.symm.trans hseg')
    exact ⟨seg, hseg, hdev.symm, hstage⟩

theorem stretches_take {list : List ℕ} {tail head : List (ℕ × ℕ) → Option ℕ} {onward : Option ℕ}
    {carried : List ℕ} :
    (∃ v ∈ (stretches c m list tail head onward carried).map Visit.stretch, v.Before c m s ∨ v.After c m s) ↔
      ∃ k, (∃ seg, (segments c m list)[k]? = some seg ∧
          (stretchAt c m list tail head onward carried k seg).Arrives c m s) ∨
        ∃ seg, (segments c m list)[k]? = some seg ∧
          (stretchAt c m list tail head onward carried k seg).Leaves c m s := by
  constructor
  · rintro ⟨_, hv, h⟩
    obtain ⟨x, hx, rfl⟩ := List.mem_map.mp hv
    obtain ⟨k, hk⟩ := List.mem_iff_getElem?.mp hx
    rw [stretches, List.getElem?_mapIdx] at hk
    obtain ⟨seg, hseg, rfl⟩ := Option.map_eq_some_iff.mp hk
    exact ⟨k, h.imp (fun h => ⟨seg, hseg, h⟩) fun h => ⟨seg, hseg, h⟩⟩
  · have hmem : ∀ (k : ℕ) (seg : List (ℕ × ℕ)), (segments c m list)[k]? = some seg →
        Visit.stretch (stretchAt c m list tail head onward carried k seg) ∈
          (stretches c m list tail head onward carried).map Visit.stretch := by
      intro k seg hseg
      refine List.mem_map.mpr ⟨_, List.mem_of_getElem? (i := k) ?_, rfl⟩
      rw [stretches, List.getElem?_mapIdx, hseg]
      rfl
    rintro ⟨k, ⟨seg, hseg, h⟩ | ⟨seg, hseg, h⟩⟩
    · exact ⟨_, hmem k seg hseg, Or.inl h⟩
    · exact ⟨_, hmem k seg hseg, Or.inr h⟩

theorem exists_seg {list : List ℕ} {k : ℕ} {d : Dev} (h : SegOn c m list k d) :
    ∃ seg, (segments c m list)[k]? = some seg := by
  obtain ⟨seg, hseg, _⟩ := h
  exact ⟨seg, hseg⟩

theorem part_nodup (L : ℕ) : (c.head L).Nodup ∧ (c.tail L).Nodup := by
  have hsub : ∀ f : ℕ → Bool, ((c.layerNodes L).filter f).Nodup := fun f =>
    c.graph.nodup.sublist (List.filter_sublist.trans List.filter_sublist)
  exact ⟨hsub _, hsub _⟩

theorem parts_apart {L K : ℕ} (hLK : L ≠ K) : ∀ n ∈ c.tail L, n ∉ c.head K := by
  intro n htail hhead
  exact hLK (layer_of_mem_tail htail (List.mem_filter.mp hhead).1)

theorem head_stops (hs : s ∈ relays c m) {L : ℕ} (hstage : s.stage ≠ .tail) (hlayer : s.layer = L)
    {head : List (ℕ × ℕ) → Option ℕ} (hhead : head = fun _ => some L) (k : ℕ) :
    ((∃ seg, (segments c m (c.head L))[k]? = some seg ∧
        (stretchAt c m (c.head L) (fun _ => none) head none [] k seg).Arrives c m s) ↔
        SegOn c m (c.head L) k s.dev ∧ ∀ j < k, ¬ SegOn c m (c.head L) j (srcDev c m s)) ∧
      ((∃ seg, (segments c m (c.head L))[k]? = some seg ∧
        (stretchAt c m (c.head L) (fun _ => none) head none [] k seg).Leaves c m s) ↔
        SegOn c m (c.head L) k (srcDev c m s)) := by
  obtain ⟨n₀, hn₀⟩ := exists_reads hs
  have hreader := reader_of_reads hn₀
  have hfront : s.stage = .layerFront := hreader.stages.resolve_left hstage
  subst hhead
  constructor
  · rw [arrives_iff]
    refine and_iff_right_of_imp fun h => ?_
    obtain ⟨seg, hseg⟩ := exists_seg h.1
    exact ⟨seg, hseg, Or.inr ⟨hfront, by rw [hlayer], by simp⟩⟩
  · rw [leaves_iff hreader.own]
    refine and_iff_right_of_imp fun h => ?_
    obtain ⟨seg, hseg⟩ := exists_seg h
    exact ⟨seg, hseg, Or.inr (Or.inl ⟨hstage, by rw [hlayer], by simp, by simp⟩)⟩

theorem timely_head (hs : s ∈ relays c m) {L : ℕ} (hstage : s.stage ≠ .tail) (hlayer : s.layer = L) :
    Timely ((Call.head L : Call Dev).legs c m) (fun n => n ∈ past) s (Computes c s) (Reads c m s) ↔
      (∀ n, Reads c m s n → n ∉ past) ∧ HeadOrder c m past s L := by
  rw [call_legs_eq, callVisits, timely_stretches,
    inTime_iff_leads (fun _ => True) hs (part_nodup L).1
      (fun k => (head_stops hs hstage hlayer rfl k).1.trans (iff_of_eq (true_and _)).symm)
      (fun k => (head_stops hs hstage hlayer rfl k).2.trans (iff_of_eq (true_and _)).symm)
      (fun _ _ _ _ => trivial) (fun _ _ => trivial) fun _ _ _ _ => trivial]
  simp only [true_and, HeadOrder]

/-- The copies for a tail, with the closure's ahead of the list. -/
theorem timely_preTail (part : ℕ → Prop) (hs : s ∈ relays c m) {L : ℕ} (hstage : s.stage = .tail) (hlayer : s.layer = L)
    {list : List ℕ} (hlist : list.Nodup) (htail : ∀ n ∈ c.tail L, n ∈ list)
    {tail head : List (ℕ × ℕ) → Option ℕ} {onward : Option ℕ} {carried : List ℕ}
    (hpart : ∀ k, part k ↔ ∃ seg, (segments c m list)[k]? = some seg ∧ tail seg = some L)
    (hback : ∀ j k, j < k → part k → part j) (hproducer : ∀ k, SegHas c m list k s.producer → part k)
    (hreads : ∀ n, Reads c m s n → ∀ k, SegHas c m list k n → part k) :
    Timely ((Visit.preTail L : Visit Dev).leg c m ::
        ((stretches c m list tail head onward carried).map Visit.stretch).map (Visit.leg c m))
        (fun n => n ∈ past) s (Computes c s) (Reads c m s) ↔
      (∀ n, Reads c m s n → n ∉ past) ∧ TailOrder c m past s list := by
  obtain ⟨n₀, hn₀⟩ := exists_reads hs
  have hreader := reader_of_reads hn₀
  have hbefore : ((Visit.preTail L : Visit Dev).leg c m).before s = true ↔ srcDev c m s = m.closureDev := by
    simp [Visit.leg, Visit.Before, hstage, hlayer]
  have hmade : (∀ n, Computes c s n → n ∈ past) ↔ Made c past s :=
    ⟨fun h hcaptured => h _ ⟨rfl, hcaptured⟩, fun h n hn => hn.1 ▸ h (hn.1 ▸ hn.2)⟩
  rw [timely_cons rfl (decide_eq_false id)]
  unfold TailOrder
  by_cases hdev : srcDev c m s = m.closureDev
  · rw [if_pos (hbefore.mpr hdev), if_pos hdev, hmade, and_comm]
  · rw [if_neg fun h => hdev (hbefore.mp h), if_neg hdev, timely_stretches,
      inTime_iff_leads part hs hlist (fun k => ?_) (fun k => ?_) hback hproducer hreads]
    · refine and_congr_right fun _ => ⟨And.right, fun h => ⟨?_, h⟩⟩
      obtain ⟨k, hk⟩ := exists_segHas (c := c) (m := m) (htail _ (hlayer ▸ (hreader.tail hstage).1))
      exact ⟨k, hreads _ hn₀ k hk, Or.inr (segOn_of_reads hn₀ hk)⟩
    · rw [arrives_iff, hpart]
      simp [hstage, hlayer]
    · rw [leaves_iff hreader.own, hpart]
      simp [hstage, hlayer]

/-- A list has segments up to its last one. -/
theorem seg_before {list : List ℕ} {j k : ℕ} (hjk : j < k) (hk : ∃ seg, (segments c m list)[k]? = some seg) :
    ∃ seg, (segments c m list)[j]? = some seg := by
  obtain ⟨seg, hseg⟩ := hk
  have hlt := (List.getElem?_eq_some_iff.mp hseg).1
  exact ⟨_, List.getElem?_eq_getElem (Nat.lt_trans hjk hlt)⟩

theorem SegHas.seg {list : List ℕ} {k n : ℕ} (h : SegHas c m list k n) :
    ∃ seg, (segments c m list)[k]? = some seg := by
  obtain ⟨seg, hseg, _⟩ := h
  exact ⟨seg, hseg⟩

theorem timely_tail (hs : s ∈ relays c m) {L : ℕ} (hstage : s.stage = .tail) (hlayer : s.layer = L) :
    Timely ((Call.tail L : Call Dev).legs c m) (fun n => n ∈ past) s (Computes c s) (Reads c m s) ↔
      (∀ n, Reads c m s n → n ∉ past) ∧ TailOrder c m past s (c.tail L) := by
  rw [call_legs_eq, callVisits, List.map_cons]
  refine timely_preTail (fun k => ∃ seg, (segments c m (c.tail L))[k]? = some seg) hs hstage hlayer
    (part_nodup L).2 (fun n hn => hn) (fun k => ?_) (fun j k => seg_before)
    (fun k hk => SegHas.seg hk) fun n _ k hk => SegHas.seg hk
  simp

/-- The nodes of two layers' parts. -/
theorem fused_nodup {L K : ℕ} (hLK : L ≠ K) : (c.tail L ++ c.head K).Nodup := by
  refine List.nodup_append.mpr ⟨(part_nodup L).2, (part_nodup K).1, ?_⟩
  rintro n hn _ hn' rfl
  exact parts_apart hLK n hn hn'

theorem partAt_iff {L K k : ℕ} (hLK : L ≠ K) :
    (PartAt c m (c.tail L ++ c.head K) (c.tail L) k ↔
        ∃ seg, (segments c m (c.tail L ++ c.head K))[k]? = some seg ∧ hasTail (c.tail L).length seg = true) ∧
      (PartAt c m (c.tail L ++ c.head K) (c.head K) k ↔
        ∃ seg, (segments c m (c.tail L ++ c.head K))[k]? = some seg ∧
          hasHead (c.tail L).length seg = true) := by
  have hseg := fun (seg : List (ℕ × ℕ)) (h : (segments c m (c.tail L ++ c.head K))[k]? = some seg) =>
    hasTail_iff (parts_apart hLK) h
  constructor
  · constructor
    · rintro ⟨n, hn, seg, hget, hmem⟩
      exact ⟨seg, hget, (hseg seg hget).1.mpr ⟨n, hn, hmem⟩⟩
    · rintro ⟨seg, hget, h⟩
      obtain ⟨n, hn, hmem⟩ := (hseg seg hget).1.mp h
      exact ⟨n, hn, seg, hget, hmem⟩
  · constructor
    · rintro ⟨n, hn, seg, hget, hmem⟩
      exact ⟨seg, hget, (hseg seg hget).2.mpr ⟨n, hn, hmem⟩⟩
    · rintro ⟨seg, hget, h⟩
      obtain ⟨n, hn, hmem⟩ := (hseg seg hget).2.mp h
      exact ⟨n, hn, seg, hget, hmem⟩

theorem timely_tailHead_tail (hs : s ∈ relays c m) {L K : ℕ} (hLK : L ≠ K) (hstage : s.stage = .tail)
    (hlayer : s.layer = L) :
    Timely ((Call.tailHead L K : Call Dev).legs c m) (fun n => n ∈ past) s (Computes c s) (Reads c m s) ↔
      (∀ n, Reads c m s n → n ∉ past) ∧ TailOrder c m past s (c.tail L ++ c.head K) := by
  obtain ⟨n₀, hn₀⟩ := exists_reads hs
  have hproducer := ((reader_of_reads hn₀).tail hstage).2
  rw [call_legs_eq, callVisits, List.map_cons]
  refine timely_preTail (PartAt c m (c.tail L ++ c.head K) (c.tail L)) hs hstage hlayer
    (fused_nodup hLK) (fun n hn => List.mem_append_left _ hn) (fun k => ?_) (fun j k hjk hk => ?_)
    (fun k hk => ?_) fun n hn k hk => ⟨n, hlayer ▸ ((reader_of_reads hn).tail hstage).1, hk⟩
  · rw [(partAt_iff hLK).1]
    simp
  · obtain ⟨n, hn, hk⟩ := hk
    obtain ⟨seg, hseg⟩ := seg_before hjk (SegHas.seg hk)
    exact partAt_tail (parts_apart hLK) hn hk hjk ⟨seg, hseg, rfl⟩
  · refine ⟨_, (List.mem_append.mp hk.mem).resolve_right fun hhead => ?_, hk⟩
    rw [nlayer_eq_some.mpr (List.mem_filter.mp hhead).1, hlayer] at hproducer
    exact hLK (Option.some.inj hproducer).symm

/-- Where the fused list lets a copy for the head in and out. -/
theorem front_stops (hs : s ∈ relays c m) {L K : ℕ} (hLK : L ≠ K) (hstage : s.stage ≠ .tail)
    (hlayer : s.layer = K) {tail head : List (ℕ × ℕ) → Option ℕ}
    (htail : tail = fun seg => if hasTail (c.tail L).length seg then some L else none)
    (hhead : head = fun seg => if hasHead (c.tail L).length seg then some K else none) (k : ℕ) :
    ((∃ seg, (segments c m (c.tail L ++ c.head K))[k]? = some seg ∧
        (stretchAt c m (c.tail L ++ c.head K) tail head (some K) (c.tail L) k seg).Arrives c m s) ↔
        ComesIn c m s (c.tail L ++ c.head K) (c.head K) k) ∧
      ((∃ seg, (segments c m (c.tail L ++ c.head K))[k]? = some seg ∧
        (stretchAt c m (c.tail L ++ c.head K) tail head (some K) (c.tail L) k seg).Leaves c m s) ↔
        Leaves c m s L K k) := by
  obtain ⟨n₀, hn₀⟩ := exists_reads hs
  have hreader := reader_of_reads hn₀
  have hfront : s.stage = .layerFront := hreader.stages.resolve_left hstage
  subst htail hhead
  constructor
  · rw [arrives_iff, ComesIn, (partAt_iff hLK).2]
    simp [hfront, hlayer, hLK]
  · rw [leaves_iff hreader.own, Leaves, (partAt_iff hLK).1, (partAt_iff hLK).2, and_comm]
    by_cases htail : s.producer ∈ c.tail L <;> simp [hfront, hlayer, hLK, htail]

theorem timely_tailHead_front (hs : s ∈ relays c m) {L K : ℕ} (hLK : L ≠ K) (hstage : s.stage ≠ .tail)
    (hlayer : s.layer = K) :
    Timely ((Call.tailHead L K : Call Dev).legs c m) (fun n => n ∈ past) s (Computes c s) (Reads c m s) ↔
      (∀ n, Reads c m s n → n ∉ past) ∧ FrontOrder c m past s L K := by
  have hbefore : ¬ ((Visit.preTail L : Visit Dev).leg c m).before s = true := by
    simp [Visit.leg, Visit.Before, hstage]
  rw [call_legs_eq, callVisits, List.map_cons, timely_cons rfl (decide_eq_false id), if_neg hbefore,
    timely_stretches]
  exact inTime_iff_front hs hlayer hLK (fused_nodup hLK) (parts_apart hLK)
    (fun k => (front_stops hs hLK hstage hlayer rfl rfl k).1)
    fun k => (front_stops hs hLK hstage hlayer rfl rfl k).2

theorem graphStretch_arrives (hs : s ∈ relays c m) {L : ℕ} {next : Option ℕ} {D : Dev}
    (hpart : s.stage = .tail ∧ s.layer = L ∨ s.stage ≠ .tail ∧ next = some s.layer ∧ s.layer ≠ L) :
    ((graphStretch c L next D).Arrives c m s ↔
        s.dev = D ∧ (next = none ∨ s.producer ∉ c.tail L ++ nextNodes c next)) ∧
      ((graphStretch c L next D).Leaves c m s ↔ srcDev c m s = D) := by
  obtain ⟨n₀, hn₀⟩ := exists_reads hs
  have hreader := reader_of_reads hn₀
  unfold Stretch.Arrives Stretch.Leaves graphStretch
  simp only [madeBy_iff hreader.own]
  rcases hpart with ⟨hstage, hlayer⟩ | ⟨hstage, hnext, hlayer⟩
  · cases next <;> simp [hstage, hlayer]
  · have hfront : s.stage = .layerFront := hreader.stages.resolve_left hstage
    by_cases htail : s.producer ∈ c.tail L <;> simp [hfront, hnext, hlayer.symm, htail]

theorem timely_deviceGraph (hs : s ∈ relays c m) {L : ℕ} {next : Option ℕ} {D : Dev}
    (hpart : s.stage = .tail ∧ s.layer = L ∨ s.stage ≠ .tail ∧ next = some s.layer ∧ s.layer ≠ L) :
    Timely ((Call.deviceGraph L next D).legs c m) (fun n => n ∈ past) s (Computes c s) (Reads c m s) ↔
      (∀ n, Reads c m s n → n ∉ past) ∧ GraphOrder c m past s L next D := by
  obtain ⟨hcomes, hgoes⟩ := graphStretch_arrives hs hpart
  rw [call_legs_eq, callVisits, List.map_singleton]
  have hbefore : ((Visit.stretch (graphStretch c L next D)).leg c m).before s = true ↔
      s.dev = D ∧ (next = none ∨ s.producer ∉ c.tail L ++ nextNodes c next) :=
    decide_eq_true_iff.trans hcomes
  have hafter : ((Visit.stretch (graphStretch c L next D)).leg c m).after s = true ↔ srcDev c m s = D :=
    decide_eq_true_iff.trans hgoes
  have hruns : ∀ j n : ℕ, RunsIn [(Visit.stretch (graphStretch c L next D)).leg c m] j n ↔
      j = 0 ∧ n ∈ callNodes c (.deviceGraph L next D) := by
    intro j n
    cases j <;> simp [RunsIn, Visit.leg, Visit.nodes, graphStretch, callNodes]
  generalize (Visit.stretch (graphStretch c L next D)).leg c m = l at hbefore hafter hruns ⊢
  unfold GraphOrder
  constructor
  · rintro ⟨⟨l', hl', htakes⟩, hbehind, hahead⟩
    obtain rfl := List.mem_singleton.mp hl'
    refine ⟨fun n hn => (hahead n hn).1, ?_⟩
    split
    · rename_i hin
      intro hcaptured
      rcases (hbehind 0 l' rfl _ ⟨rfl, hcaptured⟩).1 (hbefore.mpr hin) with hpast | ⟨j, hj, _⟩
      · exact hpast
      · omega
    · rename_i hin
      have hout := (takes_iff.mp htakes).resolve_left fun h => hin (hbefore.mp h)
      refine ⟨hafter.mp hout, ?_, fun n hmem hn => ?_⟩
      · by_cases hmade : Made c past s
        · exact Or.inl hmade
        · obtain ⟨hcaptured, hpast⟩ := not_made hmade
          obtain ⟨j, _, hj⟩ := ((hbehind 0 l' rfl _ ⟨rfl, hcaptured⟩).2 hout).resolve_left hpast
          exact Or.inr ((hruns j _).mp hj).2
      · obtain ⟨k, l₁, hl₁, hside⟩ := (hahead n hn).2 0 ((hruns 0 n).mpr ⟨rfl, hmem⟩)
        obtain rfl := List.mem_singleton.mp (List.mem_of_getElem? hl₁)
        rcases hside with ⟨_, h⟩ | ⟨hlt, _⟩
        · exact hin (hbefore.mp h)
        · omega
  · rintro ⟨hpast, horder⟩
    split at horder
    · rename_i hin
      refine ⟨⟨l, List.mem_singleton_self l, takes_iff.mpr (Or.inl (hbefore.mpr hin))⟩, fun k l' _ n hn => ?_,
        fun n hn => ⟨hpast n hn, fun j _ => ⟨0, l, rfl, Or.inl ⟨Nat.zero_le j, hbefore.mpr hin⟩⟩⟩⟩
      obtain ⟨rfl, hcaptured⟩ := hn
      exact ⟨fun _ => Or.inl (horder hcaptured), fun _ => Or.inl (horder hcaptured)⟩
    · rename_i hin
      obtain ⟨hout, hmade, hreaders⟩ := horder
      refine ⟨⟨l, List.mem_singleton_self l, takes_iff.mpr (Or.inr (hafter.mpr hout))⟩, fun k l' hl' n hn => ?_,
        fun n hn => ⟨hpast n hn, fun j hj => absurd hn (hreaders n ((hruns j n).mp hj).2)⟩⟩
      obtain rfl := List.mem_singleton.mp (List.mem_of_getElem? hl')
      obtain ⟨rfl, hcaptured⟩ := hn
      refine ⟨fun h => absurd (hbefore.mp h) hin, fun _ => ?_⟩
      rcases hmade with hmade | hmem
      · exact Or.inl (hmade hcaptured)
      · exact Or.inr ⟨0, Nat.zero_le k, (hruns 0 _).mpr ⟨rfl, hmem⟩⟩

end calls

end segments

section runs

variable {c m} {layers : List ℕ} {run : List (Call Dev)}

theorem legs_callNodes (call : Call Dev) : (call.legs c m).flatMap Leg.nodes = callNodes c call := by
  cases call <;> simp [Call.legs, callNodes, topoSegmentExecute_nodes, preTail, closureLeg, graphLeg]

theorem past_eq (i : ℕ) :
    past (Call.legs c m) run i = fun n => n ∈ (run.take i).flatMap (callNodes c) := by
  funext n
  refine propext ⟨?_, fun h => ?_⟩
  · rintro ⟨j, hj, call, k, hcall, l, hl, hn⟩
    refine List.mem_flatMap.mpr ⟨call, List.mem_of_getElem? (i := j) ?_, ?_⟩
    · rw [List.getElem?_take, if_pos hj, hcall]
    · rw [← legs_callNodes (m := m)]
      exact List.mem_flatMap.mpr ⟨l, List.mem_of_getElem? hl, hn⟩
  · obtain ⟨call, hcall, hn⟩ := List.mem_flatMap.mp h
    obtain ⟨j, hj⟩ := List.mem_iff_getElem?.mp hcall
    rw [List.getElem?_take] at hj
    split at hj
    · rename_i hlt
      rw [← legs_callNodes (m := m)] at hn
      obtain ⟨l, hl, hn⟩ := List.mem_flatMap.mp hn
      obtain ⟨k, hk⟩ := List.mem_iff_getElem?.mp hl
      exact ⟨j, hlt, call, k, hj, l, hk, hn⟩
    · cases hj

omit [DecidableEq Dev] in
/-- A call takes the tail of one layer and the head of another. -/
theorem parts_ne (hlayers : layers.Nodup) (hsteps : run.flatMap Call.steps = layerSteps layers) {i L K : ℕ}
    {call : Call Dev} (hi : run[i]? = some call) (htail : Step.tail L ∈ call.steps)
    (hhead : Step.head K ∈ call.steps) : L ≠ K := by
  rintro rfl
  exact Nat.lt_irrefl i (head_before_tail hlayers hsteps hi hi hhead htail)

/-- The legs of a call copy in time exactly if its devices are arranged for it. -/
theorem timely_call (hlayers : layers.Nodup) (hsteps : run.flatMap Call.steps = layerSteps layers)
    {s : Shell Dev} (hs : s ∈ relays c m) {i : ℕ} {call : Call Dev} (hi : run[i]? = some call)
    (past : List ℕ) :
    Timely (call.legs c m) (fun n => n ∈ past) s (Computes c s) (Reads c m s) ↔
      Arranged c m past s call := by
  have hserved : Timely (call.legs c m) (fun n => n ∈ past) s (Computes c s) (Reads c m s) →
      servedStep s ∈ call.steps := by
    rintro ⟨⟨l, hl, htakes⟩, _, _⟩
    exact servedStep_mem hl htakes
  have hpast : (∀ n ∈ past, ¬ Reads c m s n) ↔ ∀ n, Reads c m s n → n ∉ past :=
    ⟨fun h n hn hmem => h n hmem hn, fun h n hmem hn => h n hn hmem⟩
  unfold Arranged
  rw [← and_iff_right_of_imp hserved, hpast]
  refine and_congr_right fun hstep => ?_
  have hparts : (s.stage = .tail ∧ Step.tail s.layer ∈ call.steps) ∨
      (s.stage ≠ .tail ∧ Step.head s.layer ∈ call.steps) := by
    by_cases hstage : s.stage = .tail
    · exact Or.inl ⟨hstage, servedStep_tail hstage ▸ hstep⟩
    · exact Or.inr ⟨hstage, servedStep_head hstage ▸ hstep⟩
  cases call with
  | head L =>
    obtain ⟨_, h⟩ | ⟨hstage, h⟩ := hparts
    · simp [Call.steps] at h
    · exact timely_head hs hstage (by simpa [Call.steps] using h)
  | closure L => simp [Call.steps] at hparts
  | tail L =>
    obtain ⟨hstage, h⟩ | ⟨_, h⟩ := hparts
    · exact timely_tail hs hstage (by simpa [Call.steps] using h)
    · simp [Call.steps] at h
  | tailHead L K =>
    have hLK : L ≠ K := parts_ne hlayers hsteps hi (by simp [Call.steps]) (by simp [Call.steps])
    obtain ⟨hstage, h⟩ | ⟨hstage, h⟩ := hparts
    · simp only [if_pos hstage]
      exact timely_tailHead_tail hs hLK hstage (by simpa [Call.steps] using h)
    · simp only [if_neg hstage]
      exact timely_tailHead_front hs hLK hstage (by simpa [Call.steps] using h)
  | deviceGraph L next D =>
    refine timely_deviceGraph hs ?_
    obtain ⟨hstage, h⟩ | ⟨hstage, h⟩ := hparts
    · refine Or.inl ⟨hstage, ?_⟩
      cases next <;> simpa [Call.steps] using h
    · refine Or.inr ⟨hstage, ?_, (parts_ne hlayers hsteps hi (by simp [Call.steps]) h).symm⟩
      cases next with
      | none => simp [Call.steps] at h
      | some K => simpa [Call.steps, eq_comm] using h

/-- In a run that goes through the layers part by part a copy is made once, behind its original and ahead
of its readers, exactly if the call of its part has the devices arranged for it. -/
theorem relay_inOrder_iff (c : Capture) (m : Placement Dev) (layers : List ℕ) (hlayers : layers.Nodup)
    (run : List (Call Dev)) (hsteps : run.flatMap Call.steps = layerSteps layers)
    (i : Fin (relays c m).length) :
    CopiedInOrder (runEvents c m run) i (Computes c ((relays c m).get i)) (Reads c m ((relays c m).get i)) ↔
      ∃ (past : List (Call Dev)) (call : Call Dev) (later : List (Call Dev)), run = past ++ call :: later ∧
        Arranged c m (past.flatMap (callNodes c)) ((relays c m).get i) call := by
  have hone : ∀ (j k : ℕ) (a b : Call Dev), run[j]? = some a → run[k]? = some b →
      (∃ l ∈ a.legs c m, l.takes ((relays c m).get i) = true) →
      (∃ l ∈ b.legs c m, l.takes ((relays c m).get i) = true) → j = k := by
    rintro j k a b hj hk ⟨l, hl, htakes⟩ ⟨l', hl', htakes'⟩
    exact step_index hlayers hsteps hj hk (servedStep_mem hl htakes) (servedStep_mem hl' htakes')
  rw [runEvents, copiedInOrder_iff_inTurn (List.nodup_finRange _) (List.mem_finRange i), inTurn_comap,
    inTurn_iff_timely, legs, timely_flatMap hone]
  simp only [past_eq]
  constructor
  · rintro ⟨k, call, hk, htimely⟩
    refine ⟨run.take k, call, run.drop (k + 1), ?_,
      (timely_call hlayers hsteps (List.get_mem _ i) hk _).mp htimely⟩
    obtain ⟨hlt, rfl⟩ := List.getElem?_eq_some_iff.mp hk
    rw [List.getElem_cons_drop, List.take_append_drop]
  · rintro ⟨past, call, later, rfl, harranged⟩
    have hk : (past ++ call :: later)[past.length]? = some call := by simp
    refine ⟨past.length, call, hk, ?_⟩
    have htake : (past ++ call :: later).take past.length = past := List.take_left
    simp only [htake]
    exact (timely_call hlayers hsteps (List.get_mem _ i) hk _).mpr harranged

end runs

section spread

/-- A layer with a closure and the head of the next one; both heads read the positions. -/
def positionGraph : Graph :=
  Graph.ofList
    [{ nbytes := 64, name := "inp_embd" },
      { nbytes := 64, name := "inp_pos" },
      { op := .other 1, src := [some 0, some 1], nbytes := 64, name := "Qcur-0" },
      { op := .mulMatId, src := [none, some 2], nbytes := 64, name := "ffn_moe_down-0" },
      { op := .add, src := [some 3], nbytes := 64, name := "ffn_moe_out-0" },
      { op := .add, src := [some 4, some 2], nbytes := 64, name := "l_out-0" },
      { op := .other 1, src := [some 5, some 1], nbytes := 64, name := "Qcur-1" }]
    [2, 3, 4, 5, 6] (by decide) (by decide)

def positionCapture : Capture where
  graph := positionGraph
  official _ := none
  exec := [(0, [3, 4])]
  exec_sorted := List.pairwise_singleton _ _
  exec_nodes := by decide

def positionRun : List (Call ℕ) := [.head 0, .closure 0, .tailHead 0 1, .closure 1, .tail 1]

/-- Layer 0 on device 1, but for its closure, and the head of layer 1 on device 2. -/
def spread : Placement ℕ where
  physical p := if p = 6 then 2 else 1
  leafDev _ := none
  host := 0
  closureDev := 0
  exportRetained := []
  compactPack := true

/-- All five copies are made in order: the inputs' ahead of the head, the closure's ahead of the tail, what
the tail makes for the next head behind it, and the positions ahead of that head. -/
theorem relay_inOrder_spread :
    [0, 1].Nodup ∧ positionRun.flatMap Call.steps = layerSteps [0, 1] ∧
      relays positionCapture spread = [⟨0, 1, .layerFront, 0⟩, ⟨1, 1, .layerFront, 0⟩, ⟨4, 1, .tail, 0⟩,
        ⟨5, 2, .layerFront, 1⟩, ⟨1, 2, .layerFront, 1⟩] ∧
      ∀ i, CopiedInOrder (runEvents positionCapture spread positionRun) i
        (Computes positionCapture ((relays positionCapture spread).get i))
        (Reads positionCapture spread ((relays positionCapture spread).get i)) := by
  have hrelays : relays positionCapture spread = [⟨0, 1, .layerFront, 0⟩, ⟨1, 1, .layerFront, 0⟩,
      ⟨4, 1, .tail, 0⟩, ⟨5, 2, .layerFront, 1⟩, ⟨1, 2, .layerFront, 1⟩] := by decide
  refine ⟨by decide, by decide, hrelays, fun i => ?_⟩
  refine (relay_inOrder_iff positionCapture spread [0, 1] (by decide) positionRun (by decide) i).mpr ?_
  have hmem := List.get_mem (relays positionCapture spread) i
  generalize (relays positionCapture spread).get i = s at hmem ⊢
  rw [hrelays] at hmem
  simp only [List.mem_cons, List.not_mem_nil, or_false] at hmem
  rcases hmem with rfl | rfl | rfl | rfl | rfl
  · refine ⟨[], .head 0, _, rfl, by decide, by decide, ⟨0, ?_⟩, ?_⟩
    · decide
    · exact Or.inl fun h => absurd h (by decide)
  · refine ⟨[], .head 0, _, rfl, by decide, by decide, ⟨0, ?_⟩, ?_⟩
    · decide
    · exact Or.inl fun h => absurd h (by decide)
  · refine ⟨[.head 0, .closure 0], .tailHead 0 1, _, rfl, by decide, by decide, ?_⟩
    exact fun _ => by decide
  · refine ⟨[.head 0, .closure 0], .tailHead 0 1, _, rfl, by decide, by decide, ?_⟩
    refine Or.inr fun k hk j hj => ?_
    have hfirst : k = 0 := hk.unique (fused_nodup (by decide)) (by decide)
    omega
  · refine ⟨[.head 0, .closure 0], .tailHead 0 1, _, rfl, by decide, by decide, ?_⟩
    have hcomes : ComesIn positionCapture spread ⟨1, 2, .layerFront, 1⟩
        (positionCapture.tail 0 ++ positionCapture.head 1) (positionCapture.head 1) 1 :=
      ⟨⟨6, by decide, by decide⟩, by decide, by decide⟩
    refine ⟨fun h => absurd h (by decide), ⟨1, Or.inl hcomes⟩, fun n hn _ j hj => ⟨1, Or.inl ⟨?_, hcomes⟩⟩⟩
    have hhead : n = 6 := List.mem_singleton.mp hn
    subst hhead
    have hlast : j = 1 := hj.unique (fused_nodup (by decide)) (by decide)
    omega

end spread

section alternating

/-- Four nodes of one layer, each reading the one before. -/
def chainGraph : Graph :=
  Graph.ofList
    [{ name := "inp_embd" },
      { op := .other 1, src := [some 0], nbytes := 64, name := "attn_norm-0" },
      { op := .other 1, src := [some 1], nbytes := 64, name := "Qcur-0" },
      { op := .other 1, src := [some 2], nbytes := 64, name := "kqv_out-0" },
      { op := .other 1, src := [some 3], nbytes := 64, name := "l_out-0" }]
    [1, 2, 3, 4] (by decide) (by decide)

/-- The nodes alternate between devices 1 and 2; the input is on device 1. -/
def alternating : Placement ℕ where
  physical p := if p % 2 = 1 then 1 else 2
  leafDev _ := some 1
  host := 0
  closureDev := 0
  exportRetained := []
  compactPack := true

abbrev chainCapture : Capture := denseCapture chainGraph

def chainRun : List (Call ℕ) := layerCalls (fun _ => .nothing) (fun _ => 1) [0]

def thirdCopy : Fin (relays chainCapture alternating).length := ⟨2, by decide⟩

/-- The first segment takes all three copies: that of the second node before it, those of the first
and the third behind it. -/
theorem chain_copied_early :
    (relays chainCapture alternating).map Shell.producer = [1, 2, 3] ∧
      (runEvents chainCapture alternating chainRun).map (fun e => (e.copied.map Fin.val, e.nodes)) =
        [([1], []), ([], [1]), ([0, 2], []), ([], []), ([], [2]), ([], []), ([], []), ([], [3]), ([], []),
          ([], []), ([], [4]), ([], []), ([], []), ([], []), ([], []), ([], []), ([], []), ([], [])] ∧
      ¬ ∀ i, CopiedInOrder (runEvents chainCapture alternating chainRun) i
        (Computes chainCapture ((relays chainCapture alternating).get i))
        (Reads chainCapture alternating ((relays chainCapture alternating).get i)) := by
  refine ⟨by decide, by decide, fun hall => ?_⟩
  have hcopied : CopiedAt (runEvents chainCapture alternating chainRun) 2 thirdCopy := by decide
  have hlate : ∀ k < 2, ¬ RanAt (runEvents chainCapture alternating chainRun) k 3 := by decide
  obtain ⟨k, hk, hran⟩ := (hall thirdCopy).after 2 hcopied 3 ⟨by decide, by decide⟩
  exact hlate k hk hran

end alternating

end RelayOrder
end StreamMoE
