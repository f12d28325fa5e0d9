import StreamMoE.CopyMemory
import StreamMoE.RelayOrder

/-! When the copies of a head are made by a call that takes the head along with the tail before it, and
when by the head alone. -/
namespace StreamMoE
namespace StopTurns

open ComputeGraph LayerPlan LayerPlan.Capture ArenaLayout LayerOrder OfferSchedule RelayRun RelaySteps
  RelayVisits RelayOrder CopyMemory

variable {Dev : Type*} [DecidableEq Dev] (c : Capture) (m : Placement Dev)

section turns

/-- A stop for the copy ahead of the `j`-th one's nodes. -/
def Ahead (vs : List (Visit Dev)) (s : Shell Dev) (j : ℕ) : Prop :=
  ∃ (k : ℕ) (v : Visit Dev), vs[k]? = some v ∧ (k ≤ j ∧ v.Before c m s ∨ k < j ∧ v.After c m s)

def computes (p : ℕ) : Bool := !isAliasOp (c.graph.op p)

def computing (nodes : List ℕ) : List ℕ := nodes.filter (computes c)

/-- How many nodes have run at the first stop for the copy. -/
def firstStop (s : Shell Dev) : List (Visit Dev) → Option ℕ
  | [] => none
  | v :: vs =>
      if v.Before c m s then some 0
      else if v.After c m s then some (computing c (v.nodes c)).length
      else (firstStop s vs).map ((computing c (v.nodes c)).length + ·)

variable {c m}

theorem computing_append (l l' : List ℕ) : computing c (l ++ l') = computing c l ++ computing c l' :=
  List.filter_append l l'

theorem mem_computing {n : ℕ} {l : List ℕ} : n ∈ computing c l ↔ n ∈ l ∧ computes c n = true :=
  List.mem_filter

theorem servedStep_of_visit {call : Call Dev} {v : Visit Dev} (hv : v ∈ callVisits c m call) {s : Shell Dev}
    (h : v.Before c m s ∨ v.After c m s) : servedStep s ∈ call.steps := by
  refine servedStep_mem (c := c) (m := m) (l := v.leg c m) ?_ ?_
  · rw [call_legs_eq]
    exact List.mem_map.mpr ⟨v, hv, rfl⟩
  · exact takes_iff.mpr (h.imp decide_eq_true decide_eq_true)

theorem firstStop_skip {s : Shell Dev} {us vs : List (Visit Dev)}
    (h : ∀ u ∈ us, ¬ (u.Before c m s ∨ u.After c m s)) :
    firstStop c m s (us ++ vs) =
      (firstStop c m s vs).map ((computing c (us.flatMap (Visit.nodes c))).length + ·) := by
  induction us with
  | nil => simp [computing]
  | cons u us ih =>
    obtain ⟨hbefore, hafter⟩ := not_or.mp (h u (List.mem_cons_self ..))
    rw [List.cons_append, firstStop, if_neg hbefore, if_neg hafter,
      ih fun v hv => h v (List.mem_cons_of_mem _ hv), Option.map_map, List.flatMap_cons, computing_append,
      List.length_append]
    exact congrArg (fun f => (firstStop c m s vs).map f) (funext fun k => (Nat.add_assoc _ _ k).symm)

theorem firstStop_eq_none {s : Shell Dev} {vs : List (Visit Dev)}
    (h : ∀ v ∈ vs, ¬ (v.Before c m s ∨ v.After c m s)) : firstStop c m s vs = none := by
  rw [← List.append_nil vs, firstStop_skip h]
  rfl

/-- Behind the last node every copy with a stop has been made. -/
theorem behind_end (s : Shell Dev) (vs : List (Visit Dev)) :
    Behind (firstStop c m s vs) (computing c (vs.flatMap (Visit.nodes c))).length ↔
      ∃ v ∈ vs, v.Before c m s ∨ v.After c m s := by
  induction vs with
  | nil => simp [firstStop]
  | cons v vs ih =>
    rw [firstStop, List.flatMap_cons, computing_append, List.length_append]
    by_cases hbefore : v.Before c m s
    · simp [hbefore]
    · by_cases hafter : v.After c m s
      · simp [hbefore, hafter]
      · rw [if_neg hbefore, if_neg hafter, behind_map, Nat.add_sub_cancel_left, ih]
        simp [hbefore, hafter]

/-- At a node of the `y`-th stop the copy is there exactly if a stop for it is ahead. -/
theorem behind_iff_ahead {s : Shell Dev} {vs : List (Visit Dev)}
    (hnodup : (computing c (vs.flatMap (Visit.nodes c))).Nodup) {i y n : ℕ} {v : Visit Dev}
    (hi : (computing c (vs.flatMap (Visit.nodes c)))[i]? = some n) (hv : vs[y]? = some v)
    (hn : n ∈ v.nodes c) : Behind (firstStop c m s vs) i ↔ Ahead c m vs s y := by
  have hcomputes : computes c n = true := (mem_computing.mp (List.mem_of_getElem? hi)).2
  induction vs generalizing i y with
  | nil => cases hv
  | cons u vs ih =>
    rw [List.flatMap_cons, computing_append] at hnodup hi
    obtain ⟨_, hrest, hapart⟩ := List.nodup_append.mp hnodup
    have hsplit : Ahead c m (u :: vs) s y ↔ u.Before c m s ∨ 0 < y ∧ (u.After c m s ∨ Ahead c m vs s (y - 1)) := by
      constructor
      · rintro ⟨k, v', hv', hside⟩
        cases k with
        | zero =>
          cases hv'
          exact hside.imp And.right fun ⟨hk, h⟩ => ⟨hk, Or.inl h⟩
        | succ k =>
          refine Or.inr ⟨by omega, Or.inr ⟨k, v', hv', ?_⟩⟩
          exact hside.imp (fun ⟨hk, h⟩ => ⟨by omega, h⟩) fun ⟨hk, h⟩ => ⟨by omega, h⟩
      · rintro (h | ⟨hy, h | ⟨k, v', hv', hside⟩⟩)
        · exact ⟨0, u, rfl, Or.inl ⟨Nat.zero_le y, h⟩⟩
        · exact ⟨0, u, rfl, Or.inr ⟨hy, h⟩⟩
        · exact ⟨k + 1, v', hv', hside.imp (fun ⟨hk, h⟩ => ⟨by omega, h⟩) fun ⟨hk, h⟩ => ⟨by omega, h⟩⟩
    rw [hsplit, firstStop]
    by_cases hbefore : u.Before c m s
    · simp [hbefore]
    · cases y with
      | zero =>
        -- the node is one of the first stop's
        obtain rfl : u = v := Option.some.inj hv
        have hmem : n ∈ computing c (u.nodes c) := mem_computing.mpr ⟨hn, hcomputes⟩
        have hlt : i < (computing c (u.nodes c)).length := by
          by_contra hle
          rw [List.getElem?_append_right (Nat.le_of_not_lt hle)] at hi
          exact hapart n hmem n (List.mem_of_getElem? hi) rfl
        rw [if_neg hbefore]
        by_cases hafter : u.After c m s
        · simp [hbefore, hafter, hlt]
        · rw [if_neg hafter, behind_map]
          exact iff_of_false (fun h => absurd hlt (Nat.not_lt.mpr h.1)) fun h =>
            h.elim hbefore fun h => absurd h.1 (Nat.lt_irrefl 0)
      | succ y =>
        have hmem : n ∈ computing c (vs.flatMap (Visit.nodes c)) :=
          mem_computing.mpr ⟨List.mem_flatMap.mpr ⟨v, List.mem_of_getElem? hv, hn⟩, hcomputes⟩
        have hle : (computing c (u.nodes c)).length ≤ i := by
          by_contra hlt
          rw [List.getElem?_append_left (Nat.lt_of_not_le hlt)] at hi
          exact hapart n (List.mem_of_getElem? hi) n hmem rfl
        rw [List.getElem?_append_right hle] at hi
        have hih : Behind (firstStop c m s vs) (i - (computing c (u.nodes c)).length) ↔ Ahead c m vs s y :=
          ih hrest hi hv
        rw [if_neg hbefore]
        by_cases hafter : u.After c m s
        · simp [hbefore, hafter, hle]
        · rw [if_neg hafter, behind_map, hih]
          simp [hbefore, hafter, hle]

end turns

section lists

variable {c m} {list : List ℕ} {tail head : List (ℕ × ℕ) → Option ℕ} {onward : Option ℕ}
  {carried : List ℕ} {s : Shell Dev}

theorem getElem?_stretches {j : ℕ} {v : Visit Dev} :
    ((stretches c m list tail head onward carried).map Visit.stretch)[j]? = some v ↔
      ∃ seg, (segments c m list)[j]? = some seg ∧
        v = .stretch (stretchAt c m list tail head onward carried j seg) := by
  rw [List.getElem?_map, stretches, List.getElem?_mapIdx, Option.map_map, Option.map_eq_some_iff]
  constructor
  · rintro ⟨seg, h, rfl⟩
    exact ⟨seg, h, rfl⟩
  · rintro ⟨seg, h, rfl⟩
    exact ⟨seg, h, rfl⟩

theorem stretches_nodes :
    ((stretches c m list tail head onward carried).map Visit.stretch).flatMap (Visit.nodes c) = list := by
  have hsegs : ((stretches c m list tail head onward carried).map Visit.stretch).map (Visit.nodes c) =
      (segments c m list).map fun seg => seg.map Prod.fst := by
    refine List.ext_getElem? fun k => ?_
    rw [stretches, List.map_map, List.getElem?_map, List.getElem?_mapIdx, List.getElem?_map, Option.map_map]
    rfl
  rw [List.flatMap_def, hsegs, ← List.map_flatten, segments_flatten, List.zipIdx_map_fst]

theorem ahead_stretches {j : ℕ} :
    Ahead c m ((stretches c m list tail head onward carried).map Visit.stretch) s j ↔
      ∃ k, k ≤ j ∧ (∃ seg, (segments c m list)[k]? = some seg ∧
          (stretchAt c m list tail head onward carried k seg).Arrives c m s) ∨
        k < j ∧ ∃ seg, (segments c m list)[k]? = some seg ∧
          (stretchAt c m list tail head onward carried k seg).Leaves c m s := by
  constructor
  · rintro ⟨k, v, hv, hside⟩
    obtain ⟨seg, hseg, rfl⟩ := getElem?_stretches.mp hv
    exact ⟨k, hside.imp (fun ⟨hk, h⟩ => ⟨hk, seg, hseg, h⟩) fun ⟨hk, h⟩ => ⟨hk, seg, hseg, h⟩⟩
  · rintro ⟨k, ⟨hk, seg, hseg, h⟩ | ⟨hk, seg, hseg, h⟩⟩
    · exact ⟨k, _, getElem?_stretches.mpr ⟨seg, hseg, rfl⟩, Or.inl ⟨hk, h⟩⟩
    · exact ⟨k, _, getElem?_stretches.mpr ⟨seg, hseg, rfl⟩, Or.inr ⟨hk, h⟩⟩

theorem behind_stretches (comes goes : ℕ → Prop) (hlist : list.Nodup)
    (hcomes : ∀ k, (∃ seg, (segments c m list)[k]? = some seg ∧
      (stretchAt c m list tail head onward carried k seg).Arrives c m s) ↔ comes k)
    (hgoes : ∀ k, (∃ seg, (segments c m list)[k]? = some seg ∧
      (stretchAt c m list tail head onward carried k seg).Leaves c m s) ↔ goes k) {i n : ℕ}
    (hi : (computing c list)[i]? = some n) :
    Behind (firstStop c m s ((stretches c m list tail head onward carried).map Visit.stretch)) i ↔
      ∃ j, SegHas c m list j n ∧ ∃ k, k ≤ j ∧ comes k ∨ k < j ∧ goes k := by
  have hmem := (mem_computing.mp (List.mem_of_getElem? hi)).1
  have hahead : ∀ j, SegHas c m list j n →
      (Behind (firstStop c m s ((stretches c m list tail head onward carried).map Visit.stretch)) i ↔
        ∃ k, k ≤ j ∧ comes k ∨ k < j ∧ goes k) := by
    rintro j ⟨seg, hseg, hn⟩
    rw [behind_iff_ahead (n := n) (y := j) (v := .stretch (stretchAt c m list tail head onward carried j seg))
      (by rw [stretches_nodes]; exact hlist.filter _) (by rw [stretches_nodes]; exact hi)
      (getElem?_stretches.mpr ⟨seg, hseg, rfl⟩) hn, ahead_stretches]
    simp only [hcomes, hgoes]
  constructor
  · intro h
    obtain ⟨j, hj⟩ := exists_segHas (c := c) (m := m) hmem
    exact ⟨j, hj, (hahead j hj).mp h⟩
  · rintro ⟨j, hj, h⟩
    exact (hahead j hj).mpr h

theorem behind_stretches_end {comes goes : ℕ → Prop}
    (hcomes : ∀ k, (∃ seg, (segments c m list)[k]? = some seg ∧
      (stretchAt c m list tail head onward carried k seg).Arrives c m s) ↔ comes k)
    (hgoes : ∀ k, (∃ seg, (segments c m list)[k]? = some seg ∧
      (stretchAt c m list tail head onward carried k seg).Leaves c m s) ↔ goes k) :
    Behind (firstStop c m s ((stretches c m list tail head onward carried).map Visit.stretch))
        (computing c list).length ↔ ∃ k, comes k ∨ goes k := by
  have hend := behind_end (c := c) (m := m) s ((stretches c m list tail head onward carried).map Visit.stretch)
  rw [stretches_nodes] at hend
  rw [hend, stretches_take]
  simp only [hcomes, hgoes]

end lists

section spec

/-- The storage of the tensors, and the copies. -/
def wiring : Wiring ℕ ℕ (Shell Dev) where
  writes := c.graph.root
  source s := c.graph.root s.producer
  reads n := (operands c m n).map fun o =>
    match o with
    | .tensor p => .inl (c.graph.root p)
    | .shell s => .inr s

variable (s : Shell Dev)

/-- The list of the tail and the next head makes the copy ahead of the node. -/
def FusedAhead (L K n : ℕ) : Prop :=
  ∃ j, SegHas c m (c.tail L ++ c.head K) j n ∧
    ∃ k, k ≤ j ∧ ComesIn c m s (c.tail L ++ c.head K) (c.head K) k ∨ k < j ∧ Leaves c m s L K k

/-- The head makes it ahead of the node: a segment of its device has come, or one of the original's has
gone. -/
def HeadAhead (K n : ℕ) : Prop :=
  ∃ j, SegHas c m (c.head K) j n ∧
    ∃ k, k ≤ j ∧ SegOn c m (c.head K) k s.dev ∨ k < j ∧ SegOn c m (c.head K) k (srcDev c m s)

/-- A copy for the head of `K` that a call with the tail of `L` makes ahead of the closure (`early`), ahead
of the nodes `ahead` of the two parts, or at all (`made`). It serves as the copy the head alone makes if
the head's readers find it, those of the closure do not, later ones find it if the head makes one, and no
node that writes the original is between the two. -/
def ServesAlike (L K : ℕ) (later : List ℕ) (early : Prop) (ahead : ℕ → Prop) (made : Prop) : Prop :=
  let unmoved : Prop :=
    (∀ n ∈ computing c (c.compute L), c.graph.root n = c.graph.root s.producer → ¬ early) ∧
      ∀ n ∈ computing c (c.tail L ++ c.head K), c.graph.root n = c.graph.root s.producer →
        (ahead n ↔ HeadAhead c m s K n)
  (∀ n ∈ computing c (c.compute L), Reads c m s n → ¬ early) ∧
    (∀ n ∈ computing c (c.head K), Reads c m s n → ahead n ∧ unmoved) ∧
    ∀ n ∈ computing c later, Reads c m s n →
      (made ↔ ∃ k, SegOn c m (c.head K) k s.dev ∨ SegOn c m (c.head K) k (srcDev c m s)) ∧ (made → unmoved)

section decidable

variable {c m s} {list part : List ℕ} {L K k n : ℕ} {d : Dev}

theorem segOn_lt (h : SegOn c m list k d) : k < (segments c m list).length :=
  (List.getElem?_eq_some_iff.mp h.choose_spec.1).1

theorem segHas_lt_length (h : SegHas c m list k n) : k < (segments c m list).length := segOn_lt h.segOn

instance : Decidable (PartAt c m list part k) := by
  unfold PartAt
  infer_instance

instance : Decidable (ComesIn c m s list part k) := by
  unfold ComesIn
  infer_instance

instance : Decidable (Leaves c m s L K k) := by
  unfold Leaves
  infer_instance

instance : Decidable (FusedAhead c m s L K n) :=
  decidable_of_iff (∃ j < (segments c m (c.tail L ++ c.head K)).length, SegHas c m (c.tail L ++ c.head K) j n ∧
    ∃ k < (segments c m (c.tail L ++ c.head K)).length,
      k ≤ j ∧ ComesIn c m s (c.tail L ++ c.head K) (c.head K) k ∨ k < j ∧ Leaves c m s L K k) (by
    constructor
    · exact fun ⟨j, _, hj, k, _, h⟩ => ⟨j, hj, k, h⟩
    · rintro ⟨j, hj, k, h⟩
      exact ⟨j, segHas_lt_length hj, hj, k, h.elim (fun h => segOn_lt h.2.2.1) fun h => segOn_lt h.2.1, h⟩)

instance : Decidable (HeadAhead c m s K n) :=
  decidable_of_iff (∃ j < (segments c m (c.head K)).length, SegHas c m (c.head K) j n ∧
    ∃ k < (segments c m (c.head K)).length,
      k ≤ j ∧ SegOn c m (c.head K) k s.dev ∨ k < j ∧ SegOn c m (c.head K) k (srcDev c m s)) (by
    constructor
    · exact fun ⟨j, _, hj, k, _, h⟩ => ⟨j, hj, k, h⟩
    · rintro ⟨j, hj, k, h⟩
      exact ⟨j, segHas_lt_length hj, hj, k, h.elim (fun h => segOn_lt h.2) fun h => segOn_lt h.2, h⟩)

instance : Decidable (∃ k, ComesIn c m s (c.tail L ++ c.head K) (c.head K) k ∨ Leaves c m s L K k) :=
  decidable_of_iff (∃ k < (segments c m (c.tail L ++ c.head K)).length,
    ComesIn c m s (c.tail L ++ c.head K) (c.head K) k ∨ Leaves c m s L K k) (by
    constructor
    · exact fun ⟨k, _, h⟩ => ⟨k, h⟩
    · exact fun ⟨k, h⟩ => ⟨k, h.elim (fun h => segOn_lt h.2.1) fun h => segOn_lt h.1, h⟩)

instance {e : Dev} : Decidable (∃ k, SegOn c m list k d ∨ SegOn c m list k e) :=
  decidable_of_iff (∃ k < (segments c m list).length, SegOn c m list k d ∨ SegOn c m list k e) (by
    constructor
    · exact fun ⟨k, _, h⟩ => ⟨k, h⟩
    · exact fun ⟨k, h⟩ => ⟨k, h.elim segOn_lt segOn_lt, h⟩)

instance {later : List ℕ} {early made : Prop} {ahead : ℕ → Prop} [Decidable early] [DecidablePred ahead]
    [Decidable made] : Decidable (ServesAlike c m s L K later early ahead made) := by
  unfold ServesAlike
  infer_instance

end decidable

end spec

section front

variable {c m} {s : Shell Dev} {L K : ℕ}

theorem mem_wiring_reads {n : ℕ} : Sum.inr s ∈ (wiring c m).reads n ↔ Reads c m s n := by
  unfold wiring Reads
  constructor
  · intro h
    obtain ⟨o, ho, heq⟩ := List.mem_map.mp h
    cases o with
    | tensor p => cases heq
    | shell s' =>
      obtain rfl : s' = s := Sum.inr.inj heq
      exact ho
  · exact fun h => List.mem_map.mpr ⟨.shell s, h, rfl⟩

/-- What the head alone makes, from its own beginning on. -/
theorem behind_head (hs : s ∈ relays c m) (hstage : s.stage ≠ .tail) (hlayer : s.layer = K) {i n : ℕ}
    (hi : (computing c (c.head K))[i]? = some n) :
    Behind (firstStop c m s (callVisits c m (.head K))) i ↔ HeadAhead c m s K n := by
  have hstops := head_stops hs hstage hlayer rfl
  rw [callVisits, behind_stretches _ _ (part_nodup K).1 (fun k => (hstops k).1) (fun k => (hstops k).2) hi]
  unfold HeadAhead
  refine exists_congr fun j => and_congr_right fun _ => ⟨?_, ?_⟩
  · rintro ⟨k, ⟨hk, hon, _⟩ | ⟨hk, hon⟩⟩
    · exact ⟨k, Or.inl ⟨hk, hon⟩⟩
    · exact ⟨k, Or.inr ⟨hk, hon⟩⟩
  · rintro ⟨k, ⟨hk, hon⟩ | ⟨hk, hon⟩⟩
    · by_cases hseen : ∃ i < k, SegOn c m (c.head K) i (srcDev c m s)
      · obtain ⟨i, hik, hi⟩ := hseen
        exact ⟨i, Or.inr ⟨by omega, hi⟩⟩
      · exact ⟨k, Or.inl ⟨hk, hon, fun i hik hi => hseen ⟨i, hik, hi⟩⟩⟩
    · exact ⟨k, Or.inr ⟨hk, hon⟩⟩

theorem behind_head_end (hs : s ∈ relays c m) (hstage : s.stage ≠ .tail) (hlayer : s.layer = K) :
    Behind (firstStop c m s (callVisits c m (.head K))) (computing c (c.head K)).length ↔
      ∃ k, SegOn c m (c.head K) k s.dev ∨ SegOn c m (c.head K) k (srcDev c m s) := by
  have hstops := head_stops hs hstage hlayer rfl
  rw [callVisits, behind_stretches_end (fun k => (hstops k).1) fun k => (hstops k).2]
  constructor
  · rintro ⟨k, ⟨hon, _⟩ | hon⟩
    · exact ⟨k, Or.inl hon⟩
    · exact ⟨k, Or.inr hon⟩
  · rintro ⟨k, hon | hon⟩
    · by_cases hseen : ∃ i < k, SegOn c m (c.head K) i (srcDev c m s)
      · obtain ⟨i, _, hi⟩ := hseen
        exact ⟨i, Or.inr hi⟩
      · exact ⟨k, Or.inl ⟨hon, fun i hik hi => hseen ⟨i, hik, hi⟩⟩⟩
    · exact ⟨k, Or.inr hon⟩

/-- A call has no stop for the copies of other parts. -/
theorem no_stop {calls : List (Call Dev)} (h : servedStep s ∉ calls.flatMap Call.steps) :
    ∀ v ∈ visits c m calls, ¬ (v.Before c m s ∨ v.After c m s) := by
  intro v hv hstop
  obtain ⟨call, hcall, hv⟩ := List.mem_flatMap.mp hv
  exact h (List.mem_flatMap.mpr ⟨call, hcall, servedStep_of_visit hv hstop⟩)

/-- The head behind a closure and a tail that ran before it. -/
theorem firstStop_head (calls : List (Call Dev)) (hstage : s.stage ≠ .tail) (hlayer : s.layer = K)
    (hcalls : Step.head K ∉ calls.flatMap Call.steps)
    (hnodes : computing c ((visits c m calls).flatMap (Visit.nodes c)) =
      computing c (c.compute L) ++ computing c (c.tail L)) :
    firstStop c m s (visits c m (calls ++ [.head K])) = (firstStop c m s (callVisits c m (.head K))).map
      ((computing c (c.compute L)).length + (computing c (c.tail L)).length + ·) := by
  have hsplit : visits c m (calls ++ [.head K]) = visits c m calls ++ callVisits c m (.head K) := by
    rw [RelayVisits.visits, List.flatMap_append]
    exact congrArg _ (List.flatMap_singleton _ _)
  rw [hsplit, firstStop_skip (no_stop (by rwa [servedStep_head hstage, hlayer])), hnodes, List.length_append]

theorem mem_of_computing {l : List ℕ} {i n : ℕ} (h : (computing c l)[i]? = some n) : n ∈ l :=
  (mem_computing.mp (List.mem_of_getElem? h)).1

/-- What reads a copy for the head is no node of the tail before it, and the head alone makes the copy
ahead of its own readers. -/
theorem front_readers (hLK : L ≠ K) (hlayer : s.layer = K) {n : ℕ} (hn : Reads c m s n) :
    n ∉ c.tail L ∧ (n ∈ c.head K → HeadAhead c m s K n) := by
  refine ⟨fun htail => hLK (layer_of_mem_tail htail (hlayer ▸ (reader_of_reads hn).layer)), fun hhead => ?_⟩
  obtain ⟨j, hj⟩ := exists_segHas (c := c) (m := m) hhead
  exact ⟨j, hj, j, Or.inl ⟨Nat.le_refl j, segOn_of_reads hn hj⟩⟩

theorem not_headAhead (hLK : L ≠ K) {n : ℕ} (hn : n ∈ c.tail L) : ¬ HeadAhead c m s K n :=
  fun ⟨_, hj, _⟩ => parts_apart hLK n hn hj.mem

/-- The nodes of two parts, one after the other. -/
theorem getElem?_computing_append {l l' : List ℕ} {i n : ℕ} :
    ((computing c l)[i]? = some n → (computing c (l ++ l'))[i]? = some n) ∧
      ((computing c l')[i]? = some n → (computing c (l ++ l'))[(computing c l).length + i]? = some n) := by
  rw [computing_append]
  constructor
  · intro h
    rw [List.getElem?_append_left (List.getElem?_eq_some_iff.mp h).1, h]
  · intro h
    rw [List.getElem?_append_right (Nat.le_add_right _ _), Nat.add_sub_cancel_left, h]

/-- The head alone, behind a closure and a tail. -/
theorem behind_alone (hs : s ∈ relays c m) (hLK : L ≠ K) (hstage : s.stage ≠ .tail) (hlayer : s.layer = K)
    {b : Option ℕ} (hb : b = (firstStop c m s (callVisits c m (.head K))).map
      ((computing c (c.compute L)).length + (computing c (c.tail L)).length + ·)) :
    (∀ i < (computing c (c.compute L)).length, ¬ Behind b i) ∧
    (∀ i n, (computing c (c.tail L))[i]? = some n →
      (Behind b ((computing c (c.compute L)).length + i) ↔ HeadAhead c m s K n)) ∧
    (∀ i n, (computing c (c.head K))[i]? = some n →
      (Behind b ((computing c (c.compute L)).length + ((computing c (c.tail L)).length + i)) ↔
        HeadAhead c m s K n)) ∧
    (Behind b (computing c (c.compute L) ++ (computing c (c.tail L) ++ computing c (c.head K))).length ↔
      ∃ k, SegOn c m (c.head K) k s.dev ∨ SegOn c m (c.head K) k (srcDev c m s)) := by
  subst hb
  refine ⟨fun i hi => ?_, fun i n hi => ?_, fun i n hi => ?_, ?_⟩
  · rw [behind_map]
    omega
  · have hlt := (List.getElem?_eq_some_iff.mp hi).1
    rw [behind_map]
    exact iff_of_false (fun h => by omega) (not_headAhead hLK (mem_of_computing hi))
  · rw [behind_map, ← Nat.add_assoc, Nat.add_sub_cancel_left, behind_head hs hstage hlayer hi]
    exact and_iff_right (Nat.le_add_right _ _)
  · rw [behind_map, List.length_append, List.length_append, ← Nat.add_assoc, Nat.add_sub_cancel_left,
      behind_head_end hs hstage hlayer]
    exact and_iff_right (Nat.le_add_right _ _)

/-- The stops of the list of a tail and the next head. -/
def fusedStops (c : Capture) (m : Placement Dev) (L K : ℕ) : List (Visit Dev) :=
  (stretches c m (c.tail L ++ c.head K) (fun seg => if hasTail (c.tail L).length seg then some L else none)
    (fun seg => if hasHead (c.tail L).length seg then some K else none) (some K) (c.tail L)).map .stretch

/-- The list behind the closure. -/
theorem firstStop_fused (hstage : s.stage ≠ .tail) :
    firstStop c m s (visits c m [.closure L, .tailHead L K]) =
      (firstStop c m s (fusedStops c m L K)).map ((computing c (c.compute L)).length + ·) := by
  have hskip : firstStop c m s ([.closure L, .preTail L] ++ fusedStops c m L K) = _ :=
    firstStop_skip (by simp [Visit.Before, Visit.After, hstage])
  have hnodes : ([.closure L, .preTail L] : List (Visit Dev)).flatMap (Visit.nodes c) = c.compute L := by
    simp [Visit.nodes]
  have hvisits : visits c m [.closure L, .tailHead L K] = [.closure L, .preTail L] ++ fusedStops c m L K := by
    simp [RelayVisits.visits, callVisits, fusedStops]
  rw [hvisits, hskip, hnodes]

theorem behind_fused (hs : s ∈ relays c m) (hLK : L ≠ K) (hstage : s.stage ≠ .tail) (hlayer : s.layer = K)
    {a : Option ℕ} (ha : a = (firstStop c m s (fusedStops c m L K)).map
      ((computing c (c.compute L)).length + ·)) :
    (∀ i < (computing c (c.compute L)).length, ¬ Behind a i) ∧
    (∀ i n, (computing c (c.tail L))[i]? = some n →
      (Behind a ((computing c (c.compute L)).length + i) ↔ FusedAhead c m s L K n)) ∧
    (∀ i n, (computing c (c.head K))[i]? = some n →
      (Behind a ((computing c (c.compute L)).length + ((computing c (c.tail L)).length + i)) ↔
        FusedAhead c m s L K n)) ∧
    (Behind a (computing c (c.compute L) ++ (computing c (c.tail L) ++ computing c (c.head K))).length ↔
      ∃ k, ComesIn c m s (c.tail L ++ c.head K) (c.head K) k ∨ Leaves c m s L K k) := by
  have hstops := front_stops hs hLK hstage hlayer rfl rfl
  have hfused : ∀ {i n : ℕ}, (computing c (c.tail L ++ c.head K))[i]? = some n →
      (Behind (firstStop c m s (fusedStops c m L K)) i ↔ FusedAhead c m s L K n) := by
    intro i n hi
    rw [fusedStops, behind_stretches _ _ (fused_nodup hLK) (fun k => (hstops k).1) (fun k => (hstops k).2) hi]
    rfl
  subst ha
  refine ⟨fun i hi => ?_, fun i n hi => ?_, fun i n hi => ?_, ?_⟩
  · rw [behind_map]
    omega
  · rw [behind_map, Nat.add_sub_cancel_left, hfused (getElem?_computing_append.1 hi)]
    exact and_iff_right (Nat.le_add_right _ _)
  · rw [behind_map, Nat.add_sub_cancel_left, hfused (getElem?_computing_append.2 hi)]
    exact and_iff_right (Nat.le_add_right _ _)
  · rw [behind_map, List.length_append, Nat.add_sub_cancel_left, ← computing_append, fusedStops,
      behind_stretches_end (fun k => (hstops k).1) fun k => (hstops k).2]
    exact and_iff_right (Nat.le_add_right _ _)

/-- A run that makes a copy for the head, against the head alone. -/
theorem agrees_alone (hs : s ∈ relays c m) (hLK : L ≠ K) (hstage : s.stage ≠ .tail) (hlayer : s.layer = K)
    {later : List ℕ} {a b : Option ℕ} {early made : Prop} {ahead : ℕ → Prop}
    (hb : b = (firstStop c m s (callVisits c m (.head K))).map
      ((computing c (c.compute L)).length + (computing c (c.tail L)).length + ·))
    (hfirst : ∀ i < (computing c (c.compute L)).length, (Behind a i ↔ early))
    (hmid : ∀ i n, (computing c (c.tail L))[i]? = some n →
      (Behind a ((computing c (c.compute L)).length + i) ↔ ahead n))
    (hlast : ∀ i n, (computing c (c.head K))[i]? = some n →
      (Behind a ((computing c (c.compute L)).length + ((computing c (c.tail L)).length + i)) ↔ ahead n))
    (hend : Behind a (computing c (c.compute L) ++ (computing c (c.tail L) ++ computing c (c.head K))).length ↔
      made) :
    Agrees (wiring c m) (computing c (c.compute L ++ c.tail L ++ c.head K)) (computing c later) s a b ↔
      ServesAlike c m s L K later early ahead made := by
  obtain ⟨hbfirst, hbmid, hblast, hbend⟩ := behind_alone hs hLK hstage hlayer hb
  rw [List.append_assoc, computing_append, computing_append,
    agrees_iff_parts (fun i hi => ⟨hfirst i hi, hbfirst i hi⟩) (fun i n hi => ⟨hmid i n hi, hbmid i n hi⟩)
      (fun i n hi => ⟨hlast i n hi, hblast i n hi⟩) ⟨hend, hbend⟩
      (fun n hn hreads => (front_readers hLK hlayer (mem_wiring_reads.mp hreads)).1 (mem_computing.mp hn).1)
      fun n hn hreads => (front_readers hLK hlayer (mem_wiring_reads.mp hreads)).2 (mem_computing.mp hn).1,
    ← computing_append]
  simp only [mem_wiring_reads]
  exact Iff.rfl

theorem agrees_list (hs : s ∈ relays c m) (hLK : L ≠ K) (hstage : s.stage ≠ .tail) (hlayer : s.layer = K)
    (later : List ℕ) :
    Agrees (wiring c m) (computing c (c.compute L ++ c.tail L ++ c.head K)) (computing c later) s
        (firstStop c m s (visits c m [.closure L, .tailHead L K]))
        (firstStop c m s (visits c m [.closure L, .tail L, .head K])) ↔
      ServesAlike c m s L K later False (FusedAhead c m s L K)
        (∃ k, ComesIn c m s (c.tail L ++ c.head K) (c.head K) k ∨ Leaves c m s L K k) := by
  obtain ⟨hfirst, hmid, hlast, hend⟩ := behind_fused hs hLK hstage hlayer (firstStop_fused hstage)
  refine agrees_alone hs hLK hstage hlayer ?_ (fun i hi => iff_of_false (hfirst i hi) id) hmid hlast hend
  refine firstStop_head [.closure L, .tail L] hstage hlayer (by simp [Call.steps]) ?_
  rw [← computing_append]
  refine congrArg (computing c) ?_
  simp [RelayVisits.visits, callVisits, stretches_nodes, Visit.nodes]

/-- The graph of a closure and its tail runs the nodes of both. -/
theorem computing_graph (D : Dev) (next : Option ℕ) :
    computing c ((visits c m [.deviceGraph L next D]).flatMap (Visit.nodes c)) =
      computing c (c.compute L ++ c.tail L ++ nextNodes c next) := by
  have hnodes : (visits c m [.deviceGraph L next D]).flatMap (Visit.nodes c) =
      c.compute L ++ (c.tail L ++ nextNodes c next).filter fun p => !isAliasOp (c.graph.op p) := by
    simp [RelayVisits.visits, callVisits, Visit.nodes, graphStretch]
  have hfilter : computing c ((c.tail L ++ nextNodes c next).filter fun p => !isAliasOp (c.graph.op p)) =
      computing c (c.tail L ++ nextNodes c next) := by
    rw [computing, List.filter_filter]
    exact List.filter_congr fun p _ => Bool.and_self _
  rw [hnodes, computing_append, hfilter, ← computing_append, List.append_assoc]

/-- The tail and the head in the closure's graph, against the graph without the head. -/
theorem agrees_graph (hs : s ∈ relays c m) (hLK : L ≠ K) (hstage : s.stage ≠ .tail) (hlayer : s.layer = K)
    (D : Dev) (later : List ℕ) :
    Agrees (wiring c m) (computing c (c.compute L ++ c.tail L ++ c.head K)) (computing c later) s
        (firstStop c m s (visits c m [.deviceGraph L (some K) D]))
        (firstStop c m s (visits c m [.deviceGraph L none D, .head K])) ↔
      ServesAlike c m s L K later (s.dev = D ∧ s.producer ∉ c.tail L ++ c.head K)
        (fun _ => s.dev = D ∧ s.producer ∉ c.tail L ++ c.head K)
        (s.dev = D ∧ s.producer ∉ c.tail L ++ c.head K ∨ srcDev c m s = D) := by
  obtain ⟨hcomes, hgoes⟩ : ((graphStretch c L (some K) D).Arrives c m s ↔ _) ∧ _ :=
    graphStretch_arrives hs (Or.inr ⟨hstage, by rw [hlayer], hlayer ▸ hLK.symm⟩)
  have hnext : nextNodes c (some K) = c.head K ∧ nextNodes c none = [] := ⟨rfl, rfl⟩
  rw [or_iff_right (by simp), hnext.1] at hcomes
  have hlength := congrArg List.length (computing_graph (c := c) (m := m) (L := L) D (some K))
  rw [hnext.1, List.append_assoc, computing_append, computing_append] at hlength
  have hbehind : ∀ i, Behind (firstStop c m s (visits c m [.deviceGraph L (some K) D])) i ↔
      s.dev = D ∧ s.producer ∉ c.tail L ++ c.head K ∨ srcDev c m s = D ∧
        (computing c (c.compute L) ++ (computing c (c.tail L) ++ computing c (c.head K))).length ≤ i := by
    intro i
    rw [← hlength]
    have hvisits : visits c m [.deviceGraph L (some K) D] = [.stretch (graphStretch c L (some K) D)] := rfl
    rw [hvisits, firstStop]
    simp only [Visit.Before, Visit.After, hcomes, hgoes]
    by_cases hin : s.dev = D ∧ s.producer ∉ c.tail L ++ c.head K
    · rw [if_pos hin, behind_some]
      exact iff_of_true (Nat.zero_le i) (Or.inl hin)
    · rw [if_neg hin, or_iff_right hin]
      by_cases hout : srcDev c m s = D
      · rw [if_pos hout, behind_some, List.flatMap_singleton]
        exact (and_iff_right hout).symm
      · rw [if_neg hout]
        simp [firstStop, hout]
  have hinside : ∀ i < (computing c (c.compute L) ++ (computing c (c.tail L) ++ computing c (c.head K))).length,
      (Behind (firstStop c m s (visits c m [.deviceGraph L (some K) D])) i ↔
        s.dev = D ∧ s.producer ∉ c.tail L ++ c.head K) := fun i hi =>
    (hbehind i).trans (or_iff_left fun h => absurd hi (Nat.not_lt.mpr h.2))
  rw [List.length_append, List.length_append] at hinside
  refine agrees_alone hs hLK hstage hlayer ?_ (fun i hi => hinside i (by omega)) (fun i n hi => ?_)
    (fun i n hi => ?_) ?_
  · refine firstStop_head [.deviceGraph L none D] hstage hlayer (by simp [Call.steps]) ?_
    rw [computing_graph, hnext.2, List.append_nil, computing_append]
  · have := (List.getElem?_eq_some_iff.mp hi).1
    exact hinside _ (by omega)
  · have := (List.getElem?_eq_some_iff.mp hi).1
    exact hinside _ (by omega)
  · rw [hbehind]
    exact or_congr_right (and_iff_left (Nat.le_refl _))

end front

section positions

variable {c m} {list l' : List ℕ} {w : ℕ} {d : Dev}

/-- The device has been visited when the node runs. -/
def Met (c : Capture) (m : Placement Dev) (list : List ℕ) (w : ℕ) (d : Dev) : Prop :=
  ∃ j, SegHas c m list j w ∧ ∃ k ≤ j, SegOn c m list k d

def Left (c : Capture) (m : Placement Dev) (list : List ℕ) (w : ℕ) (d : Dev) : Prop :=
  ∃ j, SegHas c m list j w ∧ ∃ k < j, SegOn c m list k d

theorem segOn_node {k : ℕ} (h : SegOn c m list k d) : ∃ n, SegHas c m list k n ∧ nodeDev c m n = d := by
  obtain ⟨seg, hseg, hdev⟩ := h
  obtain ⟨x, hx⟩ := List.exists_mem_of_ne_nil seg (List.ne_nil_of_mem_splitBy (List.mem_of_getElem? hseg))
  have hn : SegHas c m list k x.1 := ⟨seg, hseg, List.mem_map.mpr ⟨x, hx, rfl⟩⟩
  exact ⟨x.1, hn, hn.segOn.unique ⟨seg, hseg, hdev⟩⟩

/-- Segments next to each other are on different devices. -/
theorem segOn_ne_succ {k : ℕ} {d' : Dev} (h : SegOn c m list k d) (h' : SegOn c m list (k + 1) d') : d ≠ d' := by
  obtain ⟨seg, hseg, rfl⟩ := h
  obtain ⟨seg', hseg', rfl⟩ := h'
  obtain ⟨hk, rfl⟩ := List.getElem?_eq_some_iff.mp hseg
  obtain ⟨hk', rfl⟩ := List.getElem?_eq_some_iff.mp hseg'
  have hchain : (segments c m list).IsChain fun a b => ∃ ha hb,
      decide (nodeDev c m (a.getLast ha).1 = nodeDev c m (b.head hb).1) = false :=
    List.isChain_getLast_head_splitBy (fun a b : ℕ × ℕ => decide (nodeDev c m a.1 = nodeDev c m b.1)) _
  obtain ⟨hne, hne', hdevs⟩ := List.isChain_iff_getElem.mp hchain k hk'
  have hlast : SegHas c m list k ((segments c m list)[k].getLast hne).1 :=
    ⟨_, hseg, List.mem_map.mpr ⟨_, List.getLast_mem hne, rfl⟩⟩
  have hhead : SegHas c m list (k + 1) ((segments c m list)[k + 1].head hne').1 :=
    ⟨_, hseg', List.mem_map.mpr ⟨_, List.head_mem hne', rfl⟩⟩
  intro heq
  refine of_decide_eq_false hdevs ?_
  rw [hlast.segOn.unique ⟨_, hseg, rfl⟩, heq]
  exact (hhead.segOn.unique ⟨_, hseg', rfl⟩).symm

theorem segHas_lt (hlist : list.Nodup) {j k n n' i i' : ℕ} (hj : SegHas c m list j n) (hk : SegHas c m list k n')
    (hi : list[i]? = some n) (hi' : list[i']? = some n') (hlt : j < k) : i < i' := by
  obtain ⟨seg, a, hseg, hmem, ha⟩ := hj.place
  obtain ⟨seg', a', hseg', hmem', ha'⟩ := hk.place
  obtain rfl := (List.getElem?_inj (List.getElem?_eq_some_iff.mp hi).1 hlist).mp (hi.trans ha.symm)
  obtain rfl := (List.getElem?_inj (List.getElem?_eq_some_iff.mp hi').1 hlist).mp (hi'.trans ha'.symm)
  exact seg_lt hseg hmem hseg' hmem' hlt

/-- Told by the nodes up to this one. -/
theorem met_iff (hlist : list.Nodup) {i : ℕ} (hi : list[i]? = some w) :
    Met c m list w d ↔ ∃ (k u : ℕ), list[k]? = some u ∧ k ≤ i ∧ nodeDev c m u = d := by
  constructor
  · rintro ⟨j, hj, k, hk, hon⟩
    rcases Nat.lt_or_eq_of_le hk with hlt | rfl
    · obtain ⟨u, hu, hdev⟩ := segOn_node hon
      obtain ⟨a, ha⟩ := List.mem_iff_getElem?.mp hu.mem
      exact ⟨a, u, ha, Nat.le_of_lt (segHas_lt hlist hu hj ha hi hlt), hdev⟩
    · exact ⟨i, w, hi, Nat.le_refl i, hj.segOn.unique hon⟩
  · rintro ⟨a, u, ha, hle, rfl⟩
    obtain ⟨j, hj⟩ := exists_segHas (c := c) (m := m) (List.mem_of_getElem? hi)
    obtain ⟨k, hk⟩ := exists_segHas (c := c) (m := m) (List.mem_of_getElem? ha)
    refine ⟨j, hj, k, ?_, hk.segOn⟩
    by_contra hlt
    have := segHas_lt hlist hj hk hi ha (Nat.lt_of_not_le hlt)
    omega

theorem left_iff (hlist : list.Nodup) {i : ℕ} (hi : list[i]? = some w) :
    Left c m list w d ↔ ∃ (k k' u v : ℕ), list[k]? = some u ∧ list[k']? = some v ∧ k < k' ∧ k' ≤ i ∧
      nodeDev c m u = d ∧ nodeDev c m v ≠ d := by
  constructor
  · rintro ⟨j, hj, k, hk, hon⟩
    obtain ⟨u, hu, hdev⟩ := segOn_node hon
    obtain ⟨a, ha⟩ := List.mem_iff_getElem?.mp hu.mem
    rcases Nat.lt_or_eq_of_le (Nat.succ_le_of_lt hk) with hlt | rfl
    · obtain ⟨seg, hseg⟩ := seg_before hlt (SegHas.seg hj)
      have hnext : SegOn c m list (k + 1) (segDev c m seg) := ⟨seg, hseg, rfl⟩
      obtain ⟨v, hv, hdev'⟩ := segOn_node hnext
      obtain ⟨b, hb⟩ := List.mem_iff_getElem?.mp hv.mem
      exact ⟨a, b, u, v, ha, hb, segHas_lt hlist hu hv ha hb (Nat.lt_succ_self k),
        Nat.le_of_lt (segHas_lt hlist hv hj hb hi hlt), hdev, hdev' ▸ (segOn_ne_succ hon hnext).symm⟩
    · refine ⟨a, i, u, w, ha, hi, segHas_lt hlist hu hj ha hi hk, Nat.le_refl i, hdev, ?_⟩
      exact (segOn_ne_succ hon hj.segOn).symm
  · rintro ⟨a, b, u, v, ha, hb, hab, hbi, rfl, hne⟩
    obtain ⟨j, hj⟩ := exists_segHas (c := c) (m := m) (List.mem_of_getElem? hi)
    obtain ⟨k, hk⟩ := exists_segHas (c := c) (m := m) (List.mem_of_getElem? ha)
    obtain ⟨k', hk'⟩ := exists_segHas (c := c) (m := m) (List.mem_of_getElem? hb)
    refine ⟨j, hj, k, ?_, hk.segOn⟩
    by_contra hle
    rcases Nat.lt_trichotomy k k' with hlt | rfl | hlt
    · have := segHas_lt hlist hj hk' hi hb (by omega)
      omega
    · exact hne (hk'.segOn.unique hk.segOn)
    · have := segHas_lt hlist hk' hk hb ha hlt
      omega

/-- What follows a list changes nothing for its nodes. -/
theorem met_append (hlist : (list ++ l').Nodup) (hw : w ∈ list) :
    (Met c m (list ++ l') w d ↔ Met c m list w d) ∧ (Left c m (list ++ l') w d ↔ Left c m list w d) := by
  obtain ⟨i, hi⟩ := List.mem_iff_getElem?.mp hw
  have hlt := (List.getElem?_eq_some_iff.mp hi).1
  have hleft : ∀ k ≤ i, (list ++ l')[k]? = list[k]? := fun k hk => List.getElem?_append_left (by omega)
  have hnodup := (List.nodup_append.mp hlist).1
  constructor
  · rw [met_iff hlist ((hleft i (Nat.le_refl i)).trans hi), met_iff hnodup hi]
    refine exists_congr fun k => exists_congr fun u => ?_
    constructor
    · rintro ⟨hk, hle, hdev⟩
      exact ⟨hleft k hle ▸ hk, hle, hdev⟩
    · rintro ⟨hk, hle, hdev⟩
      exact ⟨(hleft k hle).trans hk, hle, hdev⟩
  · rw [left_iff hlist ((hleft i (Nat.le_refl i)).trans hi), left_iff hnodup hi]
    refine exists_congr fun k => exists_congr fun k' => exists_congr fun u => exists_congr fun v => ?_
    constructor
    · rintro ⟨hk, hk', hlt, hle, hdev⟩
      exact ⟨hleft k (by omega) ▸ hk, hleft k' hle ▸ hk', hlt, hle, hdev⟩
    · rintro ⟨hk, hk', hlt, hle, hdev⟩
      exact ⟨(hleft k (by omega)).trans hk, (hleft k' hle).trans hk', hlt, hle, hdev⟩

end positions

section tails

variable {c m} {s : Shell Dev} {L K : ℕ}

theorem firstStop_append_left {us vs : List (Visit Dev)} (h : ∀ v ∈ vs, ¬ (v.Before c m s ∨ v.After c m s)) :
    firstStop c m s (us ++ vs) = firstStop c m s us := by
  induction us with
  | nil => exact firstStop_eq_none h
  | cons u us ih => rw [List.cons_append, firstStop, ih, firstStop]

theorem behind_tail (part : ℕ → Prop) {list : List ℕ} {tail head : List (ℕ × ℕ) → Option ℕ} {onward : Option ℕ}
    {carried : List ℕ} (hs : s ∈ relays c m) (hstage : s.stage = .tail) (hlayer : s.layer = L) (hlist : list.Nodup)
    (hpart : ∀ k, part k ↔ ∃ seg, (segments c m list)[k]? = some seg ∧ tail seg = some L) {i n : ℕ}
    (hi : (computing c list)[i]? = some n) (hahead : ∀ j, SegHas c m list j n → ∀ k ≤ j, part k) :
    Behind (firstStop c m s ((stretches c m list tail head onward carried).map .stretch)) i ↔
      Met c m list n s.dev ∨ Left c m list n (srcDev c m s) := by
  obtain ⟨n₀, hn₀⟩ := exists_reads hs
  have hown := (reader_of_reads hn₀).own
  rw [behind_stretches (fun k => part k ∧ SegOn c m list k s.dev ∧ ∀ j < k, ¬ SegOn c m list j (srcDev c m s))
    (fun k => part k ∧ SegOn c m list k (srcDev c m s)) hlist (fun k => ?_) (fun k => ?_) hi]
  · unfold Met Left
    constructor
    · rintro ⟨j, hj, k, ⟨hk, _, hon, _⟩ | ⟨hk, _, hon⟩⟩
      · exact Or.inl ⟨j, hj, k, hk, hon⟩
      · exact Or.inr ⟨j, hj, k, hk, hon⟩
    · rintro (⟨j, hj, k, hk, hon⟩ | ⟨j, hj, k, hk, hon⟩)
      · by_cases hseen : ∃ i < k, SegOn c m list i (srcDev c m s)
        · obtain ⟨i, hik, hi⟩ := hseen
          exact ⟨j, hj, i, Or.inr ⟨by omega, hahead j hj i (by omega), hi⟩⟩
        · exact ⟨j, hj, k, Or.inl ⟨hk, hahead j hj k hk, hon, fun i hik hi => hseen ⟨i, hik, hi⟩⟩⟩
      · exact ⟨j, hj, k, Or.inr ⟨hk, hahead j hj k (Nat.le_of_lt hk), hon⟩⟩
  · rw [arrives_iff, hpart]
    simp [hstage, hlayer]
  · rw [leaves_iff hown, hpart]
    simp [hstage, hlayer]

theorem tail_readers (hstage : s.stage = .tail) (hlayer : s.layer = L) {n : ℕ} (hn : Reads c m s n) :
    n ∈ c.tail L := hlayer ▸ ((reader_of_reads hn).tail hstage).1

/-- For a node of the tail the copies come at the same turn whether the head follows in the list or not. -/
theorem behind_tail_fused (hs : s ∈ relays c m) (hLK : L ≠ K) (hstage : s.stage = .tail) (hlayer : s.layer = L)
    {i n : ℕ} (hi : (computing c (c.tail L))[i]? = some n) :
    (Behind (firstStop c m s (fusedStops c m L K)) i ↔
      Met c m (c.tail L) n s.dev ∨ Left c m (c.tail L) n (srcDev c m s)) ∧
    (Behind (firstStop c m s
        ((stretches c m (c.tail L) (fun _ => some L) (fun _ => none) none []).map .stretch)) i ↔
      Met c m (c.tail L) n s.dev ∨ Left c m (c.tail L) n (srcDev c m s)) := by
  have hmem := mem_of_computing hi
  have hmet : Met c m (c.tail L ++ c.head K) n s.dev ↔ Met c m (c.tail L) n s.dev :=
    (met_append (fused_nodup hLK) hmem).1
  have hgone : Left c m (c.tail L ++ c.head K) n (srcDev c m s) ↔ Left c m (c.tail L) n (srcDev c m s) :=
    (met_append (fused_nodup hLK) hmem).2
  constructor
  · rw [fusedStops, behind_tail (PartAt c m (c.tail L ++ c.head K) (c.tail L)) hs hstage hlayer (fused_nodup hLK)
      (fun k => ?_) (getElem?_computing_append.1 hi) fun j hj k hk => ?_, hmet, hgone]
    · rw [(partAt_iff hLK).1]
      simp
    · rcases Nat.lt_or_eq_of_le hk with hlt | rfl
      · obtain ⟨seg, hseg⟩ := seg_before hlt (SegHas.seg hj)
        exact partAt_tail (parts_apart hLK) hmem hj hlt ⟨seg, hseg, rfl⟩
      · exact ⟨_, hmem, hj⟩
  · refine behind_tail (fun k => ∃ seg, (segments c m (c.tail L))[k]? = some seg) hs hstage hlayer
      (part_nodup L).2 (fun k => by simp) hi fun j hj k hk => ?_
    rcases Nat.lt_or_eq_of_le hk with hlt | rfl
    · exact seg_before hlt (SegHas.seg hj)
    · exact SegHas.seg hj

theorem firstStop_tail_fused (hs : s ∈ relays c m) (hLK : L ≠ K) (hstage : s.stage = .tail) (hlayer : s.layer = L)
    {n : ℕ} (hn : n ∈ computing c (c.tail L)) (hreads : Reads c m s n) :
    firstStop c m s (fusedStops c m L K) = firstStop c m s
      ((stretches c m (c.tail L) (fun _ => some L) (fun _ => none) none []).map .stretch) := by
  obtain ⟨t, ht⟩ := List.mem_iff_getElem?.mp hn
  obtain ⟨j, hj⟩ := exists_segHas (c := c) (m := m) (mem_of_computing ht)
  have hmet : Met c m (c.tail L) n s.dev := ⟨j, hj, j, Nat.le_refl j, segOn_of_reads hreads hj⟩
  refine eq_of_behind ((behind_tail_fused hs hLK hstage hlayer ht).1.mpr (Or.inl hmet)) fun i hi => ?_
  have hlt := (List.getElem?_eq_some_iff.mp ht).1
  have hget : (computing c (c.tail L))[i]? = some (computing c (c.tail L))[i] :=
    List.getElem?_eq_getElem (by omega)
  obtain ⟨hfused, halone⟩ := behind_tail_fused (K := K) hs hLK hstage hlayer hget
  exact hfused.trans halone.symm

/-- Without a reader among the tail's nodes that compute there is nothing to find. -/
theorem agrees_tail_unread (hstage : s.stage = .tail) (hlayer : s.layer = L) {nodes later : List ℕ} {a b : Option ℕ}
    (h : ∀ n ∈ computing c (c.tail L), ¬ Reads c m s n) :
    Agrees (wiring c m) (computing c nodes) (computing c later) s a b := by
  refine agrees_of_unread fun n hn hreads => h n ?_ (mem_wiring_reads.mp hreads)
  refine mem_computing.mpr ⟨tail_readers hstage hlayer (mem_wiring_reads.mp hreads), ?_⟩
  exact hn.elim (fun h => (mem_computing.mp h).2) fun h => (mem_computing.mp h).2

theorem agrees_tail_list (hs : s ∈ relays c m) (hLK : L ≠ K) (hstage : s.stage = .tail) (hlayer : s.layer = L)
    (later : List ℕ) :
    Agrees (wiring c m) (computing c (c.compute L ++ c.tail L ++ c.head K)) (computing c later) s
      (firstStop c m s (visits c m [.closure L, .tailHead L K]))
      (firstStop c m s (visits c m [.closure L, .tail L, .head K])) := by
  by_cases hread : ∃ n ∈ computing c (c.tail L), Reads c m s n
  · obtain ⟨n, hn, hreads⟩ := hread
    have hhead : ∀ v ∈ callVisits c m (.head K), ¬ (v.Before c m s ∨ v.After c m s) := by
      intro v hv hstop
      have hserved := servedStep_of_visit hv hstop
      rw [servedStep_tail hstage] at hserved
      simp [Call.steps] at hserved
    have hclosure : ∀ v ∈ ([.closure L] : List (Visit Dev)), ¬ (v.Before c m s ∨ v.After c m s) := by
      simp [Visit.Before, Visit.After]
    have hleft : visits c m [.closure L, .tailHead L K] = [.closure L] ++ (.preTail L :: fusedStops c m L K) := by
      simp [RelayVisits.visits, callVisits, fusedStops]
    have hright : visits c m [.closure L, .tail L, .head K] = [.closure L] ++ (.preTail L ::
        ((stretches c m (c.tail L) (fun _ => some L) (fun _ => none) none []).map .stretch ++
          callVisits c m (.head K))) := by
      simp [RelayVisits.visits, callVisits]
    rw [hleft, hright, firstStop_skip hclosure, firstStop_skip hclosure, firstStop, firstStop,
      firstStop_append_left hhead, firstStop_tail_fused hs hLK hstage hlayer hn hreads]
    exact agrees_refl _ _ s _
  · exact agrees_tail_unread hstage hlayer fun n hn hreads => hread ⟨n, hn, hreads⟩

theorem agrees_tail_graph (hs : s ∈ relays c m) (hLK : L ≠ K) (hstage : s.stage = .tail) (hlayer : s.layer = L)
    {D : Dev} (hdev : ∀ n ∈ computing c (c.tail L), nodeDev c m n = D) (later : List ℕ) :
    Agrees (wiring c m) (computing c (c.compute L ++ c.tail L ++ c.head K)) (computing c later) s
      (firstStop c m s (visits c m [.deviceGraph L (some K) D]))
      (firstStop c m s (visits c m [.deviceGraph L none D, .head K])) := by
  by_cases hread : ∃ n ∈ computing c (c.tail L), Reads c m s n
  · obtain ⟨n, hn, hreads⟩ := hread
    have hreader := reader_of_reads hreads
    have hproducer := (hreader.tail hstage).2
    have hon : s.dev = D := hreader.dev.symm.trans (hdev n hn)
    have hnot : s.producer ∉ c.tail L ++ nextNodes c (some K) := by
      intro hmem
      rcases List.mem_append.mp hmem with htail | hhead
      · have hcomputes : computes c s.producer = true := by
          have halias : isAliasOp (c.graph.op s.producer) = false := by
            by_contra halias
            obtain ⟨q, hq⟩ := Graph.exists_src0 ((isViewOp_iff _).mpr (Or.inl (Bool.of_not_eq_false halias)))
            have hview := ((c.graph.conforms s.producer).alias_src0 (Bool.of_not_eq_false halias) q hq).1
            cases hreader.own.symm.trans hview
          rw [computes, halias]
          rfl
        have hsrc := hdev _ (mem_computing.mpr ⟨htail, hcomputes⟩)
        exact srcDev_ne hreads (by rw [hproducer]; rfl) (hsrc.trans hon.symm)
      · rw [nlayer_eq_some.mpr (List.mem_filter.mp hhead).1, hlayer] at hproducer
        exact hLK (Option.some.inj hproducer).symm
    have hfirst : ∀ next, (next = none ∨ s.producer ∉ c.tail L ++ nextNodes c next) →
        ∀ calls, firstStop c m s (visits c m (.deviceGraph L next D :: calls)) = some 0 := by
      intro next hnext calls
      have hbefore : (Visit.stretch (graphStretch c L next D)).Before c m s :=
        (graphStretch_arrives hs (Or.inl ⟨hstage, hlayer⟩)).1.mpr ⟨hon, hnext⟩
      have hvisits : visits c m (.deviceGraph L next D :: calls) =
          .stretch (graphStretch c L next D) :: visits c m calls := rfl
      rw [hvisits, firstStop, if_pos hbefore]
    rw [hfirst (some K) (Or.inr hnot) [], hfirst none (Or.inl rfl) [.head K]]
    exact agrees_refl _ _ s _
  · exact agrees_tail_unread hstage hlayer fun n hn hreads => hread ⟨n, hn, hreads⟩

/-- A copy for no part of either run is in neither. -/
theorem agrees_other {nodes later : List ℕ} {calls calls' : List (Call Dev)}
    (h : servedStep s ∉ calls.flatMap Call.steps) (h' : servedStep s ∉ calls'.flatMap Call.steps) :
    Agrees (wiring c m) nodes later s (firstStop c m s (visits c m calls)) (firstStop c m s (visits c m calls')) := by
  rw [firstStop_eq_none (no_stop h), firstStop_eq_none (no_stop h')]
  exact agrees_refl _ _ s none

end tails





end StopTurns
end StreamMoE
