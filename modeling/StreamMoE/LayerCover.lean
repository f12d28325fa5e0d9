import StreamMoE.LayerSpread

/-! `collect_layer_nodes` with its loops as they are written, on the nodes of a graph in any order: the loops
end, and what they leave covers the compute nodes. -/
namespace StreamMoE
namespace LayerCover

open ComputeGraph LayerCapture LayerSpread Saturation

/-- `nodes[]` of a `ggml_cgraph`. -/
structure NodeArray where
  nodes : List ℕ
  nodup : nodes.Nodup

section loops

variable (g : Graph) (official : ℕ → Option ℕ) (gf : NodeArray)

def owned : Layers := fun p => if p ∈ gf.nodes then ownLayer g official p else none

/-- One node of the first loop; the flag is `changed`. -/
def producerTurn (s : Layers × Bool) (i : ℕ) : Layers × Bool :=
  if (ownLayer g official i).isSome then s
  else
    let best := (g.tensor i).sources.foldl (fun best p => later best (s.1 p)) (s.1 i)
    if best ≠ s.1 i then (Function.update s.1 i best, true) else s

def producerRound (lay : Layers) : Layers × Bool := gf.nodes.foldl (producerTurn g official) (lay, false)

def consumersBest (lay : Layers) (i : ℕ) : Option ℕ :=
  gf.nodes.foldl (fun best c => if i ∈ (g.tensor c).sources then later best (lay c) else best) none

/-- One node of the second loop; the flag is `ch`. -/
def consumerTurn (s : Layers × Bool) (i : ℕ) : Layers × Bool :=
  if (s.1 i).isSome ∨ g.op i = .none then s
  else
    let best := consumersBest g gf s.1 i
    if best.isSome then (Function.update s.1 i best, true) else s

def consumerRound (lay : Layers) : Layers × Bool := gf.nodes.foldl (consumerTurn g gf) (lay, false)

def consumerLayerOf (lay : Layers) (i : ℕ) : Option ℕ :=
  gf.nodes.findSome? fun c => if i ∈ (g.tensor c).sources then lay c else none

/-- The out-ids narrowings belong to their readers. -/
def reattribute (lay : Layers) : Layers := fun i =>
  if i ∈ gf.nodes ∧ isNarrowing g i = true then (consumerLayerOf g gf lay i).or (lay i) else lay i

/-- `lay` is what `collect_layer_nodes` leaves. -/
inductive Collects : Layers → Prop
  | intro {lay₁ lay₂ : Layers} : Loops (producerRound g official gf) (owned g official gf) lay₁ →
      Loops (consumerRound g gf) lay₁ lay₂ →
      Collects (reattribute g gf (nearestPass g gf.nodes.reverse (nearestPass g gf.nodes lay₂)))

def layerNodes (lay : Layers) (layer : ℕ) : List ℕ := gf.nodes.filter fun p => decide (lay p = some layer)

variable {g official gf}

theorem Collects.unique {lay lay' : Layers} (h : Collects g official gf lay)
    (h' : Collects g official gf lay') : lay = lay' := by
  cases h with
  | intro h₁ h₂ =>
    cases h' with
    | intro h₁' h₂' =>
      cases h₁.unique h₁'
      rw [h₂.unique h₂']

/-- What the second loop makes of an entry. -/
def takeConsumers (g : Graph) (gf : NodeArray) (lay : Layers) (i : ℕ) : Option ℕ :=
  if (lay i).isSome ∨ g.op i = .none then lay i else consumersBest g gf lay i

theorem producerTurn_eq : producerTurn g official = mark (producersLayer g official) := by
  funext s i
  unfold producerTurn mark producersLayer
  split
  · rw [Function.update_eq_self]
    simp
  · dsimp only
    split
    · rename_i hne
      rw [decide_eq_true hne, Bool.or_true]
    · rename_i hsame
      rw [not_not.mp hsame, Function.update_eq_self]
      simp

theorem producerRound_eq : producerRound g official gf = markedSweep (producersLayer g official) gf.nodes := by
  funext lay
  rw [producerRound, producerTurn_eq, markedSweep]

theorem consumerTurn_eq : consumerTurn g gf = mark (takeConsumers g gf) := by
  funext s i
  unfold consumerTurn mark takeConsumers
  split
  · rw [Function.update_eq_self]
    simp
  · rename_i hopen
    have hnone : s.1 i = none := by
      by_contra hne
      exact hopen (.inl (Option.isSome_iff_ne_none.mpr hne))
    dsimp only
    rw [hnone]
    cases hbest : consumersBest g gf s.1 i with
    | none =>
      rw [← hnone, Function.update_eq_self]
      simp [hnone]
    | some l => simp

theorem consumerRound_eq : consumerRound g gf = markedSweep (takeConsumers g gf) gf.nodes := by
  funext lay
  rw [consumerRound, consumerTurn_eq, markedSweep]

end loops

section rank

/-- A node without a layer is below every layer. -/
def rank : Option ℕ → ℕ
  | none => 0
  | some l => l + 1

theorem rank_injective : Function.Injective rank := by
  intro a b h
  cases a <;> cases b <;> simp_all [rank]

theorem rank_later (a b : Option ℕ) : rank (later a b) = max (rank a) (rank b) := by
  cases a <;> cases b <;> simp [later, rank]

theorem rank_pos {a : Option ℕ} : 0 < rank a ↔ a.isSome := by
  cases a <;> simp [rank]

variable {step : Option ℕ → ℕ → Option ℕ} {xs : List ℕ} {a : Option ℕ} {K : ℕ}

theorem rank_le_foldl (h : ∀ a x, rank a ≤ rank (step a x)) : rank a ≤ rank (xs.foldl step a) := by
  induction xs generalizing a with
  | nil => exact Nat.le_refl _
  | cons x xs ih => exact (h a x).trans ih

theorem foldl_rank_le (h : ∀ a x, rank a ≤ K → rank (step a x) ≤ K) (ha : rank a ≤ K) :
    rank (xs.foldl step a) ≤ K := by
  induction xs generalizing a with
  | nil => exact ha
  | cons x xs ih => exact ih (h a x ha)

variable {g : Graph} {official : ℕ → Option ℕ} {gf : NodeArray}

theorem producersLayer_rise (lay : Layers) (i : ℕ) : rank (lay i) ≤ rank (producersLayer g official lay i) := by
  unfold producersLayer
  split
  · exact Nat.le_refl _
  · refine rank_le_foldl fun a x => ?_
    rw [rank_later]
    exact Nat.le_max_left _ _

theorem producersLayer_bound (lay : Layers) (i : ℕ) (h : ∀ j, rank (lay j) ≤ K) :
    rank (producersLayer g official lay i) ≤ K := by
  unfold producersLayer
  split
  · exact h i
  · refine foldl_rank_le (fun a x ha => ?_) (h i)
    rw [rank_later]
    exact Nat.max_le.mpr ⟨ha, h x⟩

theorem takeConsumers_rise (lay : Layers) (i : ℕ) : rank (lay i) ≤ rank (takeConsumers g gf lay i) := by
  unfold takeConsumers
  split
  · exact Nat.le_refl _
  · rename_i hopen
    cases hl : lay i with
    | none => exact Nat.zero_le _
    | some l => exact absurd (.inl (by rw [hl]; rfl)) hopen

theorem takeConsumers_bound (lay : Layers) (i : ℕ) (h : ∀ j, rank (lay j) ≤ K) :
    rank (takeConsumers g gf lay i) ≤ K := by
  unfold takeConsumers
  split
  · exact h i
  · refine foldl_rank_le (fun a x ha => ?_) (Nat.zero_le K)
    split
    · rw [rank_later]
      exact Nat.max_le.mpr ⟨ha, h x⟩
    · exact ha

theorem exists_bound (g : Graph) (official : ℕ → Option ℕ) (gf : NodeArray) :
    ∃ K, ∀ p, rank (owned g official gf p) ≤ K := by
  refine ⟨(gf.nodes.map fun p => rank (owned g official gf p)).sum, fun p => ?_⟩
  by_cases hp : p ∈ gf.nodes
  · exact List.le_sum_of_mem (List.mem_map_of_mem hp)
  · rw [owned, if_neg hp]
    exact Nat.zero_le _

end rank

section cover

variable {g : Graph} {official : ℕ → Option ℕ} {gf : NodeArray} {lay lay' : Layers} {p : ℕ}

/-- In no loop does a node lose its layer, or get one later than all before. -/
theorem loops_keep {f : Layers → ℕ → Option ℕ} {K : ℕ} (hrise : ∀ t i, rank (t i) ≤ rank (f t i))
    (hbound : ∀ t i, (∀ j, rank (t j) ≤ K) → rank (f t i) ≤ K)
    (h : Loops (markedSweep f gf.nodes) lay lay') (hlay : ∀ i, rank (lay i) ≤ K) :
    (∀ i, rank (lay' i) ≤ K) ∧ ∀ i, (lay i).isSome → (lay' i).isSome := by
  constructor
  · refine h.induction (motive := fun t => ∀ i, rank (t i) ≤ K) (fun t ht => ?_) hlay
    rw [markedSweep_fst]
    exact sweep_induction (motive := fun t => ∀ i, rank (t i) ≤ K)
      (fun t i ht => update_rank_le ht (hbound t i ht)) ht
  · intro i hi
    refine h.induction (motive := fun t : Layers => (t i).isSome) (fun t ht => ?_) hi
    rw [markedSweep_fst]
    refine sweep_induction (motive := fun t : Layers => (t i).isSome) (fun t j ht => ?_) ht
    rw [← rank_pos] at ht ⊢
    exact ht.trans_le (rank_le_update (hrise t j) i)

theorem reattribute_isSome {i : ℕ} (h : (lay i).isSome) : (reattribute g gf lay i).isSome := by
  unfold reattribute
  split
  · cases consumerLayerOf g gf lay i <;> simp [h]
  · exact h

/-- The loops end, and an owned node has a layer behind them. -/
theorem exists_propagated (g : Graph) (official : ℕ → Option ℕ) (gf : NodeArray) :
    ∃ lay₁ lay₂, Loops (producerRound g official gf) (owned g official gf) lay₁ ∧
      Loops (consumerRound g gf) lay₁ lay₂ ∧
      ∀ p ∈ gf.nodes, (ownLayer g official p).isSome → (lay₂ p).isSome := by
  obtain ⟨K, hK⟩ := exists_bound g official gf
  rw [producerRound_eq, consumerRound_eq]
  obtain ⟨lay₁, h₁⟩ := exists_loops gf.nodup rank_injective producersLayer_rise
    (fun t i => producersLayer_bound t i) hK
  obtain ⟨hK₁, hkeep₁⟩ := loops_keep producersLayer_rise (fun t i => producersLayer_bound t i) h₁ hK
  obtain ⟨lay₂, h₂⟩ := exists_loops gf.nodup rank_injective takeConsumers_rise
    (fun t i => takeConsumers_bound t i) hK₁
  have hkeep₂ := (loops_keep takeConsumers_rise (fun t i => takeConsumers_bound t i) h₂ hK₁).2
  refine ⟨lay₁, lay₂, h₁, h₂, fun p hp hown => hkeep₂ p (hkeep₁ p ?_)⟩
  rw [owned, if_pos hp]
  exact hown

/-- On the nodes of any graph, in any order, the loops end with one outcome. Its lists are in graph order,
and once a node is owned every compute node is in exactly one of them. -/
theorem collectLayerNodes_covers (g : Graph) (official : ℕ → Option ℕ) (gf : NodeArray) :
    ∃ lay, Collects g official gf lay ∧ (∀ lay', Collects g official gf lay' → lay' = lay) ∧
      (∀ layer, (layerNodes gf lay layer).Sublist gf.nodes) ∧
      ((∃ p ∈ gf.nodes, (ownLayer g official p).isSome) →
        ∀ p ∈ gf.nodes, g.op p ≠ .none → ∃! layer, p ∈ layerNodes gf lay layer) := by
  obtain ⟨lay₁, lay₂, h₁, h₂, hown⟩ := exists_propagated g official gf
  have hends : Collects g official gf _ := .intro h₁ h₂
  refine ⟨_, hends, fun lay' h => h.unique hends, fun layer => List.filter_sublist, ?_⟩
  rintro ⟨x, hx, hlayer⟩ p hp hop
  have hsome : (reattribute g gf (nearestPass g gf.nodes.reverse (nearestPass g gf.nodes lay₂)) p).isSome :=
    reattribute_isSome (nearestPass_all hx (hown x hx hlayer) hp hop)
  obtain ⟨l, hl⟩ := Option.isSome_iff_exists.mp hsome
  refine ⟨l, List.mem_filter.mpr ⟨hp, decide_eq_true hl⟩, fun l' hl' => ?_⟩
  have hsame := of_decide_eq_true (List.mem_filter.mp hl').2
  exact Option.some.inj (hsame.symm.trans hl)

/-- Two nodes that share nothing, the first of layer 3. -/
def apart : Graph :=
  Graph.ofList [{}, { op := .add, src := [some 0] }, {}, { op := .add, src := [some 2] }] [1, 3] (by decide)
    (by decide)

theorem collectLayerNodes_covers_apart :
    ∃ lay, Collects apart (fun p => if p = 1 then some 3 else none) ⟨[3, 1], by decide⟩ lay ∧
      ∃! layer, 3 ∈ layerNodes ⟨[3, 1], by decide⟩ lay layer := by
  obtain ⟨lay, hends, _, _, hcover⟩ :=
    collectLayerNodes_covers apart (fun p => if p = 1 then some 3 else none) ⟨[3, 1], by decide⟩
  exact ⟨lay, hends, hcover ⟨1, by decide, by decide⟩ 3 (by decide) (by decide)⟩

end cover

section built

variable {g : Graph} {official : ℕ → Option ℕ}

/-- A graph as it is built, operands first. -/
def built (g : Graph) : NodeArray := ⟨g.nodes, g.nodup⟩

theorem later_right_comm (a b c : Option ℕ) : later (later a b) c = later (later a c) b :=
  rank_injective (by simp only [rank_later, Nat.max_right_comm])

theorem later_absorb (a b : Option ℕ) : later (later a b) b = later a b :=
  rank_injective (by simp only [rank_later, Nat.max_assoc, Nat.max_self])

theorem later_foldl (f : ℕ → Option ℕ) (xs : List ℕ) (a b : Option ℕ) :
    later (xs.foldl (fun best x => later best (f x)) a) b =
      xs.foldl (fun best x => later best (f x)) (later a b) := by
  induction xs generalizing a with
  | nil => rfl
  | cons x xs ih => rw [List.foldl_cons, List.foldl_cons, ih, later_right_comm]

/-- The latest layer of the producers, taken a second time, is no later. -/
theorem foldl_later_foldl (f : ℕ → Option ℕ) (xs : List ℕ) (a : Option ℕ) :
    xs.foldl (fun best x => later best (f x)) (xs.foldl (fun best x => later best (f x)) a) =
      xs.foldl (fun best x => later best (f x)) a := by
  induction xs generalizing a with
  | nil => rfl
  | cons x xs ih => rw [List.foldl_cons, List.foldl_cons, later_foldl, later_absorb, ih]

/-- Producers come first, so a second pass over the producers finds nothing. -/
theorem producersLayer_fixed (lay : Layers) {i : ℕ} (hi : i ∈ g.nodes) :
    producersLayer g official (sweep (producersLayer g official) g.nodes lay) i =
      sweep (producersLayer g official) g.nodes lay i := by
  obtain ⟨pre, post, hsplit⟩ := List.append_of_mem hi
  have hnodup := g.nodup
  rw [hsplit] at hnodup
  generalize hf : producersLayer g official = f
  have hentry : sweep f g.nodes lay i = f (sweep f pre lay) i := by rw [hsplit, sweep_apply hnodup]
  have hsources : ∀ s ∈ (g.tensor i).sources, sweep f g.nodes lay s = sweep f pre lay s := by
    intro s hs
    by_cases hmem : s ∈ g.nodes
    · have hpre := mem_before hsplit hs hmem
      have hrest : s ∉ i :: post := fun hin => (List.nodup_append.mp hnodup).2.2 s hpre s hin rfl
      rw [hsplit, sweep, List.foldl_append]
      exact sweep_of_not_mem hrest _
    · have hpre : s ∉ pre := fun hin => hmem (by rw [hsplit]; exact List.mem_append_left _ hin)
      rw [sweep_of_not_mem hmem, sweep_of_not_mem hpre]
  subst hf
  by_cases hown : (ownLayer g official i).isSome = true
  · rw [producersLayer, if_pos hown]
  · have hfold : ∀ a, (g.tensor i).sources.foldl (fun best s =>
          later best (sweep (producersLayer g official) g.nodes lay s)) a =
        (g.tensor i).sources.foldl (fun best s =>
          later best (sweep (producersLayer g official) pre lay s)) a :=
      fun a => List.foldl_ext _ _ a fun best s hs => by rw [hsources s hs]
    rw [producersLayer, if_neg hown, hfold, hentry, producersLayer, if_neg hown]
    exact foldl_later_foldl ..

theorem loops_producers (lay : Layers) : Loops (producerRound g official (built g)) lay
    (saturate g.nodes (producerPass g official) (g.nodes.length + 1) lay) := by
  have hfixed : ∀ i ∈ g.nodes, producersLayer g official
      (sweep (producersLayer g official) g.nodes lay) i = sweep (producersLayer g official) g.nodes lay i :=
    fun i hi => producersLayer_fixed lay hi
  rw [producerRound_eq, producerPass_eq, saturate_sweep hfixed]
  exact loops_sweep g.nodup hfixed

/-- A pass that changes something leaves fewer nodes without a layer. -/
theorem loops_consumers (lay : Layers) : Loops (consumerRound g (built g)) lay
    (saturate g.nodes (consumerPass g) (g.nodes.length + 1) lay) := by
  have hsame : takeConsumers g (built g) = consumersLayer g := rfl
  rw [consumerRound_eq, hsame, consumerPass_eq]
  refine loops_saturate (motive := fun _ => True) g.nodup (fun t => (unplaced g t).length)
    (fun _ _ => trivial) ?_ trivial (Nat.lt_succ_of_le (List.length_filter_le ..))
  intro t _ i hi hne
  rw [← consumerPass_eq] at hne ⊢
  exact unplaced_lt hi hne

/-- On a built graph one pass over the producers and as many over the consumers as there are nodes suffice. -/
theorem collects_built (g : Graph) (official : ℕ → Option ℕ) :
    Collects g official (built g) (collectLayers g official) :=
  .intro (loops_producers _) (loops_consumers _)

end built

end LayerCover
end StreamMoE
