import Mathlib.Data.List.Flatten
import StreamMoE.ArenaLayout
import StreamMoE.LayerOrder

/-! The parts of the layers as one list of nodes: its order against the layers, the submission units
and the times inside a unit. -/
namespace StreamMoE
namespace UnitOrder

open ComputeGraph LayerPlan LayerPlan.Capture ArenaLayout

/-- The expert closures are parts of their layers. -/
structure Closures (c : Capture) : Prop where
  inside : ∀ L ∈ c.layers, ∀ p ∈ c.compute L, p ∈ c.layerNodes L
  nodup : ∀ L ∈ c.layers, (c.compute L).Nodup

/-- The captured nodes as they run. -/
def order (c : Capture) : List ℕ := (layerSteps c.layers).flatMap c.stepNodes

/-- The place of a node in the run. -/
def pos (c : Capture) (p : ℕ) : ℕ := (order c).idxOf p

variable {c : Capture} {p q L l l' : ℕ}

section nodes

theorem mem_head : p ∈ c.head L ↔ p ∈ c.layerNodes L ∧ p ∉ c.compute L ∧ c.down L p = false := by
  simp [head]

theorem mem_tail : p ∈ c.tail L ↔ p ∈ c.layerNodes L ∧ p ∉ c.compute L ∧ c.down L p = true := by
  simp [tail]

theorem mem_part (h : Closures c) (hL : L ∈ c.layers) :
    p ∈ c.head L ∨ p ∈ c.compute L ∨ p ∈ c.tail L ↔ p ∈ c.layerNodes L := by
  rw [mem_head, mem_tail]
  constructor
  · rintro (⟨hp, _⟩ | hp | ⟨hp, _⟩)
    · exact hp
    · exact h.inside L hL p hp
    · exact hp
  · intro hp
    by_cases hcompute : p ∈ c.compute L
    · exact .inr (.inl hcompute)
    · cases hdown : c.down L p with
      | false => exact .inl ⟨hp, hcompute, rfl⟩
      | true => exact .inr (.inr ⟨hp, hcompute, rfl⟩)

theorem order_eq : order c = c.layers.flatMap fun L => c.head L ++ c.compute L ++ c.tail L := by
  simp [order, layerSteps, List.flatMap_assoc, stepNodes]

theorem mem_order (h : Closures c) : p ∈ order c ↔ ∃ L, c.nlayer p = some L := by
  simp only [order_eq, List.mem_flatMap, List.mem_append, or_assoc, nlayer_eq_some]
  constructor
  · rintro ⟨L, hL, hp⟩
    exact ⟨L, (mem_part h hL).mp hp⟩
  · rintro ⟨L, hp⟩
    have hL : L ∈ c.layers := mem_layers.mpr ⟨p, hp⟩
    exact ⟨L, hL, (mem_part h hL).mpr hp⟩

theorem nodup_layerNodes : (c.layerNodes L).Nodup := c.graph.nodup.filter _

theorem nodup_part (h : Closures c) (hL : L ∈ c.layers) :
    (c.head L ++ c.compute L ++ c.tail L).Nodup := by
  have hhead : (c.head L).Nodup := nodup_layerNodes.filter _
  have htail : (c.tail L).Nodup := nodup_layerNodes.filter _
  refine List.nodup_append.mpr ⟨List.nodup_append.mpr ⟨hhead, h.nodup L hL, ?_⟩, htail, ?_⟩
  · rintro p hp q hq rfl
    exact (mem_head.mp hp).2.1 hq
  · rintro p hp q hq rfl
    obtain ⟨_, hcompute, hdown⟩ := mem_tail.mp hq
    rcases List.mem_append.mp hp with hp | hp
    · rw [(mem_head.mp hp).2.2] at hdown
      cases hdown
    · exact hcompute hp

theorem nodup_order (h : Closures c) : (order c).Nodup := by
  rw [order_eq]
  refine List.nodup_flatMap.mpr ⟨fun L hL => nodup_part h hL, ?_⟩
  refine layers_sorted.imp_of_mem ?_
  intro L L' hL hL' hlt p hp hp'
  simp only [List.mem_append, or_assoc] at hp hp'
  have hp := nlayer_eq_some.mpr ((mem_part h hL).mp hp)
  have hp' := nlayer_eq_some.mpr ((mem_part h hL').mp hp')
  rw [hp] at hp'
  cases hp'
  omega

/-- Earlier layers come first. -/
theorem order_layers (h : Closures c) : (order c).Pairwise fun p q => ∀ l l', c.nlayer p = some l →
    c.nlayer q = some l' → l ≤ l' := by
  have hpart : ∀ {L p}, L ∈ c.layers → p ∈ c.head L ++ c.compute L ++ c.tail L → c.nlayer p = some L := by
    intro L p hL hp
    simp only [List.mem_append, or_assoc] at hp
    exact nlayer_eq_some.mpr ((mem_part h hL).mp hp)
  rw [order_eq]
  refine List.pairwise_flatMap.mpr ⟨fun L hL => ?_, layers_sorted.imp_of_mem ?_⟩
  · refine List.pairwise_of_forall_mem_list fun p hp q hq l l' hl hl' => ?_
    rw [hpart hL hp] at hl
    rw [hpart hL hq] at hl'
    cases hl
    cases hl'
    exact Nat.le_refl L
  · intro L L' hL hL' hlt p hp q hq l l' hl hl'
    rw [hpart hL hp] at hl
    rw [hpart hL' hq] at hl'
    cases hl
    cases hl'
    exact Nat.le_of_lt hlt

theorem pos_inj (h : Closures c) (hp : c.nlayer p = some l) (heq : pos c p = pos c q) : p = q :=
  (List.idxOf_inj ((mem_order h).mpr ⟨l, hp⟩)).mp heq

theorem getElem_pos (h : Closures c) (hp : c.nlayer p = some l) :
    ∃ hlt : pos c p < (order c).length, (order c)[pos c p] = p :=
  ⟨List.idxOf_lt_length_iff.mpr ((mem_order h).mpr ⟨l, hp⟩), List.getElem_idxOf _⟩

theorem order_pos (h : Closures c) : (order c).Pairwise fun p q => pos c p < pos c q := by
  refine List.pairwise_iff_getElem.mpr fun i j hi hj hlt => ?_
  rw [pos, pos, (nodup_order h).idxOf_getElem, (nodup_order h).idxOf_getElem]
  exact hlt

theorem layer_le_of_pos (h : Closures c) (hp : c.nlayer p = some l) (hq : c.nlayer q = some l')
    (hlt : pos c p < pos c q) : l ≤ l' := by
  obtain ⟨hi, hpe⟩ := getElem_pos h hp
  obtain ⟨hj, hqe⟩ := getElem_pos h hq
  have hpair := List.pairwise_iff_getElem.mp (order_layers h) _ _ hi hj hlt
  rw [hpe, hqe] at hpair
  exact hpair l l' hp hq

theorem pos_lt_of_layer (h : Closures c) (hp : c.nlayer p = some l) (hq : c.nlayer q = some l')
    (hlt : l < l') : pos c p < pos c q := by
  by_contra hnot
  rcases Nat.lt_or_eq_of_le (Nat.le_of_not_lt hnot) with hgt | heq
  · have hle := layer_le_of_pos h hq hp hgt
    omega
  · rw [pos_inj h hq heq, hp] at hq
    cases hq
    omega

end nodes

section units

variable {u v : SubmissionUnit} {i j : ℕ}

theorem order_units : c.units.flatMap SubmissionUnit.nodes = order c := units_nodes

theorem mem_nextHead {rest : List ℕ} (h : p ∈ c.nextHead rest) : ∃ L ∈ rest, p ∈ c.head L ∧
    rest.head? = some L := by
  cases rest with
  | nil => cases h
  | cons L rest => exact ⟨L, List.mem_cons_self, h, rfl⟩

theorem mem_closureUnit {rest : List ℕ} (hin : ∀ p ∈ c.compute L, p ∈ c.layerNodes L)
    (h : p ∈ c.compute L ++ c.tail L ++ c.nextHead rest) :
    c.nlayer p = some L ∧ p ∉ c.head L ∨
      ∃ L' ∈ rest, c.nlayer p = some L' ∧ p ∈ c.head L' ∧ rest.head? = some L' := by
  simp only [List.mem_append, or_assoc] at h
  rcases h with hp | hp | hp
  · exact .inl ⟨nlayer_eq_some.mpr (hin p hp), fun hhead => (mem_head.mp hhead).2.1 hp⟩
  · obtain ⟨hlayer, _, hdown⟩ := mem_tail.mp hp
    refine .inl ⟨nlayer_eq_some.mpr hlayer, fun hhead => ?_⟩
    rw [(mem_head.mp hhead).2.2] at hdown
    cases hdown
  · obtain ⟨L', hL', hhead, hfirst⟩ := mem_nextHead hp
    exact .inr ⟨L', hL', nlayer_eq_some.mpr (mem_head.mp hhead).1, hhead, hfirst⟩

/-- What the units from some layer on hold, the first head left out if it is taken. -/
theorem mem_unitsFrom {layers : List ℕ} (hsorted : layers.Pairwise (· < ·))
    (h : ∀ L ∈ layers, ∀ p ∈ c.compute L, p ∈ c.layerNodes L)
    {taken : Bool} (hu : u ∈ c.unitsFrom taken layers) (hp : p ∈ u.nodes) :
    ∃ L ∈ layers, c.nlayer p = some L ∧ (taken = true → layers.head? = some L → p ∉ c.head L) := by
  induction layers generalizing taken with
  | nil => cases hu
  | cons L rest ih =>
    obtain ⟨hL, hrest⟩ := List.pairwise_cons.mp hsorted
    obtain ⟨hin, hins⟩ := List.forall_mem_cons.mp h
    have hlater : ∀ L' ∈ rest, c.nlayer p = some L' → ∃ L₁ ∈ L :: rest, c.nlayer p = some L₁ ∧
        (taken = true → (L :: rest).head? = some L₁ → p ∉ c.head L₁) := by
      intro L' hL' hlayer
      refine ⟨L', List.mem_cons_of_mem _ hL', hlayer, fun _ hfirst => ?_⟩
      cases hfirst
      exact absurd (hL L hL') (Nat.lt_irrefl L)
    rw [unitsFrom, List.mem_append, List.mem_cons] at hu
    rcases hu with hu | rfl | hu
    · split at hu
      · rename_i hfree
        rw [List.mem_singleton] at hu
        subst hu
        have hfree : taken = false := by simp_all
        refine ⟨L, List.mem_cons_self, nlayer_eq_some.mpr (mem_head.mp hp).1, fun htaken => ?_⟩
        rw [hfree] at htaken
        cases htaken
      · cases hu
    · rcases mem_closureUnit hin hp with ⟨hlayer, hhead⟩ | ⟨L', hL', hlayer, _⟩
      · exact ⟨L, List.mem_cons_self, hlayer, fun _ _ => hhead⟩
      · exact hlater L' hL' hlayer
    · obtain ⟨L', hL', hlayer, _⟩ := ih hrest hins hu
      exact hlater L' hL' hlayer

/-- Between two units the layers rise, or the first ends with the head of a layer that the second
goes on with. -/
def Rises (c : Capture) (u v : SubmissionUnit) : Prop :=
  ∀ p ∈ u.nodes, ∀ q ∈ v.nodes, ∀ l l', c.nlayer p = some l → c.nlayer q = some l' →
    l < l' ∨ l = l' ∧ p ∈ c.head l ∧ q ∉ c.head l

theorem unitsFrom_rises {layers : List ℕ} (hsorted : layers.Pairwise (· < ·))
    (h : ∀ L ∈ layers, ∀ p ∈ c.compute L, p ∈ c.layerNodes L) (taken : Bool) :
    (c.unitsFrom taken layers).Pairwise (Rises c) := by
  induction layers generalizing taken with
  | nil => exact List.Pairwise.nil
  | cons L rest ih =>
    obtain ⟨hL, hrest⟩ := List.pairwise_cons.mp hsorted
    obtain ⟨hin, hins⟩ := List.forall_mem_cons.mp h
    have hhead : ∀ v ∈ (⟨c.compute L ++ c.tail L ++ c.nextHead rest, some L⟩ : SubmissionUnit) ::
        c.unitsFrom (decide (c.nextHead rest ≠ [])) rest, Rises c ⟨c.head L, none⟩ v := by
      intro v hv p hp q hq l l' hl hl'
      have hlayer := nlayer_eq_some.mpr (mem_head.mp hp).1
      rw [hlayer] at hl
      cases hl
      rcases List.mem_cons.mp hv with rfl | hv
      · rcases mem_closureUnit hin hq with ⟨hq', hnot⟩ | ⟨L', hL', hq', _⟩
        · rw [hq'] at hl'
          cases hl'
          exact .inr ⟨rfl, hp, hnot⟩
        · rw [hq'] at hl'
          cases hl'
          exact .inl (hL _ hL')
      · obtain ⟨L', hL', hq', _⟩ := mem_unitsFrom hrest hins hv hq
        rw [hq'] at hl'
        cases hl'
        exact .inl (hL _ hL')
    have hclosure : ∀ v ∈ c.unitsFrom (decide (c.nextHead rest ≠ [])) rest,
        Rises c ⟨c.compute L ++ c.tail L ++ c.nextHead rest, some L⟩ v := by
      intro v hv p hp q hq l l' hl hl'
      obtain ⟨L₂, hL₂, hq', hnot⟩ := mem_unitsFrom hrest hins hv hq
      rw [hq'] at hl'
      cases hl'
      rcases mem_closureUnit hin hp with ⟨hp', _⟩ | ⟨L', hL', hp', hhead', hfirst⟩
      · rw [hp'] at hl
        cases hl
        exact .inl (hL _ hL₂)
      · rw [hp'] at hl
        cases hl
        -- the head of the next layer, which is taken
        by_cases heq : l = l'
        · subst heq
          have htaken : c.nextHead rest ≠ [] := by
            rw [List.head?_eq_some_iff] at hfirst
            obtain ⟨rest', rfl⟩ := hfirst
            exact List.ne_nil_of_mem hhead'
          exact .inr ⟨rfl, hhead', hnot (decide_eq_true htaken) hfirst⟩
        · rw [List.head?_eq_some_iff] at hfirst
          obtain ⟨rest', rfl⟩ := hfirst
          rcases List.mem_cons.mp hL₂ with rfl | hmem
          · exact absurd rfl heq
          · exact .inl ((List.pairwise_cons.mp hrest).1 _ hmem)
    rw [unitsFrom]
    have htail := List.pairwise_cons.mpr ⟨hclosure, ih hrest hins (decide (c.nextHead rest ≠ []))⟩
    split
    · exact List.pairwise_cons.mpr ⟨hhead, htail⟩
    · exact htail

theorem units_rise (h : Closures c) : c.units.Pairwise (Rises c) :=
  unitsFrom_rises layers_sorted h.inside false

/-- The nodes of a layer are in two units at most. -/
theorem not_three_units (h : Closures c) {k : ℕ} {w : SubmissionUnit} (hi : c.units[i]? = some u)
    (hj : c.units[j]? = some v) (hk : c.units[k]? = some w) (hij : i < j) (hjk : j < k) {r : ℕ}
    (hp : p ∈ u.nodes) (hq : q ∈ v.nodes) (hr : r ∈ w.nodes) (hpl : c.nlayer p = some l)
    (hql : c.nlayer q = some l) (hrl : c.nlayer r = some l) : False := by
  have hpair := List.pairwise_iff_getElem.mp (units_rise h)
  obtain ⟨hilt, rfl⟩ := List.getElem?_eq_some_iff.mp hi
  obtain ⟨hjlt, rfl⟩ := List.getElem?_eq_some_iff.mp hj
  obtain ⟨hklt, rfl⟩ := List.getElem?_eq_some_iff.mp hk
  rcases hpair i j hilt hjlt hij p hp q hq l l hpl hql with hlt | ⟨_, _, hnot⟩
  · exact Nat.lt_irrefl l hlt
  · rcases hpair j k hjlt hklt hjk q hq r hr l l hql hrl with hlt | ⟨_, hhead, _⟩
    · exact Nat.lt_irrefl l hlt
    · exact hnot hhead

/-- The place of the first node of a unit. -/
def unitStart (c : Capture) (k : ℕ) : ℕ := ((c.units.take k).flatMap SubmissionUnit.nodes).length

theorem order_split (hk : c.units[i]? = some u) :
    ∃ A B, order c = A ++ u.nodes ++ B ∧ A.length = unitStart c i := by
  obtain ⟨hlt, rfl⟩ := List.getElem?_eq_some_iff.mp hk
  refine ⟨(c.units.take i).flatMap SubmissionUnit.nodes, (c.units.drop (i + 1)).flatMap SubmissionUnit.nodes,
    ?_, rfl⟩
  have hsplit : c.units = c.units.take i ++ c.units[i] :: c.units.drop (i + 1) := by simp
  rw [← order_units]
  calc c.units.flatMap SubmissionUnit.nodes
      = (c.units.take i ++ c.units[i] :: c.units.drop (i + 1)).flatMap SubmissionUnit.nodes :=
        congrArg (List.flatMap SubmissionUnit.nodes) hsplit
    _ = _ := by rw [List.flatMap_append, List.flatMap_cons, List.append_assoc]

theorem nodup_unit (h : Closures c) (hk : c.units[i]? = some u) : u.nodes.Nodup := by
  obtain ⟨A, B, horder, _⟩ := order_split hk
  have hnodup := nodup_order h
  rw [horder] at hnodup
  exact (List.nodup_append.mp (List.nodup_append.mp hnodup).1).2.1

theorem unitOrder_eq (h : u.nodes.Nodup) : unitOrder u = u.nodes := by
  have hfold : ∀ l acc : List ℕ, (acc ++ l).Nodup →
      l.foldl (fun acc x => if x ∈ acc then acc else acc ++ [x]) acc = acc ++ l := by
    intro l
    induction l with
    | nil => exact fun acc _ => (List.append_nil acc).symm
    | cons x l ih =>
      intro acc hacc
      have hx : x ∉ acc := fun hx => (List.nodup_append.mp hacc).2.2 x hx x List.mem_cons_self rfl
      have hacc' : (acc ++ [x] ++ l).Nodup := by simpa using hacc
      rw [List.foldl_cons, if_neg hx, ih _ hacc', List.append_assoc, List.singleton_append]
  exact hfold u.nodes [] h

theorem pos_eq (h : Closures c) (hk : c.units[i]? = some u) (hp : p ∈ u.nodes) :
    pos c p = unitStart c i + etime u p := by
  obtain ⟨A, B, horder, hlen⟩ := order_split hk
  have hnodup := nodup_order h
  rw [horder] at hnodup
  have hA : p ∉ A := fun hA => (List.nodup_append.mp (List.nodup_append.mp hnodup).1).2.2 p hA p hp rfl
  rw [pos, horder, List.append_assoc, List.idxOf_append_of_notMem hA, List.idxOf_append_of_mem hp, hlen,
    etime, unitOrder_eq (nodup_unit h hk)]

theorem etime_lt_length (h : Closures c) (hk : c.units[i]? = some u) (hp : p ∈ u.nodes) :
    etime u p < (unitOrder u).length := by
  rw [etime, unitOrder_eq (nodup_unit h hk)]
  exact List.idxOf_lt_length_iff.mpr hp

theorem unitStart_le (hij : i < j) (hi : c.units[i]? = some u) :
    unitStart c i + u.nodes.length ≤ unitStart c j := by
  obtain ⟨hlt, rfl⟩ := List.getElem?_eq_some_iff.mp hi
  have hpre : c.units.take (i + 1) <+: c.units.take j := List.take_prefix_take_left (by omega)
  have hlen := (hpre.sublist.flatMap SubmissionUnit.nodes).length_le
  rw [List.take_succ_eq_append_getElem hlt, List.flatMap_append, List.length_append] at hlen
  simpa [unitStart] using hlen

theorem pos_lt_of_unit (h : Closures c) (hi : c.units[i]? = some u) (hj : c.units[j]? = some v)
    (hp : p ∈ u.nodes) (hq : q ∈ v.nodes) (hij : i < j) : pos c p < pos c q := by
  have hstart := unitStart_le hij hi
  have htime := etime_lt_length h hi hp
  rw [unitOrder_eq (nodup_unit h hi)] at htime
  rw [pos_eq h hi hp, pos_eq h hj hq]
  omega

theorem unit_inj (h : Closures c) (hi : c.units[i]? = some u) (hj : c.units[j]? = some v)
    (hp : p ∈ u.nodes) (hq : p ∈ v.nodes) : i = j := by
  rcases Nat.lt_trichotomy i j with hlt | heq | hgt
  · exact absurd (pos_lt_of_unit h hi hj hp hq hlt) (Nat.lt_irrefl _)
  · exact heq
  · exact absurd (pos_lt_of_unit h hj hi hq hp hgt) (Nat.lt_irrefl _)

theorem exists_unit (h : Closures c) (hp : c.nlayer p = some l) :
    ∃ (i : ℕ) (u : SubmissionUnit), c.units[i]? = some u ∧ p ∈ u.nodes := by
  have hmem := (mem_order h).mpr ⟨l, hp⟩
  rw [← order_units] at hmem
  obtain ⟨u, hu, hp⟩ := List.mem_flatMap.mp hmem
  obtain ⟨i, hi, rfl⟩ := List.mem_iff_getElem.mp hu
  exact ⟨i, _, List.getElem?_eq_getElem hi, hp⟩

theorem unitOf_eq (h : Closures c) (hi : c.units[i]? = some u) (hp : p ∈ u.nodes) :
    unitOf c p = some i := by
  have hlt := (List.getElem?_eq_some_iff.mp hi).1
  simp only [unitOf]
  cases hf : (List.range c.units.length).reverse.find? fun k =>
      decide (p ∈ (c.units[k]?.map SubmissionUnit.nodes).getD []) with
  | none =>
    have hnot := List.find?_eq_none.mp hf i (List.mem_reverse.mpr (List.mem_range.mpr hlt))
    simp [hi, hp] at hnot
  | some k =>
    have hk := List.find?_some hf
    cases hv : c.units[k]? with
    | none => simp [hv] at hk
    | some v =>
      have hmem : p ∈ v.nodes := by simpa [hv] using hk
      rw [Option.some_or, unit_inj h hi hv hp hmem]

end units

end UnitOrder
end StreamMoE
