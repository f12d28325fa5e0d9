import Mathlib.Data.List.Flatten
import StreamMoE.LayerOrder
import StreamMoE.LayerSpread

/-! The reads between the layers of a captured graph, and when all of them go forward. -/
namespace StreamMoE
namespace LayerEdges

open ComputeGraph LayerCapture LayerSpread LayerOrder

section statement

variable (g : Graph) (official : ℕ → Option ℕ)

/-- No node reads a node of a later layer. -/
def NoBackwardEdges : Prop :=
  ∀ u v l l', Edge g u v → collectLayers g official u = some l →
    collectLayers g official v = some l' → l ≤ l'

def executionOrder : List ℕ := (layerKeys g official).flatMap (collectLayerNodes g official)

def ReadsAreBehind : Prop :=
  ∀ u v l l', Edge g u v → collectLayers g official u = some l →
    collectLayers g official v = some l' → [u, v].Sublist (executionOrder g official)

/-- A narrowing takes the layer of the first node that reads it. -/
noncomputable def taken : Layers := narrow g (spread g official)

/-- No reader is earlier than a node without owned ancestors, which takes the latest layer among the
nearest nodes that have one or, where it leads to none, the layer met last before it, nor earlier
than an out-ids narrowing. -/
structure InTurn : Prop where
  shared : ∀ k u v e l l', 0 < k → Nearest g official k u e → Edge g u v →
    isNarrowing g u = false → latest g official e = some l → taken g official v = some l' → l ≤ l'
  stray : ∀ u v l l', Edge g u v → isNarrowing g u = false → placed g official u = none →
    spread g official u = some l → taken g official v = some l' → l ≤ l'
  narrowing : ∀ u v l l', Edge g u v → isNarrowing g u = true → taken g official u = some l →
    taken g official v = some l' → l ≤ l'

/-- No node is an out-ids narrowing and every node has an owned ancestor or leads to a node
that has one. -/
structure Attached : Prop where
  plain : ∀ u, isNarrowing g u = false
  leads : ∀ u ∈ g.nodes, ∃ k e, Leads g official k u e

/-- Of the nodes with owned ancestors that a node without one leads to, none is of an earlier layer
than the nearest. -/
def NearestFirst : Prop :=
  ∀ k j u e e' l l', 0 < k → Nearest g official k u e → Leads g official j u e' →
    latest g official e = some l → latest g official e' = some l' → l ≤ l'

end statement

variable {g : Graph} {official : ℕ → Option ℕ} {u v l l' : ℕ}

section order

/-- Two entries of a strictly ascending list. -/
theorem pair_sublist {xs : List ℕ} (h : xs.Pairwise (· < ·)) (hl : l ∈ xs) (hl' : l' ∈ xs)
    (hlt : l < l') : [l, l'].Sublist xs := by
  obtain ⟨a, b, rfl⟩ := List.append_of_mem hl
  obtain ⟨_, hrest, hcross⟩ := List.pairwise_append.mp h
  have hb : l' ∈ b := by
    rcases List.mem_append.mp hl' with ha | hb
    · have hgt := hcross l' ha l List.mem_cons_self
      omega
    · rcases List.mem_cons.mp hb with rfl | hb
      · omega
      · exact hb
  exact ((List.singleton_sublist.mpr hb).cons_cons l).trans (List.sublist_append_right a _)

theorem sublist_nodes (h : Edge g u v) : [u, v].Sublist g.nodes := by
  obtain ⟨pre, post, hsplit⟩ := List.append_of_mem h.2.1
  have hu : u ∈ pre := mem_before hsplit h.2.2 h.1
  rw [hsplit]
  exact (List.singleton_sublist.mpr hu).append (List.singleton_sublist.mpr List.mem_cons_self)

theorem mem_layer (h : Edge g u v) (hu : collectLayers g official u = some l) :
    u ∈ collectLayerNodes g official l ∧ l ∈ layerKeys g official :=
  ⟨mem_collectLayerNodes.mpr ⟨h.1, hu⟩, mem_layerKeys.mpr ⟨u, h.1, hu⟩⟩

theorem readsAreBehind_iff : ReadsAreBehind g official ↔ NoBackwardEdges g official := by
  constructor
  · intro hbehind u v l l' hedge hu hv
    have hpairs : (executionOrder g official).Pairwise fun a b =>
        ∀ l l', collectLayers g official a = some l → collectLayers g official b = some l' → l ≤ l' := by
      have hsame : ∀ {k a}, a ∈ collectLayerNodes g official k → collectLayers g official a = some k :=
        fun ha => (mem_collectLayerNodes.mp ha).2
      refine List.pairwise_flatMap.mpr ⟨?_, ?_⟩
      · intro k _
        refine List.pairwise_of_forall_mem_list fun a ha b hb l l' hl hl' => ?_
        rw [hsame ha] at hl
        rw [hsame hb] at hl'
        cases hl
        cases hl'
        exact Nat.le_refl k
      · refine layerKeys_sorted.imp ?_
        intro k k' hlt a ha b hb l l' hl hl'
        rw [hsame ha] at hl
        rw [hsame hb] at hl'
        cases hl
        cases hl'
        exact Nat.le_of_lt hlt
    have hpair := hpairs.sublist (hbehind u v l l' hedge hu hv)
    exact (List.pairwise_cons.mp hpair).1 v (List.mem_singleton.mpr rfl) l l' hu hv
  · intro hforward u v l l' hedge hu hv
    have hv' : v ∈ collectLayerNodes g official l' ∧ l' ∈ layerKeys g official :=
      ⟨mem_collectLayerNodes.mpr ⟨hedge.2.1, hv⟩, mem_layerKeys.mpr ⟨v, hedge.2.1, hv⟩⟩
    obtain ⟨hmem, hkey⟩ := mem_layer hedge hu
    rcases Nat.lt_or_eq_of_le (hforward u v l l' hedge hu hv) with hlt | rfl
    · have hkeys := (pair_sublist layerKeys_sorted hkey hv'.2 hlt).flatMap (collectLayerNodes g official)
      simp only [List.flatMap_cons, List.flatMap_nil, List.append_nil] at hkeys
      exact ((List.singleton_sublist.mpr hmem).append (List.singleton_sublist.mpr hv'.1)).trans hkeys
    · have hfilter := (sublist_nodes hedge).filter fun p => decide (collectLayers g official p = some l)
      simp only [List.filter_cons, hu, hv, decide_true, if_true, List.filter_nil] at hfilter
      have hone := (List.singleton_sublist.mpr hkey).flatMap (collectLayerNodes g official)
      simp only [List.flatMap_cons, List.flatMap_nil, List.append_nil] at hone
      exact hfilter.trans hone

end order

section layers

theorem leads_zero {e : ℕ} (h : Leads g official 0 u e) : u = e := by
  cases h with
  | here => rfl

theorem nearest_self (h : latest g official u = some l) : Nearest g official 0 u u :=
  ⟨.here u (by simp [h]), fun _ _ _ => Nat.zero_le _⟩

theorem mem_placed {k e : ℕ} (h : Nearest g official k u e) (hl : latest g official e = some l) :
    ∃ m, placed g official u = some m ∧ l ≤ m := by
  have hgreatest : Greatest (nearLayers g official u) (placed g official u) := placed_greatest u
  have hmem : l ∈ nearLayers g official u := ⟨k, e, h, hl⟩
  cases hp : placed g official u with
  | none =>
    rw [hp] at hgreatest
    have hempty : nearLayers g official u = ∅ := hgreatest
    rw [hempty] at hmem
    cases hmem
  | some m =>
    rw [hp] at hgreatest
    exact ⟨m, rfl, hgreatest.2 hmem⟩

theorem nearest_of_placed (h : placed g official u = some l) :
    ∃ k e, Nearest g official k u e ∧ latest g official e = some l := by
  have hgreatest : Greatest (nearLayers g official u) (placed g official u) := placed_greatest u
  rw [h] at hgreatest
  exact hgreatest.1

theorem placed_of_latest (h : latest g official u = some l) : placed g official u = some l := by
  obtain ⟨m, hm, _⟩ := mem_placed (nearest_self h) h
  obtain ⟨k, e, hnear, hl⟩ := nearest_of_placed hm
  have hk := hnear.unique (nearest_self h)
  subst hk
  have he := leads_zero hnear.1
  rw [← he, h] at hl
  rw [hm, hl]

theorem spread_of_placed (h : placed g official u = some l) : spread g official u = some l := by
  rw [spread, met, h, Option.some_or]

theorem taken_of_plain (h : isNarrowing g u = false) : taken g official u = spread g official u := by
  rw [taken, narrow, if_neg (by simp [h])]

/-- A reader of a node with owned ancestors has them too. -/
theorem latest_le (hord : OwnOrdered g official) (h : Edge g u v) (hu : latest g official u = some l) :
    ∃ m, latest g official v = some m ∧ l ≤ m := by
  have hu' := latest_greatest hord u
  have hv' := latest_greatest hord v
  rw [hu] at hu'
  obtain ⟨q, hpath, hown⟩ := hu'.1
  have hmem : l ∈ ownAbove g official v := ⟨q, hpath.tail h, hown⟩
  cases hv : latest g official v with
  | none =>
    rw [hv] at hv'
    have hempty : ownAbove g official v = ∅ := hv'
    rw [hempty] at hmem
    cases hmem
  | some m =>
    rw [hv] at hv'
    exact ⟨m, rfl, hv'.2 hmem⟩

/-- A narrowing behind owned nodes moves on to a layer that is no earlier. -/
theorem taken_ge (hord : OwnOrdered g official) {m : ℕ} (hv : latest g official v = some m)
    (hmem : v ∈ g.nodes) (h : taken g official v = some l') : m ≤ l' := by
  have hspread := spread_of_placed (placed_of_latest hv)
  cases hn : isNarrowing g v with
  | false =>
    rw [taken_of_plain hn, hspread] at h
    cases h
    exact Nat.le_refl _
  | true =>
    rw [taken, narrow, if_pos ⟨hmem, hn⟩] at h
    cases hfirst : firstConsumerLayer g (spread g official) v with
    | none =>
      rw [hfirst, Option.none_or, hspread] at h
      cases h
      exact Nat.le_refl _
    | some x =>
      rw [hfirst, Option.some_or] at h
      cases h
      obtain ⟨c, hc, hlayer⟩ := List.exists_of_findSome?_eq_some hfirst
      split at hlayer
      · rename_i hreads
        obtain ⟨n, hn, hle⟩ := latest_le hord ⟨hmem, hc, hreads⟩ hv
        rw [spread_of_placed (placed_of_latest hn)] at hlayer
        cases hlayer
        exact hle
      · cases hlayer

end layers

theorem noBackwardEdges_iff_inTurn (hord : OwnOrdered g official) :
    NoBackwardEdges g official ↔ InTurn g official := by
  have hlayers : collectLayers g official = taken g official := collectLayers_eq hord
  unfold NoBackwardEdges
  rw [hlayers]
  constructor
  · intro hforward
    refine ⟨?_, ?_, fun u v l l' hedge _ => hforward u v l l' hedge⟩
    · intro k u v e l l' _ hnear hedge hplain hl hv
      obtain ⟨m, hm, hle⟩ := mem_placed hnear hl
      have hu : taken g official u = some m := by rw [taken_of_plain hplain, spread_of_placed hm]
      exact Nat.le_trans hle (hforward u v m l' hedge hu hv)
    · intro u v l l' hedge hplain _ hl hv
      exact hforward u v l l' hedge (by rw [taken_of_plain hplain, hl]) hv
  · intro hturn u v l l' hedge hu hv
    cases hn : isNarrowing g u with
    | true => exact hturn.narrowing u v l l' hedge hn hu hv
    | false =>
      rw [taken_of_plain hn] at hu
      cases hp : placed g official u with
      | none => exact hturn.stray u v l l' hedge hn hp hu hv
      | some m =>
        rw [spread_of_placed hp] at hu
        cases hu
        obtain ⟨k, e, hnear, hl⟩ := nearest_of_placed hp
        rcases Nat.eq_zero_or_pos k with rfl | hpos
        · have he := leads_zero hnear.1
          subst he
          obtain ⟨m, hm, hle⟩ := latest_le hord hedge hl
          exact Nat.le_trans hle (taken_ge hord hm hedge.2.1 hv)
        · exact hturn.shared k u v e l l' hpos hnear hedge hn hl hv

section attached

variable {k e : ℕ}

theorem placed_of_leads (h : Leads g official k u e) : ∃ m, placed g official u = some m := by
  obtain ⟨j, _, e', hnear⟩ := exists_nearest h
  obtain ⟨l, hl⟩ := Option.ne_none_iff_exists'.mp (latest_of_leads hnear.1)
  obtain ⟨m, hm, _⟩ := mem_placed hnear hl
  exact ⟨m, hm⟩

theorem taken_eq_placed (h : Attached g official) (hu : u ∈ g.nodes) :
    taken g official u = placed g official u := by
  obtain ⟨k, e, hleads⟩ := h.leads u hu
  obtain ⟨m, hm⟩ := placed_of_leads hleads
  rw [taken_of_plain (h.plain u), spread_of_placed hm, hm]

/-- Along the reads to a node with owned ancestors the layers go forward. -/
theorem placed_le_of_leads (hturn : InTurn g official) (h : Attached g official)
    (hleads : Leads g official k u e) (hu : placed g official u = some l)
    (he : latest g official e = some l') : l ≤ l' := by
  induction hleads generalizing l with
  | here e hlatest =>
    rw [placed_of_latest he] at hu
    cases hu
    exact Nat.le_refl _
  | read k u c e hlatest hop hedge hrest ih =>
    obtain ⟨m, hm⟩ := placed_of_leads hrest
    have hle := ih hm he
    obtain ⟨j, e', hnear, hl⟩ := nearest_of_placed hu
    have hpos : 0 < j := by
      rcases Nat.eq_zero_or_pos j with rfl | hpos
      · rw [leads_zero hnear.1, hl] at hlatest
        cases hlatest
      · exact hpos
    have hc : taken g official c = some m := by rw [taken_eq_placed h hedge.2.1, hm]
    exact Nat.le_trans (hturn.shared j u c e' l m hpos hnear hedge (h.plain u) hl hc) hle

theorem inTurn_iff_nearestFirst (h : Attached g official) :
    InTurn g official ↔ NearestFirst g official := by
  constructor
  · intro hturn k j u e e' l l' _ hnear hleads hl hl'
    obtain ⟨m, hm, hle⟩ := mem_placed hnear hl
    exact Nat.le_trans hle (placed_le_of_leads hturn h hleads hm hl')
  · intro hfirst
    refine ⟨?_, ?_, ?_⟩
    · intro k u v e l l' hpos hnear hedge _ hl hv
      rw [taken_eq_placed h hedge.2.1] at hv
      obtain ⟨j, e', hnear', hl'⟩ := nearest_of_placed hv
      have hnone : latest g official u = none := by
        by_contra hne
        obtain ⟨m, hm⟩ := Option.ne_none_iff_exists'.mp hne
        have hk := hnear.unique (nearest_self hm)
        omega
      have hop : g.op u ≠ .none := by
        cases hnear.1 with
        | here => exact absurd hpos (Nat.lt_irrefl 0)
        | read _ _ _ _ _ hop _ _ => exact hop
      exact hfirst k (j + 1) u e e' l l' hpos hnear (.read j u v e' hnone hop hedge hnear'.1) hl hl'
    · intro u v l l' hedge _ hnone _ _
      obtain ⟨k, e, hleads⟩ := h.leads u hedge.1
      obtain ⟨m, hm⟩ := placed_of_leads hleads
      rw [hnone] at hm
      cases hm
    · intro u v l l' _ hnarrow _ _
      rw [h.plain u] at hnarrow
      cases hnarrow

end attached

/-- With the owned nodes in order along every path, the reads between the layers go forward, and the
layer lists one after another compute what a node reads before it, exactly when the other nodes are
in turn; where those all lead to nodes with owned ancestors, when the nearest of these come first. -/
theorem no_backward_edges_iff (hord : OwnOrdered g official) :
    ((NoBackwardEdges g official ∧ ReadsAreBehind g official) ↔ InTurn g official) ∧
    (Attached g official → (InTurn g official ↔ NearestFirst g official)) := by
  rw [readsAreBehind_iff, and_self, noBackwardEdges_iff_inTurn hord]
  exact ⟨Iff.rfl, inTurn_iff_nearestFirst⟩

section mask

theorem le_of_path (h : Relation.ReflTransGen (Edge g) u v) : u ≤ v := by
  induction h with
  | refl => exact Nat.le_refl u
  | tail _ hedge ih => exact Nat.le_trans ih (Nat.le_of_lt ((g.conforms _).src_lt _ hedge.2.2))

theorem ownOrdered_of_ascending (h : ∀ u ∈ g.nodes, ∀ v ∈ g.nodes, u ≤ v →
    ∀ l ∈ ownLayer g official u, ∀ l' ∈ ownLayer g official v, l ≤ l') : OwnOrdered g official := by
  have hown : ∀ {p l}, ownedLayers g official p = some l → p ∈ g.nodes ∧ ownLayer g official p = some l := by
    intro p l hl
    unfold ownedLayers at hl
    split at hl
    · rename_i hp
      exact ⟨hp, hl⟩
    · cases hl
  intro u v l l' hpath hu hv
  exact h u (hown hu).1 v (hown hv).1 (le_of_path hpath) l (hown hu).2 l' (hown hv).2

theorem ownOrdered_mask : OwnOrdered maskGraph fun _ => none := ownOrdered_of_ascending (by decide)

theorem ownOrdered_residual : OwnOrdered residualGraph fun _ => none :=
  ownOrdered_of_ascending (by decide)

theorem backward_edge_mask : Edge maskGraph 1 2 ∧ collectLayers maskGraph (fun _ => none) 1 = some 1 ∧
    collectLayers maskGraph (fun _ => none) 2 = some 0 :=
  ⟨⟨by decide, by decide, by decide⟩, by decide, by decide⟩

theorem not_no_backward_edges : ¬ ∀ (g : Graph) (official : ℕ → Option ℕ), OwnOrdered g official →
    NoBackwardEdges g official ∧ ReadsAreBehind g official := by
  intro hall
  obtain ⟨hforward, _⟩ := hall maskGraph (fun _ => none) ownOrdered_mask
  obtain ⟨hedge, hone, hzero⟩ := backward_edge_mask
  have hle := hforward 1 2 1 0 hedge hone hzero
  omega

/-- Two layers without a shared mask are in turn, those with one are not. -/
theorem no_backward_edges_iff_residual :
    InTurn residualGraph (fun _ => none) ∧ ¬ InTurn maskGraph fun _ => none := by
  have hresidual : NoBackwardEdges residualGraph fun _ => none := by
    have hall : ∀ u ∈ residualGraph.nodes, ∀ v ∈ residualGraph.nodes,
        u ∈ (residualGraph.tensor v).sources → ∀ l ∈ collectLayers residualGraph (fun _ => none) u,
          ∀ l' ∈ collectLayers residualGraph (fun _ => none) v, l ≤ l' := by
      decide
    exact fun u v l l' hedge hu hv => hall u hedge.1 v hedge.2.1 hedge.2.2 l hu l' hv
  constructor
  · exact (no_backward_edges_iff ownOrdered_residual).1.mp ⟨hresidual, readsAreBehind_iff.mpr hresidual⟩
  · intro hturn
    obtain ⟨hforward, _⟩ := (no_backward_edges_iff ownOrdered_mask).1.mpr hturn
    obtain ⟨hedge, hone, hzero⟩ := backward_edge_mask
    have hle := hforward 1 2 1 0 hedge hone hzero
    omega

end mask

end LayerEdges
end StreamMoE
