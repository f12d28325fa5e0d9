import Mathlib.Order.Lattice.Nat
import Mathlib.Logic.Relation
import StreamMoE.LayerCapture

/-! How layers spread over a graph: to what is computed from a node of a layer, from there back to
what such nodes read, and to the rest by the order of the nodes. -/
namespace StreamMoE
namespace LayerSpread

open ComputeGraph LayerCapture Saturation

section greatest

def Greatest (S : Set ℕ) : Option ℕ → Prop
  | none => S = ∅
  | some l => IsGreatest S l

open Classical in
noncomputable def latestOf (S : Set ℕ) : Option ℕ := if S.Nonempty then some (sSup S) else none

variable {S T : Set ℕ} {a b : Option ℕ}

theorem Greatest.eq (h : Greatest S a) : latestOf S = a := by
  cases a with
  | none =>
    have hempty : S = ∅ := h
    rw [latestOf, if_neg (by simp [hempty])]
  | some l =>
    have hgreatest : IsGreatest S l := h
    rw [latestOf, if_pos hgreatest.nonempty, hgreatest.csSup_eq]

theorem Greatest.later (h : Greatest S a) (h' : Greatest T b) : Greatest (S ∪ T) (later a b) := by
  cases a with
  | none =>
    have hempty : S = ∅ := h
    rw [hempty, Set.empty_union]
    exact h'
  | some l =>
    have hl : IsGreatest S l := h
    cases b with
    | none =>
      have hempty : T = ∅ := h'
      rw [hempty, Set.union_empty]
      exact h
    | some l' => exact hl.union h'

/-- The loops over the producers and over the consumers of a node. -/
theorem Greatest.foldl {f : ℕ → Option ℕ} {F : ℕ → Set ℕ} {xs : List ℕ}
    (h : ∀ x ∈ xs, Greatest (F x) (f x)) (ha : Greatest S a) :
    Greatest (S ∪ {l | ∃ x ∈ xs, l ∈ F x}) (xs.foldl (fun best x => LayerCapture.later best (f x)) a) := by
  induction xs generalizing S a with
  | nil => simpa using ha
  | cons x xs ih =>
    have hrest := ih (fun y hy => h y (List.mem_cons_of_mem x hy)) (ha.later (h x List.mem_cons_self))
    have hset : S ∪ F x ∪ {l | ∃ y ∈ xs, l ∈ F y} = S ∪ {l | ∃ y ∈ x :: xs, l ∈ F y} := by
      ext l
      simp [or_assoc]
    rw [hset] at hrest
    exact hrest

end greatest

section spread

variable (g : Graph) (official : ℕ → Option ℕ)

/-- Node `v` reads node `u`. -/
def Edge (u v : ℕ) : Prop := u ∈ g.nodes ∧ v ∈ g.nodes ∧ u ∈ (g.tensor v).sources

/-- The layers that own `p` or a node `p` is computed from. -/
def ownAbove (p : ℕ) : Set ℕ :=
  {l | ∃ q, Relation.ReflTransGen (Edge g) q p ∧ ownedLayers g official q = some l}

/-- The owned nodes have non-decreasing layers along every path. -/
def OwnOrdered : Prop :=
  ∀ p q l l', Relation.ReflTransGen (Edge g) p q → ownedLayers g official p = some l →
    ownedLayers g official q = some l' → l ≤ l'

noncomputable def latest (p : ℕ) : Option ℕ := latestOf (ownAbove g official p)

/-- In `k` reads, compute node `u` reaches the node `e` that has an owned ancestor, the nodes on the
way having none. -/
inductive Leads : ℕ → ℕ → ℕ → Prop
  | here (e : ℕ) : latest g official e ≠ none → Leads 0 e e
  | read (k u c e : ℕ) : latest g official u = none → g.op u ≠ .none → Edge g u c → Leads k c e →
      Leads (k + 1) u e

/-- No fewer reads reach a node with an owned ancestor. -/
def Nearest (k u e : ℕ) : Prop :=
  Leads g official k u e ∧ ∀ j e', Leads g official j u e' → k ≤ j

/-- The layers of the nearest nodes with owned ancestors. -/
def nearLayers (u : ℕ) : Set ℕ :=
  {l | ∃ k e, Nearest g official k u e ∧ latest g official e = some l}

/-- The layer of a node with an owned ancestor, and of one that leads to such nodes. -/
noncomputable def placed (u : ℕ) : Option ℕ := latestOf (nearLayers g official u)

/-- The nodes before `p`, the last one first. -/
def before (p : ℕ) : List ℕ := (g.nodes.takeWhile (· ≠ p)).reverse

def behind (p : ℕ) : List ℕ := (g.nodes.dropWhile (· ≠ p)).tail

/-- The layer met last before `p`, or first behind it. -/
def met (lay : Layers) (p : ℕ) : Option ℕ :=
  (lay p).or
    (if p ∈ g.nodes ∧ g.op p ≠ .none then
      ((before g p).findSome? lay).or ((behind g p).findSome? lay)
    else none)

/-- The layers before the out-ids narrowings are moved. -/
noncomputable def spread : Layers := met g (placed g official)

end spread

section producers

variable {g : Graph} {official : ℕ → Option ℕ} {i p q : ℕ}

/-- What the first pass makes of an entry. -/
def producersLayer (g : Graph) (official : ℕ → Option ℕ) (lay : Layers) (i : ℕ) : Option ℕ :=
  if (ownLayer g official i).isSome then lay i
  else (g.tensor i).sources.foldl (fun best s => LayerCapture.later best (lay s)) (lay i)

theorem producerPass_eq :
    producerPass g official = sweep (producersLayer g official) g.nodes := by
  have hstep : producerStep g official =
      fun lay i => Function.update lay i (producersLayer g official lay i) := by
    funext lay i
    unfold producerStep producersLayer
    split
    · rw [Function.update_eq_self]
    · rfl
  funext lay
  rw [producerPass, sweep, hstep]

/-- A producer comes first. -/
theorem mem_before {pre post : List ℕ} (hsplit : g.nodes = pre ++ i :: post) {s : ℕ}
    (hs : s ∈ (g.tensor i).sources) (hmem : s ∈ g.nodes) : s ∈ pre := by
  have htop := g.topological
  have hlt := (g.conforms i).src_lt s hs
  rw [hsplit] at htop hmem
  rcases List.mem_append.mp hmem with hpre | hrest
  · exact hpre
  · rcases List.mem_cons.mp hrest with rfl | hpost
    · exact absurd hlt (Nat.lt_irrefl s)
    · have hnot := (List.pairwise_cons.mp (List.pairwise_append.mp htop).2.1).1 s hpost
      exact absurd hs hnot

theorem ownAbove_of_not_mem (h : p ∉ g.nodes) : ownAbove g official p = ∅ := by
  rw [Set.eq_empty_iff_forall_notMem]
  rintro l ⟨q, hpath, hown⟩
  rcases Relation.ReflTransGen.cases_tail hpath with rfl | ⟨r, _, hedge⟩
  · rw [ownedLayers, if_neg h] at hown
    cases hown
  · exact h hedge.2.1

theorem ownAbove_eq (h : p ∈ g.nodes) : ownAbove g official p =
    {l | ownedLayers g official p = some l} ∪
      {l | ∃ s ∈ (g.tensor p).sources, l ∈ ownAbove g official s} := by
  ext l
  constructor
  · rintro ⟨q, hpath, hown⟩
    rcases Relation.ReflTransGen.cases_tail hpath with rfl | ⟨s, hrest, hedge⟩
    · exact .inl hown
    · exact .inr ⟨s, hedge.2.2, q, hrest, hown⟩
  · rintro (hown | ⟨s, hs, q, hpath, hown⟩)
    · exact ⟨p, .refl, hown⟩
    · by_cases hmem : s ∈ g.nodes
      · exact ⟨q, hpath.tail ⟨hmem, h, hs⟩, hown⟩
      · have hempty : l ∈ ownAbove g official s := ⟨q, hpath, hown⟩
        rw [ownAbove_of_not_mem hmem] at hempty
        cases hempty

theorem ownedLayers_eq (h : p ∈ g.nodes) : ownedLayers g official p = ownLayer g official p :=
  if_pos h

theorem greatest_own (hord : OwnOrdered g official) {l : ℕ}
    (h : ownedLayers g official p = some l) : IsGreatest (ownAbove g official p) l :=
  ⟨⟨p, .refl, h⟩, fun l' ⟨q, hpath, hown⟩ => hord q p l' l hpath hown h⟩

theorem producersLayer_greatest (hord : OwnOrdered g official) {lay : Layers} (hp : p ∈ g.nodes)
    (hown : (ownLayer g official p).isSome → lay p = ownedLayers g official p)
    (hlay : Greatest (ownAbove g official p) (lay p) ∨ lay p = ownedLayers g official p)
    (hsrc : ∀ s ∈ (g.tensor p).sources, Greatest (ownAbove g official s) (lay s)) :
    Greatest (ownAbove g official p) (producersLayer g official lay p) := by
  unfold producersLayer
  split
  · rename_i hsome
    obtain ⟨l, hl⟩ := Option.isSome_iff_exists.mp hsome
    rw [hown hsome, ownedLayers_eq hp, hl]
    exact greatest_own hord ((ownedLayers_eq hp).trans hl)
  · rename_i hnone
    have hnot : ownedLayers g official p = none := by
      rw [ownedLayers_eq hp]
      exact Option.not_isSome_iff_eq_none.mp hnone
    have hset : ownAbove g official p =
        {l | ∃ s ∈ (g.tensor p).sources, l ∈ ownAbove g official s} := by
      rw [ownAbove_eq hp, hnot]
      simp
    rcases hlay with hlay | hlay
    · have hfold := hlay.foldl hsrc
      rw [← hset, Set.union_self] at hfold
      exact hfold
    · have hfold := Greatest.foldl (S := ∅) (a := lay p) hsrc (by rw [hlay, hnot]; rfl)
      rw [← hset, Set.empty_union] at hfold
      exact hfold

/-- Every entry that is passed has its latest layer, the others still their own. -/
theorem sweep_latest (hord : OwnOrdered g official) (pre post : List ℕ) (hsplit : g.nodes = pre ++ post) :
    (∀ p ∈ pre, Greatest (ownAbove g official p)
      (sweep (producersLayer g official) pre (ownedLayers g official) p)) := by
  induction pre using List.reverseRecOn generalizing post with
  | nil =>
    intro p hp
    cases hp
  | append_singleton pre i ih =>
    have hsplit' : g.nodes = pre ++ i :: post := by
      rw [hsplit, List.append_assoc]
      rfl
    have hnodup := g.nodup
    have hi : i ∈ g.nodes := by
      rw [hsplit']
      simp
    rw [hsplit'] at hnodup
    have hfresh : i ∉ pre := by
      intro hmem
      exact (List.nodup_append.mp hnodup).2.2 i hmem i List.mem_cons_self rfl
    have hpre := ih (i :: post) hsplit'
    intro p hp
    rw [sweep_append_cons]
    by_cases hpi : p = i
    · subst hpi
      simp only [sweep, List.foldl_nil, Function.update_self]
      have hkeep := sweep_of_not_mem (f := producersLayer g official) hfresh (ownedLayers g official)
      refine producersLayer_greatest hord hi (fun _ => hkeep) (.inr hkeep) ?_
      intro s hs
      by_cases hmem : s ∈ g.nodes
      · exact hpre s (mem_before hsplit' hs hmem)
      · have hskip : s ∉ pre := fun hin => hmem (by rw [hsplit']; exact List.mem_append_left _ hin)
        rw [ownAbove_of_not_mem hmem]
        have hnone := sweep_of_not_mem (f := producersLayer g official) hskip (ownedLayers g official)
        rw [ownedLayers, if_neg hmem] at hnone
        rw [sweep] at hnone
        rw [hnone]
        rfl
    · have hin : p ∈ pre := by
        rcases List.mem_append.mp hp with hin | hin
        · exact hin
        · exact absurd (List.mem_singleton.mp hin) hpi
      simp only [sweep, List.foldl_nil, Function.update_of_ne hpi]
      exact hpre p hin

/-- The first loop gives every node the latest layer that owns it or a node it is computed from. -/
theorem producers_greatest (hord : OwnOrdered g official) (p : ℕ) :
    Greatest (ownAbove g official p)
      (saturate g.nodes (producerPass g official) (g.nodes.length + 1) (ownedLayers g official) p) := by
  have hall := sweep_latest hord g.nodes [] (List.append_nil _).symm
  have hoff : ∀ q, q ∉ g.nodes → Greatest (ownAbove g official q)
      (sweep (producersLayer g official) g.nodes (ownedLayers g official) q) := by
    intro q hq
    rw [sweep_of_not_mem hq, ownAbove_of_not_mem hq, ownedLayers, if_neg hq]
    rfl
  have hevery : ∀ q, Greatest (ownAbove g official q)
      (sweep (producersLayer g official) g.nodes (ownedLayers g official) q) := by
    intro q
    by_cases hq : q ∈ g.nodes
    · exact hall q hq
    · exact hoff q hq
  have hfixed : ∀ i ∈ g.nodes, producersLayer g official
      (sweep (producersLayer g official) g.nodes (ownedLayers g official)) i =
        sweep (producersLayer g official) g.nodes (ownedLayers g official) i := by
    intro i hi
    have hagain : Greatest (ownAbove g official i) (producersLayer g official
        (sweep (producersLayer g official) g.nodes (ownedLayers g official)) i) := by
      refine producersLayer_greatest hord hi ?_ (.inl (hevery i)) fun s _ => hevery s
      intro hsome
      obtain ⟨l, hl⟩ := Option.isSome_iff_exists.mp hsome
      have hown : ownedLayers g official i = some l := (ownedLayers_eq hi).trans hl
      have hgreatest : Greatest (ownAbove g official i) (some l) := greatest_own hord hown
      rw [hown, ← hgreatest.eq, (hevery i).eq]
    rw [← hagain.eq, (hevery i).eq]
  rw [producerPass_eq, saturate_sweep hfixed]
  exact hevery p

end producers

section consumers

variable {g : Graph} {official : ℕ → Option ℕ} {u c e j k : ℕ} {lay : Layers}

def readers (g : Graph) (u : ℕ) : List ℕ := g.nodes.filter fun c => decide (u ∈ (g.tensor c).sources)

theorem mem_readers : c ∈ readers g u ↔ c ∈ g.nodes ∧ u ∈ (g.tensor c).sources := by
  simp [readers]

/-- What the second pass makes of an entry. -/
def consumersLayer (g : Graph) (lay : Layers) (i : ℕ) : Option ℕ :=
  if (lay i).isSome ∨ g.op i = .none then lay i else consumerLayer g lay i

theorem consumerPass_eq : consumerPass g = sweep (consumersLayer g) g.nodes := by
  have hstep : consumerStep g = fun lay i => Function.update lay i (consumersLayer g lay i) := by
    funext lay i
    unfold consumerStep consumersLayer
    split
    · rw [Function.update_eq_self]
    · rfl
  funext lay
  rw [consumerPass, sweep, hstep]

theorem consumerLayer_eq (lay : Layers) (i : ℕ) : consumerLayer g lay i =
    (readers g i).foldl (fun best c => LayerCapture.later best (lay c)) none := by
  rw [consumerLayer, readers, List.foldl_filter]
  simp only [decide_eq_true_eq]

theorem consumerLayer_congr {lay lay' : Layers} {i : ℕ} (h : ∀ c ∈ readers g i, lay c = lay' c) :
    consumerLayer g lay i = consumerLayer g lay' i := by
  have hmap : ∀ t : Layers, consumerLayer g t i = ((readers g i).map t).foldl LayerCapture.later none := by
    intro t
    rw [consumerLayer_eq, List.foldl_map]
  rw [hmap, hmap, List.map_congr_left h]

theorem consumerPass_apply (lay : Layers) (hu : u ∈ g.nodes) :
    consumerPass g lay u = consumersLayer g lay u := by
  obtain ⟨pre, post, hsplit⟩ := List.append_of_mem hu
  have hnodup := g.nodup
  rw [hsplit] at hnodup
  have hfresh : u ∉ pre := by
    intro hmem
    exact (List.nodup_append.mp hnodup).2.2 u hmem u List.mem_cons_self rfl
  have hself : sweep (consumersLayer g) pre lay u = lay u := sweep_of_not_mem hfresh lay
  have hreaders : ∀ c ∈ readers g u, sweep (consumersLayer g) pre lay c = lay c := by
    intro c hc
    obtain ⟨hmem, hsrc⟩ := mem_readers.mp hc
    have htop := g.topological
    rw [hsplit] at htop
    refine sweep_of_not_mem ?_ lay
    intro hin
    exact (List.pairwise_append.mp htop).2.2 c hin u List.mem_cons_self hsrc
  rw [consumerPass_eq, hsplit, sweep_apply hnodup, consumersLayer, consumersLayer, hself,
    consumerLayer_congr hreaders]

theorem consumerPass_of_not_mem (lay : Layers) (hu : u ∉ g.nodes) : consumerPass g lay u = lay u := by
  rw [consumerPass_eq, sweep_of_not_mem hu]

theorem Leads.mem (h : Leads g official k u e) (hk : 0 < k) : u ∈ g.nodes := by
  cases h with
  | here => cases hk
  | read k u c e _ _ hedge _ => exact hedge.1

/-- The least number of reads. -/
theorem exists_nearest (h : Leads g official k u e) : ∃ j ≤ k, ∃ e', Nearest g official j u e' := by
  induction k using Nat.strongRecOn generalizing e with
  | ind k ih =>
    by_cases hleast : ∀ j e', Leads g official j u e' → k ≤ j
    · exact ⟨k, Nat.le_refl k, e, h, hleast⟩
    · push Not at hleast
      obtain ⟨j, e', hj, hlt⟩ := hleast
      obtain ⟨i, hi, e'', hnear⟩ := ih j hlt hj
      exact ⟨i, by omega, e'', hnear⟩

theorem Nearest.unique {e' : ℕ} (h : Nearest g official k u e) (h' : Nearest g official j u e') :
    k = j := by
  have h₁ := h.2 j e' h'.1
  have h₂ := h'.2 k e h.1
  omega

/-- One read on, the nearest nodes are one read nearer. -/
theorem Nearest.next (h : Nearest g official (k + 1) u e) :
    ∃ c ∈ readers g u, Nearest g official k c e := by
  obtain ⟨hleads, hleast⟩ := h
  cases hleads with
  | read _ _ c _ hlatest hop hedge hrest =>
    refine ⟨c, mem_readers.mpr ⟨hedge.2.1, hedge.2.2⟩, hrest, ?_⟩
    intro j e' hj
    have hle := hleast (j + 1) e' (.read j u c e' hlatest hop hedge hj)
    omega

/-- The layers that `k` passes have brought. -/
def nearWithin (g : Graph) (official : ℕ → Option ℕ) (k u : ℕ) : Set ℕ :=
  {l | ∃ j ≤ k, ∃ e, Nearest g official j u e ∧ latest g official e = some l}

theorem nearWithin_zero (u : ℕ) : nearWithin g official 0 u = {l | latest g official u = some l} := by
  ext l
  constructor
  · rintro ⟨j, hj, e, hnear, hl⟩
    obtain rfl := Nat.le_zero.mp hj
    cases hnear.1 with
    | here => exact hl
  · intro hl
    have hsome : latest g official u = some l := hl
    exact ⟨0, Nat.le_refl 0, u, ⟨.here u (by simp [hsome]), fun _ _ _ => Nat.zero_le _⟩, hl⟩

/-- A node that is reached within `k` reads gets nothing new. -/
theorem nearWithin_succ_of_nearest (h : Nearest g official j u e) (hj : j ≤ k) :
    nearWithin g official (k + 1) u = nearWithin g official k u := by
  ext l
  constructor
  · rintro ⟨i, _, e', hnear, hl⟩
    have heq := hnear.unique h
    exact ⟨i, by omega, e', hnear, hl⟩
  · rintro ⟨i, hi, e', hnear, hl⟩
    exact ⟨i, by omega, e', hnear, hl⟩

theorem latest_of_leads (h : Leads g official k u e) : latest g official e ≠ none := by
  induction h with
  | here e he => exact he
  | read k u c e _ _ _ _ ih => exact ih

theorem no_leads_of_empty (h : nearWithin g official k u = ∅) (hj : j ≤ k) :
    ¬ Leads g official j u e := by
  intro hleads
  obtain ⟨i, hi, e', hnear⟩ := exists_nearest hleads
  obtain ⟨l, hl⟩ := Option.ne_none_iff_exists'.mp (latest_of_leads hnear.1)
  have hmem : l ∈ nearWithin g official k u := ⟨i, by omega, e', hnear, hl⟩
  rw [h] at hmem
  cases hmem

theorem nearWithin_succ_of_leaf (h : nearWithin g official k u = ∅) (hop : g.op u = .none) :
    nearWithin g official (k + 1) u = ∅ := by
  rw [Set.eq_empty_iff_forall_notMem]
  rintro l ⟨j, _, e, hnear, _⟩
  cases hnear.1 with
  | here e hlatest => exact no_leads_of_empty h (Nat.zero_le k) (.here u hlatest)
  | read j u c e _ hcompute _ _ => exact hcompute hop

/-- A node not yet reached gets what its readers have. -/
theorem nearWithin_succ (h : nearWithin g official k u = ∅) (hu : u ∈ g.nodes) (hop : g.op u ≠ .none) :
    nearWithin g official (k + 1) u = {l | ∃ c ∈ readers g u, l ∈ nearWithin g official k c} := by
  ext l
  constructor
  · rintro ⟨j, hj, e, hnear, hl⟩
    have hk : j = k + 1 := by
      by_contra hne
      exact no_leads_of_empty h (by omega) hnear.1
    subst hk
    obtain ⟨c, hc, hnext⟩ := hnear.next
    exact ⟨c, hc, k, Nat.le_refl k, e, hnext, hl⟩
  · rintro ⟨c, hc, j, hj, e, hnear, hl⟩
    obtain ⟨hmem, hsrc⟩ := mem_readers.mp hc
    have hlatest : latest g official u = none := by
      by_contra hne
      exact no_leads_of_empty h (Nat.zero_le k) (.here u hne)
    refine ⟨j + 1, by omega, e, ⟨.read j u c e hlatest hop ⟨hu, hmem, hsrc⟩ hnear.1, ?_⟩, hl⟩
    intro i e' hi
    by_contra hlt
    exact no_leads_of_empty h (by omega) hi

theorem consumerPass_greatest (h : ∀ u, Greatest (nearWithin g official k u) (lay u)) (u : ℕ) :
    Greatest (nearWithin g official (k + 1) u) (consumerPass g lay u) := by
  have hu := h u
  have hreached : ∀ l, lay u = some l → Greatest (nearWithin g official (k + 1) u) (lay u) := by
    intro l hl
    rw [hl] at hu ⊢
    obtain ⟨j, hj, e, hnear, _⟩ := hu.1
    rw [nearWithin_succ_of_nearest hnear hj]
    exact hu
  by_cases hmem : u ∈ g.nodes
  · rw [consumerPass_apply lay hmem, consumersLayer]
    cases hl : lay u with
    | some l =>
      rw [if_pos (.inl rfl), ← hl]
      exact hreached l hl
    | none =>
      rw [hl] at hu
      have hempty : nearWithin g official k u = ∅ := hu
      by_cases hop : g.op u = .none
      · rw [if_pos (.inr hop)]
        exact nearWithin_succ_of_leaf hempty hop
      · rw [if_neg (by simp [hop]), consumerLayer_eq, nearWithin_succ hempty hmem hop]
        have hnothing : Greatest ∅ none := rfl
        have hreaders : ∀ c ∈ readers g u, Greatest (nearWithin g official k c) (lay c) := fun c _ => h c
        have hfold := hnothing.foldl hreaders
        rw [Set.empty_union] at hfold
        exact hfold
  · rw [consumerPass_of_not_mem lay hmem]
    cases hl : lay u with
    | some l =>
      rw [← hl]
      exact hreached l hl
    | none =>
      rw [hl] at hu
      have hempty : nearWithin g official k u = ∅ := hu
      have hnone : nearWithin g official (k + 1) u = ∅ := by
        rw [Set.eq_empty_iff_forall_notMem]
        rintro l ⟨j, _, e, hnear, _⟩
        rcases Nat.eq_zero_or_pos j with rfl | hpos
        · exact no_leads_of_empty hempty (Nat.zero_le k) hnear.1
        · exact hmem (hnear.1.mem hpos)
      exact hnone

def unplaced (g : Graph) (lay : Layers) : List ℕ := g.nodes.filter fun i => (lay i).isNone

theorem consumerPass_keeps {l : ℕ} (h : lay u = some l) : consumerPass g lay u = some l := by
  by_cases hu : u ∈ g.nodes
  · rw [consumerPass_apply lay hu, consumersLayer, if_pos (.inl (by rw [h]; rfl)), h]
  · rw [consumerPass_of_not_mem lay hu, h]

theorem unplaced_lt (hu : u ∈ g.nodes) (hne : consumerPass g lay u ≠ lay u) :
    (unplaced g (consumerPass g lay)).length < (unplaced g lay).length := by
  have hnone : lay u = none := by
    by_contra hsome
    obtain ⟨l, hl⟩ := Option.ne_none_iff_exists'.mp hsome
    exact hne ((consumerPass_keeps hl).trans hl.symm)
  have hsub : unplaced g (consumerPass g lay) =
      (unplaced g lay).filter fun i => (consumerPass g lay i).isNone := by
    rw [unplaced, unplaced, List.filter_filter]
    refine List.filter_congr fun i _ => ?_
    cases hl : lay i with
    | none => simp
    | some l => simp [consumerPass_keeps hl]
  rw [hsub, List.length_filter_lt_length_iff_exists]
  refine ⟨u, List.mem_filter.mpr ⟨hu, by rw [hnone]; rfl⟩, ?_⟩
  rw [hnone] at hne
  simpa using hne

/-- The second loop gives the remaining nodes the latest layer among the nearest nodes that have an
owned ancestor. -/
theorem consumers_greatest {fuel : ℕ} (h : ∀ u, lay u = latest g official u)
    (hfuel : g.nodes.length < fuel) (u : ℕ) :
    Greatest (nearLayers g official u) (saturate g.nodes (consumerPass g) fuel lay u) := by
  have hzero : ∀ u, Greatest (nearWithin g official 0 u) (lay u) := by
    intro u
    rw [h u, nearWithin_zero]
    cases latest g official u with
    | none => simp [Greatest]
    | some l => simp [Greatest, IsGreatest, upperBounds]
  have hstep : ∀ t : Layers, (∃ k, ∀ u, Greatest (nearWithin g official k u) (t u)) →
      ∃ k, ∀ u, Greatest (nearWithin g official k u) (consumerPass g t u) := by
    rintro t ⟨k, hk⟩
    exact ⟨k + 1, consumerPass_greatest hk⟩
  have hmeasure : (unplaced g lay).length < fuel :=
    Nat.lt_of_le_of_lt (List.length_filter_le _ _) hfuel
  have hends : ∃ k, ∀ u, Greatest (nearWithin g official k u)
      (saturate g.nodes (consumerPass g) fuel lay u) :=
    saturate_induction hstep fuel ⟨0, hzero⟩
  obtain ⟨k, hk⟩ := hends
  have hstable : ∀ i ∈ g.nodes, consumerPass g (saturate g.nodes (consumerPass g) fuel lay) i =
      saturate g.nodes (consumerPass g) fuel lay i :=
    saturate_stable (fun t => (unplaced g t).length) hstep (fun t _ i hi hne => unplaced_lt hi hne)
      ⟨0, hzero⟩ hmeasure
  have hlast : ∀ u e, ¬ Nearest g official (k + 1) u e := by
    intro u e hnear
    have hmem := hnear.1.mem (Nat.succ_pos k)
    have hempty : nearWithin g official k u = ∅ := by
      rw [Set.eq_empty_iff_forall_notMem]
      rintro l ⟨j, hj, e', hnear', _⟩
      have heq := hnear'.unique hnear
      omega
    have hnone := hk u
    have hpass := consumerPass_greatest hk u
    rw [hstable u hmem] at hpass
    obtain ⟨l, hl⟩ := Option.ne_none_iff_exists'.mp (latest_of_leads hnear.1)
    have hin : l ∈ nearWithin g official (k + 1) u := ⟨k + 1, Nat.le_refl _, e, hnear, hl⟩
    cases ht : saturate g.nodes (consumerPass g) fuel lay u with
    | none =>
      rw [ht] at hpass
      have hnothing : nearWithin g official (k + 1) u = ∅ := hpass
      rw [hnothing] at hin
      cases hin
    | some l' =>
      rw [ht] at hnone
      have hgreatest : IsGreatest (nearWithin g official k u) l' := hnone
      rw [hempty] at hgreatest
      cases hgreatest.1
  have hbeyond : ∀ m u e, Nearest g official m u e → m ≤ k := by
    intro m
    induction m with
    | zero => exact fun _ _ _ => Nat.zero_le k
    | succ m ih =>
      intro u e hnear
      obtain ⟨c, _, hnext⟩ := hnear.next
      have hle := ih c e hnext
      by_contra hgt
      have hm : m = k := by omega
      subst hm
      exact hlast u e hnear
  have hset : nearLayers g official u = nearWithin g official k u := by
    ext l
    constructor
    · rintro ⟨m, e, hnear, hl⟩
      exact ⟨m, hbeyond m u e hnear, e, hnear, hl⟩
    · rintro ⟨m, _, e, hnear, hl⟩
      exact ⟨m, e, hnear, hl⟩
  rw [hset]
  exact hk u

end consumers

section nearest

variable {g : Graph} {lay : Layers} {pre post order : List ℕ} {p : ℕ}

theorem nearestStep_fst (state : Layers × Option ℕ) (i : ℕ) : (nearestStep g state i).1 =
    Function.update state.1 i ((state.1 i).or (if g.op i = .none then none else state.2)) := by
  unfold nearestStep
  split
  · rename_i l hl
    rw [hl, Option.some_or, ← hl, Function.update_eq_self]
  · rename_i hnone
    rw [hnone, Option.none_or]
    split
    · rw [← hnone, Function.update_eq_self]
    · rfl

theorem nearestStep_snd (state : Layers × Option ℕ) (i : ℕ) :
    (nearestStep g state i).2 = (state.1 i).or state.2 := by
  unfold nearestStep
  split
  · rename_i l hl
    rw [hl, Option.some_or]
  · rename_i hnone
    rw [hnone, Option.none_or]
    split <;> rfl

theorem nearest_foldl_of_not_mem (h : p ∉ order) (state : Layers × Option ℕ) :
    (order.foldl (nearestStep g) state).1 p = state.1 p := by
  induction order generalizing state with
  | nil => rfl
  | cons i order ih =>
    have hpi : p ≠ i := List.ne_of_not_mem_cons h
    rw [List.foldl_cons, ih (List.not_mem_of_not_mem_cons h), nearestStep_fst,
      Function.update_of_ne hpi]

theorem nearest_foldl_snd (h : order.Nodup) :
    (order.foldl (nearestStep g) (lay, none)).2 = order.reverse.findSome? lay := by
  induction order using List.reverseRecOn with
  | nil => rfl
  | append_singleton order i ih =>
    obtain ⟨hnodup, _, hdisjoint⟩ := List.nodup_append.mp h
    have hfresh : i ∉ order := fun hi => hdisjoint i hi i (List.mem_singleton.mpr rfl) rfl
    rw [List.foldl_append, List.foldl_cons, List.foldl_nil, nearestStep_snd,
      nearest_foldl_of_not_mem hfresh, ih hnodup, List.reverse_append, List.reverse_singleton,
      List.singleton_append, List.findSome?_cons]
    dsimp only
    cases lay i <;> rfl

theorem nearestPass_apply (h : (pre ++ p :: post).Nodup) : nearestPass g (pre ++ p :: post) lay p =
    (lay p).or (if g.op p = .none then none else pre.reverse.findSome? lay) := by
  obtain ⟨hpre, hrest, hdisjoint⟩ := List.nodup_append.mp h
  have hfresh : p ∉ pre := fun hp => hdisjoint p hp p List.mem_cons_self rfl
  have hpost : p ∉ post := (List.nodup_cons.mp hrest).1
  rw [nearestPass, List.foldl_append, List.foldl_cons, nearest_foldl_of_not_mem hpost,
    nearestStep_fst, Function.update_self, nearest_foldl_of_not_mem hfresh, nearest_foldl_snd hpre]

theorem nearestPass_of_not_mem (h : p ∉ order) : nearestPass g order lay p = lay p :=
  nearest_foldl_of_not_mem h (lay, none)

/-- Two tables that agree up to the first entry of one of them. -/
theorem findSome_congr {f f' : ℕ → Option ℕ} {l : List ℕ}
    (h : ∀ a q b, l = a ++ q :: b → (∀ r ∈ a, f r = none) → f' q = f q) :
    l.findSome? f' = l.findSome? f := by
  induction l with
  | nil => rfl
  | cons q l ih =>
    have hq := h [] q l rfl (fun _ hr => by cases hr)
    rw [List.findSome?_cons, List.findSome?_cons, hq]
    cases hf : f q with
    | some l' => rfl
    | none =>
      refine ih ?_
      intro a r b hl hnone
      refine h (q :: a) r b (by rw [hl]; rfl) ?_
      intro x hx
      rcases List.mem_cons.mp hx with rfl | hx
      · exact hf
      · exact hnone x hx

theorem before_eq (h : g.nodes = pre ++ p :: post) (hfresh : p ∉ pre) : before g p = pre.reverse := by
  rw [before, h, List.takeWhile_append_of_pos]
  · simp
  · intro a ha
    have hne : a ≠ p := by
      rintro rfl
      exact hfresh ha
    simpa using hne

theorem behind_eq (h : g.nodes = pre ++ p :: post) (hfresh : p ∉ pre) : behind g p = post := by
  rw [behind, h, List.dropWhile_append_of_pos]
  · simp
  · intro a ha
    have hne : a ≠ p := by
      rintro rfl
      exact hfresh ha
    simpa using hne

/-- The two passes of the fallback. -/
theorem nearest_met (p : ℕ) :
    nearestPass g g.nodes.reverse (nearestPass g g.nodes lay) p = met g lay p := by
  by_cases hp : p ∈ g.nodes
  · obtain ⟨pre, post, hsplit⟩ := List.append_of_mem hp
    have hnodup := g.nodup
    rw [hsplit] at hnodup
    have hfresh : p ∉ pre := by
      intro hmem
      exact (List.nodup_append.mp hnodup).2.2 p hmem p List.mem_cons_self rfl
    have hrev : (post.reverse ++ p :: pre.reverse).Nodup := by
      have hall := List.nodup_reverse.mpr hnodup
      simpa using hall
    have hreverse : g.nodes.reverse = post.reverse ++ p :: pre.reverse := by
      rw [hsplit]
      simp
    have hfirst : nearestPass g g.nodes lay p =
        (lay p).or (if g.op p = .none then none else pre.reverse.findSome? lay) := by
      rw [hsplit]
      exact nearestPass_apply hnodup
    rw [hreverse, nearestPass_apply hrev, hfirst, List.reverse_reverse, met,
      before_eq hsplit hfresh, behind_eq hsplit hfresh]
    cases hlay : lay p with
    | some l => rfl
    | none =>
      by_cases hop : g.op p = .none
      · simp [hop]
      · simp only [hop, hp, if_false, Option.none_or, ne_eq, not_false_eq_true, and_self, if_true]
        cases hfind : pre.reverse.findSome? lay with
        | some l => rfl
        | none =>
          rw [Option.none_or, Option.none_or]
          have hnone : ∀ r ∈ pre, lay r = none := by
            intro r hr
            exact List.findSome?_eq_none_iff.mp hfind r (List.mem_reverse.mpr hr)
          refine findSome_congr ?_
          -- up to the first node with a layer the first pass leaves the table as it is
          intro a q b hpost hfront
          have hsplit' : g.nodes = (pre ++ p :: a) ++ q :: b := by
            rw [hsplit, hpost]
            simp
          have hnodup' := g.nodup
          rw [hsplit'] at hnodup'
          rw [hsplit', nearestPass_apply hnodup']
          have hnothing : (pre ++ p :: a).reverse.findSome? lay = none := by
            rw [List.findSome?_eq_none_iff]
            intro r hr
            rcases List.mem_append.mp (List.mem_reverse.mp hr) with hr | hr
            · exact hnone r hr
            · rcases List.mem_cons.mp hr with rfl | hr
              · exact hlay
              · exact hfront r hr
          rw [hnothing, ite_self, Option.or_none]
  · have hrev : p ∉ g.nodes.reverse := fun h => hp (List.mem_reverse.mp h)
    rw [nearestPass_of_not_mem hrev, nearestPass_of_not_mem hp, met, if_neg (fun h => hp h.1),
      Option.or_none]

end nearest

section collected

variable {g : Graph} {official : ℕ → Option ℕ}

/-- The table of the first loop. -/
theorem producers_latest (hord : OwnOrdered g official) :
    saturate g.nodes (producerPass g official) (g.nodes.length + 1) (ownedLayers g official) =
      latest g official := by
  funext u
  exact (producers_greatest hord u).eq.symm

theorem latest_greatest (hord : OwnOrdered g official) (u : ℕ) :
    Greatest (ownAbove g official u) (latest g official u) := by
  rw [← producers_latest hord]
  exact producers_greatest hord u

/-- The table of the second loop. -/
theorem consumers_placed :
    saturate g.nodes (consumerPass g) (g.nodes.length + 1) (latest g official) =
      placed g official := by
  funext u
  exact (consumers_greatest (fun _ => rfl) (Nat.lt_succ_self _) u).eq.symm

theorem placed_greatest (u : ℕ) : Greatest (nearLayers g official u) (placed g official u) := by
  rw [← consumers_placed]
  exact consumers_greatest (fun _ => rfl) (Nat.lt_succ_self _) u

/-- What `collect_layer_nodes` gives every node of a graph whose owned nodes are in order. -/
theorem collectLayers_eq (hord : OwnOrdered g official) :
    collectLayers g official = narrow g (spread g official) := by
  have hmet : nearestPass g g.nodes.reverse (nearestPass g g.nodes (placed g official)) =
      spread g official := by
    funext p
    exact nearest_met p
  unfold collectLayers
  dsimp only
  rw [producers_latest hord, consumers_placed, hmet]

end collected

end LayerSpread
end StreamMoE
