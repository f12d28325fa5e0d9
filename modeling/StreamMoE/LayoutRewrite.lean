import StreamMoE.ChainClosure
import StreamMoE.ClosureLayout
import StreamMoE.LayerSpread

/-! The layout of a closure after `layout_arena`: the results in the window of the layer's unit take its
offsets, the others keep those of the packing of the closure alone. -/
namespace StreamMoE
namespace LayoutRewrite

open ByteMemory ComputeGraph LayerPlan LayerPlan.Capture Packing ArenaLayout ArenaRegions ClosureLayout

/-- `out_off`, `result_bytes` and `layout_ok` of a layer. -/
structure Layout where
  off : ℕ → Option ℕ
  bytes : ℕ
  ok : Bool

section model

variable {Dev : Type*} [DecidableEq Dev] (c : Capture) (m : Placement Dev) (L : ℕ)

/-- What `moe_chain_assign_backend` packs for the closure alone. -/
def packed : Layout where
  off i := if i < (c.compute L).length then some (resultOff c.graph (c.compute L) i) else none
  bytes := resultBytes c.graph (c.compute L)
  ok := layoutOk c.graph (c.compute L) (resultOff c.graph (c.compute L))

/-- `plan.scratch_off` of the closure's device after some units; a later offset replaces an earlier. -/
def scratchOff (units : List SubmissionUnit) (p : ℕ) : Option ℕ :=
  (((units.flatMap fun u => (window c m m.closureDev u).1).reverse.find? fun x => decide (x.1 = p))).map
    Prod.snd

/-- One unit: a window without tensors changes nothing. -/
def rewriteUnit (seen : List SubmissionUnit) (u : SubmissionUnit) (lay : Layout) : Layout :=
  if windowNodes c m m.closureDev u = [] then lay
  else if u.closureLayer = some L ∧ c.compute L ≠ [] then
    { off i := if i < (c.compute L).length then
          (scratchOff c m (seen ++ [u]) ((c.compute L).getD i 0)).or (lay.off i) else lay.off i
      bytes := (window c m m.closureDev u).2
      ok := true }
  else lay

def rewriteUnits : List SubmissionUnit → List SubmissionUnit → Layout → Layout
  | _, [], lay => lay
  | seen, u :: us, lay => rewriteUnits (seen ++ [u]) us (rewriteUnit c m L seen u lay)

def layout : Layout := rewriteUnits c m L [] c.units (packed c L)

/-- Alive together while the closure runs. -/
def Together (i j : ℕ) : Prop :=
  i ≤ lastTime c.graph (c.compute L) j ∧ j ≤ lastTime c.graph (c.compute L) i

/-- Results that are alive together lie apart, and all of them end inside the block. -/
structure Valid (lay : Layout) : Prop where
  ok : lay.ok = true
  apart : ∀ i < (c.compute L).length, ∀ j < (c.compute L).length,
    (c.compute L).getD i 0 ≠ (c.compute L).getD j 0 → Together c L i j →
      ∃ x ∈ lay.off i, ∃ y ∈ lay.off j, Apart x (c.graph.nbytes ((c.compute L).getD i 0)) y
        (c.graph.nbytes ((c.compute L).getD j 0))
  inside : ∀ i < (c.compute L).length, ∃ x ∈ lay.off i,
    x + c.graph.nbytes ((c.compute L).getD i 0) ≤ lay.bytes

def closureUnit : SubmissionUnit :=
  (c.units.find? fun u => decide (u.closureLayer = some L)).getD ⟨[], none⟩

def windowOff (p : ℕ) : ℕ :=
  (((window c m m.closureDev (closureUnit c L)).1.reverse.find? fun x => decide (x.1 = p)).map
    Prod.snd).getD 0

/-- The result is not in the window: it aliases another tensor, is read by another layer or exported, or
read by another unit. -/
def Kept (p : ℕ) : Prop :=
  (c.graph.viewSrc p).isSome = true ∨ isCarry c m p = true ∨ isSync c m p = true

/-- A reader in the closure finds a copy on another device behind the views. -/
def Copied (p : ℕ) : Prop :=
  ∃ nd ∈ c.compute L, ∃ x ∈ slots c nd, producer c.graph x.2 = p ∧
    resolve c m (operand c m nd x.1 x.2) ≠ .tensor p

/-- The window does not see the whole lifetime: such a reader, or a node that stands in the closure twice. -/
def Unseen (p : ℕ) : Prop := Copied c m L p ∨ 1 < (c.compute L).count p

/-- The two layouts do not meet: the old offset of a kept result ends inside the window and lies apart
from the new ones, and so do the new ones of results whose lifetime the window does not see. -/
structure Compatible : Prop where
  inside : ∀ i < (c.compute L).length, Kept c m ((c.compute L).getD i 0) →
    resultOff c.graph (c.compute L) i + c.graph.nbytes ((c.compute L).getD i 0) ≤
      (window c m m.closureDev (closureUnit c L)).2
  apart : ∀ i < (c.compute L).length, ∀ j < (c.compute L).length, Together c L i j →
    Kept c m ((c.compute L).getD i 0) → ¬ Kept c m ((c.compute L).getD j 0) →
      Apart (resultOff c.graph (c.compute L) i) (c.graph.nbytes ((c.compute L).getD i 0))
        (windowOff c m L ((c.compute L).getD j 0)) (c.graph.nbytes ((c.compute L).getD j 0))
  unseen : ∀ i < (c.compute L).length, ∀ j < (c.compute L).length,
    (c.compute L).getD i 0 ≠ (c.compute L).getD j 0 → Together c L i j →
    ¬ Kept c m ((c.compute L).getD i 0) → ¬ Kept c m ((c.compute L).getD j 0) →
      Unseen c m L ((c.compute L).getD i 0) →
        Apart (windowOff c m L ((c.compute L).getD i 0)) (c.graph.nbytes ((c.compute L).getD i 0))
          (windowOff c m L ((c.compute L).getD j 0)) (c.graph.nbytes ((c.compute L).getD j 0))

instance (p : ℕ) : Decidable (Kept c m p) := by
  unfold Kept
  infer_instance

instance (p : ℕ) : Decidable (Unseen c m L p) := by
  unfold Unseen Copied
  infer_instance

end model

section lifetimes

variable (g : Graph) (comp : List ℕ)

/-- The node at `k` reads the result `i` before it. -/
def Reads (k i : ℕ) : Prop := i < k ∧ ∃ t ∈ (g.tensor (comp.getD k 0)).sources, prodOf g comp t = some i

instance (k i : ℕ) : Decidable (Reads g comp k i) := by
  unfold Reads
  infer_instance

variable {g comp}

theorem foldl_noteUse (k i : ℕ) (ts : List ℕ) : ∀ last : ℕ → Option ℕ,
    ts.foldl (noteUse g comp k) last i =
      if last i = none ∧ i < k ∧ ∃ t ∈ ts, prodOf g comp t = some i then some k else last i := by
  induction ts with
  | nil => simp
  | cons t ts ih =>
    intro last
    rw [List.foldl_cons, ih]
    unfold noteUse
    cases ht : prodOf g comp t with
    | none => simp [ht]
    | some p =>
      by_cases hp : p < k ∧ last p = none
      · by_cases hi : i = p
        · subst hi
          simp [ht, hp]
        · simp [ht, hp, Function.update_of_ne hi, Ne.symm hi]
      · by_cases hi : i = p
        · subst hi
          have hold : ¬ (last i = none ∧ i < k) := fun h => hp ⟨h.2, h.1⟩
          simp only [if_neg hp]
          rw [if_neg fun h => hold ⟨h.1, h.2.1⟩, if_neg fun h => hold ⟨h.1, h.2.1⟩]
        · simp [ht, hp, Ne.symm hi]

theorem foldl_lastUse (i : ℕ) (ks : List ℕ) : ∀ last : ℕ → Option ℕ,
    ks.foldl (fun last k => ((g.tensor (comp.getD k 0)).sources).foldl (noteUse g comp k) last) last i =
      (last i).or (ks.find? fun k => decide (Reads g comp k i)) := by
  induction ks with
  | nil => simp
  | cons k ks ih =>
    intro last
    have hnode := @foldl_noteUse g comp k i (g.tensor (comp.getD k 0)).sources last
    rw [List.foldl_cons, ih, hnode, List.find?_cons]
    cases hlast : last i with
    | some x => simp
    | none =>
      by_cases hreads : Reads g comp k i
      · rw [if_pos ⟨rfl, hreads⟩]
        simp [hreads]
      · rw [if_neg fun h => hreads h.2]
        simp [hreads]

/-- The last reader is the first one met from the end. -/
theorem lastUse_eq (i : ℕ) : lastUse g comp i =
    (List.range comp.length).reverse.find? fun k => decide (Reads g comp k i) := by
  rw [lastUse, foldl_lastUse, Option.none_or]

theorem producer_of_prodOf {t i : ℕ} (h : prodOf g comp t = some i) : producer g t = comp.getD i 0 := by
  obtain ⟨hi, heq, _⟩ := List.findIdx?_eq_some_iff_getElem.mp h
  rw [List.getD_eq_getElem _ _ hi]
  exact (eq_of_beq heq).symm

/-- The place of a producer that stands in the closure once. -/
theorem prodOf_eq_some {t i : ℕ} (hi : i < comp.length) (hone : comp.count (comp.getD i 0) ≤ 1)
    (h : producer g t = comp.getD i 0) : prodOf g comp t = some i := by
  rw [List.getD_eq_getElem _ _ hi] at hone h
  refine List.findIdx?_eq_some_iff_getElem.mpr ⟨hi, beq_iff_eq.mpr h.symm, fun j hj hsame => ?_⟩
  have heq : comp[j] = comp[i] := (eq_of_beq hsame).trans h
  have hdup : comp[i] ∈ comp.take i := by
    rw [← heq]
    exact List.mem_take_iff_getElem.mpr ⟨j, by omega, rfl⟩
  have hcount : comp.count comp[i] = (comp.take i).count comp[i] + (comp.drop i).count comp[i] := by
    rw [← List.count_append, List.take_append_drop]
  have htake := List.count_pos_iff.mpr hdup
  have hdrop : 0 < (comp.drop i).count comp[i] := by
    rw [List.count_pos_iff, List.drop_eq_getElem_cons hi]
    exact List.mem_cons_self
  omega

end lifetimes

section order

theorem idxOf_lt_of_mem_sources {g : Graph} {a b : ℕ} (ha : a ∈ g.nodes) (hb : b ∈ g.nodes)
    (h : b ∈ (g.tensor a).sources) : g.nodes.idxOf b < g.nodes.idxOf a := by
  obtain ⟨pre, post, hsplit⟩ := List.append_of_mem ha
  have hmem := LayerSpread.mem_before hsplit h hb
  have hnodup := g.nodup
  rw [hsplit] at hnodup
  have hpre : a ∉ pre := fun hmem => (List.nodup_append.mp hnodup).2.2 a hmem a List.mem_cons_self rfl
  rw [hsplit, List.idxOf_append_of_mem hmem, List.idxOf_append_of_notMem hpre, List.idxOf_cons_self,
    Nat.add_zero]
  exact List.idxOf_lt_length_of_mem hmem

/-- What a node reads, through views too, comes before it in the graph. -/
theorem idxOf_producer_lt {g : Graph} {q : ℕ} : ∀ a ∈ g.nodes, q ∈ (g.tensor a).sources →
    producer g q ∈ g.nodes → g.nodes.idxOf (producer g q) < g.nodes.idxOf a := by
  induction q using view_induction (g := g) with
  | own q hview =>
    have hself : producer g q = q := congrArg Prod.fst (unwrap_of_not_view hview)
    rw [hself]
    exact fun a ha hq hmem => idxOf_lt_of_mem_sources ha hmem hq
  | view q q' hview hq' ih =>
    intro a ha hq hmem
    have hop : g.op q ≠ .none := by
      intro hnone
      rw [hnone] at hview
      cases hview
    have hnode := g.closed a ha q hq hop
    rw [producer_of_view hview hq'] at hmem ⊢
    exact (ih q hnode (mem_sources_of_src0 hq') hmem).trans (idxOf_lt_of_mem_sources ha hnode hq)

/-- The order of first occurrences goes on with what is new. -/
theorem foldl_firsts (l : List ℕ) : ∀ acc : List ℕ, ∃ more, more.Sublist l ∧
    (∀ x ∈ l, x ∈ acc ++ more) ∧ ((acc.Nodup → (acc ++ more).Nodup) ∧
      l.foldl (fun acc x => if x ∈ acc then acc else acc ++ [x]) acc = acc ++ more) := by
  induction l with
  | nil => exact fun acc => ⟨[], by simp⟩
  | cons x l ih =>
    intro acc
    rw [List.foldl_cons]
    by_cases hx : x ∈ acc
    · obtain ⟨more, hsub, hmem, hnodup, heq⟩ := ih acc
      refine ⟨more, hsub.cons x, ?_, hnodup, by rw [if_pos hx, heq]⟩
      intro y hy
      rcases List.mem_cons.mp hy with rfl | hy
      · exact List.mem_append_left _ hx
      · exact hmem y hy
    · obtain ⟨more, hsub, hmem, hnodup, heq⟩ := ih (acc ++ [x])
      refine ⟨x :: more, hsub.cons_cons x, ?_, ?_, by rw [if_neg hx, heq]; simp⟩
      · intro y hy
        rcases List.mem_cons.mp hy with rfl | hy
        · simp
        · simpa using hmem y hy
      · intro hacc
        have hnew : (acc ++ [x]).Nodup := by
          simpa [List.nodup_append, hacc] using fun a ha (h : a = x) => hx (h ▸ ha)
        simpa using hnodup hnew

variable {u : SubmissionUnit} {comp rest : List ℕ} {key : ℕ → ℕ}

theorem unitOrder_append (hnodes : u.nodes = comp ++ rest) : ∃ firsts more,
    unitOrder u = firsts ++ more ∧ firsts.Sublist comp ∧ (∀ x ∈ comp, x ∈ firsts) ∧ firsts.Nodup := by
  obtain ⟨firsts, hsub, hmem, hnodup, heq⟩ := foldl_firsts comp []
  obtain ⟨more, _, _, _, heq'⟩ := foldl_firsts rest ([] ++ firsts)
  refine ⟨firsts, more, ?_, hsub, by simpa using hmem, by simpa using hnodup⟩
  rw [unitOrder, hnodes, List.foldl_append, heq, heq']
  simp

theorem etime_mono (hnodes : u.nodes = comp ++ rest) (hkey : comp.Pairwise fun a b => key a ≤ key b)
    (hinj : ∀ a ∈ comp, ∀ b ∈ comp, key a = key b → a = b) {j k : ℕ} (hjk : j ≤ k) (hk : k < comp.length) :
    etime u (comp.getD j 0) ≤ etime u (comp.getD k 0) := by
  obtain ⟨firsts, more, horder, hsub, hmem, hnodup⟩ := unitOrder_append hnodes
  have hj : j < comp.length := by omega
  rw [List.getD_eq_getElem _ _ hj, List.getD_eq_getElem _ _ hk]
  have hj' := hmem _ (List.getElem_mem hj)
  have hk' := hmem _ (List.getElem_mem hk)
  rw [etime, etime, horder, List.idxOf_append_of_mem hj', List.idxOf_append_of_mem hk']
  by_contra hlt
  have hle : key comp[j] ≤ key comp[k] := by
    rcases Nat.lt_or_eq_of_le hjk with hlt' | rfl
    · exact List.pairwise_iff_getElem.mp hkey j k hj hk hlt'
    · exact Nat.le_refl _
  have hback := List.pairwise_iff_getElem.mp (hkey.sublist hsub) _ _ (List.idxOf_lt_length_of_mem hk')
    (List.idxOf_lt_length_of_mem hj') (Nat.lt_of_not_le hlt)
  rw [List.getElem_idxOf, List.getElem_idxOf] at hback
  have hsame := hinj _ (List.getElem_mem hj) _ (List.getElem_mem hk) (by omega)
  rw [hsame] at hlt
  exact hlt (Nat.le_refl _)

theorem etime_lt_of_notMem (hnodes : u.nodes = comp ++ rest) {p q : ℕ} (hp : p ∈ comp) (hq : q ∉ comp) :
    etime u p < etime u q := by
  obtain ⟨firsts, more, horder, hsub, hmem, _⟩ := unitOrder_append hnodes
  have hp' := hmem p hp
  have hlt := List.idxOf_lt_length_of_mem hp'
  rw [etime, etime, horder, List.idxOf_append_of_mem hp',
    List.idxOf_append_of_notMem fun h => hq (hsub.subset h)]
  omega

theorem etime_lt_length (hnodes : u.nodes = comp ++ rest) {p : ℕ} (hp : p ∈ comp) :
    etime u p < (unitOrder u).length := by
  obtain ⟨firsts, more, horder, _, hmem, _⟩ := unitOrder_append hnodes
  exact List.idxOf_lt_length_of_mem (by rw [horder]; exact List.mem_append_left _ (hmem p hp))

end order

section rewired

variable {Dev : Type*} [DecidableEq Dev] (c : Capture) (m : Placement Dev)

theorem operand_cases (nd s p : ℕ) :
    operand c m nd s p = .tensor p ∨ ∃ shell, operand c m nd s p = .shell shell := by
  unfold operand
  split
  · exact .inr ⟨_, rfl⟩
  · exact .inl rfl

/-- A walk that meets no copy ends at the producer. -/
theorem producer_of_resolveFrom (fuel : ℕ) : ∀ {q p : ℕ}, q ≤ fuel →
    resolveFrom c m fuel q = .tensor p → producer c.graph q = p := by
  induction fuel with
  | zero =>
    intro q p hq h
    obtain rfl := Nat.le_zero.mp hq
    cases h
    exact Nat.le_zero.mp (producer_le 0)
  | succ fuel ih =>
    intro q p hq h
    unfold resolveFrom at h
    by_cases hview : isViewOp (c.graph.op q) = true
    · obtain ⟨q', hq'⟩ := Graph.exists_src0 hview
      have hlt := Graph.src0_lt hq'
      rw [if_pos hview] at h
      simp only [hq'] at h
      rcases operand_cases c m q 0 q' with hop | ⟨shell, hop⟩
      · rw [hop] at h
        rw [producer_of_view hview hq']
        exact ih (by omega) h
      · rw [hop] at h
        cases h
    · rw [if_neg hview] at h
      cases h
      rw [producer, unwrap_of_not_view (by simpa using hview)]

theorem producer_of_resolve {nd s q p : ℕ} (h : resolve c m (operand c m nd s q) = .tensor p) :
    producer c.graph q = p := by
  rcases operand_cases c m nd s q with hop | ⟨shell, hop⟩
  · rw [hop] at h
    exact producer_of_resolveFrom c m q (le_refl q) h
  · rw [hop] at h
    cases h

theorem mem_sources_of_slots {nd : ℕ} {x : ℕ × ℕ} (h : x ∈ ArenaLayout.slots c nd) :
    x.2 ∈ (c.graph.tensor nd).sources := by
  obtain ⟨⟨y, i⟩, hmem, hx⟩ := List.mem_filterMap.mp h
  obtain ⟨q, hq, rfl⟩ := Option.map_eq_some_iff.mp hx
  have hy : y = some q := hq
  rw [Tensor.sources, List.reduceOption_mem_iff, ← hy]
  exact List.fst_mem_of_mem_zipIdx hmem

theorem exists_slot {nd q : ℕ} (h : q ∈ (c.graph.tensor nd).sources) :
    ∃ s, (s, q) ∈ ArenaLayout.slots c nd := by
  rw [Tensor.sources, List.reduceOption_mem_iff] at h
  obtain ⟨s, hs, hget⟩ := List.getElem_of_mem h
  refine ⟨s, List.mem_filterMap.mpr ⟨(some q, s), ?_, rfl⟩⟩
  exact List.mem_zipIdx_iff_getElem?.mpr (by simp [← hget, hs])

end rewired

section unit

variable {Dev : Type*} [DecidableEq Dev] (c : Capture) (m : Placement Dev) {L : ℕ}

theorem exists_unit (layers : List ℕ) : ∀ taken : Bool, L ∈ layers → ∃ pre u post rest,
    c.unitsFrom taken layers = pre ++ u :: post ∧ u.closureLayer = some L ∧
      u.nodes = c.compute L ++ rest := by
  induction layers with
  | nil => simp
  | cons L' layers ih =>
    intro taken h
    rw [unitsFrom]
    generalize (if !taken && decide (c.head L' ≠ []) then
      [(⟨c.head L', none⟩ : SubmissionUnit)] else []) = first
    rcases List.mem_cons.mp h with rfl | h
    · exact ⟨first, _, _, c.tail L ++ c.nextHead layers, rfl, rfl, by simp⟩
    · obtain ⟨pre, u, post, rest, hsplit, hlayer, hnodes⟩ := ih (decide (c.nextHead layers ≠ [])) h
      rw [hsplit]
      exact ⟨first ++ ⟨c.compute L' ++ c.tail L' ++ c.nextHead layers, some L'⟩ :: pre, u, post, rest,
        by simp, hlayer, hnodes⟩

theorem closureUnit_spec (h : L ∈ c.layers) : ∃ pre post rest, c.units = pre ++ closureUnit c L :: post ∧
    (closureUnit c L).closureLayer = some L ∧ (closureUnit c L).nodes = c.compute L ++ rest ∧
      ∀ u ∈ pre ++ post, u.closureLayer ≠ some L := by
  obtain ⟨pre, u, post, rest, hsplit, hlayer, hnodes⟩ := exists_unit c c.layers false h
  have hunits : c.units = pre ++ u :: post := hsplit
  have hnodup : c.layers.Nodup := layers_sorted.imp fun hlt => Nat.ne_of_lt hlt
  have hlayers := units_closureLayer (c := c)
  rw [hunits, List.filterMap_append, List.filterMap_cons_some hlayer] at hlayers
  rw [← hlayers] at hnodup
  obtain ⟨_, hpost, hcross⟩ := List.nodup_append.mp hnodup
  have hother : ∀ v ∈ pre ++ post, v.closureLayer ≠ some L := by
    intro v hv hvL
    rcases List.mem_append.mp hv with hv | hv
    · exact hcross L (List.mem_filterMap.mpr ⟨v, hv, hvL⟩) L List.mem_cons_self rfl
    · exact (List.nodup_cons.mp hpost).1 (List.mem_filterMap.mpr ⟨v, hv, hvL⟩)
  have hfind : closureUnit c L = u := by
    have hpre : ∀ v ∈ pre, ¬ (decide (v.closureLayer = some L) = true) := by
      intro v hv
      simpa using hother v (List.mem_append_left _ hv)
    rw [closureUnit, hunits, List.find?_append, List.find?_eq_none.mpr hpre, Option.none_or,
      List.find?_cons_of_pos (by simp [hlayer])]
    rfl
  rw [hfind]
  exact ⟨pre, post, rest, hunits, hlayer, hnodes, hother⟩

theorem rewriteUnit_skip {seen : List SubmissionUnit} {u : SubmissionUnit} {lay : Layout}
    (h : u.closureLayer ≠ some L) : rewriteUnit c m L seen u lay = lay := by
  simp [rewriteUnit, h]

theorem rewriteUnits_skip (us : List SubmissionUnit) (h : ∀ u ∈ us, u.closureLayer ≠ some L) :
    ∀ (seen : List SubmissionUnit) (lay : Layout), rewriteUnits c m L seen us lay = lay := by
  induction us with
  | nil => exact fun _ _ => rfl
  | cons u us ih =>
    intro seen lay
    obtain ⟨hu, hus⟩ := List.forall_mem_cons.mp h
    rw [rewriteUnits, rewriteUnit_skip c m hu, ih hus]

theorem rewriteUnits_append (us vs : List SubmissionUnit) : ∀ (seen : List SubmissionUnit) (lay : Layout),
    rewriteUnits c m L seen (us ++ vs) lay =
      rewriteUnits c m L (seen ++ us) vs (rewriteUnits c m L seen us lay) := by
  induction us with
  | nil => simp [rewriteUnits]
  | cons u us ih => simp [rewriteUnits, ih]

theorem map_fst_window (D : Dev) (u : SubmissionUnit) :
    (window c m D u).1.map Prod.fst = windowNodes c m D u := by
  unfold window
  split
  · have hfst : ∀ l : List ℕ, ∀ n, (l.zipIdx n).map Prod.fst = l := fun l n => List.zipIdx_map_fst n l
    simp [Function.comp_def, hfst]
  · exact map_fst_bump _ _

omit [DecidableEq Dev] in
theorem nodeDev_compute {p : ℕ} (h : p ∈ c.compute L) : nodeDev c m p = m.closureDev := by
  unfold compute at h
  cases hl : c.layerExec L with
  | none =>
    rw [hl] at h
    cases h
  | some l =>
    rw [hl] at h
    have hany : (c.exec.any fun e => decide (p ∈ e.2)) = true :=
      List.any_eq_true.mpr ⟨_, mem_exec hl, by simpa using h⟩
    rw [nodeDev, devOf, if_pos hany, Option.getD_some]

theorem mem_windowNodes_iff {p : ℕ} (h : p ∈ c.compute L) {u : SubmissionUnit} :
    p ∈ windowNodes c m m.closureDev u ↔ p ∈ u.nodes ∧ ¬ Kept c m p := by
  have hdev := nodeDev_compute c m h
  simp [windowNodes, Kept, hdev, and_assoc]

theorem find_window {u : SubmissionUnit} {p : ℕ} (h : p ∈ windowNodes c m m.closureDev u) :
    ∃ x, ((window c m m.closureDev u).1.reverse.find? fun x => decide (x.1 = p)) = some (p, x) ∧
      (p, x) ∈ (window c m m.closureDev u).1 := by
  rw [← map_fst_window] at h
  obtain ⟨y, hy, hyp⟩ := List.mem_map.mp h
  cases hf : (window c m m.closureDev u).1.reverse.find? fun x => decide (x.1 = p) with
  | none =>
    have hnot := List.find?_eq_none.mp hf y (List.mem_reverse.mpr hy)
    simp [hyp] at hnot
  | some z =>
    have hz : z.1 = p := of_decide_eq_true (List.find?_some (p := fun x : ℕ × ℕ => decide (x.1 = p)) hf)
    have hmem := List.mem_reverse.mp (List.mem_of_find?_eq_some hf)
    subst hz
    exact ⟨z.2, rfl, hmem⟩

variable {c m}

/-- The offset of a result in the window of the closure. -/
theorem windowOff_mem {p : ℕ} (h : p ∈ windowNodes c m m.closureDev (closureUnit c L)) :
    (p, windowOff c m L p) ∈ (window c m m.closureDev (closureUnit c L)).1 := by
  obtain ⟨x, hfind, hmem⟩ := find_window c m h
  rw [windowOff, hfind]
  exact hmem

theorem scratchOff_moved {pre : List SubmissionUnit} {p : ℕ}
    (h : p ∈ windowNodes c m m.closureDev (closureUnit c L)) :
    scratchOff c m (pre ++ [closureUnit c L]) p = some (windowOff c m L p) := by
  obtain ⟨x, hfind, hmem⟩ := find_window c m h
  simp [scratchOff, windowOff, List.find?_append, hfind]

theorem scratchOff_kept {us : List SubmissionUnit} {p : ℕ} (hp : p ∈ c.compute L) (h : Kept c m p) :
    scratchOff c m us p = none := by
  rw [scratchOff, Option.map_eq_none_iff, List.find?_eq_none]
  intro x hx hxp
  obtain ⟨u, _, hxu⟩ := List.mem_flatMap.mp (List.mem_reverse.mp hx)
  have hmem := List.mem_map_of_mem (f := Prod.fst) hxu
  rw [map_fst_window, of_decide_eq_true hxp, mem_windowNodes_iff c m hp] at hmem
  exact hmem.2 h

variable (hL : L ∈ c.layers) (hne : c.compute L ≠ [])
  (hwin : windowNodes c m m.closureDev (closureUnit c L) ≠ [])
include hL hne hwin

/-- The closure's own unit writes the layout, in full. -/
theorem layout_eq : ∃ pre, layout c m L =
    { off i := if i < (c.compute L).length then
          (scratchOff c m (pre ++ [closureUnit c L]) ((c.compute L).getD i 0)).or ((packed c L).off i)
        else (packed c L).off i
      bytes := (window c m m.closureDev (closureUnit c L)).2
      ok := true } := by
  obtain ⟨pre, post, rest, hunits, hlayer, hnodes, hother⟩ := closureUnit_spec c hL
  refine ⟨pre, ?_⟩
  have hpre := rewriteUnits_skip c m (L := L) pre fun u hu => hother u (List.mem_append_left _ hu)
  have hpost := rewriteUnits_skip c m (L := L) post fun u hu => hother u (List.mem_append_right _ hu)
  rw [layout, hunits, rewriteUnits_append, hpre, rewriteUnits, hpost, List.nil_append, rewriteUnit,
    if_neg hwin, if_pos ⟨hlayer, hne⟩]

theorem layout_kept {i : ℕ} (hi : i < (c.compute L).length) (h : Kept c m ((c.compute L).getD i 0)) :
    (layout c m L).off i = some (resultOff c.graph (c.compute L) i) := by
  obtain ⟨pre, heq⟩ := layout_eq hL hne hwin
  have hmem : (c.compute L).getD i 0 ∈ c.compute L := by
    rw [List.getD_eq_getElem _ _ hi]
    exact List.getElem_mem hi
  simp only [heq, if_pos hi, scratchOff_kept hmem h, Option.none_or, packed]

theorem layout_moved {i : ℕ} (hi : i < (c.compute L).length) (h : ¬ Kept c m ((c.compute L).getD i 0)) :
    (layout c m L).off i = some (windowOff c m L ((c.compute L).getD i 0)) ∧
      ((c.compute L).getD i 0, windowOff c m L ((c.compute L).getD i 0)) ∈
        (window c m m.closureDev (closureUnit c L)).1 := by
  obtain ⟨pre, heq⟩ := layout_eq hL hne hwin
  obtain ⟨_, _, rest, _, _, hnodes, _⟩ := closureUnit_spec c hL
  have hmem : (c.compute L).getD i 0 ∈ c.compute L := by
    rw [List.getD_eq_getElem _ _ hi]
    exact List.getElem_mem hi
  have hwindow := (mem_windowNodes_iff c m hmem).mpr ⟨by rw [hnodes]; exact List.mem_append_left _ hmem, h⟩
  refine ⟨?_, windowOff_mem hwindow⟩
  simp only [heq, if_pos hi, scratchOff_moved hwindow, Option.some_or]

end unit

section lives

variable {Dev : Type*} [DecidableEq Dev] {c : Capture} {m : Placement Dev} {L : ℕ}

/-- The window sees a result that stands once and is read directly for as long as the closure does. -/
theorem etime_le_liveEnd {u : SubmissionUnit} {rest : List ℕ} (hnodes : u.nodes = c.compute L ++ rest)
    (hord : (c.compute L).Pairwise fun a b => c.graph.nodes.idxOf a ≤ c.graph.nodes.idxOf b)
    {i j : ℕ} (hi : i < (c.compute L).length) (hj : j < (c.compute L).length)
    (hseen : ¬ Unseen c m L ((c.compute L).getD i 0)) (hle : j ≤ lastTime c.graph (c.compute L) i) :
    etime u ((c.compute L).getD j 0) ≤ liveEnd c m u ((c.compute L).getD i 0) := by
  have hmem : ∀ {k}, k < (c.compute L).length → (c.compute L).getD k 0 ∈ c.compute L := by
    intro k hk
    rw [List.getD_eq_getElem _ _ hk]
    exact List.getElem_mem hk
  have hinj : ∀ a ∈ c.compute L, ∀ b ∈ c.compute L,
      c.graph.nodes.idxOf a = c.graph.nodes.idxOf b → a = b := by
    intro a ha b _ heq
    exact (List.idxOf_inj (mem_nodes_of_mem_compute ha).1).mp heq
  have hmono : ∀ k, j ≤ k → k < (c.compute L).length →
      etime u ((c.compute L).getD j 0) ≤ etime u ((c.compute L).getD k 0) :=
    fun k hjk hk => etime_mono hnodes hord hinj hjk hk
  have hdirect : ∀ nd ∈ c.compute L, ∀ x ∈ ArenaLayout.slots c nd,
      producer c.graph x.2 = (c.compute L).getD i 0 →
        resolve c m (operand c m nd x.1 x.2) = .tensor ((c.compute L).getD i 0) := by
    intro nd hnd x hx hprod
    by_contra hne
    exact hseen (.inl ⟨nd, hnd, x, hx, hprod, hne⟩)
  have hone : (c.compute L).count ((c.compute L).getD i 0) ≤ 1 := by
    by_contra hlt
    exact hseen (.inr (by omega))
  -- the readers that the unit knows
  have hreader : ∀ {nd : ℕ}, nd ∈ unitOrder u → (∃ x ∈ ArenaLayout.slots c nd,
      resolve c m (operand c m nd x.1 x.2) = .tensor ((c.compute L).getD i 0)) →
        etime u nd ∈ ((unitOrder u).filter fun nd => (operands c m nd).any fun o =>
          decide (resolve c m o = .tensor ((c.compute L).getD i 0))).map (etime u) := by
    rintro nd hnd ⟨x, hx, hres⟩
    refine List.mem_map_of_mem (List.mem_filter.mpr ⟨hnd, List.any_eq_true.mpr ?_⟩)
    exact ⟨_, List.mem_map_of_mem hx, by simpa using hres⟩
  obtain ⟨firsts, more, horder, _, hfirsts, _⟩ := unitOrder_append hnodes
  have hunit : ∀ {k}, k < (c.compute L).length → (c.compute L).getD k 0 ∈ unitOrder u := by
    intro k hk
    rw [horder]
    exact List.mem_append_left _ (hfirsts _ (hmem hk))
  unfold liveEnd
  cases hlast : lastEtime c m u ((c.compute L).getD i 0) with
  | none => exact (etime_lt_length hnodes (hmem hj)).le
  | some t =>
    have hmax := List.max?_eq_some_iff.mp hlast
    cases huse : lastUse c.graph (c.compute L) i with
    | some k =>
      have hk : k < (c.compute L).length ∧ Reads c.graph (c.compute L) k i := by
        rw [lastUse_eq] at huse
        have hreads := List.find?_some (p := fun k => decide (Reads c.graph (c.compute L) k i)) huse
        refine ⟨?_, of_decide_eq_true hreads⟩
        simpa using List.mem_of_find?_eq_some huse
      obtain ⟨hk, _, q, hq, hprod⟩ := hk
      have hjk : j ≤ k := by simpa [lastTime, huse] using hle
      obtain ⟨s, hs⟩ := exists_slot c hq
      have hres := hdirect _ (hmem hk) (s, q) hs (producer_of_prodOf hprod)
      have htime := hmax.2 _ (hreader (hunit hk) ⟨(s, q), hs, hres⟩)
      exact ((hmono k hjk hk).trans htime).trans (Nat.le_max_left _ _)
    | none =>
      obtain ⟨nd, hnd, htime⟩ := List.mem_map.mp hmax.1
      obtain ⟨hnd, hany⟩ := List.mem_filter.mp hnd
      obtain ⟨o, ho, hres⟩ := List.any_eq_true.mp hany
      obtain ⟨x, hx, rfl⟩ := List.mem_map.mp ho
      have hprod := producer_of_resolve c m (of_decide_eq_true hres)
      have hsrc := mem_sources_of_slots c hx
      by_cases hin : nd ∈ c.compute L
      · -- a reader in the closure would be the last one
        exfalso
        obtain ⟨k, hk, rfl⟩ := List.getElem_of_mem hin
        have hlt := idxOf_producer_lt _ (mem_nodes_of_mem_compute hin).1 hsrc
          (by rw [hprod]; exact (mem_nodes_of_mem_compute (hmem hi)).1)
        rw [hprod] at hlt
        have hik : i < k := by
          by_contra hki
          have hle : c.graph.nodes.idxOf (c.compute L)[k] ≤ c.graph.nodes.idxOf ((c.compute L).getD i 0) := by
            rw [List.getD_eq_getElem _ _ hi]
            rcases Nat.lt_or_eq_of_le (Nat.le_of_not_lt hki) with hlt' | heq
            · exact List.pairwise_iff_getElem.mp hord k i hk hi hlt'
            · simp [heq]
          omega
        rw [lastUse_eq, List.find?_eq_none] at huse
        refine huse k (by simpa using hk) (decide_eq_true ⟨hik, x.2, ?_, prodOf_eq_some hi hone hprod⟩)
        rw [List.getD_eq_getElem _ _ hk]
        exact hsrc
      · have hlt := etime_lt_of_notMem hnodes (hmem hj) hin
        rw [htime] at hlt
        exact hlt.le.trans (Nat.le_max_left _ _)

end lives

section valid

variable {Dev : Type*} [DecidableEq Dev] {c : Capture} {m : Placement Dev} {L : ℕ}

theorem packed_off {i : ℕ} (hi : i < (c.compute L).length) :
    (packed c L).off i = some (resultOff c.graph (c.compute L) i) := if_pos hi

theorem packed_valid : Valid c L (packed c L) where
  ok := layoutOk_resultOff
  apart _ hi _ hj hne hmeet :=
    ⟨_, packed_off hi, _, packed_off hj, resultOff_apart hi hj (fun heq => hne (heq ▸ rfl)) hmeet⟩
  inside _ hi := ⟨_, packed_off hi, resultOff_le hi⟩

/-- Without a tensor in the window, or without a unit, nothing is written. -/
theorem layout_packed (h : windowNodes c m m.closureDev (closureUnit c L) = [] ∨ c.compute L = []) :
    layout c m L = packed c L := by
  by_cases hL : L ∈ c.layers
  · obtain ⟨pre, post, rest, hunits, hlayer, hnodes, hother⟩ := closureUnit_spec c hL
    have hpre := rewriteUnits_skip c m (L := L) pre fun u hu => hother u (List.mem_append_left _ hu)
    have hpost := rewriteUnits_skip c m (L := L) post fun u hu => hother u (List.mem_append_right _ hu)
    have hown : ∀ seen lay, rewriteUnit c m L seen (closureUnit c L) lay = lay := by
      intro seen lay
      rcases h with h | h <;> simp [rewriteUnit, h]
    rw [layout, hunits, rewriteUnits_append, hpre, rewriteUnits, hown, hpost]
  · refine rewriteUnits_skip c m c.units (fun u hu hlayer => hL ?_) [] (packed c L)
    rw [← units_closureLayer]
    exact List.mem_filterMap.mpr ⟨u, hu, hlayer⟩

theorem closureUnit_of_notMem (hL : L ∉ c.layers) : closureUnit c L = ⟨[], none⟩ := by
  have hnone : ∀ u ∈ c.units, ¬ decide (u.closureLayer = some L) = true := by
    intro u hu hlayer
    refine hL ?_
    rw [← units_closureLayer]
    exact List.mem_filterMap.mpr ⟨u, hu, of_decide_eq_true hlayer⟩
  rw [closureUnit, List.find?_eq_none.mpr hnone]
  rfl

/-- Two results in the window that it sees for as long as the closure does are apart. -/
theorem windowOff_apart (hL : L ∈ c.layers)
    (hord : (c.compute L).Pairwise fun a b => c.graph.nodes.idxOf a ≤ c.graph.nodes.idxOf b)
    {i j : ℕ} (hi : i < (c.compute L).length) (hj : j < (c.compute L).length)
    (hdiff : (c.compute L).getD i 0 ≠ (c.compute L).getD j 0) (hmeet : Together c L i j)
    (hmi : ((c.compute L).getD i 0, windowOff c m L ((c.compute L).getD i 0)) ∈
      (window c m m.closureDev (closureUnit c L)).1)
    (hmj : ((c.compute L).getD j 0, windowOff c m L ((c.compute L).getD j 0)) ∈
      (window c m m.closureDev (closureUnit c L)).1)
    (hsi : ¬ Unseen c m L ((c.compute L).getD i 0)) (hsj : ¬ Unseen c m L ((c.compute L).getD j 0)) :
    Apart (windowOff c m L ((c.compute L).getD i 0)) (c.graph.nbytes ((c.compute L).getD i 0))
      (windowOff c m L ((c.compute L).getD j 0)) (c.graph.nbytes ((c.compute L).getD j 0)) := by
  obtain ⟨_, _, rest, _, _, hnodes, _⟩ := closureUnit_spec c hL
  exact window_apart hmi hmj hdiff
    ⟨etime_le_liveEnd hnodes hord hj hi hsj hmeet.1, etime_le_liveEnd hnodes hord hi hj hsi hmeet.2⟩

theorem valid_iff_compatible (hL : L ∈ c.layers)
    (hord : (c.compute L).Pairwise fun a b => c.graph.nodes.idxOf a ≤ c.graph.nodes.idxOf b)
    (hne : c.compute L ≠ []) (hwin : windowNodes c m m.closureDev (closureUnit c L) ≠ []) :
    Valid c L (layout c m L) ↔ Compatible c m L := by
  have hkept : ∀ {i}, i < (c.compute L).length → Kept c m ((c.compute L).getD i 0) →
      ∀ x, x ∈ (layout c m L).off i ↔ x = resultOff c.graph (c.compute L) i := by
    intro i hi h x
    rw [layout_kept hL hne hwin hi h, Option.mem_some, eq_comm]
  have hmoved : ∀ {i}, i < (c.compute L).length → ¬ Kept c m ((c.compute L).getD i 0) →
      ∀ x, x ∈ (layout c m L).off i ↔ x = windowOff c m L ((c.compute L).getD i 0) := by
    intro i hi h x
    rw [(layout_moved hL hne hwin hi h).1, Option.mem_some, eq_comm]
  obtain ⟨_, hlayout⟩ := layout_eq (m := m) hL hne hwin
  have hbytes : (layout c m L).bytes = (window c m m.closureDev (closureUnit c L)).2 := by
    rw [hlayout]
  constructor
  · intro h
    refine ⟨?_, ?_, ?_⟩
    · intro i hi hk
      obtain ⟨x, hx, hle⟩ := h.inside i hi
      rwa [(hkept hi hk x).mp hx, hbytes] at hle
    · intro i hi j hj hmeet hk hm
      have hij : (c.compute L).getD i 0 ≠ (c.compute L).getD j 0 := fun heq => hm (heq ▸ hk)
      obtain ⟨x, hx, y, hy, hapart⟩ := h.apart i hi j hj hij hmeet
      rwa [(hkept hi hk x).mp hx, (hmoved hj hm y).mp hy] at hapart
    · intro i hi j hj hij hmeet hmi hmj _
      obtain ⟨x, hx, y, hy, hapart⟩ := h.apart i hi j hj hij hmeet
      rwa [(hmoved hi hmi x).mp hx, (hmoved hj hmj y).mp hy] at hapart
  · intro h
    refine ⟨by rw [hlayout], ?_, ?_⟩
    · intro i hi j hj hij hmeet
      by_cases hki : Kept c m ((c.compute L).getD i 0) <;> by_cases hkj : Kept c m ((c.compute L).getD j 0)
      · exact ⟨_, (hkept hi hki _).mpr rfl, _, (hkept hj hkj _).mpr rfl,
          resultOff_apart hi hj (fun heq => hij (heq ▸ rfl)) hmeet⟩
      · exact ⟨_, (hkept hi hki _).mpr rfl, _, (hmoved hj hkj _).mpr rfl, h.apart i hi j hj hmeet hki hkj⟩
      · exact ⟨_, (hmoved hi hki _).mpr rfl, _, (hkept hj hkj _).mpr rfl,
          (h.apart j hj i hi hmeet.symm hkj hki).symm⟩
      · refine ⟨_, (hmoved hi hki _).mpr rfl, _, (hmoved hj hkj _).mpr rfl, ?_⟩
        by_cases hsi : Unseen c m L ((c.compute L).getD i 0)
        · exact h.unseen i hi j hj hij hmeet hki hkj hsi
        by_cases hsj : Unseen c m L ((c.compute L).getD j 0)
        · exact (h.unseen j hj i hi hij.symm hmeet.symm hkj hki hsj).symm
        exact windowOff_apart hL hord hi hj hij hmeet (layout_moved hL hne hwin hi hki).2
          (layout_moved hL hne hwin hj hkj).2 hsi hsj
    · intro i hi
      rw [hbytes]
      by_cases hk : Kept c m ((c.compute L).getD i 0)
      · exact ⟨_, (hkept hi hk _).mpr rfl, h.inside i hi hk⟩
      · exact ⟨_, (hmoved hi hk _).mpr rfl, window_inside (layout_moved hL hne hwin hi hk).2⟩

/-- A closure that lies in the window in full, and is seen by it in full, does not mix layouts. -/
theorem compatible_of_seen (h : ∀ p ∈ c.compute L, ¬ Kept c m p ∧ ¬ Unseen c m L p) :
    Compatible c m L := by
  have hmem : ∀ {i}, i < (c.compute L).length → (c.compute L).getD i 0 ∈ c.compute L := by
    intro i hi
    rw [List.getD_eq_getElem _ _ hi]
    exact List.getElem_mem hi
  exact ⟨fun i hi hk => absurd hk (h _ (hmem hi)).1, fun i hi _ _ _ hk _ => absurd hk (h _ (hmem hi)).1,
    fun i hi _ _ _ _ _ _ hs => absurd hs (h _ (hmem hi)).2⟩

end valid

section captured

variable {Dev : Type*} [DecidableEq Dev] (g : Graph) (official : ℕ → Option ℕ) (m : Placement Dev)
  (L : ℕ)

/-- The rewritten layout is valid exactly if nothing was rewritten, or what kept its offset of the packing
of the closure alone is compatible with the window, as every closure is that the window sees in full. -/
theorem layout_valid_iff :
    (Valid (ChainClosure.capture g official) L (layout (ChainClosure.capture g official) m L) ↔
      windowNodes (ChainClosure.capture g official) m m.closureDev
          (closureUnit (ChainClosure.capture g official) L) = [] ∨
        Compatible (ChainClosure.capture g official) m L) ∧
    ((∀ p ∈ (ChainClosure.capture g official).compute L, ¬ Kept (ChainClosure.capture g official) m p ∧
        ¬ Unseen (ChainClosure.capture g official) m L p) →
      Valid (ChainClosure.capture g official) L (layout (ChainClosure.capture g official) m L)) := by
  have hiff : Valid (ChainClosure.capture g official) L (layout (ChainClosure.capture g official) m L) ↔
      windowNodes (ChainClosure.capture g official) m m.closureDev
          (closureUnit (ChainClosure.capture g official) L) = [] ∨
        Compatible (ChainClosure.capture g official) m L := by
    by_cases hwin : windowNodes (ChainClosure.capture g official) m m.closureDev
        (closureUnit (ChainClosure.capture g official) L) = []
    · rw [layout_packed (.inl hwin)]
      exact ⟨fun _ => .inl hwin, fun _ => packed_valid⟩
    by_cases hne : (ChainClosure.capture g official).compute L = []
    · rw [layout_packed (.inr hne)]
      refine ⟨fun _ => .inr (compatible_of_seen ?_), fun _ => packed_valid⟩
      simp [hne]
    have hL : L ∈ (ChainClosure.capture g official).layers := by
      by_contra hL
      refine hwin ?_
      rw [closureUnit_of_notMem hL]
      rfl
    rw [valid_iff_compatible hL ChainClosure.ordered_compute hne hwin, or_iff_right hwin]
  exact ⟨hiff, fun h => hiff.mpr (.inr (compatible_of_seen h))⟩

end captured

section residual

/-- One layer of experts on an anonymous producer, and the first node of the next layer. -/
def residualTensors (next : List (Option ℕ)) : List Tensor :=
  [{ name := "blk.0.ffn_up_exps.weight" },
    { name := "inp_embd" },
    { name := "ffn_moe_topk-0" },
    { op := .other 0, src := [some 1], nbytes := 256, name := "node_3" },
    { op := .mulMatId, src := [some 0, some 3, some 2], nbytes := 128, name := "ffn_moe_up-0" },
    { op := .other 1, src := [some 4], nbytes := 128, name := "ffn_moe_act-0" },
    { op := .add, src := [some 5], nbytes := 64, name := "ffn_moe_out-0" },
    { op := .other 1, src := [some 6], nbytes := 64, name := "l_out-0" },
    { op := .add, src := next, nbytes := 64, name := "ffn_inp-1" }]

def straightGraph : Graph :=
  Graph.ofList (residualTensors [some 7]) [3, 4, 5, 6, 7, 8] (by decide) (by decide)

/-- The next layer reads the producer too. -/
def residualGraph : Graph :=
  Graph.ofList (residualTensors [some 7, some 3]) [3, 4, 5, 6, 7, 8] (by decide) (by decide)

def recorded (p : ℕ) : Option ℕ := some (p / 8)

def onePlacement : Placement ℕ where
  physical _ := 0
  leafDev _ := none
  host := 1
  closureDev := 0
  exportRetained := []
  compactPack := true

theorem layout_valid_iff_straight : Valid (ChainClosure.capture straightGraph recorded) 0
    (layout (ChainClosure.capture straightGraph recorded) onePlacement 0) :=
  (layout_valid_iff straightGraph recorded onePlacement 0).2 (by decide +kernel)

/-- The producer keeps the first 256 bytes, and the product that reads it moves to the start of the window. -/
theorem not_valid_residual : ¬ Valid (ChainClosure.capture residualGraph recorded) 0
    (layout (ChainClosure.capture residualGraph recorded) onePlacement 0) := by
  intro h
  have hproducer : (layout (ChainClosure.capture residualGraph recorded) onePlacement 0).off 0 = some 0 := by
    decide +kernel
  have hproduct : (layout (ChainClosure.capture residualGraph recorded) onePlacement 0).off 1 = some 0 := by
    decide +kernel
  obtain ⟨x, hx, y, hy, hapart⟩ := h.apart 0 (by decide +kernel) 1 (by decide +kernel) (by decide +kernel)
    ⟨by decide +kernel, by decide +kernel⟩
  rw [hproducer] at hx
  rw [hproduct] at hy
  cases hx
  cases hy
  revert hapart
  unfold Apart
  decide +kernel

end residual

end LayoutRewrite
end StreamMoE
