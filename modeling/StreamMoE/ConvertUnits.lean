import StreamMoE.ConvertLayout

/-! `build_units`: the chunk units of a model lie behind one another, and the reader numbers them as the writer
does. -/
namespace StreamMoE
namespace ConvertModel

open BlockMetadata (branchOf blockIndex)
open ChunkSet (Layout findSection)
open DenseFill (SrcSeg)
open WriterPlan (Category Target alignUp rank Block ChunkUnit denseItems sectionOf sectionUnit inLayer blockUnit)

section order

variable {M : WriterPlan.Model} {q r : WriterPlan.DenseTensor → Bool}

/-- The dense tensor `d` is sorted before `e`, and nothing else would do. -/
def Below (d e : WriterPlan.DenseTensor) : Prop :=
  rank d.category < rank e.category ∨ rank d.category = rank e.category ∧ d.layer < e.layer

theorem placeItems_mod {its : List WriterPlan.Item} {cur : ℕ} (hcur : cur % 4096 = 0) {x : WriterPlan.Item × ℕ}
    (h : x ∈ WriterPlan.placeItems cur its) : x.2 % 4096 = 0 := by
  induction its generalizing cur with
  | nil => cases h
  | cons it its ih =>
    rcases List.mem_cons.mp h with rfl | hmem
    · exact hcur
    · exact ih (alignUp_mod _) hmem

theorem denseItems_mod {x : WriterPlan.DenseTensor × ℕ} (h : x ∈ denseItems (WriterPlan.items M .v3) q) :
    x.2 % 4096 = 0 :=
  placeItems_mod (Nat.zero_mod _) (WriterPlan.mem_denseItems h)

theorem denseItems_fst (cur : ℕ) (ds : List WriterPlan.DenseTensor) (es : List WriterPlan.ExpertTensor) :
    (denseItems (WriterPlan.placeItems cur (ds.map .dense ++ es.map .expert)) fun _ => true).map Prod.fst = ds := by
  induction ds generalizing cur with
  | nil =>
    induction es generalizing cur with
    | nil => rfl
    | cons e es ih => exact ih _
  | cons d ds ih => exact congrArg (d :: ·) (ih _)

theorem mem_denseItems_of {x : WriterPlan.DenseTensor × ℕ} (h : x ∈ denseItems (WriterPlan.items M .v3) q) :
    x ∈ denseItems (WriterPlan.items M .v3) (fun _ => true) ∧ q x.1 = true := by
  obtain ⟨⟨it, off⟩, hy, hyx⟩ := List.mem_filterMap.mp h
  cases it with
  | expert e => cases hyx
  | dense d =>
    dsimp only at hyx
    split at hyx
    · rename_i hq
      cases hyx
      exact ⟨List.mem_filterMap.mpr ⟨_, hy, rfl⟩, hq⟩
    · cases hyx

theorem denseItems_sorted : (denseItems (WriterPlan.items M .v3) fun _ => true).Pairwise fun x y =>
    x.2 + x.1.size ≤ y.2 ∧ ¬ Below y.1 x.1 := by
  have hplaced := WriterPlan.denseItems_ordered (fun _ => true)
    (WriterPlan.placeItems_ordered (WriterPlan.orderItems M .v3) 0)
  have hfst : (denseItems (WriterPlan.items M .v3) fun _ => true).map Prod.fst = M.dense.insertionSort fun a b =>
      rank a.category < rank b.category ∨ rank a.category = rank b.category ∧ a.layer ≤ b.layer := by
    rw [WriterPlan.items, WriterPlan.orderItems, if_neg (by decide), denseItems_fst]
  have htotal : Std.Total fun a b : WriterPlan.DenseTensor =>
      rank a.category < rank b.category ∨ rank a.category = rank b.category ∧ a.layer ≤ b.layer :=
    ⟨fun a b => by omega⟩
  have htrans : IsTrans WriterPlan.DenseTensor fun a b =>
      rank a.category < rank b.category ∨ rank a.category = rank b.category ∧ a.layer ≤ b.layer :=
    ⟨fun a b c => by omega⟩
  have hsorted : ((denseItems (WriterPlan.items M .v3) fun _ => true).map Prod.fst).Pairwise fun d e => ¬ Below e d := by
    rw [hfst]
    refine (List.pairwise_insertionSort _ M.dense).imp fun {a b} hab hba => ?_
    unfold Below at hba
    omega
  exact List.pairwise_and_iff.mpr ⟨hplaced, List.pairwise_map.mp hsorted⟩

/-- A tensor that is sorted before another one ends before it, with the space up to the alignment. -/
theorem end_le_of_below {x y : WriterPlan.DenseTensor × ℕ} (hx : x ∈ denseItems (WriterPlan.items M .v3) q)
    (hy : y ∈ denseItems (WriterPlan.items M .v3) r) (h : Below x.1 y.1) : x.2 + x.1.size ≤ y.2 := by
  have hx := (mem_denseItems_of hx).1
  have hy := (mem_denseItems_of hy).1
  have hirrefl : ∀ d, ¬ Below d d := fun d => by unfold Below; omega
  refine List.Pairwise.forall_of_forall_of_flip (R := fun x y => Below x.1 y.1 → x.2 + x.1.size ≤ y.2)
    (fun x _ hxx => absurd hxx (hirrefl _)) ?_ ?_ hx hy h
  · exact denseItems_sorted.imp fun hxy _ => hxy.1
  · exact denseItems_sorted.imp fun hxy hyx => absurd hyx hxy.2

theorem foldl_end_le {xs : List (WriterPlan.DenseTensor × ℕ)} {n bound : ℕ} (hn : n ≤ bound)
    (hxs : ∀ x ∈ xs, x.2 + x.1.size ≤ bound) : xs.foldl (fun e x => max e (x.2 + x.1.size)) n ≤ bound := by
  induction xs generalizing n with
  | nil => exact hn
  | cons x xs ih =>
    obtain ⟨hx, hxs⟩ := List.forall_mem_cons.mp hxs
    exact ih (max_le hn hx) hxs

theorem alignUp_le {n k : ℕ} (h : n ≤ k) (hk : k % 4096 = 0) : alignUp n ≤ k := by
  unfold alignUp
  omega

/-- What a section is: it begins at a tensor and ends behind all of them. -/
structure SectionOf (M : WriterPlan.Model) (q : WriterPlan.DenseTensor → Bool) (s : ℕ × ℕ) : Prop where
  start : ∃ x ∈ denseItems (WriterPlan.items M .v3) q, x.2 = s.1
  le : ∀ x ∈ denseItems (WriterPlan.items M .v3) q, s.1 ≤ x.2 ∧ x.2 + x.1.size ≤ s.1 + s.2
  least : ∀ bound, bound % 4096 = 0 → (∀ x ∈ denseItems (WriterPlan.items M .v3) q, x.2 + x.1.size ≤ bound) →
    s.1 + s.2 ≤ bound
  mod : s.1 % 4096 = 0 ∧ s.2 % 4096 = 0

theorem sectionOf_spec {s : ℕ × ℕ} (h : sectionOf (WriterPlan.items M .v3) q = some s) : SectionOf M q s := by
  obtain ⟨first, hfirst, rfl⟩ := Option.map_eq_some_iff.mp h
  obtain ⟨hmem, hmin⟩ := List.min?_eq_some_iff.mp hfirst
  obtain ⟨x, hx, hx'⟩ := List.mem_map.mp hmem
  have hends := (WriterPlan.le_foldl_end (denseItems (WriterPlan.items M .v3) q) 0).2
  have hle := WriterPlan.le_alignUp
    ((denseItems (WriterPlan.items M .v3) q).foldl (fun e x => max e (x.2 + x.1.size)) 0)
  have hmod := denseItems_mod hx
  have hamod := alignUp_mod
    ((denseItems (WriterPlan.items M .v3) q).foldl (fun e x => max e (x.2 + x.1.size)) 0)
  have hxend := hends x hx
  refine ⟨⟨x, hx, hx'⟩, fun y hy => ?_, fun bound hbound hall => ?_, ?_⟩
  · have hyend := hends y hy
    have hylow := hmin _ (List.mem_map_of_mem hy)
    dsimp only
    omega
  · have hfold := alignUp_le (foldl_end_le (Nat.zero_le _) hall) hbound
    dsimp only
    omega
  · dsimp only
    omega

theorem exists_section {x : WriterPlan.DenseTensor × ℕ} (hx : x ∈ denseItems (WriterPlan.items M .v3) q) :
    ∃ s, sectionOf (WriterPlan.items M .v3) q = some s := by
  have hne : ((denseItems (WriterPlan.items M .v3) q).map Prod.snd) ≠ [] :=
    List.ne_nil_of_mem (List.mem_map_of_mem hx)
  obtain ⟨first, hfirst⟩ := Option.ne_none_iff_exists'.mp (mt List.min?_eq_none_iff.mp hne)
  exact ⟨_, by rw [sectionOf, hfirst]; rfl⟩

/-- Sections of tensors that are sorted behind one another lie behind one another. -/
theorem section_le {s t : ℕ × ℕ} (hs : sectionOf (WriterPlan.items M .v3) q = some s)
    (ht : sectionOf (WriterPlan.items M .v3) r = some t) (hqr : ∀ d e, q d = true → r e = true → Below d e) :
    s.1 + s.2 ≤ t.1 := by
  obtain ⟨y, hy, hyt⟩ := (sectionOf_spec ht).start
  refine (sectionOf_spec hs).least _ (sectionOf_spec ht).mod.1 fun x hx => ?_
  rw [← hyt]
  exact end_le_of_below hx hy (hqr _ _ (mem_denseItems_of hx).2 (mem_denseItems_of hy).2)

theorem section_le_blocks {s : ℕ × ℕ} (hs : sectionOf (WriterPlan.items M .v3) q = some s) :
    s.1 + s.2 ≤ WriterPlan.blocksStart (WriterPlan.items M .v3) := by
  refine (sectionOf_spec hs).least _ (alignUp_mod _) fun x hx => ?_
  exact ((WriterPlan.le_foldl_end _ 0).2 x (mem_denseItems_of hx).1).trans (WriterPlan.le_alignUp _)

end order

section units

variable {M : WriterPlan.Model} {units : List ChunkUnit}

theorem below_layer (c : Category) {l k : ℕ} (hlk : l < k) (d e : WriterPlan.DenseTensor) (hd : inLayer c l d = true)
    (he : inLayer c k e = true) : Below d e := by
  simp only [inLayer, decide_eq_true_eq] at hd he
  refine .inr ⟨by rw [hd.1, he.1], ?_⟩
  omega

theorem section_le_of_rank {c c' : Category} (hrank : rank c < rank c') {q r : WriterPlan.DenseTensor → Bool}
    (hq : ∀ d, q d = true → d.category = c) (hr : ∀ d, r d = true → d.category = c') {u v : ChunkUnit}
    (hu : sectionUnit (WriterPlan.items M .v3) q = some u) (hv : sectionUnit (WriterPlan.items M .v3) r = some v) :
    u.off + u.size ≤ v.off := by
  obtain ⟨s, hs, rfl⟩ := Option.map_eq_some_iff.mp hu
  obtain ⟨t, ht, rfl⟩ := Option.map_eq_some_iff.mp hv
  refine section_le hs ht fun d e hd he => .inl ?_
  rwa [hq d hd, hr e he]

theorem section_before_block {q : WriterPlan.DenseTensor → Bool} {u : ChunkUnit}
    (hu : sectionUnit (WriterPlan.items M .v3) q = some u) {b : Block} (hb : b ∈ WriterPlan.blocks M .v3) :
    u.off + u.size ≤ b.off := by
  obtain ⟨s, hs, rfl⟩ := Option.map_eq_some_iff.mp hu
  exact (section_le_blocks hs).trans (WriterPlan.mem_blocks hb).2.2

theorem layer_category {c : Category} {l : ℕ} (d : WriterPlan.DenseTensor) (h : inLayer c l d = true) :
    d.category = c := (of_decide_eq_true h).1

theorem layerUnits_ordered (c : Category) : ((List.range M.nLayer).filterMap fun l =>
    sectionUnit (WriterPlan.items M .v3) (inLayer c l)).Pairwise fun u v => u.off + u.size ≤ v.off := by
  refine (List.pairwise_lt_range (n := M.nLayer)).filterMap _ fun l k hlk u hu v hv => ?_
  obtain ⟨s, hs, rfl⟩ := Option.map_eq_some_iff.mp hu
  obtain ⟨t, ht, rfl⟩ := Option.map_eq_some_iff.mp hv
  exact section_le hs ht (below_layer c hlk)

theorem units_ordered (h : WriterPlan.buildUnits M = some units) :
    units.Pairwise fun u v => u.off + u.size ≤ v.off := by
  obtain ⟨g, hg, rfl⟩ := Option.map_eq_some_iff.mp h
  have hglobal : ∀ d : WriterPlan.DenseTensor, decide (d.category = .denseGlobal) = true → d.category = .denseGlobal :=
    fun d hd => of_decide_eq_true hd
  have hblocks : ((WriterPlan.blocks M .v3).map (blockUnit M)).Pairwise fun u v => u.off + u.size ≤ v.off :=
    List.pairwise_map.mpr (WriterPlan.placeBlocks_ordered _ _)
  rw [List.cons_append, List.cons_append, List.pairwise_cons, List.pairwise_append, List.pairwise_append]
  refine ⟨fun v hv => ?_, ⟨layerUnits_ordered _, layerUnits_ordered _, fun u hu v hv => ?_⟩, hblocks, fun u hu v hv => ?_⟩
  · simp only [List.mem_append, List.mem_filterMap, List.mem_map] at hv
    rcases hv with (⟨l, _, hv⟩ | ⟨l, _, hv⟩) | ⟨b, hb, rfl⟩
    · exact section_le_of_rank (by decide : rank .denseGlobal < rank .denseLayer) hglobal layer_category hg hv
    · exact section_le_of_rank (by decide : rank .denseGlobal < rank .expertMeta) hglobal layer_category hg hv
    · exact section_before_block hg hb
  · obtain ⟨l, _, hu⟩ := List.mem_filterMap.mp hu
    obtain ⟨k, _, hv⟩ := List.mem_filterMap.mp hv
    exact section_le_of_rank (by decide : rank .denseLayer < rank .expertMeta) layer_category layer_category hu hv
  · obtain ⟨b, hb, rfl⟩ := List.mem_map.mp hv
    rcases List.mem_append.mp hu with hu | hu <;> obtain ⟨l, _, hu⟩ := List.mem_filterMap.mp hu
    · exact section_before_block hu hb
    · exact section_before_block hu hb

theorem sum_size_le {us : List ChunkUnit} (h : us.Pairwise fun u v => u.off + u.size ≤ v.off) {low bound : ℕ}
    (hle : low ≤ bound) (hlow : ∀ u ∈ us, low ≤ u.off) (hend : ∀ u ∈ us, u.off + u.size ≤ bound) :
    low + (us.map ChunkUnit.size).sum ≤ bound := by
  induction us generalizing low with
  | nil => exact hle
  | cons u us ih =>
    obtain ⟨hu, hus⟩ := List.pairwise_cons.mp h
    obtain ⟨hulow, _⟩ := List.forall_mem_cons.mp hlow
    obtain ⟨huend, hends⟩ := List.forall_mem_cons.mp hend
    have hrest := ih hus huend hu hends
    rw [List.map_cons, List.sum_cons]
    omega

variable {m : Model}

theorem unit_end (h : WriterPlan.buildUnits m.plain = some units) {u : ChunkUnit} (hu : u ∈ units) :
    u.size % 4096 = 0 ∧ u.off + u.size ≤ m.extent := by
  obtain ⟨g, hg, rfl⟩ := Option.map_eq_some_iff.mp h
  have hstart : WriterPlan.blocksStart (WriterPlan.items m.plain .v3) ≤ m.extent :=
    blocksStart_le.trans (Nat.le_add_right _ _)
  have hsection : ∀ {q : WriterPlan.DenseTensor → Bool} {u : ChunkUnit},
      sectionUnit (WriterPlan.items m.plain .v3) q = some u → u.size % 4096 = 0 ∧ u.off + u.size ≤ m.extent := by
    intro q u hu
    obtain ⟨s, hs, rfl⟩ := Option.map_eq_some_iff.mp hu
    exact ⟨(sectionOf_spec hs).mod.2, (section_le_blocks hs).trans hstart⟩
  simp only [List.cons_append, List.mem_cons, List.mem_append, List.mem_filterMap, List.mem_map] at hu
  rcases hu with rfl | (⟨l, _, hu⟩ | ⟨l, _, hu⟩) | ⟨b, hb, rfl⟩
  · exact hsection hg
  · exact hsection hu
  · exact hsection hu
  · refine ⟨?_, (block_end hb).2⟩
    have hsize : (blockUnit m.plain b).size = _ := (WriterPlan.mem_blocks hb).2.1
    rw [hsize]
    exact branchEnd_mod (Nat.zero_mod _) _

theorem units_size (h : WriterPlan.buildUnits m.plain = some units) : (units.map ChunkUnit.size).sum ≤ m.extent := by
  have hsum := sum_size_le (units_ordered h) (Nat.zero_le _) (fun _ _ => Nat.zero_le _) fun u hu => (unit_end h hu).2
  rwa [Nat.zero_add] at hsum

end units

section numbers

variable {m : Model} {L : Layout} {units : List ChunkUnit}

/-- The layers with a section of a category, with the section. -/
def Model.present (m : Model) (c : Category) : List (ℕ × ℕ × ℕ) :=
  (List.range m.nLayer).filterMap fun l =>
    (sectionOf (WriterPlan.items m.plain .v3) (inLayer c l)).map fun s => (l, s)

def Model.sectionUnit (m : Model) (q : WriterPlan.DenseTensor → Bool) (s : ℕ × ℕ) : ChunkUnit where
  off := s.1
  size := s.2
  content := (denseItems (WriterPlan.items m.plain .v3) q).map fun x =>
    { logOff := x.2 - s.1, len := x.1.size, srcs := x.1.srcs }

theorem sections_present (c : Category) : m.sections .v3 c =
    (m.present c).map fun x => (UInt64.ofNat x.1, UInt64.ofNat x.2.1, UInt64.ofNat x.2.2) := by
  rw [Model.sections, Model.present, List.map_filterMap]
  simp only [Option.map_map]
  rfl

theorem layerUnits_present (c : Category) : ((List.range m.plain.nLayer).filterMap fun l =>
    WriterPlan.sectionUnit (WriterPlan.items m.plain .v3) (inLayer c l)) =
      (m.present c).map fun x => m.sectionUnit (inLayer c x.1) x.2 := by
  rw [Model.present, List.map_filterMap]
  simp only [Option.map_map]
  rfl

theorem present_length (c : Category) : (m.present c).length ≤ m.nLayer :=
  (List.length_filterMap_le _ _).trans (by simp)

theorem present_lt {c : Category} {x : ℕ × ℕ × ℕ} (h : x ∈ m.present c) : x.1 < m.nLayer := by
  obtain ⟨l, hl, hx⟩ := List.mem_filterMap.mp h
  obtain ⟨s, _, rfl⟩ := Option.map_eq_some_iff.mp hx
  exact List.mem_range.mp hl

theorem present_ordered (c : Category) : (m.present c).Pairwise fun x y => x.1 < y.1 := by
  refine (List.pairwise_lt_range (n := m.nLayer)).filterMap _ fun l k hlk x hx y hy => ?_
  obtain ⟨s, _, rfl⟩ := Option.map_eq_some_iff.mp hx
  obtain ⟨t, _, rfl⟩ := Option.map_eq_some_iff.mp hy
  exact hlk

/-- The search for a layer ends at its section. -/
theorem find_zipIdx {xs : List (ℕ × ℕ × ℕ)} (hkeys : xs.Pairwise fun x y => x.1 < y.1)
    (hsmall : ∀ x ∈ xs, x.1 < 2 ^ 64) {idx : ℕ} {x : ℕ × ℕ × ℕ} (hx : xs[idx]? = some x) (k : ℕ) :
    ((xs.map fun x => (UInt64.ofNat x.1, UInt64.ofNat x.2.1, UInt64.ofNat x.2.2)).zipIdx k).find?
      (fun y => y.1.1 = UInt64.ofNat x.1) =
      some ((UInt64.ofNat x.1, UInt64.ofNat x.2.1, UInt64.ofNat x.2.2), k + idx) := by
  induction xs generalizing idx k with
  | nil => cases hx
  | cons y ys ih =>
    obtain ⟨hy, hys⟩ := List.pairwise_cons.mp hkeys
    obtain ⟨hysmall, hyssmall⟩ := List.forall_mem_cons.mp hsmall
    rw [List.map_cons, List.zipIdx_cons, List.find?_cons]
    cases idx with
    | zero =>
      obtain rfl : y = x := Option.some.inj hx
      simp
    | succ idx =>
      have hx : ys[idx]? = some x := hx
      have hmem := List.mem_of_getElem? hx
      have hlt := hy x hmem
      have hxsmall := hyssmall x hmem
      have hne : UInt64.ofNat y.1 ≠ UInt64.ofNat x.1 := by
        intro heq
        have hnat := congrArg UInt64.toNat heq
        rw [UInt64.toNat_ofNat_of_lt' hysmall, UInt64.toNat_ofNat_of_lt' hxsmall] at hnat
        omega
      simp only [hne, decide_false]
      rw [ih hys hyssmall hx (k + 1), Nat.add_right_comm, Nat.add_assoc]

theorem findSection_present (hc : m.Counted) {c : Category} {l : ℕ} {s : ℕ × ℕ} (hl : l < m.nLayer)
    (hs : sectionOf (WriterPlan.items m.plain .v3) (inLayer c l) = some s) :
    ∃ idx < (m.present c).length, (m.present c)[idx]? = some (l, s) ∧
      findSection (m.sections .v3 c) (UInt64.ofNat l) = some (idx, UInt64.ofNat s.1) := by
  have hmem : (l, s) ∈ m.present c :=
    List.mem_filterMap.mpr ⟨l, List.mem_range.mpr hl, by rw [hs]; rfl⟩
  obtain ⟨idx, hidx⟩ := List.getElem?_of_mem hmem
  have hlayers := hc.layers
  have hsmall : ∀ x ∈ m.present c, x.1 < 2 ^ 64 := by
    intro x hx
    have hlt := present_lt hx
    omega
  refine ⟨idx, (List.getElem?_eq_some_iff.mp hidx).1, hidx, ?_⟩
  rw [findSection, sections_present, find_zipIdx (present_ordered c) hsmall hidx 0, Nat.zero_add]
  rfl

theorem toNat_unit {n : ℕ} (h : n < 2 ^ 32) : (UInt32.ofNat n).toNat = n := UInt32.toNat_ofNat_of_lt' h

/-- Where the units of the sections and of the blocks are in the list. -/
theorem units_eq (h : WriterPlan.buildUnits m.plain = some units) :
    ∃ s, sectionOf (WriterPlan.items m.plain .v3) (fun d => d.category = .denseGlobal) = some s ∧
      units = m.sectionUnit (fun d => d.category = .denseGlobal) s ::
        ((m.present .denseLayer).map (fun x => m.sectionUnit (inLayer .denseLayer x.1) x.2) ++
          ((m.present .expertMeta).map (fun x => m.sectionUnit (inLayer .expertMeta x.1) x.2) ++
            (WriterPlan.blocks m.plain .v3).map (blockUnit m.plain))) := by
  obtain ⟨g, hg, rfl⟩ := Option.map_eq_some_iff.mp h
  obtain ⟨s, hs, rfl⟩ := Option.map_eq_some_iff.mp hg
  refine ⟨s, hs, ?_⟩
  rw [layerUnits_present, layerUnits_present, List.cons_append, List.cons_append, List.append_assoc]
  rfl

end numbers

end ConvertModel
end StreamMoE
