import StreamMoE.ConvertPlan

/-! The layout that `parse_model` takes from the header of a converted file: the branches of every layer with
their offsets, the blocks, and the sections. -/
namespace StreamMoE
namespace ConvertModel

open BlockSplit (Failure)
open BlockMetadata (BlockFile Tensor branchOf triples takeBranches buildLayerBranches exactOffs exactBranchOff
  blockIndex)
open ChunkSet (Layout)
open DenseFill (SrcSeg)
open StripRange (ChunkFile)
open WriterPlan (Category Target alignUp Block)

section arrays

def tripleList : Option (UInt64 × UInt64 × UInt64) → List UInt64
  | some (a, b, c) => [a, b, c]
  | none => []

theorem triples_flatMap {α : Type} (xs : List α) (g : α → Option (UInt64 × UInt64 × UInt64)) :
    triples (xs.flatMap fun x => tripleList (g x)) = xs.filterMap g := by
  induction xs with
  | nil => rfl
  | cons x xs ih =>
    rw [List.flatMap_cons, List.filterMap_cons]
    cases g x with
    | none => exact ih
    | some t =>
      obtain ⟨a, b, c⟩ := t
      exact congrArg ((a, b, c) :: ·) ih

variable (names : List String) (sizes : List UInt64)

theorem takeBranches_map (es : List ExpertTensor) : takeBranches es.length
    (es.map (fun e => e.shape.name) ++ names) (es.map (fun e => UInt64.ofNat e.perExpert) ++ sizes) =
      .ok (es.map fun e => (branchOf e.shape.name, UInt64.ofNat e.perExpert), names, sizes) := by
  induction es with
  | nil => rfl
  | cons e es ih => rw [List.length_cons, List.map_cons, List.map_cons, List.cons_append, List.cons_append,
      takeBranches, ih]; rfl

theorem buildLayerBranches_map (ls : List (List ExpertTensor)) :
    buildLayerBranches (ls.map List.length)
      (ls.flatMap fun es => es.map fun e => e.shape.name)
      (ls.flatMap fun es => es.map fun e => UInt64.ofNat e.perExpert) =
      .ok (ls.map fun es => es.map fun e => (branchOf e.shape.name, UInt64.ofNat e.perExpert)) := by
  induction ls with
  | nil => rfl
  | cons es ls ih =>
    simp only [List.map_cons, List.flatMap_cons]
    rw [buildLayerBranches]
    simp only [takeBranches_map, ih]
    rfl

end arrays

section branches

/-- `et_branch_off` for the experts of a layer -/
def placeBranches : ℕ → List ExpertTensor → List (ExpertTensor × ℕ)
  | _, [] => []
  | boff, e :: es => (e, boff) :: placeBranches (alignUp (boff + e.perExpert)) es

variable {m : Model}

theorem branches_plain (boff : ℕ) (es : List ExpertTensor) : WriterPlan.branches boff (es.map ExpertTensor.plain) =
    (placeBranches boff es).map fun x => (x.1.plain, x.2) := by
  induction es generalizing boff with
  | nil => rfl
  | cons e es ih =>
    rw [List.map_cons, WriterPlan.branches, placeBranches, List.map_cons, ← ih]
    rfl

theorem layerExperts_plain (l : ℕ) :
    WriterPlan.layerExperts m.plain l = (layerExperts m l).map ExpertTensor.plain := by
  rw [WriterPlan.layerExperts, layerExperts, Model.plain, List.filter_map]
  rfl

theorem placeBranches_fst (boff : ℕ) (es : List ExpertTensor) : (placeBranches boff es).map Prod.fst = es := by
  induction es generalizing boff with
  | nil => rfl
  | cons e es ih => rw [placeBranches, List.map_cons, ih]

theorem exists_placeBranches {es : List ExpertTensor} {e : ExpertTensor} (boff : ℕ) (he : e ∈ es) :
    ∃ off, (e, off) ∈ placeBranches boff es := by
  rw [← placeBranches_fst boff es] at he
  obtain ⟨⟨x, off⟩, hx, rfl⟩ := List.mem_map.mp he
  exact ⟨off, hx⟩

theorem placeBranches_mod {es : List ExpertTensor} {boff : ℕ} (hboff : boff % 4096 = 0) {x : ExpertTensor × ℕ}
    (h : x ∈ placeBranches boff es) : x.2 % 4096 = 0 := by
  induction es generalizing boff with
  | nil => cases h
  | cons e es ih =>
    rcases List.mem_cons.mp h with rfl | hmem
    · exact hboff
    · exact ih (alignUp_mod _) hmem

/-- The offsets that the reader forms are those of the writer. -/
theorem exactOffs_map {es : List ExpertTensor} (hes : ∀ e ∈ es, e.perExpert < 2 ^ 64) (boff : ℕ) :
    exactOffs true boff (es.map fun e => (branchOf e.shape.name, UInt64.ofNat e.perExpert)) =
      (placeBranches boff es).map fun x => (branchOf x.1.shape.name, x.2) := by
  induction es generalizing boff with
  | nil => rfl
  | cons e es ih =>
    obtain ⟨he, hes⟩ := List.forall_mem_cons.mp hes
    rw [List.map_cons, exactOffs, placeBranches, List.map_cons, ← ih hes]
    simp only [if_true, UInt64.toNat_ofNat_of_lt' he]

/-- A key that no other entry has. -/
theorem lookup_of_mem {α β : Type} [BEq α] [LawfulBEq α] {xs : List (α × β)} (hkeys : (xs.map Prod.fst).Nodup)
    {x : α × β} (hx : x ∈ xs) : xs.lookup x.1 = some x.2 := by
  induction xs with
  | nil => cases hx
  | cons y ys ih =>
    obtain ⟨hnot, hkeys⟩ := List.nodup_cons.mp hkeys
    rw [List.lookup_cons]
    rcases List.mem_cons.mp hx with rfl | hmem
    · simp
    · have hne : (x.1 == y.1) = false := by
        refine beq_eq_false_iff_ne.mpr fun heq => hnot ?_
        rw [← heq]
        exact List.mem_map_of_mem hmem
      rw [hne]
      exact ih hkeys hmem

theorem layerExperts_mem {l : ℕ} {e : ExpertTensor} : e ∈ layerExperts m l ↔ e ∈ m.expert ∧ e.layer = l := by
  simp [layerExperts]

theorem Model.Valid.tags (hm : m.Valid) (l : ℕ) :
    ((layerExperts m l).map fun e => branchOf e.shape.name).Nodup := by
  refine List.pairwise_map.mpr ((hm.branches.filter _).imp_of_mem fun {a b} ha hb hne => ?_)
  obtain ⟨ha, hla⟩ := layerExperts_mem.mp ha
  obtain ⟨hb, hlb⟩ := layerExperts_mem.mp hb
  rw [← (hm.expert a ha).branch, ← (hm.expert b hb).branch]
  exact hne (hla.trans hlb.symm)

theorem Model.Valid.length_layerExperts (hm : m.Valid) (l : ℕ) : (layerExperts m l).length ≤ 5 := by
  have hsub : ((layerExperts m l).map fun e => branchOf e.shape.name) ⊆ ["gate_up", "gate", "up", "down", "?"] := by
    intro tag htag
    obtain ⟨e, _, rfl⟩ := List.mem_map.mp htag
    unfold branchOf
    split_ifs <;> simp
  have hlen := (hm.tags l).subperm hsub |>.length_le
  simpa using hlen

theorem branchEnd_le (hm : m.Valid) {l : ℕ} (hl : l < m.nLayer) (hne : layerExperts m l ≠ []) :
    WriterPlan.branchEnd 0 (WriterPlan.layerExperts m.plain l) ≤ m.extent := by
  obtain ⟨e, he⟩ := List.exists_mem_of_ne_nil _ hne
  have hpos : m.nExpert ≠ 0 := hm.experts (List.ne_nil_of_mem (layerExperts_mem.mp he).1)
  have hmem : m.nExpert * WriterPlan.branchEnd 0 (WriterPlan.layerExperts m.plain l) ∈
      (List.range m.nLayer).map fun l =>
        m.nExpert * WriterPlan.branchEnd 0 (WriterPlan.layerExperts m.plain l) :=
    List.mem_map_of_mem (List.mem_range.mpr hl)
  have hle := List.le_sum_of_mem hmem
  have hmul := Nat.le_mul_of_pos_left (WriterPlan.branchEnd 0 (WriterPlan.layerExperts m.plain l))
    (Nat.pos_of_ne_zero hpos)
  unfold Model.extent
  omega

/-- A branch lies in the block of its layer. -/
theorem mem_placeBranches {l : ℕ} {x : ExpertTensor × ℕ} (hx : x ∈ placeBranches 0 (layerExperts m l)) :
    x.1 ∈ m.expert ∧ x.1.layer = l ∧ x.2 % 4096 = 0 ∧
      x.2 + x.1.perExpert ≤ WriterPlan.branchEnd 0 (WriterPlan.layerExperts m.plain l) := by
  have hplain : (x.1.plain, x.2) ∈ WriterPlan.branches 0 (WriterPlan.layerExperts m.plain l) := by
    rw [layerExperts_plain, branches_plain]
    exact List.mem_map.mpr ⟨x, hx, rfl⟩
  have hfst : x.1 ∈ (placeBranches 0 (layerExperts m l)).map Prod.fst := List.mem_map_of_mem hx
  rw [placeBranches_fst] at hfst
  obtain ⟨hin, hlayer⟩ := layerExperts_mem.mp hfst
  exact ⟨hin, hlayer, placeBranches_mod (Nat.zero_mod _) hx, (WriterPlan.branches_mem hplain).2.2⟩

end branches

section layout

variable (m : Model) (target : Target)

/-- The sections of a category: layer, offset and size -/
def Model.sections (c : Category) : List (UInt64 × UInt64 × UInt64) :=
  (List.range m.nLayer).filterMap fun l =>
    (WriterPlan.sectionOf (WriterPlan.items m.plain target) (WriterPlan.inLayer c l)).map fun s =>
      (UInt64.ofNat l, UInt64.ofNat s.1, UInt64.ofNat s.2)

/-- What the header of a converted file says of blocks, branches and sections. -/
structure LayoutOf (L : Layout) : Prop where
  nExpert : L.nExpert = UInt32.ofNat m.nExpert
  blocks : L.blocks = (WriterPlan.blocks m.plain target).map fun b => (UInt64.ofNat b.off, UInt64.ofNat b.size)
  branches : L.branches = (List.range m.nLayer).map fun l =>
    (layerExperts m l).map fun e => (branchOf e.shape.name, UInt64.ofNat e.perExpert)
  align : L.branchAlign = true
  denseGlobal : target ≠ .v2 → ∀ s, (WriterPlan.sectionOf (WriterPlan.items m.plain target)
    fun d => d.category = .denseGlobal) = some s → L.denseSection.headD 0 = UInt64.ofNat s.1
  denseLayer : target ≠ .v2 → L.denseLayerSections = m.sections target .denseLayer
  expertMeta : target ≠ .v2 → L.expertMetaSections = m.sections target .expertMeta

variable {m target} {chunk : Option Chunk} {main : ChunkFile} {others : List ChunkFile}

theorem sections_triples (c : Category) : triples ((List.range m.nLayer).flatMap fun l =>
    (addSection l (WriterPlan.sectionOf (WriterPlan.items m.plain target)
      (WriterPlan.inLayer c l))).map UInt64.ofNat) = m.sections target c := by
  rw [Model.sections, ← triples_flatMap]
  congr 2
  funext l
  cases WriterPlan.sectionOf (WriterPlan.items m.plain target) (WriterPlan.inLayer c l) with
  | none => rfl
  | some s => rfl

theorem blocks_triples : triples ((WriterPlan.blocks m.plain target).flatMap fun b =>
    [UInt64.ofNat b.off, UInt64.ofNat b.size, UInt64.ofNat (layerExperts m b.layer).length]) =
      (WriterPlan.blocks m.plain target).map fun b =>
        (UInt64.ofNat b.off, UInt64.ofNat b.size, UInt64.ofNat (layerExperts m b.layer).length) := by
  have h := triples_flatMap (WriterPlan.blocks m.plain target) fun b =>
    some (UInt64.ofNat b.off, UInt64.ofNat b.size, UInt64.ofNat (layerExperts m b.layer).length)
  rw [List.filterMap_eq_map'] at h
  exact h

theorem layerCounts_eq (hm : m.Valid) (hc : m.Counted) :
    ((makeHeader m target chunk).blockFile main others).layerCounts =
      ((List.range m.nLayer).map (layerExperts m)).map List.length := by
  have hn : (UInt32.ofNat m.nLayer).toNat = m.nLayer :=
    UInt32.toNat_ofNat_of_lt' (hc.layers.trans (by decide))
  unfold BlockFile.layerCounts
  simp only [Header.blockFile, makeHeader, hn]
  rw [List.map_map]
  refine List.map_congr_left fun l hl => ?_
  have hlen := hm.length_layerExperts l
  rw [List.getD_eq_getElem?_getD, List.getElem?_map, List.getElem?_range (List.mem_range.mp hl)]
  exact UInt64.toNat_ofNat_of_lt' (by
    have hsize : UInt64.size = 2 ^ 64 := rfl
    omega)

theorem exists_layout (hm : m.Valid) (hc : m.Counted) :
    ∃ L, ((makeHeader m target chunk).blockFile main others).layout = .ok L ∧ LayoutOf m target L := by
  have hbuild := buildLayerBranches_map ((List.range m.nLayer).map (layerExperts m))
  rw [List.flatMap_map, List.flatMap_map] at hbuild
  refine ⟨((makeHeader m target chunk).blockFile main others).layoutWith
    (((List.range m.nLayer).map (layerExperts m)).map fun es =>
      es.map fun e => (branchOf e.shape.name, UInt64.ofNat e.perExpert)), ?_, ?_⟩
  · rw [BlockFile.layout, layerCounts_eq hm hc]
    exact congrArg (Except.map _) hbuild
  · refine ⟨rfl, ?_, ?_, rfl, ?_, ?_, ?_⟩
    · simp only [BlockFile.layoutWith, Header.blockFile, makeHeader]
      rw [blocks_triples, List.map_map]
      rfl
    · exact List.map_map
    · intro hv s hs
      simp only [BlockFile.layoutWith, Header.blockFile, makeHeader, hs, hv, ne_eq, not_false_eq_true, decide_true,
        if_true, if_false]
      rfl
    · intro hv
      simp only [BlockFile.layoutWith, Header.blockFile, makeHeader, hv, ne_eq, not_false_eq_true, decide_true,
        if_true]
      exact sections_triples _
    · intro hv
      simp only [BlockFile.layoutWith, Header.blockFile, makeHeader, hv, ne_eq, not_false_eq_true, decide_true,
        if_true]
      exact sections_triples _

variable {L : Layout}

/-- The reader finds the branch of an expert tensor where the writer has placed it. -/
theorem branchOff_eq (hm : m.Valid) (hL : LayoutOf m target L) (hext : m.extent < 2 ^ 63) {e : ExpertTensor}
    (he : e ∈ m.expert) : ∃ boff, (e, boff) ∈ placeBranches 0 (layerExperts m e.layer.toNat) ∧
      (L.branchOff e.layer (branchOf e.shape.name)).toNat = boff := by
  have hv := hm.expert e he
  have hnonneg := hv.layer_nonneg
  have hlt := hv.layer_lt
  have hl : e.layer.toNat < m.nLayer := by omega
  have hmem : e ∈ layerExperts m e.layer.toNat := layerExperts_mem.mpr ⟨he, by omega⟩
  obtain ⟨boff, hboff⟩ := exists_placeBranches 0 hmem
  have hend := branchEnd_le hm hl (List.ne_nil_of_mem hmem)
  have hsmall : ∀ x ∈ layerExperts m e.layer.toNat, x.perExpert < 2 ^ 64 := by
    intro x hx
    obtain ⟨off, hoff⟩ := exists_placeBranches 0 hx
    have hle := (mem_placeBranches hoff).2.2.2
    dsimp only at hle
    omega
  refine ⟨boff, hboff, ?_⟩
  have hlist : L.branches.getD e.layer.toNat [] =
      (layerExperts m e.layer.toNat).map fun e => (branchOf e.shape.name, UInt64.ofNat e.perExpert) := by
    rw [hL.branches, List.getD_eq_getElem?_getD, List.getElem?_map, List.getElem?_range hl]
    rfl
  have hkeys : (((placeBranches 0 (layerExperts m e.layer.toNat)).map
      fun x => (branchOf x.1.shape.name, x.2)).map Prod.fst).Nodup := by
    have htags := hm.tags e.layer.toNat
    rw [← placeBranches_fst 0 (layerExperts m e.layer.toNat), List.map_map] at htags
    rwa [List.map_map]
  have hfound := lookup_of_mem hkeys (List.mem_map.mpr ⟨(e, boff), hboff, rfl⟩)
  rw [BlockMetadata.branchOff_toNat, exactBranchOff, if_pos hnonneg, hlist, hL.align, exactOffs_map hsmall]
  dsimp only at hfound
  rw [hfound]
  have hle := (mem_placeBranches hboff).2.2.2
  dsimp only [Option.getD_some] at hle ⊢
  omega

theorem perExpert_eq (hm : m.Valid) (hc : m.Counted) (hL : LayoutOf m target L) {e : ExpertTensor} (he : e ∈ m.expert)
    (hsize : e.shape.size < 2 ^ 64) {t : ChunkSet.TensorInfo} (ht : t.size = UInt64.ofNat e.shape.size) :
    (L.perExpert t).toNat = e.perExpert := by
  have hne := hm.experts (List.ne_nil_of_mem he)
  have hprod := (hm.expert e he).size
  have hn : (UInt32.ofNat m.nExpert).toNat = m.nExpert := UInt32.toNat_ofNat_of_lt' hc.experts
  have hzero : UInt32.ofNat m.nExpert ≠ 0 := by
    intro h
    rw [h] at hn
    exact hne hn.symm
  rw [ChunkSet.Layout.perExpert, hL.nExpert, if_neg hzero, ht, UInt64.toNat_div, UInt64.toNat_ofNat_of_lt' hsize,
    UInt32.toNat_toUInt64, hn, ← hprod]
  exact Nat.mul_div_cancel _ (Nat.pos_of_ne_zero hne)

theorem blockIndex_eq (hm : m.Valid) (hc : m.Counted) (hL : LayoutOf m target L) {e : ExpertTensor}
    (he : e ∈ m.expert) {x : ℕ} (hx : x < m.nExpert) :
    (blockIndex L e.layer x).toNat = e.layer.toNat * m.nExpert + x := by
  have hnonneg := (hm.expert e he).layer_nonneg
  have hlt := (hm.expert e he).layer_lt
  have hunits := hc.units
  have hlayers := hc.layers
  have hmul : e.layer.toNat * m.nExpert + m.nExpert ≤ m.nLayer * m.nExpert := by
    have hle := Nat.mul_le_mul_right m.nExpert (show e.layer.toNat + 1 ≤ m.nLayer by omega)
    rwa [Nat.succ_mul] at hle
  have hlayer : (UInt32.ofInt e.layer).toNat = e.layer.toNat := by
    have hmod : (e.layer % 2 ^ 32).toNat = e.layer.toNat := by omega
    rw [UInt32.ofInt, hmod]
    exact UInt32.toNat_ofNat_of_lt' (by
      have hsize : UInt32.size = 2 ^ 32 := rfl
      omega)
  have hn : (UInt32.ofNat m.nExpert).toNat = m.nExpert := UInt32.toNat_ofNat_of_lt' hc.experts
  have hx' : (UInt32.ofNat x).toNat = x := UInt32.toNat_ofNat_of_lt' (by
    have hsize : UInt32.size = 2 ^ 32 := rfl
    omega)
  rw [blockIndex, hL.nExpert, UInt32.toNat_add, UInt32.toNat_mul, hlayer, hn, hx']
  rw [Nat.mod_eq_of_lt (by omega : e.layer.toNat * m.nExpert < 2 ^ 32), Nat.mod_eq_of_lt (by omega)]

end layout

end ConvertModel
end StreamMoE
