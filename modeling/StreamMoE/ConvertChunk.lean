import StreamMoE.ConvertSingle
import StreamMoE.ConvertStrips

/-! `write_v3_chunk`: the strip files that are written for a model are read back as that model, however the units
are split. -/
namespace StreamMoE
namespace ConvertModel

open BlockSplit (Failure)
open BlockMetadata (BlockFile Slice branchOf blockIndex)
open ByteFiles (File)
open ChunkSet (Layout Query mapQuery)
open DenseFill (SrcSeg)
open FileCopies
open StripRange (ChunkFile)
open WriterPlan (Category Target alignUp Cuts ChunkUnit denseItems inLayer blockUnit sectionOf Laid)

section units

variable {m : Model} {disk : Disk} {units : List ChunkUnit}

theorem exists_placed {d : DenseTensor} (hd : d ∈ m.dense) (target : Target) :
    ∃ off, (Entry.dense d, off) ∈ m.placed target := by
  have hin : Entry.dense d ∈ m.entries target :=
    List.mem_append_left _ (List.mem_map_of_mem ((order_perm m target).mem_iff.mpr hd))
  rw [← placed_fst] at hin
  obtain ⟨⟨x, off⟩, hx, rfl⟩ := List.mem_map.mp hin
  exact ⟨off, hx⟩

theorem exists_units (hglobal : ∃ d ∈ m.dense, d.category = .denseGlobal) :
    ∃ units, WriterPlan.buildUnits m.plain = some units := by
  obtain ⟨d, hd, hcat⟩ := hglobal
  obtain ⟨off, hplaced⟩ := exists_placed hd .v3
  obtain ⟨s, hs⟩ := exists_section (mem_denseItems_placed hplaced (fun d => d.category = .denseGlobal)
    (decide_eq_true hcat))
  exact ⟨_, by rw [WriterPlan.buildUnits, WriterPlan.sectionUnit, hs]; rfl⟩

theorem stored_placed (hstored : m.Stored disk) {target : Target} {q : WriterPlan.DenseTensor → Bool}
    {x : WriterPlan.DenseTensor × ℕ} (hx : x ∈ denseItems (WriterPlan.items m.plain target) q) :
    FileCopies.Stored disk x.1.srcs := by
  obtain ⟨d, hplaced, hplain⟩ := mem_placed hx
  have hin : Entry.dense d ∈ m.entries target := by
    rw [← placed_fst]
    exact List.mem_map_of_mem hplaced
  rcases mem_entries hin with ⟨d', hd', heq⟩ | ⟨e, _, heq⟩
  · cases heq
    rw [← hplain]
    exact hstored.dense d hd'
  · cases heq

theorem units_stored (hm : m.Valid) (hstored : m.Stored disk) (hunits : WriterPlan.buildUnits m.plain = some units) :
    ∀ u ∈ units, ∀ x ∈ u.content, FileCopies.Stored disk x.srcs := by
  obtain ⟨s, _, rfl⟩ := units_eq hunits
  have hsection : ∀ (q : WriterPlan.DenseTensor → Bool) (s : ℕ × ℕ), ∀ x ∈ (m.sectionUnit q s).content,
      FileCopies.Stored disk x.srcs := by
    intro q s x hx
    obtain ⟨y, hy, rfl⟩ := List.mem_map.mp hx
    exact stored_placed hstored hy
  intro u hu x hx
  simp only [List.mem_cons, List.mem_append, List.mem_map] at hu
  rcases hu with rfl | ⟨y, _, rfl⟩ | ⟨y, _, rfl⟩ | ⟨b, hb, rfl⟩
  · exact hsection _ _ x hx
  · exact hsection _ _ x hx
  · exact hsection _ _ x hx
  · obtain ⟨y, hy, rfl⟩ := List.mem_map.mp hx
    obtain ⟨e, he, hplain⟩ := List.mem_map.mp (List.mem_of_mem_filter (WriterPlan.branches_mem hy).1)
    have hexpert := (WriterPlan.mem_blocks hb).1
    have hlen : b.expert < e.perExpertSrcs.length := by
      rw [(hm.expert e he).srcs]
      exact hexpert
    rw [← hplain]
    simp only [ExpertTensor.plain, List.getD_eq_getElem _ _ hlen]
    exact hstored.expert e he _ (List.getElem_mem _)

end units

section serve

variable {m : Model} {disk disk' : Disk} {G : Gguf} {N : ℕ} {units : List ChunkUnit} {splits : List (Fin N → ℤ)}
  {L : Layout}

/-- What is known of the files of a chunk conversion. -/
structure Striped (G : Gguf) (disk disk' : Disk) (m : Model) (units : List ChunkUnit) (splits : List (Fin N → ℤ)) :
    Prop where
  built : WriterPlan.buildUnits m.plain = some units
  fits : Fits G m units splits
  files : ∀ i < N, ∃ name, disk'[i]? = some (name, stripFile G disk m units splits i)
  stored : m.Stored disk
  extent : m.extent < 2 ^ 63

theorem Striped.holds (h : Striped G disk disk' m units splits) (hm : m.Valid) {q : Query} {unit : ChunkUnit}
    (hu : units[q.unit]? = some unit) {item : WriterPlan.ContentItem} (hitem : item ∈ unit.content)
    (hlog : item.logOff = q.rel.toNat) (hlen : item.len = q.len.toNat) (hrel : q.rel.toNat % 4096 = 0)
    (hend : q.rel.toNat + q.len.toNat ≤ unit.size) :
    ∃ segs, mapQuery (stripsOf G m units splits) q = .ok segs ∧ Holds disk disk' item.srcs item.len segs :=
  holds_strips h.fits (WriterPlan.buildUnits_laid hm.cut h.built) (units_stored hm h.stored h.built) h.files hu hitem
    hlog hlen hrel hend

/-- A tensor is read through the unit of its section. -/
theorem Striped.section_holds (h : Striped G disk disk' m units splits) (hm : m.Valid) {d : DenseTensor} {off : ℕ}
    (hplaced : (Entry.dense d, off) ∈ m.placed .v3) {q : WriterPlan.DenseTensor → Bool} (hq : q d.plain = true)
    {s : ℕ × ℕ} (hs : sectionOf (WriterPlan.items m.plain .v3) q = some s) {k : ℕ}
    (hk : units[k]? = some (m.sectionUnit q s)) :
    ∃ segs, mapQuery (stripsOf G m units splits)
        ⟨k, UInt64.ofNat off - UInt64.ofNat s.1, UInt64.ofNat d.shape.size⟩ = .ok segs ∧
      Holds disk disk' d.srcs d.shape.size segs := by
  have hmem := mem_denseItems_placed hplaced q hq
  have hspec := sectionOf_spec hs
  obtain ⟨hlow, hhigh⟩ := hspec.le _ hmem
  have hmod := hspec.mod.1
  have hoff := denseItems_mod hmem
  have hend : off + alignUp d.shape.size ≤ m.extent := placed_extent hplaced
  have hle := WriterPlan.le_alignUp d.shape.size
  have hext := h.extent
  have hsize : d.plain.size = d.shape.size := rfl
  dsimp only at hlow hhigh hoff
  rw [hsize] at hhigh
  have hrel : (UInt64.ofNat off - UInt64.ofNat s.1).toNat = off - s.1 := by
    rw [UInt64.toNat_sub_of_le, toNat_ofNat (by omega), toNat_ofNat (by omega)]
    rw [UInt64.le_iff_toNat_le, toNat_ofNat (by omega), toNat_ofNat (by omega)]
    exact hlow
  have hlen : (UInt64.ofNat d.shape.size).toNat = d.shape.size := toNat_ofNat (by omega)
  have hitem : { logOff := off - s.1, len := d.shape.size, srcs := d.srcs } ∈ (m.sectionUnit q s).content :=
    List.mem_map.mpr ⟨_, hmem, rfl⟩
  refine h.holds hm hk hitem hrel.symm hlen.symm ?_ ?_
  · dsimp only
    omega
  · change (UInt64.ofNat off - UInt64.ofNat s.1).toNat + (UInt64.ofNat d.shape.size).toNat ≤ s.2
    omega

theorem ofInt_layer {l : ℤ} (hl : 0 ≤ l) (hlt : l < 2 ^ 31) : UInt64.ofInt l = UInt64.ofNat l.toNat := by
  have hmod : l % 2 ^ 64 = l := Int.emod_eq_of_lt hl (by omega)
  rw [UInt64.ofInt, hmod]

/-- Where the first unit and those of the layers are in the list. -/
theorem getElem?_layer {g : ChunkUnit} {us vs ws : List ChunkUnit} {idx : ℕ} {u : ChunkUnit} :
    (us[idx]? = some u → (g :: (us ++ (vs ++ ws)))[1 + idx]? = some u) ∧
      (vs[idx]? = some u → (g :: (us ++ (vs ++ ws)))[1 + us.length + idx]? = some u) ∧
        (ws[idx]? = some u → (g :: (us ++ (vs ++ ws)))[1 + us.length + vs.length + idx]? = some u) := by
  refine ⟨fun h => ?_, fun h => ?_, fun h => ?_⟩
  · have hlt : idx < us.length := (List.getElem?_eq_some_iff.mp h).1
    rw [Nat.add_comm, List.getElem?_cons_succ, List.getElem?_append_left hlt]
    exact h
  · have hlt : idx < vs.length := (List.getElem?_eq_some_iff.mp h).1
    rw [Nat.add_assoc, Nat.add_comm, List.getElem?_cons_succ, List.getElem?_append_right (by omega),
      Nat.add_sub_cancel_left, List.getElem?_append_left hlt]
    exact h
  · rw [Nat.add_assoc, Nat.add_assoc, Nat.add_comm, List.getElem?_cons_succ, List.getElem?_append_right (by omega),
      Nat.add_sub_cancel_left, List.getElem?_append_right (by omega), Nat.add_sub_cancel_left]
    exact h

theorem Striped.dense (h : Striped G disk disk' m units splits) (hm : m.Valid) (hc : m.Counted)
    (hL : LayoutOf m .v3 L) {d : DenseTensor} {off : ℕ} (hplaced : (Entry.dense d, off) ∈ m.placed .v3) :
    ∃ q, L.denseQuery (tensorInfo d.shape d.layer off) = .ok q ∧
      ∃ segs, mapQuery (stripsOf G m units splits) q = .ok segs ∧ Holds disk disk' d.srcs d.shape.size segs := by
  have hin : Entry.dense d ∈ m.entries .v3 := by
    rw [← placed_fst]
    exact List.mem_map_of_mem hplaced
  have hd : d ∈ m.dense := by
    rcases mem_entries hin with ⟨d', hd', heq⟩ | ⟨e, _, heq⟩
    · cases heq
      exact hd'
    · cases heq
  have hv := hm.dense d hd
  have hlayer := hv.layer
  have hlayers := hc.layers
  obtain ⟨g, hg, hunits⟩ := units_eq h.built
  have hcat : (tensorInfo d.shape d.layer off).category = d.category := hv.category
  rw [ChunkSet.Layout.denseQuery, hcat]
  cases hcase : d.category with
  | expert => exact absurd hcase hv.notExpert
  | denseGlobal =>
    refine ⟨_, rfl, ?_⟩
    rw [hL.denseGlobal (by decide) g hg]
    refine h.section_holds hm hplaced (decide_eq_true hcase) hg ?_
    rw [hunits]
    rfl
  | denseLayer =>
    rw [hcase, if_neg (by decide)] at hlayer
    obtain ⟨s, hs⟩ := exists_section (mem_denseItems_placed hplaced (inLayer .denseLayer d.layer.toNat)
      (decide_eq_true ⟨hcase, by change d.layer = _; omega⟩))
    obtain ⟨idx, hlt, hidx, hfind⟩ := findSection_present hc (show d.layer.toNat < m.nLayer by omega) hs
    have hlen := @present_length m .denseLayer
    have hsmall : d.layer < 2 ^ 31 := by omega
    refine ⟨⟨1 + idx, UInt64.ofNat off - UInt64.ofNat s.1, UInt64.ofNat d.shape.size⟩, ?_, ?_⟩
    · have hword : (1 + UInt32.ofNat idx).toNat = 1 + idx := by
        rw [UInt32.toNat_add, toNat_unit (by omega)]
        have hone : (1 : UInt32).toNat = 1 := rfl
        omega
      have hkey : UInt64.ofInt (tensorInfo d.shape d.layer off).layer = UInt64.ofNat d.layer.toNat :=
        ofInt_layer hlayer.2.1 hsmall
      rw [hL.denseLayer (by decide), hkey, hfind]
      dsimp only
      rw [hword]
      rfl
    · refine h.section_holds hm hplaced (decide_eq_true ⟨hcase, by change d.layer = _; omega⟩) hs ?_
      rw [hunits]
      refine getElem?_layer.1 ?_
      rw [List.getElem?_map, hidx]
      rfl
  | expertMeta =>
    rw [hcase, if_neg (by decide)] at hlayer
    obtain ⟨s, hs⟩ := exists_section (mem_denseItems_placed hplaced (inLayer .expertMeta d.layer.toNat)
      (decide_eq_true ⟨hcase, by change d.layer = _; omega⟩))
    obtain ⟨idx, hlt, hidx, hfind⟩ := findSection_present hc (show d.layer.toNat < m.nLayer by omega) hs
    have hlen := @present_length m .denseLayer
    have hlen' := @present_length m .expertMeta
    have hsmall : d.layer < 2 ^ 31 := by omega
    have hcount : L.denseLayerSections.length = (m.present .denseLayer).length := by
      rw [hL.denseLayer (by decide), sections_present, List.length_map]
    refine ⟨⟨1 + (m.present .denseLayer).length + idx, UInt64.ofNat off - UInt64.ofNat s.1,
      UInt64.ofNat d.shape.size⟩, ?_, ?_⟩
    · have hunitsCount := hc.units
      have hword : (1 + UInt32.ofNat (m.present .denseLayer).length + UInt32.ofNat idx).toNat =
          1 + (m.present .denseLayer).length + idx := by
        rw [UInt32.toNat_add, UInt32.toNat_add, toNat_unit (by omega), toNat_unit (by omega)]
        have hone : (1 : UInt32).toNat = 1 := rfl
        omega
      have hkey : UInt64.ofInt (tensorInfo d.shape d.layer off).layer = UInt64.ofNat d.layer.toNat :=
        ofInt_layer hlayer.2.1 hsmall
      rw [hL.expertMeta (by decide), hkey, hfind]
      dsimp only
      rw [hcount, hword]
      rfl
    · refine h.section_holds hm hplaced (decide_eq_true ⟨hcase, by change d.layer = _; omega⟩) hs ?_
      have hmapped : ((m.present .denseLayer).map fun x => m.sectionUnit (inLayer .denseLayer x.1) x.2).length =
          (m.present .denseLayer).length := List.length_map _
      rw [hunits, ← hmapped]
      refine getElem?_layer.2.1 ?_
      rw [List.getElem?_map, hidx]
      rfl

theorem block_lt {target : Target} {i : ℕ} {b : WriterPlan.Block}
    (hb : (WriterPlan.blocks m.plain target)[i]? = some b) : i < m.nLayer * m.nExpert := by
  have hgrid := placeBlocks_getElem? (M := m.plain)
    ((List.range m.plain.nLayer).flatMap fun l => (List.range m.plain.nExpert).map fun e => (l, e))
    (WriterPlan.blocksStart (WriterPlan.items m.plain target)) i
  rw [WriterPlan.blocks] at hb
  rw [hb] at hgrid
  have hlt := (List.getElem?_eq_some_iff.mp hgrid.symm).1
  simp only [List.length_flatMap, List.length_map, List.length_range, List.map_const', List.sum_replicate,
    smul_eq_mul] at hlt
  exact hlt

theorem Striped.block (h : Striped G disk disk' m units splits) (hc : m.Counted) (hL : LayoutOf m .v3 L) {i : ℕ}
    {b : WriterPlan.Block} (hb : (WriterPlan.blocks m.plain .v3)[i]? = some b) {bi : UInt32} (hbi : bi.toNat = i) :
    units[L.blockUnit bi]? = some (blockUnit m.plain b) := by
  obtain ⟨g, hg, hunits⟩ := units_eq h.built
  have hcount : L.denseLayerSections.length = (m.present .denseLayer).length := by
    rw [hL.denseLayer (by decide), sections_present, List.length_map]
  have hcount' : L.expertMetaSections.length = (m.present .expertMeta).length := by
    rw [hL.expertMeta (by decide), sections_present, List.length_map]
  have hlen := @present_length m .denseLayer
  have hlen' := @present_length m .expertMeta
  have hunitsCount := hc.units
  have hlt := block_lt hb
  have hword : L.blockUnit bi = 1 + (m.present .denseLayer).length + (m.present .expertMeta).length + i := by
    rw [ChunkSet.Layout.blockUnit, hcount, hcount', UInt32.toNat_add, UInt32.toNat_add, UInt32.toNat_add,
      toNat_unit (by omega), toNat_unit (by omega), hbi]
    have hone : (1 : UInt32).toNat = 1 := rfl
    omega
  have hmapped : ((m.present .denseLayer).map fun x => m.sectionUnit (inLayer .denseLayer x.1) x.2).length =
      (m.present .denseLayer).length := List.length_map _
  have hmapped' : ((m.present .expertMeta).map fun x => m.sectionUnit (inLayer .expertMeta x.1) x.2).length =
      (m.present .expertMeta).length := List.length_map _
  rw [hword, hunits, ← hmapped, ← hmapped']
  refine getElem?_layer.2.2 ?_
  rw [List.getElem?_map, hb]
  rfl

/-- A branch of an expert is read through the unit of its block. -/
theorem Striped.expert (h : Striped G disk disk' m units splits) (hm : m.Valid) (hc : m.Counted)
    (hL : LayoutOf m .v3 L) {e : ExpertTensor} {off : ℕ} (hplaced : (Entry.expert e, off) ∈ m.placed .v3) {x : ℕ}
    (hx : x < m.nExpert) :
    ∃ segs, mapQuery (stripsOf G m units splits)
        ⟨L.blockUnit (blockIndex L e.layer x), L.branchOff e.layer (branchOf e.shape.name),
          L.perExpert (tensorInfo e.shape e.layer off)⟩ = .ok segs ∧
      Holds disk disk' (e.perExpertSrcs.getD x []) e.perExpert segs := by
  have hin : Entry.expert e ∈ m.entries .v3 := by
    rw [← placed_fst]
    exact List.mem_map_of_mem hplaced
  have he : e ∈ m.expert := by
    rcases mem_entries hin with ⟨d', hd', heq⟩ | ⟨e, he', heq⟩
    · cases heq
    · cases heq
      exact he'
  have hext := h.extent
  have hlayer := (hm.expert e he).layer_lt
  have hnonneg := (hm.expert e he).layer_nonneg
  have hend : off + alignUp e.shape.size ≤ m.extent := placed_extent hplaced
  have hle := WriterPlan.le_alignUp e.shape.size
  obtain ⟨boff, hboff, hbranch⟩ := branchOff_eq hm hL hext he
  obtain ⟨b, hb, hblayer, hbexpert⟩ := @exists_block m .v3 e.layer.toNat x (by omega) hx
  have hbsize := (WriterPlan.mem_blocks (List.mem_of_getElem? hb)).2.1
  obtain ⟨_, _, hmod, hbranchEnd⟩ := mem_placeBranches hboff
  rw [← hblayer, ← hbsize] at hbranchEnd
  dsimp only at hmod hbranchEnd
  have hper := perExpert_eq hm hc hL he (by omega) (t := tensorInfo e.shape e.layer off) rfl
  have hitem : { logOff := boff, len := e.perExpert, srcs := e.perExpertSrcs.getD x [] } ∈
      (blockUnit m.plain b).content := by
    refine List.mem_map.mpr ⟨(e.plain, boff), ?_, ?_⟩
    · rw [layerExperts_plain, branches_plain, hblayer]
      exact List.mem_map.mpr ⟨_, hboff, rfl⟩
    · rw [hbexpert]
      rfl
  refine h.holds hm (h.block hc hL hb (blockIndex_eq hm hc hL he hx)) hitem hbranch.symm hper.symm ?_ ?_
  · dsimp only
    omega
  · change (L.branchOff e.layer (branchOf e.shape.name)).toNat +
      (L.perExpert (tensorInfo e.shape e.layer off)).toNat ≤ b.size
    omega

/-- Every slice of the strip files gets the bytes of the source. -/
theorem Striped.served (h : Striped G disk disk' m units splits) (hm : m.Valid) (hc : m.Counted)
    (hL : LayoutOf m .v3 L) {chunk : Chunk} {main : ChunkFile} {others : List ChunkFile}
    (hstrips : main :: others = stripsOf G m units splits) :
    Served disk disk' m .v3 ((makeHeader m .v3 (some chunk)).blockFile main others) L := by
  have hsrcs : ∀ x, ((makeHeader m .v3 (some chunk)).blockFile main others).srcs L x =
      (((makeHeader m .v3 (some chunk)).blockFile main others).interval L x).bind
        (mapQuery (stripsOf G m units splits)) := by
    intro x
    rw [BlockFile.srcs, ← hstrips]
    rfl
  refine ⟨fun x hx => ?_, fun d off hplaced => ?_, fun e off hplaced x hx => ?_⟩
  · have hget := List.mem_zipIdx_iff_getElem?.mp hx
    rw [hL.blocks, List.getElem?_map] at hget
    obtain ⟨b, hb, heq⟩ := Option.map_eq_some_iff.mp hget
    have hmem := List.mem_of_getElem? hb
    have hend := (block_end hmem).2
    have hext := h.extent
    have hsize : (UInt64.ofNat b.size).toNat = b.size := toNat_ofNat (by omega)
    have hlt : x.2 < 2 ^ 32 := by
      have hunitsCount := hc.units
      have hcount := block_lt hb
      omega
    have hunit := h.block hc hL hb (toNat_unit hlt)
    obtain ⟨segs, hok, _⟩ := mapQuery_strips (q := ⟨L.blockUnit (UInt32.ofNat x.2), 0, UInt64.ofNat b.size⟩) h.fits
      hunit rfl (by
        change 0 + (UInt64.ofNat b.size).toNat ≤ b.size
        omega)
    refine ⟨segs, ?_⟩
    rw [hsrcs, ← heq]
    exact hok
  · obtain ⟨q, hq, segs, hok, hholds⟩ := h.dense hm hc hL hplaced
    refine ⟨segs, ?_, hholds⟩
    rw [hsrcs]
    have hinterval : ((makeHeader m .v3 (some chunk)).blockFile main others).interval L
        (.dense (tensorInfo d.shape d.layer off)) = .ok q := hq
    rw [hinterval]
    exact hok
  · obtain ⟨segs, hok, hholds⟩ := h.expert hm hc hL hplaced hx
    refine ⟨segs, ?_, hholds⟩
    rw [hsrcs]
    exact hok

end serve

section chunk

variable {m : Model} {disk : Disk} {G : Gguf}

/-- A header that is read from the file it is written to, and numbers of 63 bits for the offsets behind it. -/
def Gguf.Keeps (G : Gguf) (m : Model) (h : Header) : Prop :=
  G.Faithful h ∧ m.extent + alignUp (G.write h).len < 2 ^ 63

def stripFiles {N : ℕ} (G : Gguf) (disk : Disk) (m : Model) (units : List ChunkUnit) (splits : List (Fin N → ℤ))
    (out : String) (pad : ℕ) : Disk :=
  (List.range N).map fun i => (chunkPath out pad i, stripFile G disk m units splits i)

/-- No file gets more pages of one unit than an `int` counts. -/
def Model.FitsInt (m : Model) (N : ℕ) (ratio : List ℤ) : Prop :=
  ∀ units, WriterPlan.buildUnits m.plain = some units → ∀ u ∈ units, ConvertModel.FitsInt (u.size / 4096) N ratio

/-- The files of `write_v3_chunk` are parsed as the model they were written for. -/
theorem writeV3Chunk_converted (hm : m.Valid) (hc : m.Counted) (hstored : m.Stored disk) {N : ℕ} {ratio : List ℤ}
    (hsplits : Splits N ratio) (hglobal : ∃ d ∈ m.dense, d.category = .denseGlobal) (hext : m.extent < 2 ^ 63)
    (hfits : m.FitsInt N ratio)
    (hG : ∀ units (splits : List (Fin N → ℤ)) i, WriterPlan.buildUnits m.plain = some units →
      splitUnits N ratio units = .ok splits → i < N → G.Keeps m (stripHeader m units splits i))
    (out : String) (pad : ℕ) :
    ∃ files m', writeV3Chunk G disk m out N ratio pad = .ok files ∧ parseModel G files = .ok m' ∧
      Converted disk files m m' := by
  obtain ⟨units, hunits⟩ := exists_units hglobal
  have hpages : ∀ u ∈ units, u.size % 4096 = 0 ∧ u.size < 2 ^ 63 := by
    intro u hu
    obtain ⟨hmod, hend⟩ := unit_end hunits hu
    exact ⟨hmod, by omega⟩
  obtain ⟨splits, hsplit, hshared⟩ := splitUnits_shared hsplits hpages (hfits units hunits)
  have hsum := units_size hunits
  have hkeeps := hG units splits
  have hplaced : Fits G m units splits := by
    refine ⟨hshared, by omega, fun i hi => ?_⟩
    have hstart := (hkeeps i hunits hsplit hi).2
    unfold stripStart
    omega
  have hstoredUnits := units_stored hm hstored hunits
  have hwritten : (List.range N).mapM (fun i => (writeStrips G disk m units splits i).map fun f =>
      (chunkPath out pad i, f)) = .ok (stripFiles G disk m units splits out pad) :=
    mapM_ok fun i _ => by rw [writeStrips_ok hstoredUnits]; rfl
  have hread : ∀ i < N, G.read (stripFile G disk m units splits i) = some (stripHeader m units splits i) ∧
      G.dataOffset (stripFile G disk m units splits i) = stripStart G m units splits i := by
    intro i hi
    exact (hkeeps i hunits hsplit hi).1 _ fun a ha => read_header ha (WriterPlan.le_alignUp _)
  have hchunk : ∀ i < N, chunkFile G true (chunkPath out pad i, stripFile G disk m units splits i) =
      .ok ⟨slicesOf units splits i, UInt64.ofNat (stripStart G m units splits i)⟩ := by
    intro i hi
    rw [chunkFile, openFile]
    simp only [(hread i hi).1, (hread i hi).2]
    rfl
  have hstriped : Striped G disk (stripFiles G disk m units splits out pad) m units splits := by
    refine ⟨hunits, hplaced, fun i hi => ⟨chunkPath out pad i, ?_⟩, hstored, by omega⟩
    rw [stripFiles, List.getElem?_map, List.getElem?_range hi]
    rfl
  obtain ⟨n, rfl⟩ : ∃ n, N = n + 1 := Nat.exists_eq_succ_of_ne_zero hsplits.pos.ne'
  have hopen : openFile G (chunkPath out pad 0, stripFile G disk m units splits 0) =
      .ok (stripHeader m units splits 0) := by
    rw [openFile]
    simp only [(hread 0 (Nat.zero_lt_succ n)).1]
  have hfiles : stripFiles G disk m units splits out pad =
      (chunkPath out pad 0, stripFile G disk m units splits 0) ::
        (List.range n).map fun i => (chunkPath out pad (i + 1), stripFile G disk m units splits (i + 1)) := by
    rw [stripFiles, List.range_succ_eq_map, List.map_cons, List.map_map]
    rfl
  have hstrips : (⟨slicesOf units splits 0, UInt64.ofNat (stripStart G m units splits 0)⟩ : ChunkFile) ::
      ((List.range n).map fun i => ⟨slicesOf units splits (i + 1), UInt64.ofNat (stripStart G m units splits (i + 1))⟩) =
      stripsOf G m units splits := by
    rw [stripsOf, List.range_succ_eq_map, List.map_cons, List.map_map]
    rfl
  have hothers : ((List.range n).map fun i =>
      (chunkPath out pad (i + 1), stripFile G disk m units splits (i + 1))).mapM (chunkFile G true) =
      .ok ((List.range n).map fun i =>
        ⟨slicesOf units splits (i + 1), UInt64.ofNat (stripStart G m units splits (i + 1))⟩) := by
    rw [List.mapM_map]
    exact mapM_ok fun i hi => hchunk (i + 1) (by have hlt := List.mem_range.mp hi; omega)
  obtain ⟨m', hparse, hconv⟩ := parse_converted hm hc (by omega) hopen (hchunk 0 (Nat.zero_lt_succ n)) hothers
    fun L hL => hstriped.served hm hc hL hstrips
  refine ⟨stripFiles G disk m units splits out pad, m', ?_, ?_, hconv⟩
  · rw [writeV3Chunk, hunits]
    simp only [hsplit, bind, Except.bind]
    exact hwritten
  · rw [hfiles]
    exact hparse

end chunk

end ConvertModel
end StreamMoE
