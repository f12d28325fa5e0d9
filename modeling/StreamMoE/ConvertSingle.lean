import StreamMoE.ConvertRead

/-! `write_single`: the one file that is written for a model is read back as that model. -/
namespace StreamMoE
namespace ConvertModel

open BlockSplit (Failure)
open BlockMetadata (BlockFile Slice branchOf blockIndex)
open ByteFiles (File Write writes)
open ChunkSet (Layout)
open DenseFill (SrcSeg)
open FileCopies
open Gaps
open StripRange (ChunkFile)
open WriterPlan (Category Target alignUp Cuts CopyOp Block opHits fillHits denseItems denseOps blockOps blockRegion)

section hits

variable {M : WriterPlan.Model} {target : Target}

/-- What is written to the file at `p`. -/
theorem single_hits (hM : M.Cut) (p : ℕ) :
    opHits (WriterPlan.writeSingle M target).1 p + fillHits (WriterPlan.writeSingle M target).2 p =
      opHits (denseOps M target) p + hits Block.off Block.size (WriterPlan.blocks M target) p := by
  have hsound : ∀ r ∈ (WriterPlan.blocks M target).map (blockRegion M), r.Sound := by
    simpa using fun b hb => WriterPlan.blockRegion_sound hM hb
  have hregions := WriterPlan.hits_regions hsound p
  have hblocks : hits WriterPlan.Region.base WriterPlan.Region.len ((WriterPlan.blocks M target).map (blockRegion M))
      p = hits Block.off Block.size (WriterPlan.blocks M target) p := by
    rw [hits, hits, List.countP_map]
    rfl
  rw [hblocks] at hregions
  simp only [WriterPlan.writeSingle, opHits, fillHits, hits_append, List.flatMap_map] at hregions ⊢
  omega

theorem hits_denseOps (hM : M.Cut) (p : ℕ) : opHits (denseOps M target) p =
    if ∃ x ∈ denseItems (WriterPlan.items M target) fun _ => true,
      Covers (fun x : WriterPlan.DenseTensor × ℕ => x.2) (fun x => x.1.size) x p then 1 else 0 := by
  have hordered : (denseItems (WriterPlan.items M target) fun _ => true).Pairwise
      fun a b => a.2 + a.1.size ≤ b.2 :=
    WriterPlan.denseItems_ordered _ (WriterPlan.placeItems_ordered (WriterPlan.orderItems M target) 0)
  rw [← hits_of_ordered hordered, ← sum_covers, opHits, denseOps, hits_flatMap]
  congr 1
  exact List.map_congr_left fun x hx => WriterPlan.hits_mapped (hM.placed hx) _ p

theorem denseItems_lt {x : WriterPlan.DenseTensor × ℕ}
    (hx : x ∈ denseItems (WriterPlan.items M target) fun _ => true) :
    x.2 + x.1.size ≤ WriterPlan.blocksStart (WriterPlan.items M target) :=
  ((WriterPlan.le_foldl_end _ 0).2 x hx).trans (WriterPlan.le_alignUp _)

/-- A byte of a dense tensor is written once. -/
theorem single_dense (hM : M.Cut) {x : WriterPlan.DenseTensor × ℕ}
    (hx : x ∈ denseItems (WriterPlan.items M target) fun _ => true) {p : ℕ} (hle : x.2 ≤ p)
    (hlt : p < x.2 + x.1.size) :
    opHits (WriterPlan.writeSingle M target).1 p + fillHits (WriterPlan.writeSingle M target).2 p = 1 := by
  have hnone : hits Block.off Block.size (WriterPlan.blocks M target) p = 0 := by
    refine hits_eq_zero.mpr fun b hb hbp => ?_
    have hstart := (WriterPlan.mem_blocks hb).2.2
    have hend := denseItems_lt hx
    unfold Covers at hbp
    omega
  rw [single_hits hM, hits_denseOps hM, hnone, if_pos ⟨x, hx, hle, hlt⟩]

/-- A byte of a block is written once. -/
theorem single_block (hM : M.Cut) {b : Block} (hb : b ∈ WriterPlan.blocks M target) {p : ℕ} (hle : b.off ≤ p)
    (hlt : p < b.off + b.size) :
    opHits (WriterPlan.writeSingle M target).1 p + fillHits (WriterPlan.writeSingle M target).2 p = 1 := by
  have hdense := WriterPlan.denseOps_below hM ((WriterPlan.mem_blocks hb).2.2.trans hle)
  have hone : hits Block.off Block.size (WriterPlan.blocks M target) p = 1 := by
    have hordered : (WriterPlan.blocks M target).Pairwise fun a b => a.off + a.size ≤ b.off :=
      WriterPlan.placeBlocks_ordered _ _
    rw [hits_of_ordered hordered, if_pos ⟨b, hb, hle, hlt⟩]
  rw [single_hits hM, hdense, hone]

end hits

section valid

variable {m : Model} {target : Target} {disk : Disk}

theorem Model.Valid.cut (hm : m.Valid) : m.plain.Cut where
  dense d hd := by
    obtain ⟨d', hd', rfl⟩ := List.mem_map.mp hd
    exact (hm.dense d' hd').cuts
  expert e he := by
    obtain ⟨e', he', rfl⟩ := List.mem_map.mp he
    exact ⟨(hm.expert e' he').srcs, (hm.expert e' he').cuts⟩

theorem mem_denseItems_placed {d : DenseTensor} {off : ℕ} (h : (Entry.dense d, off) ∈ m.placed target)
    (q : WriterPlan.DenseTensor → Bool) (hq : q d.plain = true) :
    (d.plain, off) ∈ denseItems (WriterPlan.items m.plain target) q := by
  refine List.mem_filterMap.mpr ⟨(Entry.plain (.dense d), off), ?_, ?_⟩
  · rw [items_plain]
    exact List.mem_map.mpr ⟨_, h, rfl⟩
  · exact if_pos hq

theorem mem_placed {d : WriterPlan.DenseTensor} {off : ℕ} {q : WriterPlan.DenseTensor → Bool}
    (h : (d, off) ∈ denseItems (WriterPlan.items m.plain target) q) :
    ∃ d', (Entry.dense d', off) ∈ m.placed target ∧ d'.plain = d := by
  have hmem := WriterPlan.mem_denseItems h
  rw [items_plain] at hmem
  obtain ⟨⟨x, off'⟩, hx, heq⟩ := List.mem_map.mp hmem
  obtain ⟨hplain, rfl⟩ := Prod.mk.inj heq
  cases x with
  | dense d' =>
    cases hplain
    exact ⟨d', hx, rfl⟩
  | expert e => cases hplain

theorem readable_of_stored {srcs : List SrcSeg} (h : FileCopies.Stored disk srcs) {s : SrcSeg} (hs : s ∈ srcs)
    (dst : ℕ) : Readable disk { file := s.file, srcOff := s.off, len := s.len, dstRel := dst } := h s hs

theorem writeSingle_readable (hm : m.Valid) (hstored : m.Stored disk) :
    ∀ o ∈ (WriterPlan.writeSingle m.plain target).1, Readable disk o := by
  intro o ho
  rcases List.mem_append.mp ho with ho | ho
  · obtain ⟨⟨d, off⟩, hx, ho⟩ := List.mem_flatMap.mp ho
    obtain ⟨d, hplaced, rfl⟩ := mem_placed hx
    obtain ⟨s, hs, rfl⟩ := List.mem_map.mp ho
    have hin : Entry.dense d ∈ m.entries target := by
      rw [← placed_fst]
      exact List.mem_map_of_mem hplaced
    rcases mem_entries hin with ⟨d', hd', heq⟩ | ⟨e, _, heq⟩
    · cases heq
      exact readable_of_stored (hstored.dense d hd') hs _
    · cases heq
  · obtain ⟨b, hb, ho⟩ := List.mem_flatMap.mp ho
    obtain ⟨x, hx, ho⟩ := List.mem_flatMap.mp ho
    obtain ⟨s, hs, rfl⟩ := List.mem_map.mp ho
    obtain ⟨e, he, hplain⟩ := List.mem_map.mp (List.mem_of_mem_filter (WriterPlan.branches_mem hx).1)
    have hexpert := (WriterPlan.mem_blocks hb).1
    rw [← hplain] at hs
    have hlen : b.expert < e.perExpertSrcs.length := by
      rw [(hm.expert e he).srcs]
      exact hexpert
    simp only [ExpertTensor.plain, List.getD_eq_getElem _ _ hlen] at hs
    exact readable_of_stored (hstored.expert e he _ (List.getElem_mem _)) hs _

end valid

section single

variable {disk disk' : Disk} {m : Model} {target : Target} {G : Gguf}

/-- One segment of a file that holds the bytes of the source. -/
theorem holds_single {srcs : List SrcSeg} {size at' : ℕ} {f : String × File UInt8} (hcuts : Cuts srcs size)
    (hstored : FileCopies.Stored disk srcs)
    (hread : ∀ p < size, f.2.read (at' + p) = srcByte disk srcs p) :
    Holds disk [f] srcs size [⟨⟨0, at', size⟩, 0⟩] where
  cuts := cuts_piece _ _ _
  gapless := gapless_piece _ _ _
  stored := by
    intro s hs
    rw [List.mem_singleton.mp hs]
    refine ⟨f, rfl, fun hne => ?_⟩
    dsimp only at hne ⊢
    obtain ⟨b, hb⟩ := exists_srcByte hcuts hstored (show size - 1 < size by omega)
    have hlast := hread (size - 1) (by omega)
    rw [hb, File.read] at hlast
    split at hlast
    · omega
    · cases hlast
  same p hp := (srcByte_piece hp).trans (hread p hp)

def singleFile (G : Gguf) (disk : Disk) (m : Model) (target : Target) : File UInt8 :=
  writes (G.write (makeHeader m target none))
    ((WriterPlan.writeSingle m.plain target).1.map
      (copyWrite disk (alignUp (G.write (makeHeader m target none)).len)) ++
    (WriterPlan.writeSingle m.plain target).2.map
      (fillWrite (alignUp (G.write (makeHeader m target none)).len)))

theorem writeSingle_ok (hm : m.Valid) (hstored : m.Stored disk) (out : String) :
    writeSingle G disk m target out = .ok (out, singleFile G disk m target) := by
  have hok : writeFile disk (alignUp (G.write (makeHeader m target none)).len) (G.write (makeHeader m target none))
      (WriterPlan.writeSingle m.plain target) = .ok (singleFile G disk m target) :=
    writeFile_ok (writeSingle_readable hm hstored)
  exact congrArg (Except.map fun f => (out, f)) hok

/-- The bytes of a segment lie where the writer has put them. -/
theorem read_placed (hm : m.Valid) (hstored : m.Stored disk) {srcs : List SrcSeg} {size dst p : ℕ}
    (hcuts : Cuts srcs size) (hp : p < size)
    (hops : ∀ s ∈ srcs, ({ file := s.file, srcOff := s.off, len := s.len, dstRel := dst + s.inOff } : CopyOp) ∈
      (WriterPlan.writeSingle m.plain target).1)
    (honce : opHits (WriterPlan.writeSingle m.plain target).1 (dst + p) +
      fillHits (WriterPlan.writeSingle m.plain target).2 (dst + p) = 1) :
    (singleFile G disk m target).read (alignUp (G.write (makeHeader m target none)).len + (dst + p)) =
      srcByte disk srcs p := by
  obtain ⟨s, hs, hsp⟩ := exists_seg hcuts hp
  have hcovers : Covers CopyOp.dstRel CopyOp.len
      { file := s.file, srcOff := s.off, len := s.len, dstRel := dst + s.inOff } (dst + p) := by
    simp only [Covers] at hsp ⊢
    omega
  rw [srcByte_eq hcuts hs hsp, singleFile,
    read_copied (writeSingle_readable hm hstored) (hops s hs) hcovers honce]
  have hindex : dst + p - (dst + s.inOff) = p - s.inOff := by omega
  simp only [hindex]

theorem toNat_ofNat {n : ℕ} (h : n < 2 ^ 63) : (UInt64.ofNat n).toNat = n :=
  UInt64.toNat_ofNat_of_lt' (h.trans (by decide))

theorem writeSingle_served (hm : m.Valid) (hc : m.Counted) (hstored : m.Stored disk) {dataOff : ℕ}
    (hdata : dataOff = alignUp (G.write (makeHeader m target none)).len) (hext : m.extent + dataOff < 2 ^ 63)
    (out : String) {L : Layout} (hL : LayoutOf m target L) :
    Served disk [(out, singleFile G disk m target)] m target
      ((makeHeader m target none).blockFile ⟨[], UInt64.ofNat dataOff⟩ []) L := by
  have hsum : ∀ {a : ℕ}, a ≤ m.extent → (UInt64.ofNat dataOff + UInt64.ofNat a).toNat = dataOff + a := by
    intro a ha
    rw [UInt64.toNat_add, toNat_ofNat (by omega), toNat_ofNat (by omega)]
    omega
  refine ⟨fun x _ => ⟨_, rfl⟩, ?_, ?_⟩
  · intro d off hplaced
    have hin : Entry.dense d ∈ m.entries target := by
      rw [← placed_fst]
      exact List.mem_map_of_mem hplaced
    have hd : d ∈ m.dense := by
      rcases mem_entries hin with ⟨d', hd', heq⟩ | ⟨e, _, heq⟩
      · cases heq
        exact hd'
      · cases heq
    have hend : off + alignUp d.shape.size ≤ m.extent := placed_extent hplaced
    have hle := WriterPlan.le_alignUp d.shape.size
    have hitem := mem_denseItems_placed hplaced (fun _ => true) rfl
    have hcuts := (hm.dense d hd).cuts
    refine ⟨_, rfl, ?_⟩
    have hoff : (UInt64.ofNat dataOff + (tensorInfo d.shape d.layer off).offset).toNat = dataOff + off :=
      hsum (by omega)
    have hsize : (tensorInfo d.shape d.layer off).size.toNat = d.shape.size := toNat_ofNat (by omega)
    have hmain : ((makeHeader m target none).blockFile ⟨[], UInt64.ofNat dataOff⟩ []).main.dataOff =
        UInt64.ofNat dataOff := rfl
    rw [hmain, hoff, hsize]
    refine holds_single hcuts (hstored.dense d hd) fun p hp => ?_
    have honce := single_dense hm.cut hitem (Nat.le_add_right off p) (Nat.add_lt_add_left hp off)
    rw [Nat.add_assoc, hdata]
    refine read_placed hm hstored hcuts hp (fun s hs => ?_) honce
    exact List.mem_append_left _ (List.mem_flatMap.mpr ⟨_, hitem, List.mem_map.mpr ⟨s, hs, rfl⟩⟩)
  · intro e off hplaced x hx
    have hin : Entry.expert e ∈ m.entries target := by
      rw [← placed_fst]
      exact List.mem_map_of_mem hplaced
    have he : e ∈ m.expert := by
      rcases mem_entries hin with ⟨d', hd', heq⟩ | ⟨e, he', heq⟩
      · cases heq
      · cases heq
        exact he'
    have hv := hm.expert e he
    have hlayer := hv.layer_lt
    have hnonneg := hv.layer_nonneg
    have hend : off + alignUp e.shape.size ≤ m.extent := placed_extent hplaced
    have hle := WriterPlan.le_alignUp e.shape.size
    obtain ⟨boff, hboff, hbranch⟩ := branchOff_eq hm hL (by omega) he
    obtain ⟨b, hb, hblayer, hbexpert⟩ := @exists_block m target e.layer.toNat x (by omega) hx
    have hbmem := List.mem_of_getElem? hb
    have hbend := (block_end hbmem).2
    have hbsize := (WriterPlan.mem_blocks hbmem).2.1
    have hbranchEnd := (mem_placeBranches hboff).2.2.2
    rw [← hblayer, ← hbsize] at hbranchEnd
    dsimp only at hbranchEnd
    have hlist : L.blocks[(blockIndex L (tensorInfo e.shape e.layer off).layer x).toNat]? =
        some (UInt64.ofNat b.off, UInt64.ofNat b.size) := by
      rw [show (tensorInfo e.shape e.layer off).layer = e.layer from rfl, blockIndex_eq hm hc hL he hx, hL.blocks,
        List.getElem?_map, hb]
      rfl
    have hsrcs : ((makeHeader m target none).blockFile ⟨[], UInt64.ofNat dataOff⟩ []).srcs L
        (.expert (tensorInfo e.shape e.layer off) x) =
        .ok [⟨⟨0, dataOff + (b.off + boff), e.perExpert⟩, 0⟩] := by
      have hper := perExpert_eq hm hc hL he (by omega) (t := tensorInfo e.shape e.layer off) rfl
      have hoff : (UInt64.ofNat dataOff + UInt64.ofNat b.off +
          L.branchOff (tensorInfo e.shape e.layer off).layer (tensorInfo e.shape e.layer off).branch).toNat =
          dataOff + (b.off + boff) := by
        rw [UInt64.toNat_add, hsum (by omega)]
        change (dataOff + b.off + (L.branchOff e.layer (branchOf e.shape.name)).toNat) % _ = _
        rw [hbranch]
        omega
      rw [BlockFile.srcs, if_neg (by simp [Header.blockFile, makeHeader])]
      simp only [BlockFile.whole, hlist, hper]
      rw [← hoff]
      rfl
    refine ⟨_, hsrcs, ?_⟩
    have hlen : x < e.perExpertSrcs.length := by
      rw [hv.srcs]
      exact hx
    have hget : e.perExpertSrcs.getD x [] = e.perExpertSrcs[x] := List.getD_eq_getElem _ _ hlen
    have hcuts : Cuts (e.perExpertSrcs.getD x []) e.perExpert := by
      rw [hget]
      exact hv.cuts _ (List.getElem_mem _)
    have hst : FileCopies.Stored disk (e.perExpertSrcs.getD x []) := by
      rw [hget]
      exact hstored.expert e he _ (List.getElem_mem _)
    refine holds_single hcuts hst fun p hp => ?_
    have honce := single_block hm.cut hbmem (p := b.off + boff + p) (by omega) (by omega)
    rw [Nat.add_assoc, hdata]
    refine read_placed hm hstored hcuts hp (fun s hs => ?_) honce
    refine List.mem_append_right _ (List.mem_flatMap.mpr ⟨b, hbmem, ?_⟩)
    have hplain : (e.plain, boff) ∈ WriterPlan.branches 0 (WriterPlan.layerExperts m.plain b.layer) := by
      rw [layerExperts_plain, branches_plain, hblayer]
      exact List.mem_map.mpr ⟨_, hboff, rfl⟩
    refine List.mem_flatMap.mpr ⟨_, hplain, List.mem_map.mpr ⟨s, ?_, rfl⟩⟩
    rw [hbexpert]
    exact hs

theorem writeSingle_converted (hm : m.Valid) (hc : m.Counted) (hstored : m.Stored disk)
    (hG : G.Faithful (makeHeader m target none))
    (hext : m.extent + alignUp (G.write (makeHeader m target none)).len < 2 ^ 63) (out : String) :
    ∃ f m', writeSingle G disk m target out = .ok f ∧ parseModel G [f] = .ok m' ∧ Converted disk [f] m m' := by
  have hle := WriterPlan.le_alignUp (G.write (makeHeader m target none)).len
  obtain ⟨hread, hoffset⟩ := hG (singleFile G disk m target) fun a ha => read_header ha hle
  have hopen : openFile G (out, singleFile G disk m target) = .ok (makeHeader m target none) := by
    rw [openFile]
    simp only [hread]
  have hmain : chunkFile G (none : Option Chunk).isSome (out, singleFile G disk m target) =
      .ok ⟨[], UInt64.ofNat (alignUp (G.write (makeHeader m target none)).len)⟩ := by
    rw [chunkFile, hopen]
    simp only [bind, Except.bind, Option.isSome_none, Bool.false_eq_true, if_false, hoffset]
  have hothers : ([] : List (String × File UInt8)).mapM (chunkFile G (none : Option Chunk).isSome) = .ok [] := rfl
  obtain ⟨m', hparse, hconv⟩ := parse_converted hm hc (by omega) hopen hmain hothers
    fun L hL => writeSingle_served hm hc hstored rfl hext out hL
  exact ⟨_, m', writeSingle_ok hm hstored out, hparse, hconv⟩

end single

end ConvertModel
end StreamMoE
