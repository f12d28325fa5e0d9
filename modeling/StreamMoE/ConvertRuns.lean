import StreamMoE.ConvertChunk

/-! A conversion to any target: the files are parsed as a model that holds what the first one held. -/
namespace StreamMoE
namespace ConvertModel

open BlockSplit (Failure)
open ByteFiles (File)
open FileCopies
open WriterPlan (Target ChunkUnit)

section one

variable {G : Gguf} {disk disk' : Disk} {m m' : Model} {opts : Options}

def Model.Heads (m : Model) (opts : Options) (h : Header) : Prop :=
  if opts.target = .v3Chunk then
    ∃ (units : List ChunkUnit) (splits : List (Fin opts.chunks → ℤ)) (i : ℕ),
      WriterPlan.buildUnits m.plain = some units ∧ splitUnits opts.chunks opts.ratio units = .ok splits ∧
        i < opts.chunks ∧ h = stripHeader m units splits i
  else h = makeHeader m opts.target none

/-- Strip files need a global tensor and a ratio that is not refused. -/
structure Options.Accepts (opts : Options) (m : Model) : Prop where
  splits : opts.target = .v3Chunk → Splits opts.chunks opts.ratio
  dense : opts.target = .v3Chunk → ∃ d ∈ m.dense, d.category = .denseGlobal

/-- In less than 2 ^ 43 bytes the pages of every unit are counted in an `int`. -/
structure Options.Suits (opts : Options) (m : Model) : Prop extends opts.Accepts m where
  extent : opts.target = .v3Chunk → m.extent < 2 ^ 43

/-- Strip files whose pages are counted in an `int` -/
def Options.FitsInt (opts : Options) (m : Model) : Prop :=
  opts.target = .v3Chunk → m.FitsInt opts.chunks opts.ratio

theorem Options.Suits.fitsInt (h : opts.Suits m) : opts.FitsInt m := by
  intro htarget units hunits u hu
  have hext := h.extent htarget
  have hend := (unit_end hunits hu).2
  exact fitsInt_of_lt (h.splits htarget) (by omega)

/-- The files of a conversion are parsed as the model. -/
theorem convertModel_converted (hm : m.Valid) (hc : m.Counted) (hstored : m.Stored disk) (hopts : opts.Accepts m)
    (hext : opts.target = .v3Chunk → m.extent < 2 ^ 63) (hfits : opts.FitsInt m)
    (hG : ∀ h, m.Heads opts h → G.Keeps m h) (out : String) :
    ∃ files m', convertModel G disk m opts out = .ok files ∧ parseModel G files = .ok m' ∧
      Converted disk files m m' := by
  by_cases htarget : opts.target = .v3Chunk
  · have hsplits := hopts.splits htarget
    have hpos := hsplits.pos
    obtain ⟨files, m', hwrite, hparse, hconv⟩ := writeV3Chunk_converted hm hc hstored hsplits (hopts.dense htarget)
      (hext htarget) (hfits htarget)
      (fun units splits i hunits hsplit hi => hG _ (by
        rw [Model.Heads, if_pos htarget]
        exact ⟨units, splits, i, hunits, hsplit, hi, rfl⟩))
      out (inferChunkPadWidth ((disk.map Prod.fst).headD ""))
    refine ⟨files, m', ?_, hparse, hconv⟩
    rw [convertModel, htarget]
    dsimp only
    rw [if_neg (by omega)]
    exact hwrite
  · have hkeeps := hG (makeHeader m opts.target none) (by rw [Model.Heads, if_neg htarget])
    obtain ⟨f, m', hwrite, hparse, hconv⟩ := writeSingle_converted hm hc hstored hkeeps.1 hkeeps.2 out
    refine ⟨[f], m', ?_, hparse, hconv⟩
    rw [convertModel]
    cases hcase : opts.target with
    | v3Chunk => exact absurd hcase htarget
    | v2 | v3 =>
      rw [hcase] at hwrite
      dsimp only
      rw [hwrite]
      rfl

end one

section alike

variable {m m' m'' : Model}

theorem Model.Alike.refl (m : Model) : m.Alike m := ⟨rfl, rfl, .refl _, rfl⟩

theorem Model.Alike.trans (h : m.Alike m') (h' : m'.Alike m'') : m.Alike m'' :=
  ⟨h'.nLayer.trans h.nLayer, h'.nExpert.trans h.nExpert, h'.dense.trans h.dense, h'.expert.trans h.expert⟩

theorem Model.Alike.exists_dense (h : m.Alike m') {c : WriterPlan.Category} (hd : ∃ d ∈ m.dense, d.category = c) :
    ∃ d ∈ m'.dense, d.category = c := by
  obtain ⟨d, hd, hcat⟩ := hd
  have hmem : d.key ∈ m'.dense.map DenseTensor.key := h.dense.mem_iff.mpr (List.mem_map_of_mem hd)
  obtain ⟨d', hd', hkey⟩ := List.mem_map.mp hmem
  refine ⟨d', hd', ?_⟩
  calc d'.category = d'.key.category := rfl
    _ = d.key.category := by rw [hkey]
    _ = c := hcat

theorem Options.Suits.of_alike {opts : Options} (h : opts.Suits m) (halike : m.Alike m') : opts.Suits m' where
  splits := h.splits
  dense htarget := halike.exists_dense (h.dense htarget)
  extent htarget := by
    rw [halike.extent]
    exact h.extent htarget

end alike

section tiny

/-- A tensor of three bytes and two experts of two bytes in two files. -/
def tinyModel : Model where
  nLayer := 1
  nExpert := 2
  dense := [{ shape := ⟨"token_embd.weight", (3, 1, 1, 1), 0, 3⟩, category := .denseGlobal, layer := -1
              srcs := [⟨⟨0, 1, 3⟩, 0⟩] }]
  expert := [{ shape := ⟨"blk.0.ffn_up_exps.weight", (1, 2, 2, 1), 0, 4⟩, perExpert := 2, branch := "up", layer := 0
               perExpertSrcs := [[⟨⟨1, 2, 2⟩, 0⟩], [⟨⟨1, 4, 2⟩, 0⟩]] }]

def tinyDisk : Disk := [("a.gguf", ⟨4, fun a => UInt8.ofNat a⟩), ("b.gguf", ⟨6, fun a => UInt8.ofNat (10 * a)⟩)]

/-- The headers of the model are told apart by one byte, and those of strip files by their number and slices. -/
def tinyGguf : Gguf where
  write h := ⟨5, fun a =>
    match h.chunk with
    | none => if h.v3 then 1 else 0
    | some c => ([2, UInt8.ofNat c.no] ++ c.slices.map UInt64.toUInt8).getD a 0⟩
  read f :=
    if f.byte 0 = 0 then some (makeHeader tinyModel .v2 none)
    else if f.byte 0 = 1 then some (makeHeader tinyModel .v3 none)
    else some (makeHeader tinyModel .v3
      (some ⟨(f.byte 1).toNat, 2, [(f.byte 2).toUInt64, (f.byte 3).toUInt64, (f.byte 4).toUInt64]⟩))
  dataOffset _ := 4096

theorem tinyModel_valid : tinyModel.Valid where
  names := by decide
  dense := by
    intro d hd
    rw [List.mem_singleton.mp hd]
    exact ⟨by decide, by decide, by decide, cuts_piece _ _ _⟩
  expert := by
    intro e he
    rw [List.mem_singleton.mp he]
    refine ⟨by decide, rfl, by decide, by decide, by decide, by decide, rfl, rfl, ?_⟩
    simp only [List.forall_mem_cons]
    exact ⟨cuts_piece _ _ _, cuts_piece _ _ _, by simp⟩
  experts _ := by decide
  sorted := List.pairwise_singleton _ _
  branches := List.pairwise_singleton _ _

theorem tinyModel_stored : tinyModel.Stored tinyDisk where
  dense := by
    intro d hd
    rw [List.mem_singleton.mp hd]
    intro s hs
    rw [List.mem_singleton.mp hs]
    exact ⟨_, rfl, fun _ => by decide⟩
  expert := by
    intro e he
    rw [List.mem_singleton.mp he]
    simp only [List.forall_mem_cons]
    refine ⟨?_, ?_, by simp⟩ <;> intro s hs <;> rw [List.mem_singleton.mp hs] <;> exact ⟨_, rfl, fun _ => by decide⟩

theorem tinyModel_alike {m : Model} (h : tinyModel.Alike m) : ∃ srcs perExpertSrcs, m =
    { nLayer := 1, nExpert := 2
      dense := [{ shape := ⟨"token_embd.weight", (3, 1, 1, 1), 0, 3⟩, category := .denseGlobal, layer := -1, srcs }]
      expert := [{ shape := ⟨"blk.0.ffn_up_exps.weight", (1, 2, 2, 1), 0, 4⟩, perExpert := 2, branch := "up"
                   layer := 0, perExpertSrcs }] } := by
  obtain ⟨nLayer, nExpert, dense, expert⟩ := m
  obtain ⟨hlayers, hexperts, hdense, hexpert⟩ := h
  have hdense := List.perm_singleton.mp hdense
  obtain ⟨⟨shape, cat, layer, srcs⟩, rfl, hd⟩ := List.map_eq_singleton_iff.mp hdense
  obtain ⟨⟨shape', per, branch, layer', perExpertSrcs⟩, rfl, he⟩ := List.map_eq_singleton_iff.mp hexpert
  cases hlayers
  cases hexperts
  cases hd
  cases he
  exact ⟨srcs, perExpertSrcs, rfl⟩

theorem makeHeader_alike {m : Model} (h : tinyModel.Alike m) (target : Target) (chunk : Option Chunk) :
    makeHeader m target chunk = makeHeader tinyModel target chunk := by
  obtain ⟨srcs, perExpertSrcs, rfl⟩ := tinyModel_alike h
  cases target <;> rfl

theorem tinyModel_extent {m : Model} (h : tinyModel.Alike m) : m.extent = 16384 := by
  rw [h.extent]
  decide +kernel

theorem tinyModel_units {m : Model} (h : tinyModel.Alike m) {units : List ChunkUnit}
    (hunits : WriterPlan.buildUnits m.plain = some units) : units.length = 3 := by
  obtain ⟨srcs, perExpertSrcs, rfl⟩ := tinyModel_alike h
  have hlen : (WriterPlan.buildUnits (Model.plain
    { nLayer := 1, nExpert := 2
      dense := [{ shape := ⟨"token_embd.weight", (3, 1, 1, 1), 0, 3⟩, category := .denseGlobal, layer := -1, srcs }]
      expert := [{ shape := ⟨"blk.0.ffn_up_exps.weight", (1, 2, 2, 1), 0, 4⟩, perExpert := 2, branch := "up"
                   layer := 0, perExpertSrcs }] })).map List.length = some 3 := rfl
  rw [hunits] at hlen
  exact Option.some.inj hlen

theorem byte_eq {f g : File UInt8} (h : ∀ a < g.len, f.read a = g.read a) {a : ℕ} (ha : a < g.len) :
    f.byte a = g.byte a := by
  have hread := h a ha
  rw [File.read_eq ha, File.read] at hread
  split at hread
  · exact Option.some.inj hread
  · cases hread

theorem tinyGguf_start (h : Header) : WriterPlan.alignUp (tinyGguf.write h).len = 4096 := by
  change WriterPlan.alignUp 5 = 4096
  decide

theorem tinyGguf_single {m : Model} (h : tinyModel.Alike m) {target : Target} (htarget : target ≠ .v3Chunk) :
    tinyGguf.Keeps m (makeHeader m target none) := by
  refine ⟨fun f hf => ⟨?_, (tinyGguf_start _).symm⟩, by rw [tinyModel_extent h, tinyGguf_start]; decide⟩
  have hbyte : f.byte 0 = if (makeHeader m target none).v3 then 1 else 0 := byte_eq hf (Nat.zero_lt_succ 4)
  rw [makeHeader_alike h] at hbyte ⊢
  cases target with
  | v2 =>
    have hzero : f.byte 0 = 0 := hbyte
    simp only [tinyGguf, hzero, if_true]
  | v3 =>
    have hone : f.byte 0 = 1 := hbyte
    simp only [tinyGguf, hone]
    rfl
  | v3Chunk => exact absurd rfl htarget

theorem tinyGguf_strip {m : Model} (h : tinyModel.Alike m) {ratio : List ℤ} (hratio : Splits 2 ratio)
    {units : List ChunkUnit} {splits : List (Fin 2 → ℤ)} {i : ℕ} (hunits : WriterPlan.buildUnits m.plain = some units)
    (hsplit : splitUnits 2 ratio units = .ok splits) (hi : i < 2) :
    tinyGguf.Keeps m (stripHeader m units splits i) := by
  refine ⟨fun f hf => ⟨?_, (tinyGguf_start _).symm⟩, by rw [tinyModel_extent h, tinyGguf_start]; decide⟩
  have hext := tinyModel_extent h
  have hlen := tinyModel_units h hunits
  have hsum := units_size hunits
  have hpages : ∀ u ∈ units, u.size % 4096 = 0 ∧ u.size < 2 ^ 63 := by
    intro u hu
    obtain ⟨hmod, hend⟩ := unit_end hunits hu
    exact ⟨hmod, by omega⟩
  obtain ⟨splits', hsplit', hshared⟩ := splitUnits_shared hratio hpages
    fun u hu => fitsInt_of_lt hratio (by have hend := (unit_end hunits hu).2; omega)
  obtain rfl : splits = splits' := Except.ok.inj (hsplit.symm.trans hsplit')
  have hslice : ∀ u < 3, ((UInt64.ofNat (sliceCount splits i u)).toUInt8).toUInt64 =
      UInt64.ofNat (sliceCount splits i u) := by
    intro u hu
    have hle := sliceCount_le hshared (by omega) hi (List.getElem?_eq_getElem (show u < units.length by omega))
    have hend := (unit_end hunits (List.getElem_mem (show u < units.length by omega))).2
    have hword : (UInt64.ofNat (sliceCount splits i u)).toNat = sliceCount splits i u :=
      UInt64.toNat_ofNat_of_lt' (by
        have hsize : UInt64.size = 2 ^ 64 := rfl
        omega)
    refine UInt64.toNat_inj.mp ?_
    rw [UInt8.toNat_toUInt64, UInt64.toNat_toUInt8, hword]
    omega
  have hslices : slicesOf units splits i = [UInt64.ofNat (sliceCount splits i 0), UInt64.ofNat (sliceCount splits i 1),
      UInt64.ofNat (sliceCount splits i 2)] := by
    rw [slicesOf, hlen]
    rfl
  have hbytes : ∀ a < 5, f.byte a = ([2, UInt8.ofNat i] ++ (slicesOf units splits i).map UInt64.toUInt8).getD a 0 :=
    fun a ha => byte_eq hf ha
  rw [hslices] at hbytes
  have hnum : (UInt8.ofNat i).toNat = i := UInt8.toNat_ofNat_of_lt' (by
    have hsize : UInt8.size = 256 := rfl
    omega)
  have hkind : f.byte 0 = 2 := hbytes 0 (by decide)
  have hno : f.byte 1 = UInt8.ofNat i := hbytes 1 (by decide)
  have hfirst : f.byte 2 = (UInt64.ofNat (sliceCount splits i 0)).toUInt8 := hbytes 2 (by decide)
  have hsecond : f.byte 3 = (UInt64.ofNat (sliceCount splits i 1)).toUInt8 := hbytes 3 (by decide)
  have hthird : f.byte 4 = (UInt64.ofNat (sliceCount splits i 2)).toUInt8 := hbytes 4 (by decide)
  rw [stripHeader, makeHeader_alike h, hslices]
  simp only [tinyGguf, hkind, hno, hfirst, hsecond, hthird, hslice 0 (by decide), hslice 1 (by decide),
    hslice 2 (by decide), hnum]
  rfl

/-- To strip files, and from there back to one file. -/
def tinySteps : List (Options × String) :=
  [(⟨.v3Chunk, 2, [1, 2]⟩, "c"), (⟨.v2, 1, []⟩, "two.gguf"), (⟨.v3, 1, []⟩, "three.gguf")]

theorem tinyModel_counted : tinyModel.Counted := ⟨by decide, by decide, by decide⟩

theorem tinySplits : Splits 2 [1, 2] := ⟨by decide, by decide, fun _ => ⟨rfl, by decide, by decide⟩⟩

theorem tinySteps_suit : ∀ x ∈ tinySteps, x.1.Suits tinyModel := by
  simp only [tinySteps, List.forall_mem_cons]
  refine ⟨⟨⟨fun _ => tinySplits, fun _ => ⟨_, List.mem_singleton_self _, rfl⟩⟩, fun _ => ?_⟩, ⟨⟨?_, ?_⟩, ?_⟩,
    ⟨⟨?_, ?_⟩, ?_⟩, by simp⟩
  · rw [tinyModel_extent (.refl _)]
    decide
  all_goals exact fun htarget => by cases htarget

theorem tinySteps_keep : ∀ m', tinyModel.Alike m' → ∀ x ∈ tinySteps, ∀ h, m'.Heads x.1 h → tinyGguf.Keeps m' h := by
  intro m halike
  simp only [tinySteps, List.forall_mem_cons]
  refine ⟨fun h hh => ?_, fun h hh => ?_, fun h hh => ?_, by simp⟩
  · obtain ⟨units, splits, i, hunits, hsplit, hi, rfl⟩ := hh
    exact tinyGguf_strip halike tinySplits hunits hsplit hi
  · obtain rfl : h = makeHeader m .v2 none := hh
    exact tinyGguf_single halike (by decide)
  · obtain rfl : h = makeHeader m .v3 none := hh
    exact tinyGguf_single halike (by decide)

end tiny

end ConvertModel
end StreamMoE
