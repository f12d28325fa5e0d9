import StreamMoE.ChunkNames
import StreamMoE.ConvertRuns

/-! `convert_model` and `parse_model` on a file system: a target is cut to its header before the sources are read, so
what `ConvertModel` says of a conversion holds where no file is both written and read. -/
namespace StreamMoE
namespace ConvertFiles

open BlockSplit (Failure)
open ByteFiles (File)
open ConvertModel
open FileCopies (Disk bufSize fillLoop)
open WriterPlan (Target ChunkUnit CopyOp alignUp)

section model

/-- What is stored under a path; two paths never name one file, and there is room for all that is written. -/
abbrev FileSystem := String → Option (File UInt8)

/-- The library for GGUF files with what `gguf_init_from_file` opens. -/
structure Library extends Gguf where
  opens : File UInt8 → Bool
  opens_of_read : ∀ f h, read f = some h → opens f = true

variable (L : Library) (files : List String)

/-- `while (left)` in `do_copy`: what is written to the target is read again where it is the source too. -/
def copyLoop (src out : String) : ℕ → FileSystem → ℕ → ℕ → ℕ → Except Failure FileSystem
  | 0, fs, _, _, _ => .ok fs
  | fuel + 1, fs, srcOff, dst, left =>
      if left = 0 then .ok fs
      else
        let n := min left bufSize
        match fs src, fs out with
        | some s, some o =>
            if s.len < srcOff + n then .error (.thrown ("short read from " ++ src))
            else
              let o' := o.write dst n fun i => s.byte (srcOff + i)
              copyLoop src out fuel (Function.update fs out (some o')) (srcOff + n) (dst + n) (left - n)
        | _, _ => .error .undefined

def copyOp (out : String) (dataOffset : ℕ) (fs : FileSystem) (op : CopyOp) : Except Failure FileSystem :=
  match files[op.file]? with
  | none => .error .undefined
  | some src =>
      if (fs src).isNone then .error (.thrown ("cannot open src " ++ src))
      else copyLoop src out op.len fs op.srcOff (dataOffset + op.dstRel) op.len

def doFill (out : String) (dataOffset : ℕ) (fs : FileSystem) (fills : List (ℕ × ℕ)) : Except Failure FileSystem :=
  match fs out with
  | none => .error (.thrown ("cannot reopen " ++ out))
  | some o =>
      .ok (Function.update fs out (some (fills.foldl (fun o f => fillLoop f.2 o (dataOffset + f.1) f.2) o)))

/-- `write_header_to`: the first source is opened for its metadata, then the target is cut to the header. -/
def writeHeaderTo (fs : FileSystem) (h : Header) (out : String) : Except Failure FileSystem :=
  match files with
  | [] => .error .undefined
  | p :: _ =>
      if (fs p).any L.opens then .ok (Function.update fs out (some (L.write h)))
      else .error (.thrown ("cannot open source " ++ p))

/-- A target from its header to the last fill -/
def writeTarget (fs : FileSystem) (h : Header) (out : String) (ops : List CopyOp × List (ℕ × ℕ)) :
    Except Failure FileSystem := do
  let fs ← writeHeaderTo L files fs h out
  let dataOffset := alignUp (L.write h).len
  let fs ← ops.1.foldlM (copyOp files out dataOffset) fs
  doFill out dataOffset fs ops.2

variable (m : Model)

def writeSingle (fs : FileSystem) (target : Target) (out : String) : Except Failure FileSystem :=
  writeTarget L files fs (makeHeader m target none) out (WriterPlan.writeSingle m.plain target)

/-- File `i` of `write_v3_chunk` -/
def writeStrips {N : ℕ} (units : List ChunkUnit) (splits : List (Fin N → ℤ)) (outBase : String) (pad : ℕ)
    (fs : FileSystem) (i : ℕ) : Except Failure FileSystem :=
  let slices := (List.range units.length).map fun u => UInt64.ofNat (sliceCount splits i u)
  let regions := WriterPlan.chunkRegions (sliceCount splits) i 0 0 units
  writeTarget L files fs (makeHeader m .v3 (some ⟨i, N, slices⟩)) (chunkPath outBase pad i)
    (regions.flatMap WriterPlan.Region.ops, regions.flatMap WriterPlan.Region.fills)

def writeV3Chunk (fs : FileSystem) (outBase : String) (N : ℕ) (ratio : List ℤ) (pad : ℕ) : Except Failure FileSystem :=
  match WriterPlan.buildUnits m.plain with
  | none => .error .undefined
  | some units => do
    let splits ← splitUnits N ratio units
    (List.range N).foldlM (writeStrips L files m units splits outBase pad) fs

def convertModel (fs : FileSystem) (opts : Options) (out : String) : Except Failure FileSystem :=
  match opts.target with
  | .v3Chunk =>
      if opts.chunks < 1 then .error (.thrown "chunks must be >= 1")
      else writeV3Chunk L files m fs out opts.chunks opts.ratio (inferChunkPadWidth (files.headD ""))
  | target => writeSingle L files m fs target out

def outPaths (opts : Options) (out : String) : List String :=
  match opts.target with
  | .v3Chunk => (List.range opts.chunks).map (chunkPath out (inferChunkPadWidth (files.headD "")))
  | _ => [out]

def openPath (fs : FileSystem) (p : String) : Except Failure (String × File UInt8) :=
  match fs p with
  | some f => .ok (p, f)
  | none => .error (.thrown ("cannot open " ++ p))

/-- `parse_model` on paths; the first file that is missing is thrown for. -/
def parseFiles (G : Gguf) (fs : FileSystem) : Except Failure Model := do
  let disk ← files.mapM (openPath fs)
  parseModel G disk

/-- A model is converted, the files are parsed and the model read is converted again. -/
def runConversions (L : Library) : FileSystem → List String → Model → List (Options × String) →
    Except Failure (FileSystem × List String × Model)
  | fs, files, m, [] => .ok (fs, files, m)
  | fs, files, m, (opts, out) :: rest => do
    let fs' ← convertModel L files m fs opts out
    let m' ← parseFiles (outPaths files opts out) L.toGguf fs'
    runConversions L fs' (outPaths files opts out) m' rest

end model

section spec

/-- The paths have these contents. -/
structure Listing (fs : FileSystem) (files : List String) (disk : Disk) : Prop where
  paths : disk.map Prod.fst = files
  stored : ∀ x ∈ disk, fs x.1 = some x.2

def FirstOpens (L : Library) (disk : Disk) : Prop := ∃ f rest, disk = f :: rest ∧ L.opens f.2 = true

/-- No conversion writes to a file that it reads. -/
def Separate : List String → List (Options × String) → Prop
  | _, [] => True
  | files, (opts, out) :: rest =>
      (∀ p ∈ outPaths files opts out, p ∉ files) ∧ Separate (outPaths files opts out) rest

instance : ∀ files steps, Decidable (Separate files steps)
  | _, [] => .isTrue trivial
  | files, (opts, out) :: rest =>
      have := instDecidableSeparate (outPaths files opts out) rest
      inferInstanceAs (Decidable (_ ∧ _))

def written : List String → List (Options × String) → List String
  | _, [] => []
  | files, (opts, out) :: rest => outPaths files opts out ++ written (outPaths files opts out) rest

end spec

section apart

variable {L : Library} {files : List String} {fs : FileSystem} {disk : Disk} {out : String}

theorem Listing.getElem? (h : Listing fs files disk) (k : ℕ) : files[k]? = disk[k]?.map Prod.fst := by
  rw [← h.paths, List.getElem?_map]

theorem Listing.update (h : Listing fs files disk) (hout : out ∉ files) (f : Option (File UInt8)) :
    Listing (Function.update fs out f) files disk where
  paths := h.paths
  stored x hx := by
    have hmem : x.1 ∈ files := h.paths ▸ List.mem_map_of_mem hx
    rw [Function.update_of_ne (ne_of_mem_of_not_mem hmem hout)]
    exact h.stored x hx

theorem copyLoop_apart {src : String × File UInt8} (hne : src.1 ≠ out) (hsrc : fs src.1 = some src.2) (fuel : ℕ)
    (o : File UInt8) (srcOff dst left : ℕ) :
    copyLoop src.1 out fuel (Function.update fs out (some o)) srcOff dst left =
      (FileCopies.copyLoop src fuel o srcOff dst left).map fun o' => Function.update fs out (some o') := by
  induction fuel generalizing o srcOff dst left with
  | zero => rfl
  | succ fuel ih =>
    have hread : Function.update fs out (some o) src.1 = some src.2 := by
      rw [Function.update_of_ne hne, hsrc]
    rw [copyLoop, FileCopies.copyLoop]
    simp only [hread, Function.update_self, Function.update_idem]
    split
    · rfl
    · split
      · rfl
      · exact ih _ _ _ _

theorem copyOp_apart (h : Listing fs files disk) (hout : out ∉ files) (dataOffset : ℕ) (o : File UInt8) (op : CopyOp) :
    copyOp files out dataOffset (Function.update fs out (some o)) op =
      (FileCopies.copyOp disk dataOffset o op).map fun o' => Function.update fs out (some o') := by
  rw [copyOp, FileCopies.copyOp, h.getElem?]
  cases hget : disk[op.file]? with
  | none => rfl
  | some src =>
    have hmem := List.mem_of_getElem? hget
    have hne : src.1 ≠ out := ne_of_mem_of_not_mem (h.paths ▸ List.mem_map_of_mem hmem) hout
    have hsrc := h.stored src hmem
    have hread : Function.update fs out (some o) src.1 = some src.2 := by
      rw [Function.update_of_ne hne, hsrc]
    simp only [Option.map_some, hread, Option.isNone_some, Bool.false_eq_true, if_false]
    exact copyLoop_apart hne hsrc _ _ _ _ _

/-- A target that is no source gets what `FileCopies.writeFile` makes of its header. -/
theorem writeTarget_apart (h : Listing fs files disk) (hout : out ∉ files)
    (hfirst : FirstOpens L disk) (hd : Header) (ops : List CopyOp × List (ℕ × ℕ)) :
    writeTarget L files fs hd out ops =
      (FileCopies.writeFile disk (alignUp (L.write hd).len) (L.write hd) ops).map fun o =>
        Function.update fs out (some o) := by
  have hheader : writeHeaderTo L files fs hd out = .ok (Function.update fs out (some (L.write hd))) := by
    obtain ⟨f, rest, rfl, hopen⟩ := hfirst
    have hstored := h.stored f List.mem_cons_self
    obtain rfl := h.paths
    rw [List.map_cons, writeHeaderTo, hstored, Option.any_some, hopen, if_pos rfl]
  have hcopies : ∀ (copies : List CopyOp) (o : File UInt8),
      copies.foldlM (copyOp files out (alignUp (L.write hd).len)) (Function.update fs out (some o)) =
        (copies.foldlM (FileCopies.copyOp disk (alignUp (L.write hd).len)) o).map fun o' =>
          Function.update fs out (some o') := by
    intro copies
    induction copies with
    | nil => exact fun _ => rfl
    | cons op copies ih =>
      intro o
      rw [List.foldlM_cons, List.foldlM_cons, copyOp_apart h hout]
      cases hop : FileCopies.copyOp disk (alignUp (L.write hd).len) o op with
      | error e => rfl
      | ok o' => exact ih o'
  rw [writeTarget, hheader, FileCopies.writeFile]
  simp only [bind, Except.bind, hcopies]
  cases hrun : ops.1.foldlM (FileCopies.copyOp disk (alignUp (L.write hd).len)) (L.write hd) with
  | error e => rfl
  | ok o =>
    simp only [Except.map, doFill, Function.update_self, Function.update_idem]

end apart

section put

variable {fs : FileSystem} {disk disk' : Disk} {files : List String}

/-- The file system with these files written -/
def put (fs : FileSystem) (disk : Disk) : FileSystem :=
  disk.foldl (fun fs x => Function.update fs x.1 (some x.2)) fs

theorem put_of_notMem {p : String} (hp : p ∉ disk.map Prod.fst) : put fs disk p = fs p := by
  induction disk generalizing fs with
  | nil => rfl
  | cons x disk ih =>
    obtain ⟨hx, hrest⟩ := not_or.mp (mt List.mem_cons.mpr hp)
    exact (ih hrest).trans (Function.update_of_ne hx ..)

/-- Files of different names are read back. -/
theorem put_listing (hnodup : (disk.map Prod.fst).Nodup) : Listing (put fs disk) (disk.map Prod.fst) disk where
  paths := rfl
  stored := by
    induction disk generalizing fs with
    | nil => simp
    | cons x disk ih =>
      obtain ⟨hx, hrest⟩ := List.nodup_cons.mp hnodup
      refine List.forall_mem_cons.mpr ⟨?_, ih hrest⟩
      exact (put_of_notMem hx).trans (Function.update_self ..)

theorem openPath_listing (h : Listing fs files disk) : files.mapM (openPath fs) = .ok disk := by
  rw [← h.paths, List.mapM_map, mapM_ok (g := id) fun x hx => ?_, List.map_id]
  change openPath fs x.1 = .ok x
  simp only [openPath, h.stored x hx]

end put

section conversion

variable {L : Library} {files : List String} {fs : FileSystem} {disk : Disk} {m : Model} {opts : Options} {out : String}

theorem outPaths_nodup (files : List String) (opts : Options) (out : String) : (outPaths files opts out).Nodup := by
  unfold outPaths
  split
  · refine List.Nodup.map (fun i j hij => ?_) List.nodup_range
    have hlist := congrArg String.toList hij
    rw [chunkPath_toList, chunkPath_toList] at hlist
    have hpadded := (List.cons.inj (List.append_cancel_left (List.append_cancel_right hlist))).2
    have hnumber := congrArg ChunkSet.number hpadded
    rw [number_padded, number_padded] at hnumber
    exact Nat.succ.inj hnumber
  · exact List.nodup_singleton _

/-- Files that are written one after the other, none of which is read. -/
theorem foldlM_put {step : FileSystem → ℕ → Except Failure FileSystem} {name : ℕ → String}
    {file : ℕ → Except Failure (File UInt8)} (hstep : ∀ fs i, name i ∉ files → Listing fs files disk →
      step fs i = (file i).map fun f => Function.update fs (name i) (some f))
    (is : List ℕ) (hout : ∀ i ∈ is, name i ∉ files) (h : Listing fs files disk) :
    is.foldlM step fs = (is.mapM fun i => (file i).map fun f => (name i, f)).map (put fs) := by
  induction is generalizing fs with
  | nil => rfl
  | cons i is ih =>
    obtain ⟨hi, his⟩ := List.forall_mem_cons.mp hout
    rw [List.foldlM_cons, List.mapM_cons, hstep fs i hi h]
    cases file i with
    | error e => rfl
    | ok f =>
      have hrest := ih his (h.update hi (some f))
      change is.foldlM step (Function.update fs (name i) (some f)) = _
      rw [hrest]
      cases is.mapM fun i => (file i).map fun f => (name i, f) <;> rfl

theorem writeStrips_apart {N : ℕ} {units : List ChunkUnit} {splits : List (Fin N → ℤ)} {pad : ℕ}
    (hfirst : FirstOpens L disk) (fs : FileSystem) (i : ℕ)
    (hi : chunkPath out pad i ∉ files) (h : Listing fs files disk) :
    writeStrips L files m units splits out pad fs i =
      (ConvertModel.writeStrips L.toGguf disk m units splits i).map fun f =>
        Function.update fs (chunkPath out pad i) (some f) := by
  rw [writeStrips, writeTarget_apart h hi hfirst, ConvertModel.writeStrips]

/-- A conversion that writes to no file it reads leaves the files of `ConvertModel.convertModel` and all others as
they were. -/
theorem convertModel_apart (h : Listing fs files disk) (hfirst : FirstOpens L disk)
    (hout : ∀ p ∈ outPaths files opts out, p ∉ files) :
    convertModel L files m fs opts out = (ConvertModel.convertModel L.toGguf disk m opts out).map (put fs) := by
  unfold convertModel ConvertModel.convertModel
  unfold outPaths at hout
  rw [h.paths]
  cases htarget : opts.target with
  | v3Chunk =>
    rw [htarget] at hout
    dsimp only at hout ⊢
    split
    · rfl
    · unfold writeV3Chunk ConvertModel.writeV3Chunk
      cases WriterPlan.buildUnits m.plain with
      | none => rfl
      | some units =>
        cases hsplit : splitUnits opts.chunks opts.ratio units with
        | error e => simp only [hsplit, bind, Except.bind, Except.map]
        | ok splits =>
          simp only [hsplit, bind, Except.bind]
          exact foldlM_put (writeStrips_apart hfirst) _ (fun i hi => hout _ (List.mem_map_of_mem hi)) h
  | v2 | v3 =>
    rw [htarget] at hout
    dsimp only
    rw [writeSingle, writeTarget_apart h (hout out (List.mem_singleton_self _)) hfirst, ConvertModel.writeSingle]
    cases FileCopies.writeFile disk _ _ _ <;> rfl

theorem fst_of_mapM {name : ℕ → String} {file : ℕ → Except Failure (File UInt8)} {is : List ℕ} {written : Disk}
    (h : (is.mapM fun i => (file i).map fun f => (name i, f)) = .ok written) : written.map Prod.fst = is.map name := by
  induction is generalizing written with
  | nil =>
    cases h
    rfl
  | cons i is ih =>
    rw [List.mapM_cons] at h
    cases hfile : file i with
    | error e =>
      rw [hfile] at h
      cases h
    | ok f =>
      cases hrest : is.mapM fun i => (file i).map fun f => (name i, f) with
      | error e =>
        rw [hfile, hrest] at h
        cases h
      | ok rest =>
        rw [hfile, hrest] at h
        cases h
        rw [List.map_cons, List.map_cons, ih hrest]

theorem fst_written {written : Disk} (h : ConvertModel.convertModel L.toGguf disk m opts out = .ok written) :
    written.map Prod.fst = outPaths (disk.map Prod.fst) opts out := by
  unfold ConvertModel.convertModel at h
  unfold outPaths
  cases htarget : opts.target with
  | v3Chunk =>
    rw [htarget] at h
    dsimp only at h ⊢
    split at h
    · cases h
    · unfold ConvertModel.writeV3Chunk at h
      cases hunits : WriterPlan.buildUnits m.plain with
      | none =>
        rw [hunits] at h
        cases h
      | some units =>
        rw [hunits] at h
        cases hsplit : splitUnits opts.chunks opts.ratio units with
        | error e =>
          simp only [hsplit, bind, Except.bind] at h
          cases h
        | ok splits =>
          simp only [hsplit, bind, Except.bind] at h
          exact fst_of_mapM h
  | v2 | v3 =>
    rw [htarget] at h
    dsimp only at h ⊢
    unfold ConvertModel.writeSingle at h
    dsimp only at h
    generalize FileCopies.writeFile disk _ _ _ = file at h
    cases file with
    | error e => cases h
    | ok f =>
      cases h
      rfl

end conversion

section roundTrip

variable {L : Library} {files : List String} {fs : FileSystem} {disk : Disk} {m : Model} {opts : Options} {out : String}

theorem firstOpens_of_parse (h : parseModel L.toGguf disk = .ok m) : FirstOpens L disk := by
  cases disk with
  | nil => cases h
  | cons f rest =>
    refine ⟨f, rest, rfl, ?_⟩
    cases hread : L.read f.2 with
    | some hd => exact L.opens_of_read _ _ hread
    | none =>
      have hopen : openFile L.toGguf f = .error (.thrown ("cannot open " ++ f.1)) := by
        rw [openFile]
        simp only [hread]
      rw [parseModel, hopen] at h
      cases h

/-- A conversion that writes to no file it reads: its files are parsed as the model, and no other file changes. -/
theorem convertModel_ok (h : Listing fs files disk) (hfirst : FirstOpens L disk) (hm : m.Valid) (hc : m.Counted)
    (hstored : m.Stored disk) (hopts : opts.Accepts m) (hext : opts.target = .v3Chunk → m.extent < 2 ^ 63)
    (hfits : opts.FitsInt m) (hG : ∀ h, m.Heads opts h → L.Keeps m h) (hout : ∀ p ∈ outPaths files opts out, p ∉ files) :
    ∃ fs' disk' m', convertModel L files m fs opts out = .ok fs' ∧ Listing fs' (outPaths files opts out) disk' ∧
      parseFiles (outPaths files opts out) L.toGguf fs' = .ok m' ∧ Converted disk disk' m m' ∧ FirstOpens L disk' ∧
      ∀ p ∉ outPaths files opts out, fs' p = fs p := by
  obtain ⟨disk', m', hwrite, hparse, hconv⟩ := convertModel_converted hm hc hstored hopts hext hfits hG out
  have hpaths : disk'.map Prod.fst = outPaths files opts out := h.paths ▸ fst_written hwrite
  have hlisting : Listing (put fs disk') (outPaths files opts out) disk' :=
    hpaths ▸ put_listing (hpaths ▸ outPaths_nodup files opts out)
  refine ⟨put fs disk', disk', m', ?_, hlisting, ?_, hconv, firstOpens_of_parse hparse,
    fun p hp => put_of_notMem (hpaths ▸ hp)⟩
  · rw [convertModel_apart h hfirst hout, hwrite]
    rfl
  · rw [parseFiles, openPath_listing hlisting]
    exact hparse

end roundTrip

section runs

variable {L : Library} {files : List String} {fs : FileSystem} {disk : Disk} {m : Model}

/-- No conversion of a run fails, and what is read at its end is what was there before. -/
theorem runConversions_ok (h : Listing fs files disk) (hfirst : FirstOpens L disk) (hm : m.Valid) (hc : m.Counted)
    (hstored : m.Stored disk) {steps : List (Options × String)} (hsep : Separate files steps)
    (hsteps : ∀ x ∈ steps, x.1.Suits m) (hG : ∀ m', m.Alike m' → ∀ x ∈ steps, ∀ h, m'.Heads x.1 h → L.Keeps m' h) :
    ∃ fs' files' disk' m', runConversions L fs files m steps = .ok (fs', files', m') ∧ Listing fs' files' disk' ∧
      Converted disk disk' m m' ∧ ∀ p ∉ written files steps, fs' p = fs p := by
  induction steps generalizing fs files disk m with
  | nil => exact ⟨fs, files, disk, m, rfl, h, ⟨hm, hc, hstored, .refl m, .refl _, rfl, id⟩, fun _ _ => rfl⟩
  | cons x steps ih =>
    obtain ⟨opts, out⟩ := x
    obtain ⟨hopts, hrest⟩ := List.forall_mem_cons.mp hsteps
    obtain ⟨hout, hsep⟩ := hsep
    obtain ⟨fs₁, disk₁, m₁, hwrite, hlisting, hparse, hconv, hopens, hframe⟩ := convertModel_ok h hfirst hm hc hstored
      hopts.toAccepts (fun htarget => (hopts.extent htarget).trans (by decide)) hopts.fitsInt
      (fun k hk => hG m (.refl m) _ List.mem_cons_self k hk) hout
    obtain ⟨fs', files', disk', m', hrun, hlisting', hconv', hframe'⟩ := ih hlisting hopens hconv.valid hconv.counted
      hconv.stored hsep (fun x hx => (hrest x hx).of_alike hconv.alike)
      fun m' halike x hx => hG m' (hconv.alike.trans halike) x (List.mem_cons_of_mem _ hx)
    refine ⟨fs', files', disk', m', ?_, hlisting', ⟨hconv'.valid, hconv'.counted, hconv'.stored,
      hconv.alike.trans hconv'.alike, hconv'.contents.trans hconv.contents, hconv'.experts.trans hconv.experts,
      hconv'.gapless ∘ hconv.gapless⟩, fun p hp => ?_⟩
    · rw [runConversions, hwrite]
      simp only [bind, Except.bind, hparse]
      exact hrun
    · obtain ⟨hhere, hlater⟩ := not_or.mp (mt List.mem_append.mpr hp)
      rw [hframe' p hlater, hframe p hhere]

/-- Whatever a model is converted to, and from there again, every tensor is read back with its bytes, the experts
one by one, and the files that are not written stay as they are. -/
theorem runConversions_contents (h : Listing fs files disk) (hfirst : FirstOpens L disk) (hm : m.Valid) (hc : m.Counted)
    (hstored : m.Stored disk) {steps : List (Options × String)} (hsep : Separate files steps)
    (hsteps : ∀ x ∈ steps, x.1.Suits m) (hG : ∀ m', m.Alike m' → ∀ x ∈ steps, ∀ h, m'.Heads x.1 h → L.Keeps m' h) :
    ∃ fs' files' disk' m', runConversions L fs files m steps = .ok (fs', files', m') ∧ Listing fs' files' disk' ∧
      m'.Valid ∧ m'.Stored disk' ∧ (m'.contents disk').Perm (m.contents disk) ∧
      ∀ p ∉ written files steps, fs' p = fs p := by
  obtain ⟨fs', files', disk', m', hrun, hlisting, hconv, hframe⟩ :=
    runConversions_ok h hfirst hm hc hstored hsep hsteps hG
  exact ⟨fs', files', disk', m', hrun, hlisting, hconv.valid, hconv.stored, hconv.contents, hframe⟩

end runs

section tiny

/-- The two files of the small model and one that no run touches. -/
def tinyFiles : FileSystem := fun p =>
  if p = "a.gguf" then some ⟨4, fun a => UInt8.ofNat a⟩
  else if p = "b.gguf" then some ⟨6, fun a => UInt8.ofNat (10 * a)⟩
  else if p = "notes.txt" then some ⟨1, fun _ => 7⟩
  else none

def tinyLibrary : Library where
  toGguf := tinyGguf
  opens _ := true
  opens_of_read _ _ _ := rfl

theorem tinyFiles_listing : Listing tinyFiles ["a.gguf", "b.gguf"] tinyDisk where
  paths := rfl
  stored := List.forall_mem_cons.mpr ⟨rfl, List.forall_mem_singleton.mpr rfl⟩

theorem tinyFiles_opens : FirstOpens tinyLibrary tinyDisk := ⟨_, _, rfl, rfl⟩

theorem tinySteps_separate : Separate ["a.gguf", "b.gguf"] tinySteps := by decide +kernel

/-- To strip files, and from there back to one file -/
theorem runConversions_contents_tiny : ∃ fs' files' disk' m',
    runConversions tinyLibrary tinyFiles ["a.gguf", "b.gguf"] tinyModel
        [(⟨.v3Chunk, 2, [1, 2]⟩, "c"), (⟨.v2, 1, []⟩, "two.gguf"), (⟨.v3, 1, []⟩, "three.gguf")] =
      .ok (fs', files', m') ∧ Listing fs' files' disk' ∧ m'.Valid ∧ m'.Stored disk' ∧
      (m'.contents disk').Perm (tinyModel.contents tinyDisk) ∧
      ∀ p ∉ written ["a.gguf", "b.gguf"] tinySteps, fs' p = tinyFiles p :=
  runConversions_contents tinyFiles_listing tinyFiles_opens tinyModel_valid tinyModel_counted tinyModel_stored
    tinySteps_separate tinySteps_suit tinySteps_keep

end tiny

end ConvertFiles
end StreamMoE
