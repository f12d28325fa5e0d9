import StreamMoE.ChunkOrder
import StreamMoE.StripOffsets

/-! `parse_model` on files with expert blocks: the flat arrays of the metadata are walked with shared cursors,
and every block and tensor gets its segments. -/
namespace StreamMoE
namespace BlockMetadata

open BlockSplit (Failure)
open DenseFill (SrcSeg)
open WriterPlan (Category)
open StripRange StripOffsets ChunkSet

/-- A tensor of the table with its third dimension. -/
structure Tensor where
  info : TensorInfo
  ne2 : ℤ
  deriving DecidableEq, Repr

/-- What is read of the files: the arrays of the first one as they are stored, and of each file the start of its
data and, if it is a strip, the slices. -/
structure BlockFile where
  nLayer : UInt32
  nExpert : UInt32
  v3 : Bool
  incomplete : Bool
  branchAlign : Bool
  expertSections : List UInt64
  branchNames : List String
  branchSizes : List UInt64
  branchCounts : List UInt64
  denseSection : List UInt64
  denseLayerSections : List UInt64
  expertMetaSections : List UInt64
  main : ChunkFile
  others : List ChunkFile
  tensors : List Tensor
  deriving DecidableEq, Repr

section names

def contains (name part : String) : Bool := name.toList.tails.any part.toList.isPrefixOf

def branchOf (name : String) : String :=
  if contains name "gate_up" then "gate_up"
  else if contains name "ffn_gate_exps" then "gate"
  else if contains name "ffn_up_exps" then "up"
  else if contains name "down_exps" then "down"
  else "?"

end names

section arrays

def triples : List UInt64 → List (UInt64 × UInt64 × UInt64)
  | a :: b :: c :: xs => (a, b, c) :: triples xs
  | _ => []

/-- The branches of one layer and what the cursors leave of names and sizes. -/
def takeBranches : ℕ → List String → List UInt64 →
    Except Failure (List (String × UInt64) × List String × List UInt64)
  | 0, names, sizes => .ok ([], names, sizes)
  | n + 1, name :: names, size :: sizes =>
      (takeBranches n names sizes).map fun x => ((branchOf name, size) :: x.1, x.2)
  | _ + 1, _, _ => .error .undefined

def buildLayerBranches : List ℕ → List String → List UInt64 → Except Failure (List (List (String × UInt64)))
  | [], _, _ => .ok []
  | n :: counts, names, sizes =>
      match takeBranches n names sizes with
      | .error e => .error e
      | .ok (branches, names, sizes) => (buildLayerBranches counts names sizes).map (branches :: ·)

end arrays

section parse

variable (F : BlockFile)

def BlockFile.files : List ChunkFile := F.main :: F.others

def BlockFile.layerCounts : List ℕ :=
  (List.range F.nLayer.toNat).map fun l => (F.branchCounts.getD l 0).toNat

/-- The metadata with the branches of the layers read. -/
def BlockFile.layoutWith (branches : List (List (String × UInt64))) : Layout :=
  let blocks := (triples F.expertSections).map fun b => (b.1, b.2.1)
  { nExpert := F.nExpert
    blocks, branches
    branchAlign := F.branchAlign
    denseSection :=
      if F.v3 then F.denseSection
      else [0, if F.incomplete then (blocks.head?.map Prod.fst).getD 0 else 0]
    denseLayerSections := if F.v3 then triples F.denseLayerSections else []
    expertMetaSections := if F.v3 then triples F.expertMetaSections else []
    tensors := F.tensors.map Tensor.info }

def BlockFile.layout : Except Failure Layout :=
  (buildLayerBranches F.layerCounts F.branchNames F.branchSizes).map F.layoutWith

/-- `sm_classify` takes every tensor but an expert tensor with another number of experts. -/
def BlockFile.Accepts (t : Tensor) : Prop :=
  t.info.category = .expert → F.nExpert ≠ 0 ∧ t.ne2 = F.nExpert.toNat

instance : DecidablePred F.Accepts := fun _ => inferInstanceAs (Decidable (_ → _))

def BlockFile.classify (t : Tensor) : Except Failure Category :=
  if F.Accepts t then .ok t.info.category
  else .error (.thrown ("expert tensor ne[2] != n_expert: " ++ t.info.name))

/-- What gets segments of its own: a block, an expert of an expert tensor, or another tensor. -/
inductive Slice
  | block (i : ℕ) (b : UInt64 × UInt64)
  | expert (t : TensorInfo) (e : ℕ)
  | dense (t : TensorInfo)

variable (L : Layout)

def blockIndex (layer : ℤ) (e : ℕ) : UInt32 := UInt32.ofInt layer * L.nExpert + UInt32.ofNat e

/-- The interval of a chunk unit that is mapped. -/
def BlockFile.interval : Slice → Except Failure Query
  | .block i b => .ok ⟨L.blockUnit (UInt32.ofNat i), 0, b.2⟩
  | .expert t e =>
      .ok ⟨L.blockUnit (blockIndex L t.layer e), L.branchOff t.layer t.branch, L.perExpert t⟩
  | .dense t => if F.v3 then L.denseQuery t else .ok ⟨0, t.offset, t.size⟩

/-- The one segment in a file that is not stripped. -/
def BlockFile.whole : Slice → Except Failure (List SrcSeg)
  | .block _ b => .ok [⟨⟨0, (F.main.dataOff + b.1).toNat, b.2.toNat⟩, 0⟩]
  | .expert t e =>
      match L.blocks[(blockIndex L t.layer e).toNat]? with
      | none => .error .undefined
      | some b =>
          .ok [⟨⟨0, (F.main.dataOff + b.1 + L.branchOff t.layer t.branch).toNat, (L.perExpert t).toNat⟩, 0⟩]
  | .dense t => .ok [⟨⟨0, (F.main.dataOff + t.offset).toNat, t.size.toNat⟩, 0⟩]

def BlockFile.srcs (x : Slice) : Except Failure (List SrcSeg) :=
  if F.incomplete then (F.interval L x).bind (mapQuery F.files) else F.whole L x

/-- One turn of the loop over the tensor table -/
def BlockFile.mapTensor (t : Tensor) : Except Failure (Entry SrcSeg) :=
  match F.classify t with
  | .error e => .error e
  | .ok .expert =>
      ((List.range L.nExpert.toNat).mapM fun e => F.srcs L (.expert t.info e)).map fun srcs =>
        .expert { info := t.info, perExpert := L.perExpert t.info
                  branchOff := L.branchOff t.info.layer t.info.branch, perExpertSrcs := srcs }
  | .ok cat =>
      (F.srcs L (.dense t.info)).map fun srcs =>
        .dense { info := t.info, layer := if cat = .denseGlobal then -1 else t.info.layer, srcs }

def BlockFile.parse : Except Failure (Body SrcSeg) := do
  let L ← F.layout
  let blockSrcs ← L.blocks.zipIdx.mapM fun x => F.srcs L (.block x.2 x.1)
  let entries ← F.tensors.mapM (F.mapTensor L)
  return { blockSrcs
           dense := entries.filterMap Entry.asDense
           expert := (entries.filterMap Entry.asExpert).insertionSort ExpertTensor.Before }

end parse

section spec

/-- `branch_off` of the branches of a layer in unbounded numbers -/
def exactOffs (align : Bool) : ℕ → List (String × UInt64) → List (String × ℕ)
  | _, [] => []
  | off, b :: bs =>
      (b.1, off) ::
        exactOffs align (if align then WriterPlan.alignUp (off + b.2.toNat) else off + b.2.toNat) bs

variable (F : BlockFile) (L : Layout)

def exactBranchOff (layer : ℤ) (branch : String) : ℕ :=
  if 0 ≤ layer then
    ((exactOffs L.branchAlign 0 (L.branches.getD layer.toNat [])).lookup branch).getD 0
  else 0

def BlockFile.sectionBase (t : TensorInfo) : UInt64 :=
  if F.v3 then
    match t.category with
    | .denseGlobal => L.denseSection.headD 0
    | .denseLayer => ((findSection L.denseLayerSections (UInt64.ofInt t.layer)).map Prod.snd).getD 0
    | _ => ((findSection L.expertMetaSections (UInt64.ofInt t.layer)).map Prod.snd).getD 0
  else 0

def BlockFile.exactStart : Slice → ℤ
  | .block _ _ => 0
  | .expert t _ => exactBranchOff L t.layer t.branch
  | .dense t => t.offset.toNat - (F.sectionBase L t).toNat

/-- The exact offset of a slice in a file that is not stripped. -/
def BlockFile.position : Slice → ℕ
  | .block _ b => F.main.dataOff.toNat + b.1.toNat
  | .expert t e =>
      F.main.dataOff.toNat + (L.blocks.getD (blockIndex L t.layer e).toNat (0, 0)).1.toNat +
        exactBranchOff L t.layer t.branch
  | .dense t => F.main.dataOff.toNat + t.offset.toNat

def Slice.length : Slice → UInt64
  | .block _ b => b.2
  | .expert t _ => L.perExpert t
  | .dense t => t.size

/-- The offsets of the segments of a slice are what sums of unbounded numbers give, and the lengths add up to
that of the slice. -/
def BlockFile.Unwrapped (x : Slice) (segs : List SrcSeg) : Prop :=
  if F.incomplete then
    ∀ q, F.interval L x = .ok q → Exact F.files q.unit q.len (F.exactStart L x) segs
  else (∀ s ∈ segs, s.off = F.position L x) ∧ (segs.map fun s => s.len).sum = (x.length L).toNat

/-- No segment of a model has an offset or a length that wraps. -/
structure BlockFile.AllUnwrapped (body : Body SrcSeg) : Prop where
  blocks : ∀ i b segs, L.blocks[i]? = some b → body.blockSrcs[i]? = some segs →
    F.Unwrapped L (.block i b) segs
  experts : ∀ x ∈ body.expert, ∀ e segs, x.perExpertSrcs[e]? = some segs →
    F.Unwrapped L (.expert x.info e) segs
  dense : ∀ d ∈ body.dense, F.Unwrapped L (.dense d.info) d.srcs

/-- A parse error is thrown, or every lookup is in range and no segment wraps. -/
def BlockFile.Total : Prop :=
  (∃ what, F.parse = .error (.thrown what)) ∨
    ∃ L body, F.layout = .ok L ∧ F.parse = .ok body ∧ F.AllUnwrapped L body

def Tensor.slices (t : Tensor) : List Slice :=
  if t.info.category = .expert then (List.range L.nExpert.toNat).map (.expert t.info) else [.dense t.info]

def BlockFile.slices : List Slice :=
  (L.blocks.zipIdx.map fun x => .block x.2 x.1) ++ F.tensors.flatMap (Tensor.slices L)

/-- The interval of a slice has no section or is refused by the strips. -/
def BlockFile.Rejects (x : Slice) : Prop :=
  match F.interval L x with
  | .ok q => Refused F.files q.unit q.rel q.len
  | .error _ => True

/-- The exact offsets of a slice are numbers of 64 bits. -/
def BlockFile.Holds (x : Slice) : Prop :=
  if F.incomplete then ∀ q, F.interval L x = .ok q → Fits F.files q.unit q.rel q.len (F.exactStart L x)
  else F.position L x < 2 ^ 64

/-- The counts of the layers fit the arrays of the branches. Of strip files, something is refused or all exact
offsets fit. Of a whole file, the experts of the tensors before the first one that is refused have blocks, and a
tensor is refused or all exact offsets fit. -/
structure BlockFile.Consistent : Prop where
  names : F.layerCounts.sum ≤ F.branchNames.length
  sizes : F.layerCounts.sum ≤ F.branchSizes.length
  blocks : ∀ L, F.layout = .ok L → F.incomplete = false → ∀ t ∈ F.tensors.takeWhile fun t => decide (F.Accepts t),
    t.info.category = .expert → ∀ e < L.nExpert.toNat, (blockIndex L t.info.layer e).toNat < L.blocks.length
  offsets : ∀ L, F.layout = .ok L → (∃ t ∈ F.tensors, ¬ F.Accepts t) ∨
    (F.incomplete = true ∧ ∃ x ∈ F.slices L, F.Rejects L x) ∨ ∀ x ∈ F.slices L, F.Holds L x

end spec

section cursors

theorem takeBranches_ok {n : ℕ} {names : List String} {sizes : List UInt64} (hn : n ≤ names.length)
    (hs : n ≤ sizes.length) : ∃ bs, takeBranches n names sizes = .ok (bs, names.drop n, sizes.drop n) := by
  induction n generalizing names sizes with
  | zero => exact ⟨[], rfl⟩
  | succ n ih =>
    cases names with
    | nil => simp at hn
    | cons name names =>
      cases sizes with
      | nil => simp at hs
      | cons size sizes =>
        simp only [List.length_cons, Nat.add_le_add_iff_right] at hn hs
        obtain ⟨bs, hbs⟩ := ih hn hs
        exact ⟨(branchOf name, size) :: bs, by simp [takeBranches, hbs, Except.map]⟩

theorem takeBranches_undefined {n : ℕ} {names : List String} {sizes : List UInt64}
    (h : ¬ (n ≤ names.length ∧ n ≤ sizes.length)) : takeBranches n names sizes = .error .undefined := by
  induction n generalizing names sizes with
  | zero => simp at h
  | succ n ih =>
    cases names with
    | nil => rfl
    | cons name names =>
      cases sizes with
      | nil => rfl
      | cons size sizes =>
        simp only [List.length_cons, Nat.add_le_add_iff_right] at h
        simp [takeBranches, ih h, Except.map]

/-- Each layer starts where the one before has left the cursors. -/
theorem buildLayerBranches_ok {counts : List ℕ} {names : List String} {sizes : List UInt64}
    (hn : counts.sum ≤ names.length) (hs : counts.sum ≤ sizes.length) :
    ∃ layers, buildLayerBranches counts names sizes = .ok layers := by
  induction counts generalizing names sizes with
  | nil => exact ⟨[], rfl⟩
  | cons n counts ih =>
    simp only [List.sum_cons] at hn hs
    have hnames : counts.sum ≤ (names.drop n).length := by rw [List.length_drop]; omega
    have hsizes : counts.sum ≤ (sizes.drop n).length := by rw [List.length_drop]; omega
    obtain ⟨bs, hbs⟩ : ∃ bs, takeBranches n names sizes = .ok (bs, names.drop n, sizes.drop n) :=
      takeBranches_ok (by omega) (by omega)
    obtain ⟨layers, hlayers⟩ := ih hnames hsizes
    exact ⟨bs :: layers, by simp [buildLayerBranches, hbs, hlayers, Except.map]⟩

theorem buildLayerBranches_undefined {counts : List ℕ} {names : List String} {sizes : List UInt64}
    (h : ¬ (counts.sum ≤ names.length ∧ counts.sum ≤ sizes.length)) :
    buildLayerBranches counts names sizes = .error .undefined := by
  induction counts generalizing names sizes with
  | nil => simp at h
  | cons n counts ih =>
    simp only [List.sum_cons] at h
    by_cases hn : n ≤ names.length ∧ n ≤ sizes.length
    · obtain ⟨bs, hbs⟩ := takeBranches_ok hn.1 hn.2
      have hrest : buildLayerBranches counts (names.drop n) (sizes.drop n) = .error .undefined := by
        refine ih ?_
        simp only [List.length_drop]
        omega
      simp [buildLayerBranches, hbs, hrest, Except.map]
    · simp [buildLayerBranches, takeBranches_undefined hn]

end cursors

section starts

variable {F : BlockFile} {L : Layout}

/-- Sums and rounding of 64 bits are the exact ones up to a multiple of 2 ^ 64. -/
theorem lookup_branchOffs (align : Bool) (branch : String) (bs : List (String × UInt64)) {off : UInt64}
    {exact : ℕ} (h : off.toNat = exact % 2 ^ 64) :
    (((branchOffs align off bs).lookup branch).getD 0).toNat =
      ((exactOffs align exact bs).lookup branch).getD 0 % 2 ^ 64 := by
  induction bs generalizing off exact with
  | nil => rfl
  | cons b bs ih =>
    rw [branchOffs, exactOffs, List.lookup_cons, List.lookup_cons]
    cases branch == b.1 with
    | true => exact h
    | false =>
      refine ih ?_
      cases align with
      | true =>
        have hone : (1 : UInt64).toNat = 1 := rfl
        simp only [if_true, WriterPlan.alignUp]
        rw [UInt64.toNat_mul, UInt64.toNat_div, UInt64.toNat_sub, UInt64.toNat_add, UInt64.toNat_add,
          StripPartition.toNat_align, hone]
        omega
      | false =>
        simp only [Bool.false_eq_true, if_false]
        rw [UInt64.toNat_add]
        omega

theorem branchOff_toNat (layer : ℤ) (branch : String) :
    (L.branchOff layer branch).toNat = exactBranchOff L layer branch % 2 ^ 64 := by
  unfold Layout.branchOff exactBranchOff
  split
  · exact lookup_branchOffs L.branchAlign branch _ rfl
  · rfl

theorem toNat_sub_mod (a b : UInt64) : ((a.toNat : ℤ) - b.toNat) % 2 ^ 64 = ((a - b).toNat : ℤ) := by
  have ha := a.toNat_lt
  have hb := b.toNat_lt
  rw [UInt64.toNat_sub]
  omega

theorem denseQuery_rel {t : TensorInfo} {q : Query} (hv : F.v3 = true) (hq : L.denseQuery t = .ok q) :
    q.rel = t.offset - F.sectionBase L t := by
  unfold Layout.denseQuery at hq
  unfold BlockFile.sectionBase
  rw [if_pos hv]
  cases hcat : t.category with
  | denseGlobal =>
    simp only [hcat, Except.ok.injEq] at hq ⊢
    rw [← hq]
  | denseLayer =>
    cases hfind : findSection L.denseLayerSections (UInt64.ofInt t.layer) with
    | none => simp [hcat, hfind] at hq
    | some x =>
      simp only [hcat, hfind, Except.ok.injEq, Option.map_some, Option.getD_some] at hq ⊢
      rw [← hq]
  | expert | expertMeta =>
    cases hfind : findSection L.expertMetaSections (UInt64.ofInt t.layer) with
    | none => simp [hcat, hfind] at hq
    | some x =>
      simp only [hcat, hfind, Except.ok.injEq, Option.map_some, Option.getD_some] at hq ⊢
      rw [← hq]

theorem exactStart_mod {x : Slice} {q : Query} (hq : F.interval L x = .ok q) :
    F.exactStart L x % 2 ^ 64 = q.rel.toNat := by
  cases x with
  | block i b =>
    cases hq
    rfl
  | expert t e =>
    cases hq
    have h := branchOff_toNat (L := L) t.layer t.branch
    simp only [BlockFile.exactStart]
    omega
  | dense t =>
    simp only [BlockFile.interval] at hq
    simp only [BlockFile.exactStart]
    split at hq
    · rename_i hv
      rw [denseQuery_rel hv hq]
      exact toNat_sub_mod _ _
    · rename_i hv
      cases hq
      have h := toNat_sub_mod t.offset 0
      simpa [BlockFile.sectionBase, hv] using h

end starts

section srcs

variable {F : BlockFile} {L : Layout} {x : Slice} {segs : List SrcSeg}

theorem files_ne_nil : F.files ≠ [] := by simp [BlockFile.files]

theorem interval_thrown {e : Failure} (hq : F.interval L x = .error e) : ∃ what, e = .thrown what := by
  cases x with
  | block i b => cases hq
  | expert t i => cases hq
  | dense t =>
    simp only [BlockFile.interval] at hq
    split at hq
    · exact denseQuery_thrown hq
    · cases hq

/-- Strip files: a slice is mapped, refused, or has no section. -/
theorem srcs_strips (hinc : F.incomplete = true) :
    F.srcs L x = (F.interval L x).bind (mapQuery F.files) := by
  rw [BlockFile.srcs, if_pos hinc]

theorem exists_interval (hinc : F.incomplete = true) (hok : F.srcs L x = .ok segs) :
    ∃ q, F.interval L x = .ok q ∧ mapQuery F.files q = .ok segs := by
  rw [srcs_strips hinc] at hok
  cases hq : F.interval L x with
  | error e =>
    rw [hq] at hok
    cases hok
  | ok q =>
    rw [hq] at hok
    exact ⟨q, rfl, hok⟩

theorem not_rejects (hinc : F.incomplete = true) (hok : F.srcs L x = .ok segs) : ¬ F.Rejects L x := by
  obtain ⟨q, hq, hmap⟩ := exists_interval hinc hok
  intro h
  simp only [BlockFile.Rejects, hq] at h
  obtain ⟨what, hthrown⟩ := (refused_iff files_ne_nil).mpr h
  unfold mapQuery at hmap
  cases hthrown.symm.trans hmap

theorem rejects_of_error (hinc : F.incomplete = true) {e : Failure} (herr : F.srcs L x = .error e) :
    (∃ what, e = .thrown what) ∧ F.Rejects L x := by
  rw [srcs_strips hinc] at herr
  cases hq : F.interval L x with
  | error e' =>
    rw [hq] at herr
    cases herr
    exact ⟨interval_thrown hq, by simp only [BlockFile.Rejects, hq]⟩
  | ok q =>
    rw [hq] at herr
    change mapQuery F.files q = .error e at herr
    unfold mapQuery at herr
    cases e with
    | undefined => exact absurd herr (not_undefined files_ne_nil)
    | thrown what =>
      refine ⟨⟨what, rfl⟩, ?_⟩
      simp only [BlockFile.Rejects, hq]
      exact (refused_iff files_ne_nil).mp ⟨what, herr⟩

theorem srcs_whole (hinc : F.incomplete = false) : F.srcs L x = F.whole L x := by
  rw [BlockFile.srcs, if_neg (by simp [hinc])]

theorem undefined_of_error (hinc : F.incomplete = false) {e : Failure} (herr : F.srcs L x = .error e) :
    e = .undefined ∧ ∃ t i, x = .expert t i ∧ L.blocks.length ≤ (blockIndex L t.layer i).toNat := by
  rw [srcs_whole hinc] at herr
  cases x with
  | block i b => cases herr
  | dense t => cases herr
  | expert t i =>
    simp only [BlockFile.whole] at herr
    split at herr
    · rename_i hnone
      cases herr
      exact ⟨rfl, t, i, rfl, List.getElem?_eq_none_iff.mp hnone⟩
    · cases herr

theorem block_lt (hinc : F.incomplete = false) {t : TensorInfo} {i : ℕ}
    (hok : F.srcs L (.expert t i) = .ok segs) : (blockIndex L t.layer i).toNat < L.blocks.length := by
  rw [srcs_whole hinc] at hok
  simp only [BlockFile.whole] at hok
  split at hok
  · cases hok
  · rename_i b hb
    exact (List.getElem?_eq_some_iff.mp hb).1

theorem whole_eq (hok : F.whole L x = .ok segs) : ∃ off : ℕ, off = F.position L x % 2 ^ 64 ∧
    segs = [⟨⟨0, off, (x.length L).toNat⟩, 0⟩] := by
  cases x with
  | block i b =>
    cases hok
    exact ⟨_, by rw [UInt64.toNat_add]; rfl, rfl⟩
  | dense t =>
    cases hok
    exact ⟨_, by rw [UInt64.toNat_add]; rfl, rfl⟩
  | expert t i =>
    simp only [BlockFile.whole] at hok
    split at hok
    · cases hok
    · rename_i b hb
      cases hok
      refine ⟨_, ?_, rfl⟩
      have hbranch := branchOff_toNat (L := L) t.layer t.branch
      simp only [BlockFile.position, List.getD_eq_getElem?_getD, hb, Option.getD_some]
      rw [UInt64.toNat_add, UInt64.toNat_add, hbranch]
      omega

/-- The segments of a slice are unwrapped where its exact offsets are numbers of 64 bits. -/
theorem unwrapped_iff (hok : F.srcs L x = .ok segs) : F.Unwrapped L x segs ↔ F.Holds L x := by
  cases hinc : F.incomplete with
  | true =>
    obtain ⟨q, hq, hmap⟩ := exists_interval hinc hok
    have hiff := exact_iff files_ne_nil hmap (exactStart_mod hq)
    simp only [BlockFile.Unwrapped, BlockFile.Holds, hinc, if_true, hq, Except.ok.injEq, forall_eq']
    exact hiff
  | false =>
    rw [srcs_whole hinc] at hok
    obtain ⟨off, hoff, rfl⟩ := whole_eq hok
    simp only [BlockFile.Unwrapped, BlockFile.Holds, hinc, Bool.false_eq_true, if_false, List.mem_singleton,
      forall_eq, List.map_cons, List.map_nil, List.sum_cons, List.sum_nil]
    omega

end srcs

section tensors

variable {F : BlockFile} {L : Layout} {t : Tensor} {entry : Entry SrcSeg}

/-- What a tensor of the table becomes. -/
inductive Mapped (F : BlockFile) (L : Layout) (t : Tensor) : Entry SrcSeg → Prop
  | expert (srcs : List (List SrcSeg)) : t.info.category = .expert →
      ((List.range L.nExpert.toNat).mapM fun e => F.srcs L (.expert t.info e)) = .ok srcs →
      Mapped F L t (.expert
        { info := t.info, perExpert := L.perExpert t.info
          branchOff := L.branchOff t.info.layer t.info.branch, perExpertSrcs := srcs })
  | dense (srcs : List SrcSeg) : t.info.category ≠ .expert → F.srcs L (.dense t.info) = .ok srcs →
      Mapped F L t (.dense
        { info := t.info, layer := if t.info.category = .denseGlobal then -1 else t.info.layer, srcs := srcs })

theorem mapped_of_ok (h : F.mapTensor L t = .ok entry) : F.Accepts t ∧ Mapped F L t entry := by
  unfold BlockFile.mapTensor BlockFile.classify at h
  by_cases hacc : F.Accepts t
  · rw [if_pos hacc] at h
    split at h
    · rename_i heq
      cases heq
    · rename_i hcat
      obtain ⟨srcs, hsrcs, rfl⟩ := map_ok_iff.mp h
      exact ⟨hacc, .expert srcs (Except.ok.inj hcat) hsrcs⟩
    · rename_i cat hexpert hcat
      obtain ⟨srcs, hsrcs, rfl⟩ := map_ok_iff.mp h
      cases hcat
      exact ⟨hacc, .dense srcs (fun heq => hexpert (by rw [heq])) hsrcs⟩
  · rw [if_neg hacc] at h
    cases h

theorem Mapped.srcs (h : Mapped F L t entry) {x : Slice} (hx : x ∈ t.slices L) :
    ∃ segs, F.srcs L x = .ok segs := by
  unfold Tensor.slices at hx
  cases h with
  | expert srcs hcat hsrcs =>
    rw [if_pos hcat] at hx
    obtain ⟨e, he, rfl⟩ := List.mem_map.mp hx
    obtain ⟨segs, -, hsegs⟩ := exists_of_mapM hsrcs he
    exact ⟨segs, hsegs⟩
  | dense srcs hcat hsrcs =>
    rw [if_neg hcat] at hx
    rw [List.mem_singleton.mp hx]
    exact ⟨srcs, hsrcs⟩

/-- A tensor that fails is not accepted, or one of its slices fails. -/
theorem slice_of_error {e : Failure} (h : F.mapTensor L t = .error e) :
    (¬ F.Accepts t ∧ ∃ what, e = .thrown what) ∨
      F.Accepts t ∧ ∃ x ∈ t.slices L, F.srcs L x = .error e := by
  unfold BlockFile.mapTensor BlockFile.classify at h
  unfold Tensor.slices
  by_cases hacc : F.Accepts t
  · rw [if_pos hacc] at h
    right
    refine ⟨hacc, ?_⟩
    split at h
    · rename_i heq
      cases heq
    · rename_i hcat
      rw [if_pos (Except.ok.inj hcat)]
      obtain ⟨i, hi, herr⟩ := error_of_mapM (map_error_iff.mp h)
      exact ⟨_, List.mem_map_of_mem hi, herr⟩
    · rename_i cat hexpert hcat
      cases hcat
      rw [if_neg fun heq => hexpert (by rw [heq])]
      exact ⟨_, List.mem_singleton_self _, map_error_iff.mp h⟩
  · rw [if_neg hacc] at h
    cases h
    exact .inl ⟨hacc, _, rfl⟩

end tensors

section body

variable {F : BlockFile} {L : Layout} {blockSrcs : List (List SrcSeg)} {entries : List (Entry SrcSeg)}

theorem block_mem_slices {i : ℕ} {b : UInt64 × UInt64} (h : L.blocks[i]? = some b) :
    Slice.block i b ∈ F.slices L := by
  have hmem : (b, i) ∈ L.blocks.zipIdx := by
    refine List.mem_of_getElem? (i := i) ?_
    simp [List.getElem?_zipIdx, h]
  exact List.mem_append_left _ (List.mem_map_of_mem (f := fun x => Slice.block x.2 x.1) hmem)

theorem tensor_mem_slices {t : Tensor} {x : Slice} (ht : t ∈ F.tensors) (hx : x ∈ t.slices L) :
    x ∈ F.slices L := List.mem_append_right _ (List.mem_flatMap.mpr ⟨t, ht, hx⟩)

variable (hblocks : (L.blocks.zipIdx.mapM fun x => F.srcs L (.block x.2 x.1)) = .ok blockSrcs)
  (hentries : F.tensors.mapM (F.mapTensor L) = .ok entries)

def bodyOf (blockSrcs : List (List SrcSeg)) (entries : List (Entry SrcSeg)) : Body SrcSeg where
  blockSrcs
  dense := entries.filterMap Entry.asDense
  expert := (entries.filterMap Entry.asExpert).insertionSort ExpertTensor.Before

theorem mem_expert {y : ExpertTensor SrcSeg} : y ∈ (bodyOf blockSrcs entries).expert ↔ .expert y ∈ entries := by
  simp only [bodyOf, List.mem_insertionSort, List.mem_filterMap]
  constructor
  · rintro ⟨entry, hmem, heq⟩
    cases entry with
    | expert e =>
      cases heq
      exact hmem
    | dense d => cases heq
  · exact fun h => ⟨_, h, rfl⟩

theorem mem_dense {d : DenseTensor SrcSeg} : d ∈ (bodyOf blockSrcs entries).dense ↔ .dense d ∈ entries := by
  simp only [bodyOf, List.mem_filterMap]
  constructor
  · rintro ⟨entry, hmem, heq⟩
    cases entry with
    | expert e => cases heq
    | dense d =>
      cases heq
      exact hmem
  · exact fun h => ⟨_, h, rfl⟩

include hblocks in
theorem block_srcs (i : ℕ) :
    (L.blocks[i]?.map fun b => F.srcs L (.block i b)) = blockSrcs[i]?.map .ok := by
  have h := getElem?_of_mapM hblocks i
  rw [List.getElem?_zipIdx, Option.map_map] at h
  simpa [Function.comp_def] using h

theorem expert_srcs {t : TensorInfo} {srcs : List (List SrcSeg)}
    (h : ((List.range L.nExpert.toNat).mapM fun e => F.srcs L (.expert t e)) = .ok srcs) {e : ℕ}
    (he : e < L.nExpert.toNat) : ∃ segs, srcs[e]? = some segs ∧ F.srcs L (.expert t e) = .ok segs := by
  have hmap := getElem?_of_mapM h e
  rw [List.getElem?_range he, Option.map_some] at hmap
  obtain ⟨segs, hsegs, heq⟩ := Option.map_eq_some_iff.mp hmap.symm
  exact ⟨segs, hsegs, heq.symm⟩

include hblocks hentries in
/-- The segments of a model are those of its slices. -/
theorem allUnwrapped_iff : F.AllUnwrapped L (bodyOf blockSrcs entries) ↔ ∀ x ∈ F.slices L, F.Holds L x := by
  constructor
  · rintro ⟨hb, he, hd⟩ x hx
    rcases List.mem_append.mp hx with hx | hx
    · obtain ⟨⟨b, i⟩, hmem, rfl⟩ := List.mem_map.mp hx
      obtain ⟨segs, hsegs, hok⟩ := exists_of_mapM hblocks hmem
      have hget : L.blocks[i]? = some b := by
        obtain ⟨-, hlt, hval⟩ := List.mem_zipIdx hmem
        rw [List.getElem?_eq_getElem (by simpa using hlt)]
        simpa using hval.symm
      have hsrcs := block_srcs hblocks i
      rw [hget, Option.map_some, hok] at hsrcs
      obtain ⟨segs', hsegs', heq⟩ := Option.map_eq_some_iff.mp hsrcs.symm
      cases heq
      exact (unwrapped_iff hok).mp (hb i b segs hget hsegs')
    · obtain ⟨t, ht, hx⟩ := List.mem_flatMap.mp hx
      obtain ⟨entry, hentry, hok⟩ := exists_of_mapM hentries ht
      unfold Tensor.slices at hx
      cases (mapped_of_ok hok).2 with
      | expert srcs hcat hsrcs =>
        rw [if_pos hcat] at hx
        obtain ⟨e, hmem, rfl⟩ := List.mem_map.mp hx
        obtain ⟨segs, hget, hseg⟩ := expert_srcs hsrcs (List.mem_range.mp hmem)
        exact (unwrapped_iff hseg).mp (he _ (mem_expert.mpr hentry) e segs hget)
      | dense srcs hcat hsrcs =>
        rw [if_neg hcat] at hx
        rw [List.mem_singleton.mp hx]
        exact (unwrapped_iff hsrcs).mp (hd _ (mem_dense.mpr hentry))
  · intro h
    refine ⟨?_, ?_, ?_⟩
    · intro i b segs hget hsegs
      have hget' : blockSrcs[i]? = some segs := hsegs
      have hsrcs := block_srcs hblocks i
      rw [hget, hget', Option.map_some, Option.map_some, Option.some.injEq] at hsrcs
      exact (unwrapped_iff hsrcs).mpr (h _ (block_mem_slices hget))
    · intro y hy e segs hget
      obtain ⟨t, ht, hok⟩ := source_of_mapM hentries (mem_expert.mp hy)
      cases (mapped_of_ok hok).2 with
      | expert srcs hcat hsrcs =>
        have hmap := getElem?_of_mapM hsrcs e
        have hlt : e < L.nExpert.toNat := by
          by_contra hge
          rw [List.getElem?_eq_none (by simpa using hge), hget] at hmap
          cases hmap
        obtain ⟨segs', hget', hseg⟩ := expert_srcs hsrcs hlt
        cases hget.symm.trans hget'
        refine (unwrapped_iff hseg).mpr (h _ (tensor_mem_slices ht ?_))
        rw [Tensor.slices, if_pos hcat]
        exact List.mem_map_of_mem (List.mem_range.mpr hlt)
    · intro d hd
      obtain ⟨t, ht, hok⟩ := source_of_mapM hentries (mem_dense.mp hd)
      cases (mapped_of_ok hok).2 with
      | dense srcs hcat hsrcs =>
        refine (unwrapped_iff hsrcs).mpr (h _ (tensor_mem_slices ht ?_))
        rw [Tensor.slices, if_neg hcat]
        exact List.mem_singleton_self _

end body

section total

variable {F : BlockFile} {L : Layout}

/-- What `parse_model` does once the branches are read. -/
theorem parse_eq (hL : F.layout = .ok L) : F.parse =
    ((L.blocks.zipIdx.mapM fun x => F.srcs L (.block x.2 x.1)).bind fun blockSrcs =>
      (F.tensors.mapM (F.mapTensor L)).map fun entries => bodyOf blockSrcs entries) := by
  unfold BlockFile.parse
  rw [hL]
  rfl

/-- A model, with all its slices mapped. -/
structure Parsed (F : BlockFile) (L : Layout) (body : Body SrcSeg) : Prop where
  parse : F.parse = .ok body
  accepts : ∀ t ∈ F.tensors, F.Accepts t
  srcs : ∀ x ∈ F.slices L, ∃ segs, F.srcs L x = .ok segs
  unwrapped : F.AllUnwrapped L body ↔ ∀ x ∈ F.slices L, F.Holds L x

/-- A failure at a block, or at a tensor behind others that are mapped. -/
inductive Fails (F : BlockFile) (L : Layout) (e : Failure) : Prop
  | block (x : Slice) : x ∈ F.slices L → (∀ t i, x ≠ .expert t i) → F.srcs L x = .error e → Fails F L e
  | tensor (front : List Tensor) (t : Tensor) (rest : List Tensor) : F.tensors = front ++ t :: rest →
      (∀ u ∈ front, ∃ entry, F.mapTensor L u = .ok entry) → F.mapTensor L t = .error e → Fails F L e

theorem parsed_or_fails (hL : F.layout = .ok L) :
    (∃ body, Parsed F L body) ∨ ∃ e, F.parse = .error e ∧ Fails F L e := by
  rw [parse_eq hL]
  cases hblocks : L.blocks.zipIdx.mapM fun x => F.srcs L (.block x.2 x.1) with
  | error e =>
    obtain ⟨⟨b, i⟩, hmem, herr⟩ := error_of_mapM hblocks
    have hslice : Slice.block i b ∈ F.slices L :=
      List.mem_append_left _ (List.mem_map_of_mem (f := fun x => Slice.block x.2 x.1) hmem)
    exact .inr ⟨e, rfl, .block _ hslice (fun t i heq => (by cases heq)) herr⟩
  | ok blockSrcs =>
    cases hentries : F.tensors.mapM (F.mapTensor L) with
    | error e =>
      obtain ⟨front, t, rest, hsplit, hfront, herr⟩ := split_of_mapM hentries
      exact .inr ⟨e, rfl, .tensor front t rest hsplit hfront herr⟩
    | ok entries =>
      refine .inl ⟨bodyOf blockSrcs entries, ?_, ?_, ?_, allUnwrapped_iff hblocks hentries⟩
      · rw [parse_eq hL, hblocks, hentries]
        rfl
      · intro t ht
        obtain ⟨entry, -, hok⟩ := exists_of_mapM hentries ht
        exact (mapped_of_ok hok).1
      · intro x hx
        rcases List.mem_append.mp hx with hx | hx
        · obtain ⟨y, hy, rfl⟩ := List.mem_map.mp hx
          obtain ⟨segs, -, hok⟩ := exists_of_mapM hblocks hy
          exact ⟨segs, hok⟩
        · obtain ⟨t, ht, hx⟩ := List.mem_flatMap.mp hx
          obtain ⟨entry, -, hok⟩ := exists_of_mapM hentries ht
          exact (mapped_of_ok hok).2.srcs hx

/-- Strip files: whatever fails is thrown, by a tensor that is refused or a slice that is. -/
theorem Fails.strips (hinc : F.incomplete = true) {e : Failure} (h : Fails F L e) :
    (∃ what, e = .thrown what) ∧ ((∃ t ∈ F.tensors, ¬ F.Accepts t) ∨ ∃ x ∈ F.slices L, F.Rejects L x) := by
  cases h with
  | block x hx _ herr =>
    obtain ⟨hthrown, hrej⟩ := rejects_of_error hinc herr
    exact ⟨hthrown, .inr ⟨x, hx, hrej⟩⟩
  | tensor front t rest hsplit _ herr =>
    have ht : t ∈ F.tensors := by simp [hsplit]
    rcases slice_of_error herr with ⟨hacc, hthrown⟩ | ⟨-, x, hx, hsrc⟩
    · exact ⟨hthrown, .inl ⟨t, ht, hacc⟩⟩
    · obtain ⟨hthrown, hrej⟩ := rejects_of_error hinc hsrc
      exact ⟨hthrown, .inr ⟨x, tensor_mem_slices ht hx, hrej⟩⟩

/-- The tensors before the first one that is refused have blocks for all experts. -/
def HasBlocks (F : BlockFile) (L : Layout) : Prop :=
  ∀ t ∈ F.tensors.takeWhile fun t => decide (F.Accepts t), t.info.category = .expert →
    ∀ e < L.nExpert.toNat, (blockIndex L t.info.layer e).toNat < L.blocks.length

theorem blocks_of_mapped (hinc : F.incomplete = false) {t : Tensor} {entry : Entry SrcSeg}
    (h : F.mapTensor L t = .ok entry) (hcat : t.info.category = .expert) {e : ℕ} (he : e < L.nExpert.toNat) :
    (blockIndex L t.info.layer e).toNat < L.blocks.length := by
  have hmem : Slice.expert t.info e ∈ t.slices L := by
    rw [Tensor.slices, if_pos hcat]
    exact List.mem_map_of_mem (List.mem_range.mpr he)
  obtain ⟨segs, hsegs⟩ := (mapped_of_ok h).2.srcs hmem
  exact block_lt hinc hsegs

/-- Whole files: a tensor is refused behind tensors with blocks, or an expert of an accepted tensor has none. -/
theorem Fails.whole (hinc : F.incomplete = false) {e : Failure} (h : Fails F L e) :
    ((∃ what, e = .thrown what) ∧ (∃ t ∈ F.tensors, ¬ F.Accepts t) ∧ HasBlocks F L) ∨
      e = .undefined ∧ ¬ HasBlocks F L := by
  cases h with
  | block x hx hnot herr =>
    obtain ⟨-, t, i, heq, -⟩ := undefined_of_error hinc herr
    exact absurd heq (hnot t i)
  | tensor front t rest hsplit hfront herr =>
    have hacc : ∀ u ∈ front, decide (F.Accepts u) = true := by
      intro u hu
      obtain ⟨entry, hok⟩ := hfront u hu
      exact decide_eq_true (mapped_of_ok hok).1
    have htake : F.tensors.takeWhile (fun t => decide (F.Accepts t)) =
        front ++ (t :: rest).takeWhile fun t => decide (F.Accepts t) := by
      rw [hsplit, List.takeWhile_append_of_pos hacc]
    rcases slice_of_error herr with ⟨hrefused, hthrown⟩ | ⟨haccepted, x, hx, hsrc⟩
    · refine .inl ⟨hthrown, ⟨t, by simp [hsplit], hrefused⟩, ?_⟩
      intro u hu hcat i hi
      rw [htake, List.takeWhile_cons, if_neg (by simpa using hrefused), List.append_nil] at hu
      obtain ⟨entry, hok⟩ := hfront u hu
      exact blocks_of_mapped hinc hok hcat hi
    · obtain ⟨hund, u, i, heq, hge⟩ := undefined_of_error hinc hsrc
      refine .inr ⟨hund, fun hall => ?_⟩
      have hmem : t ∈ F.tensors.takeWhile fun t => decide (F.Accepts t) := by
        rw [htake, List.takeWhile_cons, if_pos (decide_eq_true haccepted)]
        simp
      unfold Tensor.slices at hx
      subst heq
      split at hx
      · rename_i hcat
        obtain ⟨j, hj, heq⟩ := List.mem_map.mp hx
        cases heq
        exact absurd (hall t hmem hcat i (List.mem_range.mp hj)) (by omega)
      · cases List.mem_singleton.mp hx

theorem mapTensor_strips (hinc : F.incomplete = true) (hv : F.v3 = true) {t : Tensor} (ht : F.Accepts t) :
    F.mapTensor L t = ChunkSet.mapTensor (mapQuery F.files) L t.info := by
  unfold BlockFile.mapTensor BlockFile.classify ChunkSet.mapTensor
  rw [if_pos ht]
  by_cases hcat : t.info.category = .expert
  · simp only [hcat, if_true, Layout.expertQueries, List.mapM_map, srcs_strips hinc]
    rfl
  · rw [if_neg hcat]
    split
    · rename_i heq
      cases heq
    · rename_i heq
      exact absurd (Except.ok.inj heq) hcat
    · rename_i cat _ heq
      cases heq
      rw [srcs_strips hinc, BlockFile.interval, if_pos hv]
      cases hq : L.denseQuery t.info with
      | error e => rfl
      | ok q => cases hs : mapQuery F.files q <;> simp [hs, Except.map, Except.bind, bind, pure, Except.pure]

/-- Strip files of a v3 model with tensors that are accepted are mapped as the files of a chunk set are. -/
theorem parse_strips (hinc : F.incomplete = true) (hv : F.v3 = true) (hacc : ∀ t ∈ F.tensors, F.Accepts t)
    (hL : F.layout = .ok L) : F.parse = buildModel (mapQuery F.files) L := by
  have htensors : L.tensors = F.tensors.map Tensor.info := by
    obtain ⟨layers, -, rfl⟩ := map_ok_iff.mp hL
    rfl
  have hblocks : (L.blocks.zipIdx.mapM fun x => F.srcs L (.block x.2 x.1)) =
      L.blockQueries.mapM (mapQuery F.files) := by
    simp only [Layout.blockQueries, List.mapM_map, srcs_strips hinc]
    rfl
  have hentries : F.tensors.mapM (F.mapTensor L) = L.tensors.mapM (ChunkSet.mapTensor (mapQuery F.files) L) := by
    rw [htensors, List.mapM_map]
    exact mapM_congr fun t ht => mapTensor_strips hinc hv (hacc t ht)
  rw [parse_eq hL, hblocks, hentries]
  rfl

/-- Parsing a file with expert blocks is total exactly when its arrays are consistent. -/
theorem parse_total_iff (F : BlockFile) : F.Total ↔ F.Consistent := by
  by_cases hcursors : F.layerCounts.sum ≤ F.branchNames.length ∧ F.layerCounts.sum ≤ F.branchSizes.length
  · obtain ⟨layers, hlayers⟩ := buildLayerBranches_ok hcursors.1 hcursors.2
    obtain ⟨L, hL⟩ : ∃ L, F.layout = .ok L := ⟨_, by rw [BlockFile.layout, hlayers]; rfl⟩
    have honly : ∀ L', F.layout = .ok L' → L' = L := fun L' h => Except.ok.inj (h.symm.trans hL)
    have hcons : F.Consistent ↔ (F.incomplete = false → HasBlocks F L) ∧
        ((∃ t ∈ F.tensors, ¬ F.Accepts t) ∨ (F.incomplete = true ∧ ∃ x ∈ F.slices L, F.Rejects L x) ∨
          ∀ x ∈ F.slices L, F.Holds L x) := by
      constructor
      · exact fun h => ⟨h.blocks L hL, h.offsets L hL⟩
      · rintro ⟨hb, ho⟩
        exact ⟨hcursors.1, hcursors.2, fun L' h => honly L' h ▸ hb, fun L' h => honly L' h ▸ ho⟩
    rw [hcons]
    rcases parsed_or_fails hL with ⟨body, hbody⟩ | ⟨e, herr, hfails⟩
    · have htotal : F.Total ↔ ∀ x ∈ F.slices L, F.Holds L x := by
        constructor
        · rintro (⟨what, hthrown⟩ | ⟨L', body', hL', hbody', hall⟩)
          · cases hbody.parse.symm.trans hthrown
          · cases honly L' hL'
            cases hbody.parse.symm.trans hbody'
            exact hbody.unwrapped.mp hall
        · exact fun h => .inr ⟨L, body, hL, hbody.parse, hbody.unwrapped.mpr h⟩
      rw [htotal]
      constructor
      · intro h
        refine ⟨fun hinc t ht hcat i hi => ?_, .inr (.inr h)⟩
        have hmem := (List.takeWhile_sublist _).subset ht
        have hslice : Slice.expert t.info i ∈ t.slices L := by
          rw [Tensor.slices, if_pos hcat]
          exact List.mem_map_of_mem (List.mem_range.mpr hi)
        obtain ⟨segs, hok⟩ := hbody.srcs _ (tensor_mem_slices hmem hslice)
        exact block_lt hinc hok
      · rintro ⟨-, ⟨t, ht, hacc⟩ | ⟨hinc, x, hx, hrej⟩ | hall⟩
        · exact absurd (hbody.accepts t ht) hacc
        · obtain ⟨segs, hok⟩ := hbody.srcs x hx
          exact absurd hrej (not_rejects hinc hok)
        · exact hall
    · have htotal : F.Total ↔ ∃ what, e = .thrown what := by
        constructor
        · rintro (⟨what, hthrown⟩ | ⟨L', body', -, hbody', -⟩)
          · exact ⟨what, Except.error.inj (herr.symm.trans hthrown)⟩
          · cases herr.symm.trans hbody'
        · rintro ⟨what, rfl⟩
          exact .inl ⟨what, herr⟩
      rw [htotal]
      cases hinc : F.incomplete with
      | true =>
        obtain ⟨hthrown, hwhy⟩ := hfails.strips hinc
        refine iff_of_true hthrown ⟨fun h => (by cases h), hwhy.imp_right fun h => .inl ⟨rfl, h⟩⟩
      | false =>
        rcases hfails.whole hinc with ⟨hthrown, hrefused, hblocks⟩ | ⟨rfl, hblocks⟩
        · exact iff_of_true hthrown ⟨fun _ => hblocks, .inl hrefused⟩
        · refine iff_of_false ?_ fun h => hblocks (h.1 rfl)
          rintro ⟨what, heq⟩
          cases heq
  · refine iff_of_false ?_ fun h => hcursors ⟨h.names, h.sizes⟩
    have hund : F.layout = .error .undefined := by
      rw [BlockFile.layout, buildLayerBranches_undefined hcursors]
      rfl
    have hparse : F.parse = .error .undefined := by
      unfold BlockFile.parse
      rw [hund]
      rfl
    rintro (⟨what, hthrown⟩ | ⟨L, body, hL, -⟩)
    · cases hparse.symm.trans hthrown
    · cases hund.symm.trans hL

/-- A layer that counts two branches, with the name and the size of one. -/
def shortFile : BlockFile where
  nLayer := 1
  nExpert := 1
  v3 := false
  incomplete := false
  branchAlign := true
  expertSections := [0, 4096, 1]
  branchNames := ["blk.0.ffn_up_exps.weight"]
  branchSizes := [4096]
  branchCounts := [2]
  denseSection := []
  denseLayerSections := []
  expertMetaSections := []
  main := ⟨[], 0⟩
  others := []
  tensors := []

/-- The second name is read behind the end of its array. -/
theorem not_parse_total : ¬ ∀ F : BlockFile, F.Total := by
  intro h
  rcases h shortFile with ⟨what, hthrown⟩ | ⟨L, body, hL, -⟩
  · cases hthrown
  · cases hL

end total

end BlockMetadata
end StreamMoE
