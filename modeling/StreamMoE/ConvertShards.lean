import StreamMoE.ConvertFiles

/-! `parse_model` on the files of an original model: every tensor lies in one piece in one of them. -/
namespace StreamMoE
namespace ConvertModel

open BlockSplit (Failure)
open BlockMetadata (branchOf)
open ByteFiles (File)
open ConvertFiles (FileSystem Library Listing FirstOpens Separate openPath runConversions written)
open DenseFill (SrcSeg)
open FileCopies
open Gaps
open WriterPlan (Category)

section model

/-- What is read of a file without expert blocks. -/
structure Shard where
  nLayer : UInt32
  nExpert : UInt32
  dataOff : UInt64
  tensors : List TableEntry
  deriving DecidableEq, Repr

variable (read : File UInt8 → Option Shard)

def openShard (f : String × File UInt8) : Except Failure Shard :=
  match read f.2 with
  | some s => .ok s
  | none => .error (.thrown ("cannot open " ++ f.1))

def classify (nExpert : UInt32) (t : TableEntry) : Except Failure Category :=
  if categoryOf t.shape.name = .expert ∧ (nExpert = 0 ∨ t.shape.ne.2.2.1 ≠ nExpert.toNat) then
    .error (.thrown ("expert tensor ne[2] != n_expert: " ++ t.shape.name))
  else .ok (categoryOf t.shape.name)

def mapShardTensor (nExpert : UInt32) (shard : ℕ) (dataOff : UInt64) (t : TableEntry) : Except Failure Entry := do
  let cat ← classify nExpert t
  let x ← t.tensor
  let off := dataOff + t.offset
  if cat = .expert then
    let perExpert := x.info.size / nExpert.toUInt64
    return .expert
      { shape := t.shape, perExpert := perExpert.toNat, branch := x.info.branch, layer := x.info.layer
        perExpertSrcs := (List.range nExpert.toNat).map fun e =>
          [⟨⟨shard, (off + UInt64.ofNat e * perExpert).toNat, perExpert.toNat⟩, 0⟩] }
  else
    return .dense
      { shape := t.shape, category := cat, layer := x.info.layer
        srcs := [⟨⟨shard, off.toNat, x.info.size.toNat⟩, 0⟩] }

/-- The tensors of all files with the number of the file and the start of its data -/
def shardTensors (shards : List Shard) : List (ℕ × UInt64 × TableEntry) :=
  shards.zipIdx.flatMap fun s => s.1.tensors.map fun t => (s.2, s.1.dataOff, t)

/-- `parse_model` on the listed files without expert blocks -/
def parseOriginal (files : Disk) : Except Failure Model :=
  match files with
  | [] => .error (.thrown "parse_model: no paths")
  | f :: fs => do
    let main ← openShard read f
    let shards ← (f :: fs).mapM (openShard read)
    let entries ← (shardTensors shards).mapM fun x => mapShardTensor main.nExpert x.1 x.2.1 x.2.2
    return { nLayer := main.nLayer.toNat, nExpert := main.nExpert.toNat
             dense := entries.filterMap Entry.asDense
             expert := (entries.filterMap Entry.asExpert).insertionSort ExpertTensor.Before }

end model

section spec

/-- `n` bytes of a file from `off` on, if all of them are there -/
def slice (f : File UInt8) (off n : ℕ) : Option (List UInt8) := (List.range n).mapM fun i => f.read (off + i)

/-- What a file holds of one of its tensors. -/
def TableEntry.content (nExpert : ℕ) (f : File UInt8) (dataOff : UInt64) (t : TableEntry) : Content :=
  let start := dataOff.toNat + t.offset.toNat
  let layer := if categoryOf t.shape.name = .denseGlobal then -1 else (layerOf t.shape.name).getD (-1)
  if categoryOf t.shape.name = .expert then
    { shape := t.shape, category := .expert, layer, branch := branchOf t.shape.name
      data := (List.range nExpert).map fun e =>
        slice f (start + e * (t.shape.size / nExpert)) (t.shape.size / nExpert) }
  else
    { shape := t.shape, category := categoryOf t.shape.name, layer, branch := ""
      data := [slice f start t.shape.size] }

/-- What the files hold of all tensors. -/
def shardContents (nExpert : ℕ) (files : Disk) (shards : List Shard) : List Content :=
  (List.zip files shards).flatMap fun x => x.2.tensors.map (TableEntry.content nExpert x.1.2 x.2.dataOff)

/-- A tensor of the table with a layer of the model; the bytes of an expert tensor are those of its experts. -/
structure TableEntry.Sound (nLayer nExpert : ℕ) (t : TableEntry) : Prop where
  layer : categoryOf t.shape.name ≠ .denseGlobal →
    ∃ l, layerOf t.shape.name = some l ∧ 0 ≤ l ∧ l < nLayer
  experts : categoryOf t.shape.name = .expert →
    nExpert ≠ 0 ∧ t.shape.ne.2.2.1 = nExpert ∧ t.shape.size / nExpert * nExpert = t.shape.size

/-- The files of an original model: the tensors lie in their files, and no two tensors of a layer stand for one
branch. -/
structure Original (read : File UInt8 → Option Shard) (files : Disk) (main : Shard) (shards : List Shard) : Prop where
  head : shards.head? = some main
  tables : List.Forall₂ (fun f s => read f.2 = some s ∧ f.2.len < 2 ^ 64 ∧ ∀ t ∈ s.tensors,
    t.Sound main.nLayer.toNat main.nExpert.toNat ∧ s.dataOff.toNat + t.offset.toNat + t.shape.size ≤ f.2.len)
    files shards
  names : ((shards.flatMap Shard.tensors).map fun t => t.shape.name).Nodup
  branches : (shards.flatMap Shard.tensors).Pairwise fun a b =>
    categoryOf a.shape.name = .expert → categoryOf b.shape.name = .expert →
      layerOf a.shape.name = layerOf b.shape.name → branchOf a.shape.name ≠ branchOf b.shape.name

end spec

section entries

variable {nExpert : UInt32} {disk : Disk}

/-- What a tensor of a sound table becomes. -/
def shardEntry (nExpert : ℕ) (x : ℕ × UInt64 × TableEntry) : Entry :=
  let t := x.2.2
  let start := x.2.1.toNat + t.offset.toNat
  let layer := if categoryOf t.shape.name = .denseGlobal then -1 else (layerOf t.shape.name).getD (-1)
  if categoryOf t.shape.name = .expert then
    .expert
      { shape := t.shape, perExpert := t.shape.size / nExpert, branch := branchOf t.shape.name, layer
        perExpertSrcs := (List.range nExpert).map fun e =>
          [⟨⟨x.1, start + e * (t.shape.size / nExpert), t.shape.size / nExpert⟩, 0⟩] }
  else
    .dense
      { shape := t.shape, category := categoryOf t.shape.name, layer
        srcs := [⟨⟨x.1, start, t.shape.size⟩, 0⟩] }

theorem tensor_ok {t : TableEntry} {n k : ℕ} (h : t.Sound n k) : t.tensor = .ok
    (t.inLayer (if categoryOf t.shape.name = .denseGlobal then -1 else (layerOf t.shape.name).getD (-1))) := by
  unfold TableEntry.tensor
  by_cases hglobal : categoryOf t.shape.name = .denseGlobal
  · simp only [hglobal, if_true]
  · obtain ⟨l, hl, _⟩ := h.layer hglobal
    simp only [hglobal, if_false, hl, Option.getD_some]

theorem mapShardTensor_ok {n shard : ℕ} {dataOff : UInt64} {t : TableEntry} (h : t.Sound n nExpert.toNat)
    (hsize : dataOff.toNat + t.offset.toNat + t.shape.size < 2 ^ 64) :
    mapShardTensor nExpert shard dataOff t = .ok (shardEntry nExpert.toNat (shard, dataOff, t)) := by
  have hoff : (dataOff + t.offset).toNat = dataOff.toNat + t.offset.toNat := by
    rw [UInt64.toNat_add]
    omega
  have hword : (UInt64.ofNat t.shape.size).toNat = t.shape.size := UInt64.toNat_ofNat_of_lt' (by
    have hword : UInt64.size = 2 ^ 64 := rfl
    omega)
  by_cases hexpert : categoryOf t.shape.name = .expert
  · obtain ⟨hne, hne2, hprod⟩ := h.experts hexpert
    have hclass : classify nExpert t = .ok .expert := by
      rw [classify, if_neg, hexpert]
      rintro ⟨_, hzero | hother⟩
      · exact hne (by rw [hzero]; rfl)
      · exact hother hne2
    have hper : (UInt64.ofNat t.shape.size / nExpert.toUInt64).toNat = t.shape.size / nExpert.toNat := by
      rw [UInt64.toNat_div, hword, UInt32.toNat_toUInt64]
    have hsrcs : ((List.range nExpert.toNat).map fun e : ℕ => ([⟨⟨shard, (dataOff + t.offset +
          UInt64.ofNat e * (UInt64.ofNat t.shape.size / nExpert.toUInt64)).toNat,
            t.shape.size / nExpert.toNat⟩, 0⟩] : List SrcSeg)) =
        (List.range nExpert.toNat).map fun e => [⟨⟨shard, dataOff.toNat + t.offset.toNat +
          e * (t.shape.size / nExpert.toNat), t.shape.size / nExpert.toNat⟩, 0⟩] := by
      refine List.map_congr_left fun e he => ?_
      have he : e < nExpert.toNat := List.mem_range.mp he
      have hmul : e * (t.shape.size / nExpert.toNat) ≤ t.shape.size := by
        rw [Nat.mul_comm]
        exact (Nat.mul_le_mul_left _ he.le).trans hprod.le
      have hnum : (UInt64.ofNat e).toNat = e := UInt64.toNat_ofNat_of_lt' (he.trans nExpert.toNat_lt |>.trans (by decide))
      have hstart : (dataOff + t.offset + UInt64.ofNat e * (UInt64.ofNat t.shape.size / nExpert.toUInt64)).toNat =
          dataOff.toNat + t.offset.toNat + e * (t.shape.size / nExpert.toNat) := by
        rw [UInt64.toNat_add, hoff, UInt64.toNat_mul, hper, hnum]
        omega
      rw [hstart]
    rw [mapShardTensor, hclass, tensor_ok h]
    simp only [bind, Except.bind, if_true, pure, Except.pure, shardEntry, hexpert, TableEntry.inLayer, hsrcs, hper]
  · have hclass : classify nExpert t = .ok (categoryOf t.shape.name) := by
      rw [classify, if_neg]
      exact fun hboth => hexpert hboth.1
    rw [mapShardTensor, hclass, tensor_ok h]
    simp only [bind, Except.bind, if_neg hexpert, pure, Except.pure, shardEntry, TableEntry.inLayer, hoff, hword]

def Entry.elim {β : Type} (f : DenseTensor → β) (g : ExpertTensor → β) : Entry → β
  | .dense d => f d
  | .expert e => g e

def Entry.content (disk : Disk) (x : Entry) : Content := x.elim (DenseTensor.content disk) (ExpertTensor.content disk)

theorem bytes_piece {k off n : ℕ} {f : String × File UInt8} (hf : disk[k]? = some f) :
    bytes disk [⟨⟨k, off, n⟩, 0⟩] n = slice f.2 off n := by
  have hall : ∀ p ∈ List.range n, srcByte disk [⟨⟨k, off, n⟩, 0⟩] p = f.2.read (off + p) := by
    intro p hp
    rw [srcByte_piece (List.mem_range.mp hp), hf]
    rfl
  unfold bytes slice
  generalize List.range n = l at hall
  induction l with
  | nil => rfl
  | cons p l ih =>
    obtain ⟨hp, hl⟩ := List.forall_mem_cons.mp hall
    rw [List.mapM_cons, List.mapM_cons, hp, ih hl]

theorem content_shardEntry {n k : ℕ} {dataOff : UInt64} {t : TableEntry} {f : String × File UInt8}
    (hf : disk[k]? = some f) : (shardEntry n (k, dataOff, t)).content disk = t.content n f.2 dataOff := by
  by_cases hexpert : categoryOf t.shape.name = .expert
  · simp only [shardEntry, TableEntry.content, if_pos hexpert, Entry.content, Entry.elim, ExpertTensor.content, List.map_map,
      Function.comp_def, bytes_piece hf]
  · simp only [shardEntry, TableEntry.content, if_neg hexpert, Entry.content, Entry.elim, DenseTensor.content, bytes_piece hf]

/-- Dense and expert entries apart are all entries. -/
theorem split_perm {β : Type} (f : DenseTensor → β) (g : ExpertTensor → β) (xs : List Entry) :
    ((xs.filterMap Entry.asDense).map f ++ (xs.filterMap Entry.asExpert).map g).Perm
      (xs.map (Entry.elim f g)) := by
  induction xs with
  | nil => exact .nil
  | cons x xs ih =>
    cases x with
    | dense d => exact ih.cons _
    | expert e => exact List.perm_middle.trans (ih.cons _)

end entries

section parse

variable {read : File UInt8 → Option Shard} {files : Disk} {main : Shard} {shards : List Shard}

theorem mem_shardTensors {R : String × File UInt8 → Shard → Prop} (h : List.Forall₂ R files shards)
    {x : ℕ × UInt64 × TableEntry} (hx : x ∈ shardTensors shards) :
    ∃ f s, files[x.1]? = some f ∧ R f s ∧ x.2.1 = s.dataOff ∧ x.2.2 ∈ s.tensors := by
  obtain ⟨⟨s, k⟩, hs, hx⟩ := List.mem_flatMap.mp hx
  obtain ⟨t, ht, rfl⟩ := List.mem_map.mp hx
  have hget : shards[k]? = some s := List.mem_zipIdx_iff_getElem?.mp hs
  obtain ⟨f, hf, hR⟩ := getElem?_of_forall₂ h.flip hget
  exact ⟨f, s, hf, hR, rfl, ht⟩

theorem shardTensors_tables (shards : List Shard) (k : ℕ) :
    ((shards.zipIdx k).flatMap fun s => s.1.tensors.map fun t => (s.2, s.1.dataOff, t)).map (fun x => x.2.2) =
      shards.flatMap Shard.tensors := by
  induction shards generalizing k with
  | nil => rfl
  | cons s shards ih =>
    rw [List.zipIdx_cons, List.flatMap_cons, List.map_append, ih, List.flatMap_cons, List.map_map]
    congr 1
    exact List.map_id _

theorem shardContents_eq {n : ℕ} {fs : Disk} {ss : List Shard} {R : String × File UInt8 → Shard → Prop}
    (h : List.Forall₂ R fs ss) {k : ℕ} (hfiles : ∀ i < fs.length, files[k + i]? = fs[i]?) :
    ((ss.zipIdx k).flatMap fun s => s.1.tensors.map fun t => (s.2, s.1.dataOff, t)).map
      (fun x => (shardEntry n x).content files) = shardContents n fs ss := by
  induction h generalizing k with
  | nil => rfl
  | @cons f s fs ss _ _ ih =>
    have hf : files[k]? = some f := hfiles 0 (Nat.zero_lt_succ _)
    have hrest : ∀ i < fs.length, files[k + 1 + i]? = fs[i]? := by
      intro i hi
      have hget := hfiles (i + 1) (Nat.succ_lt_succ hi)
      rw [← Nat.add_right_comm, Nat.add_assoc]
      exact hget
    rw [List.zipIdx_cons, List.flatMap_cons, List.map_append, ih hrest, List.map_map]
    change _ = (s.tensors.map (TableEntry.content n f.2 s.dataOff)) ++ shardContents n fs ss
    congr 1
    exact List.map_congr_left fun t _ => content_shardEntry hf

def Entry.name : Entry → String := Entry.elim (fun d => d.shape.name) fun e => e.shape.name

theorem shardEntry_name (n : ℕ) (x : ℕ × UInt64 × TableEntry) : (shardEntry n x).name = x.2.2.shape.name := by
  unfold shardEntry
  dsimp only
  split <;> rfl

theorem shardEntry_dense {n : ℕ} {x : ℕ × UInt64 × TableEntry} {d : DenseTensor} (h : shardEntry n x = .dense d) :
    categoryOf x.2.2.shape.name ≠ .expert ∧ d =
      { shape := x.2.2.shape, category := categoryOf x.2.2.shape.name
        layer := if categoryOf x.2.2.shape.name = .denseGlobal then -1 else (layerOf x.2.2.shape.name).getD (-1)
        srcs := [⟨⟨x.1, x.2.1.toNat + x.2.2.offset.toNat, x.2.2.shape.size⟩, 0⟩] } := by
  unfold shardEntry at h
  dsimp only at h
  split at h
  · cases h
  · rename_i hexpert
    exact ⟨hexpert, (Entry.dense.inj h).symm⟩

theorem shardEntry_expert {n : ℕ} {x : ℕ × UInt64 × TableEntry} {e : ExpertTensor} (h : shardEntry n x = .expert e) :
    categoryOf x.2.2.shape.name = .expert ∧ e =
      { shape := x.2.2.shape, perExpert := x.2.2.shape.size / n, branch := branchOf x.2.2.shape.name
        layer := (layerOf x.2.2.shape.name).getD (-1)
        perExpertSrcs := (List.range n).map fun e =>
          [⟨⟨x.1, x.2.1.toNat + x.2.2.offset.toNat + e * (x.2.2.shape.size / n), x.2.2.shape.size / n⟩, 0⟩] } := by
  unfold shardEntry at h
  dsimp only at h
  split at h
  · rename_i hexpert
    rw [hexpert, if_neg (by decide)] at h
    exact ⟨hexpert, (Entry.expert.inj h).symm⟩
  · cases h

def shardModel (main : Shard) (shards : List Shard) : Model :=
  let entries := (shardTensors shards).map (shardEntry main.nExpert.toNat)
  { nLayer := main.nLayer.toNat, nExpert := main.nExpert.toNat
    dense := entries.filterMap Entry.asDense
    expert := (entries.filterMap Entry.asExpert).insertionSort ExpertTensor.Before }

theorem mem_dense {d : DenseTensor} (hd : d ∈ (shardModel main shards).dense) :
    ∃ x ∈ shardTensors shards, shardEntry main.nExpert.toNat x = .dense d := by
  obtain ⟨y, hy, hyd⟩ := List.mem_filterMap.mp hd
  obtain ⟨x, hx, rfl⟩ := List.mem_map.mp hy
  refine ⟨x, hx, ?_⟩
  cases hentry : shardEntry main.nExpert.toNat x with
  | dense d' =>
    rw [hentry] at hyd
    exact congrArg Entry.dense (Option.some.inj hyd)
  | expert e =>
    rw [hentry] at hyd
    cases hyd

theorem asExpert_eq {x : Entry} {e : ExpertTensor} (h : x.asExpert = some e) : x = .expert e := by
  cases x with
  | dense d => cases h
  | expert e' => exact congrArg Entry.expert (Option.some.inj h)

theorem mem_expert {e : ExpertTensor} (he : e ∈ (shardModel main shards).expert) :
    ∃ x ∈ shardTensors shards, shardEntry main.nExpert.toNat x = .expert e := by
  obtain ⟨y, hy, hye⟩ := List.mem_filterMap.mp ((List.mem_insertionSort _).mp he)
  obtain ⟨x, hx, rfl⟩ := List.mem_map.mp hy
  exact ⟨x, hx, asExpert_eq hye⟩

/-- Dense tensors and experts of the model are the entries of the table. -/
theorem shardModel_perm {β : Type} (f : DenseTensor → β) (g : ExpertTensor → β) :
    ((shardModel main shards).dense.map f ++ (shardModel main shards).expert.map g).Perm
      ((shardTensors shards).map fun x => (shardEntry main.nExpert.toNat x).elim f g) := by
  have hsplit := split_perm f g ((shardTensors shards).map (shardEntry main.nExpert.toNat))
  rw [List.map_map] at hsplit
  exact (((List.perm_insertionSort _ _).map g).append_left _).trans hsplit

theorem Original.entry (h : Original read files main shards) {x : ℕ × UInt64 × TableEntry}
    (hx : x ∈ shardTensors shards) : x.2.2.Sound main.nLayer.toNat main.nExpert.toNat ∧
      ∃ f, files[x.1]? = some f ∧ f.2.len < 2 ^ 64 ∧
        x.2.1.toNat + x.2.2.offset.toNat + x.2.2.shape.size ≤ f.2.len := by
  obtain ⟨f, s, hf, ⟨_, hlen, hall⟩, hoff, ht⟩ := mem_shardTensors h.tables hx
  obtain ⟨hsound, hend⟩ := hall _ ht
  exact ⟨hsound, f, hf, hlen, by rw [hoff]; exact hend⟩

theorem getD_layer {t : TableEntry} {l : ℤ} (hl : layerOf t.shape.name = some l) :
    (layerOf t.shape.name).getD (-1) = l := by rw [hl, Option.getD_some]

theorem Original.valid (h : Original read files main shards) : (shardModel main shards).Valid where
  names := by
    have hperm := @shardModel_perm main shards _ (fun d => d.shape.name) fun e => e.shape.name
    have hnames : ((shardTensors shards).map fun x => (shardEntry main.nExpert.toNat x).elim
        (fun d => d.shape.name) fun e => e.shape.name) =
        ((shardTensors shards).map fun x => x.2.2).map fun t => t.shape.name := by
      rw [List.map_map]
      exact List.map_congr_left fun x _ => shardEntry_name _ x
    rw [hnames, shardTensors, shardTensors_tables] at hperm
    exact hperm.nodup_iff.mpr h.names
  dense d hd := by
    obtain ⟨x, hx, hentry⟩ := mem_dense hd
    obtain ⟨hcat, rfl⟩ := shardEntry_dense hentry
    obtain ⟨hsound, _⟩ := h.entry hx
    refine ⟨rfl, hcat, ?_, cuts_piece _ _ _⟩
    dsimp only
    split
    · rfl
    · rename_i hglobal
      obtain ⟨l, hl, hlow, hhigh⟩ := hsound.layer hglobal
      rw [getD_layer hl]
      exact ⟨hl, hlow, hhigh⟩
  expert e he := by
    obtain ⟨x, hx, hentry⟩ := mem_expert he
    obtain ⟨hcat, rfl⟩ := shardEntry_expert hentry
    obtain ⟨hsound, _⟩ := h.entry hx
    obtain ⟨l, hl, hlow, hhigh⟩ := hsound.layer (by rw [hcat]; decide)
    obtain ⟨_, hne2, hprod⟩ := hsound.experts hcat
    refine ⟨hcat, hne2, ?_, ?_, ?_, rfl, hprod, by simp [shardModel], fun srcs hsrcs => ?_⟩
    · dsimp only
      rw [getD_layer hl]
      exact hl
    · dsimp only
      rw [getD_layer hl]
      exact hlow
    · dsimp only
      rw [getD_layer hl]
      exact hhigh
    · obtain ⟨k, _, rfl⟩ := List.mem_map.mp hsrcs
      exact cuts_piece _ _ _
  experts hne := by
    obtain ⟨e, he⟩ := List.exists_mem_of_ne_nil _ hne
    obtain ⟨x, hx, hentry⟩ := mem_expert he
    exact ((h.entry hx).1.experts (shardEntry_expert hentry).1).1
  sorted := by
    have htotal : Std.Total ExpertTensor.Before := ⟨fun a b => by unfold ExpertTensor.Before; omega⟩
    have htrans : IsTrans ExpertTensor ExpertTensor.Before :=
      ⟨fun a b c => by unfold ExpertTensor.Before; omega⟩
    exact List.pairwise_insertionSort _ _
  branches := by
    have hexperts : (((shardTensors shards).map (shardEntry main.nExpert.toNat)).filterMap Entry.asExpert).Pairwise
        fun a b => a.layer = b.layer → a.branch ≠ b.branch := by
      have hall := h.branches
      rw [← shardTensors_tables shards 0] at hall
      have hpairs := List.pairwise_map.mp hall
      refine (List.pairwise_map.mpr (hpairs.imp_of_mem ?_) : ((shardTensors shards).map
        (shardEntry main.nExpert.toNat)).Pairwise fun a b => ∀ c d, a = .expert c → b = .expert d →
          c.layer = d.layer → c.branch ≠ d.branch).filterMap _ fun a b hab c hc d hd =>
            hab c d (asExpert_eq hc) (asExpert_eq hd)
      intro x y hx hy hxy c d hc hd
      obtain ⟨hxcat, rfl⟩ := shardEntry_expert hc
      obtain ⟨hycat, rfl⟩ := shardEntry_expert hd
      obtain ⟨l, hl, _⟩ := (h.entry hx).1.layer (by rw [hxcat]; decide)
      obtain ⟨k, hk, _⟩ := (h.entry hy).1.layer (by rw [hycat]; decide)
      intro hlayer
      dsimp only at hlayer
      rw [getD_layer hl, getD_layer hk] at hlayer
      exact hxy hxcat hycat (by rw [hl, hk, hlayer])
    refine (List.Perm.pairwise_iff ?_ (List.perm_insertionSort _ _)).mpr hexperts
    intro a b hab hlayer hbranch
    exact hab hlayer.symm hbranch.symm

theorem Original.stored (h : Original read files main shards) : (shardModel main shards).Stored files where
  dense d hd := by
    obtain ⟨x, hx, hentry⟩ := mem_dense hd
    obtain ⟨_, rfl⟩ := shardEntry_dense hentry
    obtain ⟨_, f, hf, _, hend⟩ := h.entry hx
    intro s hs
    rw [List.mem_singleton.mp hs]
    exact ⟨f, hf, fun _ => hend⟩
  expert e he srcs hsrcs := by
    obtain ⟨x, hx, hentry⟩ := mem_expert he
    obtain ⟨hcat, rfl⟩ := shardEntry_expert hentry
    obtain ⟨hsound, f, hf, _, hend⟩ := h.entry hx
    obtain ⟨k, hk, rfl⟩ := List.mem_map.mp hsrcs
    have hk : k < main.nExpert.toNat := List.mem_range.mp hk
    have hprod := (hsound.experts hcat).2.2
    have hmul := Nat.mul_le_mul_right (x.2.2.shape.size / main.nExpert.toNat) (Nat.succ_le_of_lt hk)
    rw [Nat.succ_mul, Nat.mul_comm main.nExpert.toNat, hprod] at hmul
    intro s hs
    rw [List.mem_singleton.mp hs]
    refine ⟨f, hf, fun _ => ?_⟩
    dsimp only
    omega

/-- Original files are parsed, and the model holds what the tables say of the files. -/
theorem Original.parse (h : Original read files main shards) :
    parseOriginal read files = .ok (shardModel main shards) ∧
      ((shardModel main shards).contents files).Perm (shardContents main.nExpert.toNat files shards) := by
  have hopen : files.mapM (openShard read) = .ok shards := by
    have hall := h.tables
    generalize hsame : main = main' at hall
    clear h hsame
    induction hall with
    | nil => rfl
    | cons hfs _ ih =>
      rw [List.mapM_cons, openShard, hfs.1, ih]
      rfl
  have hentries : (shardTensors shards).mapM (fun x => mapShardTensor main.nExpert x.1 x.2.1 x.2.2) =
      .ok ((shardTensors shards).map (shardEntry main.nExpert.toNat)) := by
    refine mapM_ok fun x hx => ?_
    obtain ⟨hsound, f, _, hlen, hend⟩ := h.entry hx
    exact mapShardTensor_ok hsound (by omega)
  constructor
  · cases hfiles : files with
    | nil =>
      have hlen := h.tables.length_eq
      rw [hfiles] at hlen
      have hnil : shards = [] := List.length_eq_zero_iff.mp hlen.symm
      have hhead := h.head
      rw [hnil] at hhead
      cases hhead
    | cons f fs =>
      have hmain : openShard read f = .ok main := by
        have htables := h.tables
        rw [hfiles] at htables
        cases hshards : shards with
        | nil =>
          rw [hshards] at htables
          cases htables
        | cons s ss =>
          rw [hshards] at htables
          obtain ⟨hread, _⟩ := List.forall₂_cons.mp htables
          have hhead := h.head
          rw [hshards] at hhead
          obtain rfl : s = main := Option.some.inj hhead
          rw [openShard, hread.1]
      rw [hfiles] at hopen
      rw [parseOriginal, hmain]
      simp only [bind, Except.bind, hopen, hentries]
      rfl
  · have hperm := @shardModel_perm main shards _ (DenseTensor.content files) (ExpertTensor.content files)
    have hcontents := @shardContents_eq files main.nExpert.toNat files shards _ h.tables 0 (fun i _ => by rw [Nat.zero_add])
    rw [← hcontents]
    exact hperm

/-- `parse_model` on the paths of files without expert blocks -/
def parseOriginalFiles (read : File UInt8 → Option Shard) (files : List String) (fs : FileSystem) :
    Except Failure Model := do
  let disk ← files.mapM (openPath fs)
  parseOriginal read disk

/-- Original files are read as a model, and after any run of conversions the bytes that the tables of the original
files say of their tensors are read. -/
theorem original_contents {L : Library} {fs : FileSystem} {paths : List String} (hlisting : Listing fs paths files)
    (hfirst : FirstOpens L files) (h : Original read files main shards) (hc : (shardModel main shards).Counted)
    {steps : List (Options × String)} (hsep : Separate paths steps) (hsteps : ∀ x ∈ steps, x.1.Suits (shardModel main shards))
    (hG : ∀ m, (shardModel main shards).Alike m → ∀ x ∈ steps, ∀ k, m.Heads x.1 k → L.Keeps m k) :
    ∃ m fs' paths' files' m', parseOriginalFiles read paths fs = .ok m ∧
      runConversions L fs paths m steps = .ok (fs', paths', m') ∧ Listing fs' paths' files' ∧
      (m'.contents files').Perm (shardContents main.nExpert.toNat files shards) ∧
      ∀ p ∉ written paths steps, fs' p = fs p := by
  obtain ⟨hparse, hcontents⟩ := h.parse
  obtain ⟨fs', paths', files', m', hrun, hlisting', hconv, hframe⟩ :=
    ConvertFiles.runConversions_ok hlisting hfirst h.valid hc h.stored hsep hsteps hG
  refine ⟨_, fs', paths', files', m', ?_, hrun, hlisting', hconv.contents.trans hcontents, hframe⟩
  rw [parseOriginalFiles, ConvertFiles.openPath_listing hlisting]
  exact hparse

end parse

section tiny

/-- The files are told apart by their lengths. -/
def tinyShards : Shard × Shard :=
  ({ nLayer := 1, nExpert := 2, dataOff := 1, tensors := [⟨⟨"token_embd.weight", (3, 1, 1, 1), 0, 3⟩, 0⟩] },
    { nLayer := 1, nExpert := 2, dataOff := 2, tensors := [⟨⟨"blk.0.ffn_up_exps.weight", (1, 2, 2, 1), 0, 4⟩, 0⟩] })

def tinyRead (f : File UInt8) : Option Shard := if f.len = 4 then some tinyShards.1 else some tinyShards.2

theorem tinyShards_original : Original tinyRead tinyDisk tinyShards.1 [tinyShards.1, tinyShards.2] where
  head := rfl
  tables := by
    refine .cons ⟨rfl, by decide, ?_⟩ (.cons ⟨rfl, by decide, ?_⟩ .nil)
    · intro t ht
      rw [List.mem_singleton.mp ht]
      exact ⟨⟨fun hne => absurd (by decide) hne, fun heq => absurd heq (by decide)⟩, by decide⟩
    · intro t ht
      rw [List.mem_singleton.mp ht]
      exact ⟨⟨fun _ => ⟨0, by decide, by decide, by decide⟩, fun _ => ⟨by decide, rfl, rfl⟩⟩, by decide⟩
  names := by decide
  branches := by
    refine List.pairwise_cons.mpr ⟨fun t _ heq => absurd heq (by decide), List.pairwise_singleton _ _⟩

theorem original_contents_tiny : ∃ m fs' paths' files' m',
    parseOriginalFiles tinyRead ["a.gguf", "b.gguf"] ConvertFiles.tinyFiles = .ok m ∧
      runConversions ConvertFiles.tinyLibrary ConvertFiles.tinyFiles ["a.gguf", "b.gguf"] m
        [(⟨.v3Chunk, 2, [1, 2]⟩, "c"), (⟨.v2, 1, []⟩, "two.gguf"), (⟨.v3, 1, []⟩, "three.gguf")] =
        .ok (fs', paths', m') ∧ Listing fs' paths' files' ∧
      (m'.contents files').Perm (shardContents 2 tinyDisk [tinyShards.1, tinyShards.2]) ∧
      ∀ p ∉ written ["a.gguf", "b.gguf"] tinySteps, fs' p = ConvertFiles.tinyFiles p := by
  have hmodel : shardModel tinyShards.1 [tinyShards.1, tinyShards.2] = tinyModel := by decide +kernel
  refine original_contents ConvertFiles.tinyFiles_listing ConvertFiles.tinyFiles_opens tinyShards_original ?_
    ConvertFiles.tinySteps_separate ?_ ?_
  · rw [hmodel]
    exact tinyModel_counted
  · rw [hmodel]
    exact tinySteps_suit
  · rw [hmodel]
    exact tinySteps_keep

end tiny

end ConvertModel
end StreamMoE
