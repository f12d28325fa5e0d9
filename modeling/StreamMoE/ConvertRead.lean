import Mathlib.Data.List.Forall2
import StreamMoE.ConvertLayout

/-! A converted model is read back: if every slice gets segments that hold its bytes, `parse_model` returns
the tensors of the source with their contents. -/
namespace StreamMoE
namespace ConvertModel

open BlockSplit (Failure)
open BlockMetadata (BlockFile Tensor Slice branchOf)
open ByteFiles (File)
open ChunkSet (Layout TensorInfo)
open DenseFill (SrcSeg)
open FileCopies
open Spans (Tiles)
open StripRange (ChunkFile)
open WriterPlan (Category Target alignUp Cuts)

section lists

variable {α β γ ε : Type} {R : α → β → Prop} {xs : List α} {ys : List β}

theorem map_of_forall₂ (f : α → γ) (g : β → γ) (hfg : ∀ a b, R a b → g b = f a) (h : List.Forall₂ R xs ys) :
    ys.map g = xs.map f := by
  induction h with
  | nil => rfl
  | cons hab _ ih => rw [List.map_cons, List.map_cons, hfg _ _ hab, ih]

theorem exists_left (h : List.Forall₂ R xs ys) {y : β} (hy : y ∈ ys) : ∃ x ∈ xs, R x y := by
  induction h with
  | nil => cases hy
  | cons hab _ ih =>
    rcases List.mem_cons.mp hy with rfl | hy
    · exact ⟨_, List.mem_cons_self, hab⟩
    · obtain ⟨x, hx, hxy⟩ := ih hy
      exact ⟨x, List.mem_cons_of_mem _ hx, hxy⟩

theorem exists_mapM {f : α → Except ε β} (h : ∀ x ∈ xs, ∃ y, f x = .ok y ∧ R x y) :
    ∃ ys, xs.mapM f = .ok ys ∧ List.Forall₂ R xs ys := by
  induction xs with
  | nil => exact ⟨[], rfl, .nil⟩
  | cons x xs ih =>
    obtain ⟨⟨y, hy, hxy⟩, hxs⟩ := List.forall_mem_cons.mp h
    obtain ⟨ys, hys, hall⟩ := ih hxs
    exact ⟨y :: ys, by rw [List.mapM_cons, hy, hys]; rfl, .cons hxy hall⟩

theorem mapM_ok {f : α → Except ε β} {g : α → β} (h : ∀ x ∈ xs, f x = .ok (g x)) :
    xs.mapM f = .ok (xs.map g) := by
  induction xs with
  | nil => rfl
  | cons x xs ih =>
    obtain ⟨hx, hxs⟩ := List.forall_mem_cons.mp h
    rw [List.mapM_cons, hx, ih hxs]
    rfl

end lists

section same

variable {disk disk' : Disk}

/-- The segments that are not empty follow one another without a gap. -/
def Gapless (srcs : List SrcSeg) (size : ℕ) : Prop :=
  Tiles SrcSeg.inOff (fun s => s.len) 0 (srcs.filter fun s => decide (0 < s.len)) size

theorem gapless_piece (k off n : ℕ) : Gapless [⟨⟨k, off, n⟩, 0⟩] n := by
  rcases Nat.eq_zero_or_pos n with rfl | hpos
  · exact .nil 0
  · have hfilter : [(⟨⟨k, off, n⟩, 0⟩ : SrcSeg)].filter (fun s => decide (0 < s.len)) = [⟨⟨k, off, n⟩, 0⟩] :=
      List.filter_cons_of_pos (decide_eq_true hpos)
    rw [Gapless, hfilter]
    exact .cons rfl hpos (by simpa using Tiles.nil n)

/-- The segments `srcs'` hold on `disk'` what the segments `srcs` hold on `disk`. -/
structure Holds (disk disk' : Disk) (srcs : List SrcSeg) (size : ℕ) (srcs' : List SrcSeg) : Prop where
  cuts : Cuts srcs' size
  gapless : Gapless srcs' size
  stored : FileCopies.Stored disk' srcs'
  same : ∀ p < size, srcByte disk' srcs' p = srcByte disk srcs p

/-- The entry is the same but for the segments, which hold the same bytes. -/
inductive SameEntry (disk disk' : Disk) : Entry → Entry → Prop
  | dense (d : DenseTensor) (srcs : List SrcSeg) : Holds disk disk' d.srcs d.shape.size srcs →
      SameEntry disk disk' (.dense d) (.dense { d with srcs })
  | expert (e : ExpertTensor) (srcs : List (List SrcSeg)) :
      List.Forall₂ (fun s s' => Holds disk disk' s e.perExpert s') e.perExpertSrcs srcs →
      SameEntry disk disk' (.expert e) (.expert { e with perExpertSrcs := srcs })

def DenseTensor.key (d : DenseTensor) : DenseTensor := { d with srcs := [] }

def ExpertTensor.key (e : ExpertTensor) : ExpertTensor := { e with perExpertSrcs := [] }

structure SameDense (disk disk' : Disk) (d d' : DenseTensor) : Prop where
  key : d'.key = d.key
  srcs : Holds disk disk' d.srcs d.shape.size d'.srcs

structure SameExpert (disk disk' : Disk) (e e' : ExpertTensor) : Prop where
  key : e'.key = e.key
  srcs : List.Forall₂ (fun s s' => Holds disk disk' s e.perExpert s') e.perExpertSrcs e'.perExpertSrcs

theorem forall₂_dense {ds : List DenseTensor} {ys : List Entry}
    (h : List.Forall₂ (SameEntry disk disk') (ds.map .dense) ys) :
    ∃ ds', ys = ds'.map .dense ∧ List.Forall₂ (SameDense disk disk') ds ds' := by
  induction ds generalizing ys with
  | nil =>
    cases h
    exact ⟨[], rfl, .nil⟩
  | cons d ds ih =>
    obtain _ | ⟨hd, hds⟩ := h
    obtain ⟨ds', rfl, hall⟩ := ih hds
    cases hd with
    | dense _ srcs hholds => exact ⟨{ d with srcs } :: ds', rfl, .cons ⟨rfl, hholds⟩ hall⟩

theorem forall₂_expert {es : List ExpertTensor} {ys : List Entry}
    (h : List.Forall₂ (SameEntry disk disk') (es.map .expert) ys) :
    ∃ es', ys = es'.map .expert ∧ List.Forall₂ (SameExpert disk disk') es es' := by
  induction es generalizing ys with
  | nil =>
    cases h
    exact ⟨[], rfl, .nil⟩
  | cons e es ih =>
    obtain _ | ⟨he, hes⟩ := h
    obtain ⟨es', rfl, hall⟩ := ih hes
    cases he with
    | expert _ srcs hholds => exact ⟨{ e with perExpertSrcs := srcs } :: es', rfl, .cons ⟨rfl, hholds⟩ hall⟩

theorem SameDense.content {d d' : DenseTensor} (h : SameDense disk disk' d d') :
    d'.content disk' = d.content disk := by
  obtain ⟨hshape, hcat, hlayer⟩ : d'.shape = d.shape ∧ d'.category = d.category ∧ d'.layer = d.layer := by
    have hkey := h.key
    simp only [DenseTensor.key, DenseTensor.mk.injEq, and_true] at hkey
    exact hkey
  simp only [DenseTensor.content, hshape, hcat, hlayer, bytes_congr h.srcs.same]

theorem SameExpert.fields {e e' : ExpertTensor} (h : SameExpert disk disk' e e') :
    e'.shape = e.shape ∧ e'.perExpert = e.perExpert ∧ e'.branch = e.branch ∧ e'.layer = e.layer := by
  have hkey := h.key
  simp only [ExpertTensor.key, ExpertTensor.mk.injEq, and_true] at hkey
  exact hkey

theorem SameExpert.content {e e' : ExpertTensor} (h : SameExpert disk disk' e e') :
    e'.content disk' = e.content disk := by
  obtain ⟨hshape, hper, hbranch, hlayer⟩ := h.fields
  have hdata : e'.perExpertSrcs.map (fun srcs => bytes disk' srcs e.perExpert) =
      e.perExpertSrcs.map fun srcs => bytes disk srcs e.perExpert :=
    map_of_forall₂ _ _ (fun _ _ hholds => bytes_congr hholds.same) h.srcs
  simp only [ExpertTensor.content, hshape, hper, hbranch, hlayer, hdata]

end same

section assemble

variable {disk disk' : Disk} {m m' : Model} {target : Target}

/-- The same tensors, the dense ones in an order of their own, with other segments. -/
structure Model.Alike (m m' : Model) : Prop where
  nLayer : m'.nLayer = m.nLayer
  nExpert : m'.nExpert = m.nExpert
  dense : (m'.dense.map DenseTensor.key).Perm (m.dense.map DenseTensor.key)
  expert : m'.expert.map ExpertTensor.key = m.expert.map ExpertTensor.key

/-- The segments of every tensor follow one another, as `parse_model` makes them. -/
structure Model.Gapless (m : Model) : Prop where
  dense : ∀ d ∈ m.dense, ConvertModel.Gapless d.srcs d.shape.size
  expert : ∀ e ∈ m.expert, ∀ srcs ∈ e.perExpertSrcs, ConvertModel.Gapless srcs e.perExpert

/-- What a conversion keeps; the expert tensors stay in their order. -/
structure Converted (disk disk' : Disk) (m m' : Model) : Prop where
  valid : m'.Valid
  counted : m'.Counted
  stored : m'.Stored disk'
  alike : m.Alike m'
  contents : (m'.contents disk').Perm (m.contents disk)
  experts : m'.expert.map (ExpertTensor.content disk') = m.expert.map (ExpertTensor.content disk)
  gapless : m.Gapless → m'.Gapless

theorem SameDense.valid {d d' : DenseTensor} {n : ℕ} (h : SameDense disk disk' d d') (hd : d.Valid n) :
    d'.Valid n := by
  obtain ⟨shape', category', layer', srcs'⟩ := d'
  have hkey := h.key
  simp only [DenseTensor.key, DenseTensor.mk.injEq, and_true] at hkey
  obtain ⟨rfl, rfl, rfl⟩ := hkey
  exact ⟨hd.category, hd.notExpert, hd.layer, h.srcs.cuts⟩

theorem SameExpert.valid {e e' : ExpertTensor} {n k : ℕ} (h : SameExpert disk disk' e e') (he : e.Valid n k) :
    e'.Valid n k := by
  have hall := h.srcs
  obtain ⟨shape', per', branch', layer', srcs'⟩ := e'
  have hkey := h.key
  simp only [ExpertTensor.key, ExpertTensor.mk.injEq, and_true] at hkey
  obtain ⟨rfl, rfl, rfl, rfl⟩ := hkey
  refine ⟨he.category, he.ne2, he.layerName, he.layer_nonneg, he.layer_lt, he.branch, he.size,
    hall.length_eq.symm.trans he.srcs, fun srcs hsrcs => ?_⟩
  obtain ⟨_, _, hholds⟩ := exists_left hall hsrcs
  exact hholds.cuts

theorem SameDense.gapless {d d' : DenseTensor} (h : SameDense disk disk' d d') :
    Gapless d'.srcs d'.shape.size := by
  have hshape := congrArg DenseTensor.shape h.key
  change d'.shape = d.shape at hshape
  rw [hshape]
  exact h.srcs.gapless

theorem SameExpert.gapless {e e' : ExpertTensor} (h : SameExpert disk disk' e e') {srcs : List SrcSeg}
    (hsrcs : srcs ∈ e'.perExpertSrcs) : Gapless srcs e'.perExpert := by
  obtain ⟨_, _, hholds⟩ := exists_left h.srcs hsrcs
  rw [h.fields.2.1]
  exact hholds.gapless

theorem SameExpert.stored {e e' : ExpertTensor} (h : SameExpert disk disk' e e') {srcs : List SrcSeg}
    (hsrcs : srcs ∈ e'.perExpertSrcs) : FileCopies.Stored disk' srcs := by
  obtain ⟨_, _, hholds⟩ := exists_left h.srcs hsrcs
  exact hholds.stored

theorem branchEnd_congr {es fs : List ExpertTensor} (h : es.map ExpertTensor.perExpert = fs.map ExpertTensor.perExpert)
    (boff : ℕ) : WriterPlan.branchEnd boff (es.map ExpertTensor.plain) =
      WriterPlan.branchEnd boff (fs.map ExpertTensor.plain) := by
  induction es generalizing fs boff with
  | nil =>
    cases fs with
    | nil => rfl
    | cons f fs => simp at h
  | cons e es ih =>
    cases fs with
    | nil => simp at h
    | cons f fs =>
      obtain ⟨hhead, htail⟩ := List.cons.inj h
      simp only [List.map_cons, WriterPlan.branchEnd, ExpertTensor.plain, hhead]
      exact ih htail _

theorem Model.Alike.extent (h : m.Alike m') : m'.extent = m.extent := by
  obtain ⟨hlayers, hexperts, hdense, hexpert⟩ := h
  have hd : (m'.dense.map fun d => alignUp d.shape.size).sum = (m.dense.map fun d => alignUp d.shape.size).sum := by
    have hperm := (hdense.map fun d : DenseTensor => alignUp d.shape.size).sum_eq
    rwa [List.map_map, List.map_map] at hperm
  have he : m'.expert.map (fun e => alignUp e.shape.size) = m.expert.map fun e => alignUp e.shape.size := by
    have heq := congrArg (List.map fun e : ExpertTensor => alignUp e.shape.size) hexpert
    rwa [List.map_map, List.map_map] at heq
  have hb : ∀ l, WriterPlan.branchEnd 0 (WriterPlan.layerExperts m'.plain l) =
      WriterPlan.branchEnd 0 (WriterPlan.layerExperts m.plain l) := by
    intro l
    rw [layerExperts_plain, layerExperts_plain]
    have heq := congrArg (fun es : List ExpertTensor =>
      (es.filter fun e => decide (e.layer = (l : ℤ))).map ExpertTensor.perExpert) hexpert
    simp only [List.filter_map, List.map_map] at heq
    exact branchEnd_congr heq 0
  unfold Model.extent
  simp only [hd, he, hb, hlayers, hexperts]

/-- The tensors of a model read back, in the order of the table, are a converted model. -/
theorem converted_of_same (hm : m.Valid) (hc : m.Counted) {ds : List DenseTensor} {es : List ExpertTensor}
    (hds : List.Forall₂ (SameDense disk disk') (m.order target) ds)
    (hes : List.Forall₂ (SameExpert disk disk') m.expert es) :
    Converted disk disk' m { nLayer := m.nLayer, nExpert := m.nExpert, dense := ds, expert := es } := by
  have hperm := order_perm m target
  have hdkey : ds.map DenseTensor.key = (m.order target).map DenseTensor.key :=
    map_of_forall₂ _ _ (fun _ _ h => h.key) hds
  have hekey : es.map ExpertTensor.key = m.expert.map ExpertTensor.key :=
    map_of_forall₂ _ _ (fun _ _ h => h.key) hes
  have hpairs : ∀ {R : ExpertTensor → ExpertTensor → Prop}, (∀ a b, R a b ↔ R a.key b.key) →
      m.expert.Pairwise R → es.Pairwise R := by
    intro R hR hall
    have hmapped : (m.expert.map ExpertTensor.key).Pairwise R :=
      List.pairwise_map.mpr (hall.imp fun h => (hR _ _).mp h)
    rw [← hekey] at hmapped
    exact (List.pairwise_map.mp hmapped).imp fun h => (hR _ _).mpr h
  have hecontents : es.map (ExpertTensor.content disk') = m.expert.map (ExpertTensor.content disk) :=
    map_of_forall₂ _ _ (fun _ _ h => h.content) hes
  refine ⟨⟨?_, ?_, ?_, ?_, ?_, ?_⟩, ⟨hc.layers, hc.experts, hc.units⟩, ⟨?_, ?_⟩, ?_, ?_, hecontents, fun _ => ⟨?_, ?_⟩⟩
  · have hdnames : (ds.map fun d => d.shape.name).Perm (m.dense.map fun d => d.shape.name) := by
      have heq := congrArg (List.map fun d : DenseTensor => d.shape.name) hdkey
      rw [List.map_map, List.map_map] at heq
      exact (List.Perm.of_eq heq).trans (hperm.map fun d => d.shape.name)
    have henames : (es.map fun e => e.shape.name) = m.expert.map fun e => e.shape.name := by
      have heq := congrArg (List.map fun e : ExpertTensor => e.shape.name) hekey
      rwa [List.map_map, List.map_map] at heq
    dsimp only
    rw [henames]
    exact ((hdnames.append_right _).nodup_iff).mpr hm.names
  · intro d' hd'
    obtain ⟨d, hd, hsame⟩ := exists_left hds hd'
    exact hsame.valid (hm.dense d (hperm.mem_iff.mp hd))
  · intro e' he'
    obtain ⟨e, he, hsame⟩ := exists_left hes he'
    exact hsame.valid (hm.expert e he)
  · intro hne
    refine hm.experts fun hnil => hne ?_
    dsimp only
    rw [hnil] at hes
    cases hes
    rfl
  · exact hpairs (fun _ _ => Iff.rfl) hm.sorted
  · exact hpairs (fun _ _ => Iff.rfl) hm.branches
  · intro d' hd'
    obtain ⟨d, _, hsame⟩ := exists_left hds hd'
    exact hsame.srcs.stored
  · intro e' he' srcs hsrcs
    obtain ⟨e, _, hsame⟩ := exists_left hes he'
    exact hsame.stored hsrcs
  · refine ⟨rfl, rfl, ?_, hekey⟩
    dsimp only
    rw [hdkey]
    exact hperm.map _
  · have hdcontents : ds.map (DenseTensor.content disk') = (m.order target).map (DenseTensor.content disk) :=
      map_of_forall₂ _ _ (fun _ _ h => h.content) hds
    unfold Model.contents
    dsimp only
    rw [hdcontents, hecontents]
    exact (hperm.map _).append_right _
  · intro d' hd'
    obtain ⟨d, _, hsame⟩ := exists_left hds hd'
    exact hsame.gapless
  · intro e' he' srcs hsrcs
    obtain ⟨e, _, hsame⟩ := exists_left hes he'
    exact hsame.gapless hsrcs

end assemble

section read

variable {disk disk' : Disk} {m : Model} {target : Target} {F : BlockFile} {L : Layout}

/-- What the table and the name say of a tensor at `off`. -/
def tensorInfo (s : TensorShape) (layer : ℤ) (off : ℕ) : TensorInfo where
  name := s.name
  offset := UInt64.ofNat off
  size := UInt64.ofNat s.size
  category := categoryOf s.name
  layer
  branch := branchOf s.name

/-- Every slice of the file gets segments with the bytes of the source. -/
structure Served (disk disk' : Disk) (m : Model) (target : Target) (F : BlockFile) (L : Layout) : Prop where
  blocks : ∀ x ∈ L.blocks.zipIdx, ∃ segs, F.srcs L (.block x.2 x.1) = .ok segs
  dense : ∀ d off, (Entry.dense d, off) ∈ m.placed target →
    ∃ segs, F.srcs L (.dense (tensorInfo d.shape d.layer off)) = .ok segs ∧
      Holds disk disk' d.srcs d.shape.size segs
  expert : ∀ e off, (Entry.expert e, off) ∈ m.placed target → ∀ x < m.nExpert,
    ∃ segs, F.srcs L (.expert (tensorInfo e.shape e.layer off) x) = .ok segs ∧
      Holds disk disk' (e.perExpertSrcs.getD x []) e.perExpert segs

theorem mapTensor_dense {d : DenseTensor} {off : ℕ} (hd : d.Valid m.nLayer) {segs : List SrcSeg}
    (hsrcs : F.srcs L (.dense (tensorInfo d.shape d.layer off)) = .ok segs) :
    mapTensor F L ⟨d.shape, UInt64.ofNat off⟩ = .ok (.dense { d with srcs := segs }) := by
  have hlayer := hd.layer
  have hfound : (if categoryOf d.shape.name = .denseGlobal then some (-1) else layerOf d.shape.name) =
      some d.layer := by
    rw [hd.category]
    split
    · rename_i hglobal
      rw [if_pos hglobal] at hlayer
      rw [hlayer]
    · rename_i hglobal
      rw [if_neg hglobal] at hlayer
      exact hlayer.1
  have htensor : TableEntry.tensor ⟨d.shape, UInt64.ofNat off⟩ =
      .ok ⟨tensorInfo d.shape d.layer off, d.shape.ne.2.2.1⟩ := by
    simp only [TableEntry.tensor, hfound]
    rfl
  have hcat : (tensorInfo d.shape d.layer off).category = d.category := hd.category
  have hclass : ∀ layer, F.classify ⟨tensorInfo d.shape layer off, d.shape.ne.2.2.1⟩ = .ok d.category := by
    intro layer
    have hcat : (tensorInfo d.shape layer off).category = d.category := hd.category
    rw [BlockFile.classify, if_pos, hcat]
    intro hexpert
    exact absurd (hcat.symm.trans hexpert) hd.notExpert
  have hlayerOut : (if d.category = .denseGlobal then (-1 : ℤ) else (tensorInfo d.shape d.layer off).layer) =
      d.layer := by
    split
    · rename_i hglobal
      rw [if_pos hglobal] at hlayer
      exact hlayer.symm
    · rfl
  have hmap : F.mapTensor L ⟨tensorInfo d.shape d.layer off, d.shape.ne.2.2.1⟩ =
      .ok (.dense { info := tensorInfo d.shape d.layer off, layer := d.layer, srcs := segs }) := by
    rw [BlockFile.mapTensor, hclass d.layer]
    cases hd' : d.category with
    | expert => exact absurd hd' hd.notExpert
    | denseGlobal | denseLayer | expertMeta =>
      rw [hd'] at hlayerOut
      dsimp only
      rw [hlayerOut, hsrcs]
      rfl
  have hfirst : F.classify (TableEntry.inLayer ⟨d.shape, UInt64.ofNat off⟩ (-1)) = .ok d.category := hclass (-1)
  rw [mapTensor, hfirst, htensor]
  change (F.mapTensor L ⟨tensorInfo d.shape d.layer off, d.shape.ne.2.2.1⟩).map _ = _
  rw [hmap, ← hcat]
  rfl

theorem mapTensor_expert {e : ExpertTensor} {off : ℕ} (he : e.Valid m.nLayer m.nExpert) (hne : m.nExpert ≠ 0)
    (hF : F.nExpert.toNat = m.nExpert) (hL : L.nExpert.toNat = m.nExpert)
    (hper : (L.perExpert (tensorInfo e.shape e.layer off)).toNat = e.perExpert) {segs : List (List SrcSeg)}
    (hsrcs : (List.range m.nExpert).mapM (fun x => F.srcs L (.expert (tensorInfo e.shape e.layer off) x)) =
      .ok segs) :
    mapTensor F L ⟨e.shape, UInt64.ofNat off⟩ = .ok (.expert { e with perExpertSrcs := segs }) := by
  have hfound : (if categoryOf e.shape.name = .denseGlobal then some (-1) else layerOf e.shape.name) =
      some e.layer := by
    rw [he.category, if_neg (by decide)]
    exact he.layerName
  have htensor : TableEntry.tensor ⟨e.shape, UInt64.ofNat off⟩ =
      .ok ⟨tensorInfo e.shape e.layer off, e.shape.ne.2.2.1⟩ := by
    simp only [TableEntry.tensor, hfound]
    rfl
  have hclass : ∀ layer, F.classify ⟨tensorInfo e.shape layer off, e.shape.ne.2.2.1⟩ = .ok .expert := by
    intro layer
    rw [BlockFile.classify, if_pos]
    · exact congrArg Except.ok he.category
    · intro _
      refine ⟨fun hzero => hne ?_, ?_⟩
      · rw [← hF, hzero]
        rfl
      · dsimp only
        rw [he.ne2, hF]
  have hfirst : F.classify (TableEntry.inLayer ⟨e.shape, UInt64.ofNat off⟩ (-1)) = .ok .expert := hclass (-1)
  rw [mapTensor, hfirst, htensor]
  simp only [bind, Except.bind, BlockFile.mapTensor, hclass, hL, hsrcs, Except.map, TableEntry.entry, hper]
  rw [show (tensorInfo e.shape e.layer off).branch = e.branch from he.branch.symm]
  rfl

/-- Every entry of the table is read back. -/
theorem mapTensor_served (hm : m.Valid) (hc : m.Counted) (hL : LayoutOf m target L)
    (hF : F.nExpert = UInt32.ofNat m.nExpert) (hext : m.extent < 2 ^ 63) (h : Served disk disk' m target F L)
    {x : Entry × ℕ} (hx : x ∈ m.placed target) :
    ∃ y, mapTensor F L ⟨x.1.shape, UInt64.ofNat x.2⟩ = .ok y ∧ SameEntry disk disk' x.1 y := by
  obtain ⟨x, off⟩ := x
  have hin : x ∈ m.entries target := by
    rw [← placed_fst]
    exact List.mem_map_of_mem hx
  rcases mem_entries hin with ⟨d, hd, rfl⟩ | ⟨e, he, rfl⟩
  · obtain ⟨segs, hsegs, hholds⟩ := h.dense d off hx
    exact ⟨_, mapTensor_dense (hm.dense d hd) hsegs, .dense d segs hholds⟩
  · have hv := hm.expert e he
    have hne := hm.experts (List.ne_nil_of_mem he)
    obtain ⟨segs, hsegs, hall⟩ := exists_mapM (f := fun x => F.srcs L (.expert (tensorInfo e.shape e.layer off) x))
      (R := fun x segs => Holds disk disk' (e.perExpertSrcs.getD x []) e.perExpert segs)
      fun x hx' => h.expert e off hx x (List.mem_range.mp hx')
    have hsize : e.shape.size < 2 ^ 64 := by
      have hend := placed_extent hx
      have hle := WriterPlan.le_alignUp e.shape.size
      simp only [Entry.shape] at hend
      omega
    have hcount : (UInt32.ofNat m.nExpert).toNat = m.nExpert := UInt32.toNat_ofNat_of_lt' hc.experts
    refine ⟨_, mapTensor_expert hv hne (hF ▸ hcount) (hL.nExpert ▸ hcount)
      (perExpert_eq hm hc hL he hsize rfl) hsegs, .expert e segs ?_⟩
    have hlen := hv.srcs
    rw [List.forall₂_iff_get] at hall ⊢
    obtain ⟨hlength, hget⟩ := hall
    rw [List.length_range] at hlength
    refine ⟨hlen.trans hlength, fun i hi hi' => ?_⟩
    have hholds := hget i (by rw [List.length_range]; omega) hi'
    simp only [List.get_eq_getElem, List.getElem_range, List.getD_eq_getElem _ _ hi] at hholds ⊢
    exact hholds

variable {G : Gguf} {f : String × File UInt8} {fs : List (String × File UInt8)} {chunk : Option Chunk}
  {main : ChunkFile} {others : List ChunkFile}

/-- The files of a conversion are parsed as the model with its contents. -/
theorem parse_converted (hm : m.Valid) (hc : m.Counted) (hext : m.extent < 2 ^ 63)
    (hopen : openFile G f = .ok (makeHeader m target chunk))
    (hmain : chunkFile G chunk.isSome f = .ok main) (hothers : fs.mapM (chunkFile G chunk.isSome) = .ok others)
    (hserved : ∀ L, LayoutOf m target L →
      Served disk disk' m target ((makeHeader m target chunk).blockFile main others) L) :
    ∃ m', parseModel G (f :: fs) = .ok m' ∧ Converted disk disk' m m' := by
  obtain ⟨L, hlayout, hL⟩ := @exists_layout m target chunk main others hm hc
  have hs := hserved L hL
  obtain ⟨blockSrcs, hblocks, _⟩ := exists_mapM
    (f := fun x => ((makeHeader m target chunk).blockFile main others).srcs L (.block x.2 x.1))
    (R := fun _ _ => True) fun x hx => (hs.blocks x hx).imp fun segs h => ⟨h, trivial⟩
  obtain ⟨ys, hys, hall⟩ := exists_mapM
    (f := fun x : Entry × ℕ => mapTensor ((makeHeader m target chunk).blockFile main others) L
      ⟨x.1.shape, UInt64.ofNat x.2⟩)
    (R := fun x y => SameEntry disk disk' x.1 y) fun x hx => mapTensor_served hm hc hL rfl hext hs hx
  have hentries : List.Forall₂ (SameEntry disk disk') (m.entries target) ys := by
    rw [← placed_fst]
    exact List.forall₂_map_left_iff.mpr hall
  obtain ⟨hfirst, hsecond⟩ : List.Forall₂ (SameEntry disk disk') ((m.order target).map .dense)
      (ys.take ((m.order target).map Entry.dense).length) ∧
      List.Forall₂ (SameEntry disk disk') (m.expert.map .expert)
        (ys.drop ((m.order target).map Entry.dense).length) := by
    unfold Model.entries at hentries
    constructor
    · have htake := List.forall₂_take ((m.order target).map Entry.dense).length hentries
      rwa [List.take_left'  rfl] at htake
    · have hdrop := List.forall₂_drop ((m.order target).map Entry.dense).length hentries
      rwa [List.drop_left' rfl] at hdrop
  obtain ⟨ds, hds, hdall⟩ := forall₂_dense hfirst
  obtain ⟨es, hes, heall⟩ := forall₂_expert hsecond
  have hys' : ys = ds.map .dense ++ es.map .expert := by
    rw [← hds, ← hes, List.take_append_drop]
  have hconv := converted_of_same hm hc hdall heall
  have hdense : ys.filterMap Entry.asDense = ds := by
    rw [hys', List.filterMap_append, List.filterMap_map, List.filterMap_map]
    simp [Function.comp_def, Entry.asDense]
  have hexpert : ys.filterMap Entry.asExpert = es := by
    rw [hys', List.filterMap_append, List.filterMap_map, List.filterMap_map]
    simp [Function.comp_def, Entry.asExpert]
  have hsorted : es.insertionSort ExpertTensor.Before = es := hconv.valid.sorted.insertionSort_eq
  have hn : (UInt32.ofNat m.nLayer).toNat = m.nLayer := UInt32.toNat_ofNat_of_lt' (hc.layers.trans (by decide))
  refine ⟨_, ?_, hconv⟩
  have hsome : (makeHeader m target chunk).chunk.isSome = chunk.isSome := rfl
  have htable : (makeHeader m target chunk).tensors.mapM
      (mapTensor ((makeHeader m target chunk).blockFile main others) L) = .ok ys := by
    rw [tensors_eq, List.mapM_map]
    exact hys
  have hk : (UInt32.ofNat m.nExpert).toNat = m.nExpert := UInt32.toNat_ofNat_of_lt' hc.experts
  rw [parseModel, hopen]
  simp only [bind, Except.bind, hsome, hmain, hothers, hlayout, hblocks, htable, pure, Except.pure, hdense, hexpert,
    hsorted]
  change Except.ok (Model.mk (UInt32.ofNat m.nLayer).toNat (UInt32.ofNat m.nExpert).toNat ds es) = _
  rw [hn, hk]

end read

end ConvertModel
end StreamMoE
