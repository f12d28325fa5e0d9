import StreamMoE.ConvertFiles
import StreamMoE.LoadContent
import StreamMoE.PoolRegions
import StreamMoE.TopoGroups

/-! From the files of a model to the slots of its experts: the parsed model goes through `build_topology` and the
pools of the scheduler, and what is loaded into a slot are the bytes that the model had before it was converted. -/
namespace StreamMoE
namespace LoadedExperts

open ByteFiles (File)
open ConvertModel (Model ExpertTensor layerExperts)
open DenseFill (SrcSeg)
open ExpertLoad (LoadInput)
open FileCopies (Disk Stored srcByte bytes)
open Gaps (Covers)
open PoolInit (Carved initPools)
open ReadPlan (SubTensorReq)
open Spans (Tiles)
open TransitionSystem
open WriterPlan (Cuts)

section topology

def topoTensor (e : ExpertTensor) : TopoGroups.ExpertTensor where
  name := e.shape.name
  ne := [e.shape.ne.1, e.shape.ne.2.1, e.shape.ne.2.2.1, e.shape.ne.2.2.2]
  type := e.shape.type
  perExpert := e.perExpert
  layer := e.layer
  perExpertSrcs x := (e.perExpertSrcs.getD x []).map fun s => ⟨s.file, s.off, s.len⟩

def topoModel (m : Model) : TopoGroups.Model where
  nLayer := m.nLayer
  nExpert := m.nExpert
  expert := m.expert.map topoTensor

def schedGroup (g : TopoGroups.ExpertGroup) : SchedConfig.Group where
  layers := g.layers
  expertSize := g.expertSize
  totalBytes := g.totalBytes
  strides := g.columns.map TopoGroups.Column.perExpert

def schedTopology (m : Model) (t : TopoGroups.Topology) : SchedConfig.Topology where
  nLayer := m.nLayer
  nExpert := m.nExpert
  groups := t.groups.map schedGroup
  numTensors l x := (t.readPlan l x).slices.length

/-- The region list of the carved pools. -/
def geometry (c : Carved) : PoolGeometry.Geometry := ⟨c.subpools, c.numSlots⟩

def segments (m : Model) (l x : ℕ) : List (List ExpertLoad.Segment) :=
  (layerExperts m l).map fun e => (e.perExpertSrcs.getD x []).map SrcSeg.toSegment

/-- The load of expert `x` of layer `l` into a slot of the pools. -/
structure Loads (m : Model) (c : Carved) (slot l x : ℕ) (E : LoadInput) : Prop where
  geometry : E.geometry = LoadedExperts.geometry c
  slot : E.slot = slot
  branches : E.branches = segments m l x

variable {m : Model} {l x : ℕ}

theorem branches_topo : TopoGroups.branches (topoModel m) l = (layerExperts m l).map topoTensor := by
  unfold TopoGroups.branches topoModel layerExperts
  rw [List.filter_map]
  rfl

theorem sliceReqs_eq (col start : ℕ) (srcs : List SrcSeg) :
    TopoGroups.sliceReqs col start (srcs.map fun s => ⟨s.file, s.off, s.len⟩) =
      ExpertLoad.branchReqs col start (srcs.map SrcSeg.toSegment) := by
  induction srcs generalizing start with
  | nil => rfl
  | cons s srcs ih =>
    simp only [List.map_cons, TopoGroups.sliceReqs, ExpertLoad.branchReqs]
    rw [ih]

/-- The requests of `build_topology` are those of the load. -/
theorem expertReqs_eq : TopoGroups.expertReqs (topoModel m) l x = ExpertLoad.expertReqs 0 (segments m l x) := by
  have hall : ∀ (es : List ExpertTensor) (n : ℕ),
      ((es.map topoTensor).zipIdx n).flatMap (fun b => TopoGroups.sliceReqs b.2 0 (b.1.perExpertSrcs x)) =
        ExpertLoad.expertReqs n (es.map fun e => (e.perExpertSrcs.getD x []).map SrcSeg.toSegment) := by
    intro es
    induction es with
    | nil => exact fun _ => rfl
    | cons e es ih =>
      intro n
      rw [List.map_cons, List.zipIdx_cons, List.flatMap_cons, ih, List.map_cons, ExpertLoad.expertReqs]
      exact congrArg (· ++ _) (sliceReqs_eq n 0 _)
  rw [TopoGroups.expertReqs, branches_topo]
  exact hall _ 0

end topology

section gapless

variable {srcs : List SrcSeg} {n k size : ℕ}

theorem perExpert_filter : ExpertLoad.perExpert (srcs.map SrcSeg.toSegment) =
    ((srcs.filter fun s => decide (0 < s.len)).map fun s => s.len).sum := by
  induction srcs with
  | nil => rfl
  | cons s srcs ih =>
    rw [ExpertLoad.perExpert, List.map_map] at ih ⊢
    by_cases hpos : 0 < s.len
    · rw [List.filter_cons, if_pos (decide_eq_true hpos)]
      simp only [List.map_cons, List.sum_cons]
      rw [← ih]
      rfl
    · rw [List.filter_cons_of_neg (by simpa using hpos), ← ih]
      have hzero : s.len = 0 := by omega
      simp [hzero]

theorem perExpert_gapless (h : ConvertModel.Gapless srcs size) :
    ExpertLoad.perExpert (srcs.map SrcSeg.toSegment) = size := by
  have htotal := h.total
  rw [perExpert_filter]
  omega

/-- The column offset that `build_topology` counts up is that of the segment. -/
theorem mem_branchReqs {col : ℕ}
    (h : Tiles SrcSeg.inOff (fun s => s.len) n (srcs.filter fun s => decide (0 < s.len)) k) {s : SrcSeg}
    (hs : s ∈ srcs) (hpos : 0 < s.len) :
    { shardIdx := s.file, fileOffset := s.off, byteSize := s.len, column := col, colOff := s.inOff } ∈
      ExpertLoad.branchReqs col n (srcs.map SrcSeg.toSegment) := by
  induction srcs generalizing n with
  | nil => cases hs
  | cons t srcs ih =>
    rw [List.map_cons, ExpertLoad.branchReqs]
    by_cases ht : 0 < t.len
    · rw [List.filter_cons, if_pos (decide_eq_true ht)] at h
      cases h with
      | cons hstart _ htail =>
        rcases List.mem_cons.mp hs with rfl | hs
        · rw [← hstart]
          exact List.mem_cons_self
        · exact List.mem_cons_of_mem _ (ih htail hs)
    · rw [List.filter_cons_of_neg (by simpa using ht)] at h
      rcases List.mem_cons.mp hs with rfl | hs
      · exact absurd hpos ht
      · refine List.mem_cons_of_mem _ ?_
        have hzero : t.len = 0 := by omega
        rw [hzero, Nat.add_zero]
        exact ih h hs

end gapless

section column

/-- Reads of an open file give the bytes of the disk; what lies behind the end of a file is not said. -/
def Serves (disk : Disk) (files : ℕ → ℕ → UInt8) : Prop :=
  ∀ (k : ℕ) (f : String × File UInt8), disk[k]? = some f → ∀ a < f.2.len, f.2.read a = some (files k a)

theorem mem_expertReqs {bs : List (List ExpertLoad.Segment)} {b : List ExpertLoad.Segment} {i c : ℕ} {r : SubTensorReq}
    (hb : bs[c]? = some b) (hr : r ∈ ExpertLoad.branchReqs (i + c) 0 b) : r ∈ ExpertLoad.expertReqs i bs := by
  induction bs generalizing i c with
  | nil => cases hb
  | cons b' bs ih =>
    rw [ExpertLoad.expertReqs]
    cases c with
    | zero =>
      obtain rfl : b' = b := Option.some.inj hb
      exact List.mem_append_left _ hr
    | succ c =>
      refine List.mem_append_right _ (ih hb ?_)
      rwa [Nat.add_right_comm]

variable {disk : Disk} {files : ℕ → ℕ → UInt8} {E : LoadInput} {t : ExpertLoad.Load} {srcs : List SrcSeg} {size col base : ℕ}

/-- The requests of a branch have a slice for every byte of it. -/
theorem exists_slice (hcuts : Cuts srcs size) (hgapless : ConvertModel.Gapless srcs size)
    (hbranch : E.branches[col]? = some (srcs.map SrcSeg.toSegment)) {p : ℕ} (hp : p < size) :
    ∃ s ∈ srcs, Covers SrcSeg.inOff (fun s => s.len) s p ∧ ∃ (k cur : ℕ), E.plan.slices[k]? = some (ReadPlan.sliceOf cur
      { shardIdx := s.file, fileOffset := s.off, byteSize := s.len, column := col, colOff := s.inOff }) := by
  obtain ⟨s, hs, hsp⟩ := FileCopies.exists_seg hcuts hp
  have hpos : 0 < s.len := by
    simp only [Covers] at hsp
    omega
  have hmem := mem_expertReqs (i := 0) hbranch (by
    rw [Nat.zero_add]
    exact mem_branchReqs hgapless hs hpos)
  obtain ⟨k, hk⟩ := List.getElem?_of_mem hmem
  obtain ⟨cur, hslice⟩ := ExpertLoad.slice_of_req hk
  exact ⟨s, hs, hsp, k, cur, hslice⟩

/-- The slot has a column for every branch that is not empty. -/
theorem exists_base (hE : ExpertLoad.Loadable E) (hcuts : Cuts srcs size) (hgapless : ConvertModel.Gapless srcs size)
    (hbranch : E.branches[col]? = some (srcs.map SrcSeg.toSegment)) (hsize : size ≠ 0) :
    ∃ base, PoolGeometry.slotColMem E.geometry E.slot col = some base := by
  obtain ⟨s, hs, hsp, k, cur, hslice⟩ := exists_slice hcuts hgapless hbranch (Nat.pos_of_ne_zero hsize)
  simp only [Covers] at hsp
  obtain ⟨c, _, _, hbase⟩ := (hE.inColumn hslice (by
    show 0 < s.len
    omega)).slotColMem
  exact ⟨_, hbase⟩

theorem column_byte (hE : ExpertLoad.Loadable E) (hserves : Serves disk files)
    (hreach : Reach (ExpertLoad.machine E files) anyStep t) (hready : t.dir = .ready)
    (hcuts : Cuts srcs size) (hgapless : ConvertModel.Gapless srcs size) (hstored : Stored disk srcs)
    (hbranch : E.branches[col]? = some (srcs.map SrcSeg.toSegment))
    (hbase : PoolGeometry.slotColMem E.geometry E.slot col = some base) {p : ℕ} (hp : p < size) :
    srcByte disk srcs p = some (t.mem (base + p)) := by
  obtain ⟨s, hs, hsp, k, cur, hslice⟩ := exists_slice hcuts hgapless hbranch hp
  have hbytes := hsp
  simp only [Covers] at hbytes
  obtain ⟨_, hholds⟩ := (LoadContent.contentCorrect_of_loadable hE files t hreach).2 hready _ _ hslice (by
    show 0 < s.len
    omega)
  have hbyte := hholds (p - s.inOff) (by
    show p - s.inOff < s.len
    omega)
  rw [ExpertLoad.assigned_sliceOf, ExpertLoad.dstAddr_sliceOf] at hbyte
  simp only [ExpertLoad.dstAddr, ReadPlan.sliceOf, hbase, Option.getD_some] at hbyte
  obtain ⟨f, hf, hend⟩ := hstored s hs
  rw [FileCopies.srcByte_eq hcuts hs hsp, hf, Option.bind_some, hserves s.file f hf _ (by omega), ← hbyte]
  congr 2
  omega

end column

section uniform

/-- The grouping depends on the keys of the branches alone. -/
theorem uniform_congr {M M' : TopoGroups.Model} (hlayers : M'.nLayer = M.nLayer)
    (hkeys : ∀ l, (TopoGroups.branches M' l).map TopoGroups.key = (TopoGroups.branches M l).map TopoGroups.key)
    (h : TopoGroups.Uniform M) : TopoGroups.Uniform M' := by
  have hsum : ∀ l, ((TopoGroups.branches M' l).map TopoGroups.ExpertTensor.perExpert).sum =
      ((TopoGroups.branches M l).map TopoGroups.ExpertTensor.perExpert).sum := by
    intro l
    rw [TopoGroups.sum_branches, TopoGroups.sum_branches, hkeys]
  have hsize : ∀ l, TopoGroups.layerExpertSize M' l = TopoGroups.layerExpertSize M l := by
    intro l
    rw [TopoGroups.layerExpertSize, TopoGroups.layerExpertSize, hsum]
  have hempty : ∀ l, (TopoGroups.branches M' l).isEmpty = (TopoGroups.branches M l).isEmpty := by
    intro l
    have hempty := congrArg List.isEmpty (hkeys l)
    rwa [List.isEmpty_map, List.isEmpty_map] at hempty
  have hmoe : TopoGroups.moeLayers M' = TopoGroups.moeLayers M := by
    rw [TopoGroups.moeLayers, TopoGroups.moeLayers, hlayers]
    exact List.filter_congr fun l _ => by rw [hempty]
  have hfirst : ∀ l, TopoGroups.FirstOfSize M' l ↔ TopoGroups.FirstOfSize M l := by
    intro l
    simp only [TopoGroups.FirstOfSize, hmoe, hsize]
  refine ⟨?_, ?_, ?_⟩ <;> simp only [hmoe, hfirst, hkeys, hsum, hsize]
  · exact h.distinct
  · exact h.bounded
  · exact h.matching

variable {m m' : Model} {l : ℕ}

theorem layerExperts_map {α : Type} (f : ExpertTensor → α) (layer : α → ℤ) (hf : ∀ e, layer (f e) = e.layer) :
    (layerExperts m l).map f = (m.expert.map f).filter fun a => decide (layer a = l) := by
  rw [List.filter_map, layerExperts]
  congr 1
  exact List.filter_congr fun e _ => by simp only [Function.comp_apply, hf]

theorem keys_of_alike (h : m.Alike m') (l : ℕ) :
    (TopoGroups.branches (topoModel m') l).map TopoGroups.key =
      (TopoGroups.branches (topoModel m) l).map TopoGroups.key := by
  have hkeys : (layerExperts m' l).map ExpertTensor.key = (layerExperts m l).map ExpertTensor.key := by
    rw [layerExperts_map ExpertTensor.key ExpertTensor.layer fun _ => rfl,
      layerExperts_map ExpertTensor.key ExpertTensor.layer fun _ => rfl, h.expert]
  have hmap := congrArg (List.map fun e => TopoGroups.key (topoTensor e)) hkeys
  rw [List.map_map, List.map_map] at hmap
  rw [branches_topo, branches_topo, List.map_map, List.map_map]
  exact hmap

theorem uniform_of_alike (h : m.Alike m') (huniform : TopoGroups.Uniform (topoModel m)) :
    TopoGroups.Uniform (topoModel m') :=
  @uniform_congr (topoModel m) (topoModel m') h.nLayer (keys_of_alike h) huniform

end uniform

section pools

variable {M : TopoGroups.Model} {t : TopoGroups.Topology}

/-- With bytes in every branch, the columns of a group are those of each of its layers. -/
theorem columns_of_layer (huniform : TopoGroups.Uniform M) (hpos : ∀ b ∈ M.expert, b.perExpert ≠ 0)
    (ht : TopoGroups.buildTopology M = .ok t) {g : TopoGroups.ExpertGroup} (hg : g ∈ t.groups) {l : ℕ}
    (hl : l ∈ g.layers) :
    g.columns.map TopoGroups.Column.perExpert =
      (TopoGroups.branches M l).map TopoGroups.ExpertTensor.perExpert := by
  unfold TopoGroups.buildTopology at ht
  split at ht
  · cases ht
  · split at ht
    · cases ht
      cases hg
    · cases ht
      obtain ⟨k, hk, hfirst, _, hlayers, hcols⟩ := (TopoGroups.grouped M).finished hg
      rw [hlayers] at hl
      obtain ⟨hlmem, hsize⟩ := List.mem_filter.mp hl
      have hsize := of_decide_eq_true hsize
      obtain ⟨rest, hrest⟩ := huniform.matching k hk hfirst l hlmem hsize
      have hbounded := huniform.bounded k hk hfirst
      have hsum : ((TopoGroups.branches M l).map TopoGroups.ExpertTensor.perExpert).sum + (rest.map fun b => b.2.2).sum =
          ((TopoGroups.branches M k).map TopoGroups.ExpertTensor.perExpert).sum := by
        rw [TopoGroups.sum_branches, TopoGroups.sum_branches, ← hrest, List.map_append, List.sum_append]
      -- the sums are the same without the wrap, so nothing is behind the branches of the layer
      have hzero : (rest.map fun b => b.2.2).sum = 0 := by
        rw [TopoGroups.layerExpertSize, TopoGroups.layerExpertSize, Nat.mod_eq_of_lt hbounded,
          Nat.mod_eq_of_lt (by omega)] at hsize
        omega
      have hnil : rest = [] := by
        rw [List.eq_nil_iff_forall_not_mem]
        intro b hb
        have hmem : b ∈ (TopoGroups.branches M k).map TopoGroups.key := by
          rw [← hrest]
          exact List.mem_append_right _ hb
        obtain ⟨et, het, rfl⟩ := List.mem_map.mp hmem
        refine hpos et (List.mem_of_mem_filter het) ?_
        exact List.sum_eq_zero_iff.mp hzero _ (List.mem_map_of_mem hb)
      rw [hnil, List.append_nil] at hrest
      have hkeys : ((TopoGroups.branches M k).foldl TopoGroups.columnStep []).map TopoGroups.Column.key =
          (TopoGroups.branches M k).map TopoGroups.key := TopoGroups.columns_eq (huniform.distinct k hk hfirst)
      have hlast := congrArg (List.map fun b : String × ℤ × ℕ => b.2.2) (hkeys.trans hrest.symm)
      rw [List.map_map, List.map_map] at hlast
      rw [hcols]
      exact hlast

theorem shaped_of_init {T : SchedConfig.Topology} {share : ℕ → ℕ → ℕ → ℕ} {poolBytes : ℕ} {alloc : ℕ → Option ℕ}
    {regs : List SchedConfig.VRegion} {c : Carved} (hinit : initPools T share poolBytes alloc regs = .ok c) :
    ∀ sp ∈ c.subpools, PoolRegions.Shaped T sp := by
  simp only [initPools] at hinit
  split_ifs at hinit
  split at hinit
  · cases hinit
  · cases hinit
    exact PoolRegions.shaped_placeRam (PoolRegions.pushed_carveAll _ _ _).shaped

variable {m : Model} {share : ℕ → ℕ → ℕ → ℕ} {poolBytes : ℕ} {alloc : ℕ → Option ℕ} {regs : List SchedConfig.VRegion}
  {c : Carved} {slot l x : ℕ} {sp : PoolGeometry.Subpool}

def InGroup (t : TopoGroups.Topology) (sp : PoolGeometry.Subpool) (l : ℕ) : Prop :=
  ∃ g, t.groups[sp.group]? = some g ∧ l ∈ g.layers

/-- Slot `slot` belongs to the region `sp` that the pools carve for a group with layer `l`. -/
structure Placed (m : Model) (t : TopoGroups.Topology) (share : ℕ → ℕ → ℕ → ℕ) (poolBytes : ℕ) (alloc : ℕ → Option ℕ)
    (regs : List SchedConfig.VRegion) (c : Carved) (slot : ℕ) (sp : PoolGeometry.Subpool) (l : ℕ) : Prop where
  init : initPools (schedTopology m t) share poolBytes alloc regs = .ok c
  owner : PoolGeometry.subpoolOfSlot (geometry c) slot = some sp
  fits : sp.nSlots * sp.expertSize < 2 ^ 64
  group : InGroup t sp l

/-- The experts of the model are as `parse_model` makes them, with bytes in every branch, and `build_topology` groups
layers of the same branches. -/
structure Grouped (m : Model) (t : TopoGroups.Topology) : Prop where
  gapless : m.Gapless
  length : ∀ e ∈ m.expert, e.perExpertSrcs.length = m.nExpert
  pos : ∀ e ∈ m.expert, e.perExpert ≠ 0
  uniform : TopoGroups.Uniform (topoModel m)
  built : TopoGroups.buildTopology (topoModel m) = .ok t

/-- The columns of a region are as wide as the branches of every expert of its group. -/
theorem Placed.columns (h : Placed m t share poolBytes alloc regs c slot sp l) (hm : Grouped m t) (hx : x < m.nExpert) :
    sp.cols = PoolGeometry.fillCols sp.nSlots 0 0 ((segments m l x).map ExpertLoad.perExpert) := by
  have howner := h.owner
  have hmem : sp ∈ c.subpools := by
    unfold PoolGeometry.subpoolOfSlot at howner
    split at howner
    · exact List.mem_of_find?_eq_some howner
    · cases howner
  obtain ⟨g, hg, hlayer⟩ := h.group
  obtain ⟨gs, hgs, hsize, hcols⟩ := shaped_of_init h.init sp hmem
  have hgs : gs = schedGroup g := by
    have hget : (t.groups.map schedGroup)[sp.group]? = some (schedGroup g) := by
      rw [List.getElem?_map, hg]
      rfl
    exact Option.some.inj (hgs.symm.trans hget)
  subst hgs
  have hin := List.mem_of_getElem? hg
  have hsound := (TopoGroups.sound_iff_uniform (topoModel m)).mpr (.inr hm.uniform) t hm.built
  have hstrides : (schedGroup g).strides = (segments m l x).map ExpertLoad.perExpert := by
    have hbranches := columns_of_layer hm.uniform (fun b hb => by
      obtain ⟨e, he, rfl⟩ := List.mem_map.mp hb
      exact hm.pos e he) hm.built hin hlayer
    rw [branches_topo, List.map_map] at hbranches
    refine hbranches.trans ?_
    rw [segments, List.map_map]
    refine List.map_congr_left fun e he => ?_
    have hexpert : e ∈ m.expert := List.mem_of_mem_filter he
    have hlt : x < e.perExpertSrcs.length := (hm.length e hexpert).symm ▸ hx
    refine (perExpert_gapless (hm.gapless.expert e hexpert _ ?_)).symm
    rw [List.getD_eq_getElem _ _ hlt]
    exact List.getElem_mem hlt
  have hsum : (schedGroup g).strides.sum = sp.expertSize := (hsound.size g hin).trans hsize.symm
  have hfits := h.fits
  rw [hcols, PoolRegions.fillColumns_eq (by rw [hsum]; omega), hstrides]

/-- Every expert of a layer can be loaded into the slots of the regions of its group. -/
theorem exists_load (h : Placed m t share poolBytes alloc regs c slot sp l) (hm : Grouped m t) (hx : x < m.nExpert)
    (hcount : (TopoGroups.expertReqs (topoModel m) l x).length ≤ ReadPlan.maxSubTensorsPerExpert) :
    ∃ E, Loads m c slot l x E :=
  ⟨{ geometry := geometry c, slot, subpool := sp, strides := (segments m l x).map ExpertLoad.perExpert
     branches := segments m l x, owner := h.owner, columns := h.columns hm hx
     count_le := by rw [← expertReqs_eq]; exact hcount }, rfl, rfl, rfl⟩

/-- At most 32 slices, windows of less than 2 ^ 32 bytes, and only the first eight slices through staging -/
structure Manageable (E : LoadInput) : Prop where
  count : E.reqs.length ≤ 32
  span : ∀ (s : ℕ) (r : SubTensorReq), E.reqs[s]? = some r → 0 < r.byteSize → ReadPlan.span r < 2 ^ 32
  staged : ∀ (s : ℕ) (r : SubTensorReq), E.reqs[s]? = some r → 0 < r.byteSize →
    ExpertLoad.useDirect E (ReadPlan.sliceOf 0 r) = some false → s < 8

theorem Placed.inColumn (h : Placed m t share poolBytes alloc regs c slot sp l) (hm : Grouped m t) (hx : x < m.nExpert)
    {E : LoadInput} (hE : Loads m c slot l x E) {s : ℕ} {r : SubTensorReq} (hr : E.reqs[s]? = some r) :
    ExpertLoad.InColumn E (ReadPlan.sliceOf 0 r) := by
  have hsub : E.subpool = sp := by
    have howner := E.owner
    rw [hE.geometry, hE.slot, h.owner] at howner
    exact (Option.some.inj howner).symm
  have hreqs : r ∈ ExpertLoad.expertReqs 0 (segments m l x) := hE.branches ▸ List.mem_of_getElem? hr
  obtain ⟨k, b, hb, hcolumn, hroom⟩ := ExpertLoad.mem_expertReqs hreqs
  have hstrides := PoolGeometry.stride_fillCols sp.nSlots 0 0 ((segments m l x).map ExpertLoad.perExpert)
  rw [← h.columns hm hx] at hstrides
  have hget := congrArg (fun ws => ws[k]?) hstrides
  simp only [List.getElem?_map, hb, Option.map_some] at hget
  obtain ⟨col, hcol, hwidth⟩ := Option.map_eq_some_iff.mp hget
  refine ⟨col, ?_, ?_⟩
  · rw [hsub]
    change sp.cols[r.column]? = some col
    rw [hcolumn, Nat.zero_add]
    exact hcol
  · rw [hwidth]
    exact hroom

theorem Placed.loadable (h : Placed m t share poolBytes alloc regs c slot sp l) (hm : Grouped m t) (hx : x < m.nExpert)
    {E : LoadInput} (hE : Loads m c slot l x E) (hmanageable : Manageable E) : ExpertLoad.Loadable E := by
  refine ⟨hmanageable.count, fun s r hr => ?_⟩
  have hin := h.inColumn hm hx hE hr
  refine ⟨?_, fun hpos => ⟨hin, hmanageable.span s r hr hpos, hmanageable.staged s r hr hpos⟩⟩
  obtain ⟨col, _, _, hmem⟩ := hin.slotColMem
  unfold ExpertLoad.useDirect
  rw [hmem]
  split <;> simp

end pools

section delivery

variable {L : ConvertFiles.Library} {disk files : Disk} {m m' : Model} {t : TopoGroups.Topology}

/-- The model `m'` in `files` is grouped as `t` and its experts are loaded as those of `m` on `disk`. The slots of a
region take every expert of its group; the load carries out the plan of the topology; and a slot that is READY has
in the column of each branch the bytes of the expert. -/
structure Delivers (disk : Disk) (m : Model) (files : Disk) (m' : Model) (t : TopoGroups.Topology) : Prop where
  slots : ∀ (share : ℕ → ℕ → ℕ → ℕ) (poolBytes : ℕ) (alloc : ℕ → Option ℕ) (regs : List SchedConfig.VRegion)
    (c : Carved) (slot : ℕ) (sp : PoolGeometry.Subpool) (l : ℕ),
    Placed m' t share poolBytes alloc regs c slot sp l → ∀ x < m.nExpert,
      (TopoGroups.expertReqs (topoModel m') l x).length ≤ ReadPlan.maxSubTensorsPerExpert → ∃ E, Loads m' c slot l x E
  plan : ∀ (c : Carved) (slot l x : ℕ) (E : LoadInput), Loads m' c slot l x E → x < m.nExpert →
    E.plan = t.readPlan l x
  bytes : ∀ (share : ℕ → ℕ → ℕ → ℕ) (poolBytes : ℕ) (alloc : ℕ → Option ℕ) (regs : List SchedConfig.VRegion)
    (c : Carved) (slot : ℕ) (sp : PoolGeometry.Subpool) (l : ℕ),
    Placed m' t share poolBytes alloc regs c slot sp l → ∀ x < m.nExpert, ∀ E, Loads m' c slot l x E → Manageable E →
      ∀ contents, Serves files contents → ∀ s, Reach (ExpertLoad.machine E contents) anyStep s → s.dir = .ready →
        ∀ col e, (layerExperts m l)[col]? = some e →
          ∃ base, PoolGeometry.slotColMem (geometry c) slot col = some base ∧
            FileCopies.bytes disk (e.perExpertSrcs.getD x []) e.perExpert =
              some ((List.range e.perExpert).map fun i => s.mem (base + i))

theorem bytes_of_srcByte {srcs : List SrcSeg} {size : ℕ} {f : ℕ → UInt8}
    (h : ∀ p < size, srcByte disk srcs p = some (f p)) : bytes disk srcs size = some ((List.range size).map f) := by
  have hall : ∀ l : List ℕ, (∀ p ∈ l, p < size) → l.mapM (srcByte disk srcs) = some (l.map f) := by
    intro l
    induction l with
    | nil => exact fun _ => rfl
    | cons p l ih =>
      intro hl
      obtain ⟨hp, hrest⟩ := List.forall_mem_cons.mp hl
      rw [List.mapM_cons, h p hp, ih hrest]
      rfl
  exact hall _ fun p hp => List.mem_range.mp hp

theorem perExpert_of_key {e e' : ExpertTensor} (h : e'.key = e.key) : e'.perExpert = e.perExpert := by
  have hper := congrArg ExpertTensor.perExpert h
  exact hper

theorem bytes_converted (hconv : ConvertModel.Converted disk files m m') {l col x : ℕ} {e : ExpertTensor}
    (he : (layerExperts m l)[col]? = some e) (hx : x < e.perExpertSrcs.length) :
    ∃ e' ∈ m'.expert, (layerExperts m' l)[col]? = some e' ∧ e'.perExpert = e.perExpert ∧
      bytes files (e'.perExpertSrcs.getD x []) e'.perExpert = bytes disk (e.perExpertSrcs.getD x []) e.perExpert := by
  have hall : (layerExperts m' l).map (ExpertTensor.content files) = (layerExperts m l).map (ExpertTensor.content disk) := by
    rw [layerExperts_map (ExpertTensor.content files) ConvertModel.Content.layer fun _ => rfl,
      layerExperts_map (ExpertTensor.content disk) ConvertModel.Content.layer fun _ => rfl, hconv.experts]
  have hkeys : (layerExperts m' l).map ExpertTensor.key = (layerExperts m l).map ExpertTensor.key := by
    rw [layerExperts_map ExpertTensor.key ExpertTensor.layer fun _ => rfl,
      layerExperts_map ExpertTensor.key ExpertTensor.layer fun _ => rfl, hconv.alike.expert]
  have hcontent := congrArg (fun cs => cs[col]?) hall
  have hkey := congrArg (fun es => es[col]?) hkeys
  simp only [List.getElem?_map, he, Option.map_some] at hcontent hkey
  obtain ⟨e', he', hcontent⟩ := Option.map_eq_some_iff.mp hcontent
  rw [he', Option.map_some] at hkey
  have hper := perExpert_of_key (Option.some.inj hkey)
  refine ⟨e', List.mem_of_mem_filter (List.mem_of_getElem? he'), he', hper, ?_⟩
  have hdata : e'.perExpertSrcs.map (fun srcs => bytes files srcs e'.perExpert) =
      e.perExpertSrcs.map fun srcs => bytes disk srcs e.perExpert := congrArg ConvertModel.Content.data hcontent
  have hlength := congrArg List.length hdata
  rw [List.length_map, List.length_map] at hlength
  have hget := congrArg (fun ds => ds[x]?) hdata
  simp only [List.getElem?_map] at hget
  rw [List.getElem?_eq_getElem hx, List.getElem?_eq_getElem (hlength ▸ hx)] at hget
  rw [List.getD_eq_getElem _ _ hx, List.getD_eq_getElem _ _ (hlength ▸ hx)]
  exact Option.some.inj hget

/-- Whatever a model is converted to, its experts are loaded with the bytes they had before. -/
theorem converted_delivers {fs : ConvertFiles.FileSystem} {paths : List String}
    (hlisting : ConvertFiles.Listing fs paths disk) (hfirst : ConvertFiles.FirstOpens L disk) (hm : m.Valid)
    (hc : m.Counted) (hstored : m.Stored disk) (hgapless : m.Gapless) {steps : List (ConvertModel.Options × String)}
    (hsep : ConvertFiles.Separate paths steps) (hsteps : ∀ x ∈ steps, x.1.Suits m)
    (hG : ∀ m', m.Alike m' → ∀ x ∈ steps, ∀ h, m'.Heads x.1 h → L.Keeps m' h) (hlayers : m.nLayer ≠ 0)
    (hpos : ∀ e ∈ m.expert, e.perExpert ≠ 0) (huniform : TopoGroups.Uniform (topoModel m)) :
    ∃ fs' paths' files m' t, ConvertFiles.runConversions L fs paths m steps = .ok (fs', paths', m') ∧
      ConvertFiles.Listing fs' paths' files ∧ TopoGroups.buildTopology (topoModel m') = .ok t ∧
        Delivers disk m files m' t := by
  obtain ⟨fs', paths', files, m', hrun, hlisting', hconv, _⟩ :=
    ConvertFiles.runConversions_ok hlisting hfirst hm hc hstored hsep hsteps hG
  have hn : m'.nExpert = m.nExpert := hconv.alike.nExpert
  have hlayers' : (topoModel m').nLayer ≠ 0 := by
    rw [topoModel, hconv.alike.nLayer]
    exact hlayers
  obtain ⟨t, ht, hplan⟩ : ∃ t, TopoGroups.buildTopology (topoModel m') = .ok t ∧ ∀ l, ∀ x < m.nExpert,
      t.readPlan l x = ReadPlan.buildExpertReadPlan (TopoGroups.expertReqs (topoModel m') l x) := by
    unfold TopoGroups.buildTopology
    rw [if_neg hlayers']
    by_cases hzero : (topoModel m').nExpert = 0
    · rw [if_pos hzero]
      refine ⟨_, rfl, fun l x hx => absurd hx ?_⟩
      have hzero : m'.nExpert = 0 := hzero
      omega
    · rw [if_neg hzero]
      exact ⟨_, rfl, fun _ _ _ => rfl⟩
  have hexpert : ∀ e ∈ m'.expert, e.Valid m'.nLayer m'.nExpert := hconv.valid.expert
  have hgrouped : Grouped m' t := by
    refine ⟨hconv.gapless hgapless, fun e he => (hexpert e he).srcs, fun e he => ?_,
      uniform_of_alike hconv.alike huniform, ht⟩
    have hkey : e.key ∈ m.expert.map ExpertTensor.key := hconv.alike.expert ▸ List.mem_map_of_mem he
    obtain ⟨d, hd, hkey⟩ := List.mem_map.mp hkey
    rw [← perExpert_of_key hkey]
    exact hpos d hd
  refine ⟨fs', paths', files, m', t, hrun, hlisting', ht, ?_, ?_, ?_⟩
  · intro share poolBytes alloc regs c slot sp l hplaced x hx hcount
    exact exists_load hplaced hgrouped (hn ▸ hx) hcount
  · intro c slot l x E hE hx
    rw [hplan l x hx, expertReqs_eq, ← hE.branches]
    rfl
  · intro share poolBytes alloc regs c slot sp l hplaced x hx E hE hmanageable contents hserves s hreach hready col e he
    have hloadable := hplaced.loadable hgrouped (hn ▸ hx) hE hmanageable
    have hlength : e.perExpertSrcs.length = m.nExpert :=
      (hm.expert e (List.mem_of_mem_filter (List.mem_of_getElem? he))).srcs
    obtain ⟨e', he'mem, he', hper, hbytes⟩ := bytes_converted hconv he (hlength ▸ hx)
    have hx' : x < e'.perExpertSrcs.length := by
      rw [(hexpert e' he'mem).srcs, hn]
      exact hx
    have hmem : e'.perExpertSrcs.getD x [] ∈ e'.perExpertSrcs := by
      rw [List.getD_eq_getElem _ _ hx']
      exact List.getElem_mem hx'
    have hbranch : E.branches[col]? = some ((e'.perExpertSrcs.getD x []).map SrcSeg.toSegment) := by
      rw [hE.branches, segments, List.getElem?_map, he']
      rfl
    have hsegs := hgrouped.gapless.expert e' he'mem _ hmem
    obtain ⟨base, hbase⟩ := exists_base hloadable ((hexpert e' he'mem).cuts _ hmem) hsegs hbranch
      (hgrouped.pos e' he'mem)
    refine ⟨base, hE.geometry ▸ hE.slot ▸ hbase, ?_⟩
    rw [← hbytes, ← hper]
    refine bytes_of_srcByte fun p hp => ?_
    exact column_byte hloadable hserves hreach hready ((hexpert e' he'mem).cuts _ hmem) hsegs
      (hconv.stored.expert e' he'mem _ hmem) hbranch hbase hp

/-- A model in strip files and back in one file -/
theorem converted_delivers_tiny : ∃ fs' paths' files m' t,
    ConvertFiles.runConversions ConvertFiles.tinyLibrary ConvertFiles.tinyFiles ["a.gguf", "b.gguf"]
        ConvertModel.tinyModel ConvertModel.tinySteps = .ok (fs', paths', m') ∧
      ConvertFiles.Listing fs' paths' files ∧ TopoGroups.buildTopology (topoModel m') = .ok t ∧
        Delivers ConvertModel.tinyDisk ConvertModel.tinyModel files m' t := by
  have hlayers : TopoGroups.moeLayers (topoModel ConvertModel.tinyModel) = [0] := rfl
  refine converted_delivers ConvertFiles.tinyFiles_listing ConvertFiles.tinyFiles_opens ConvertModel.tinyModel_valid
    ConvertModel.tinyModel_counted ConvertModel.tinyModel_stored ⟨?_, ?_⟩ ConvertFiles.tinySteps_separate
    ConvertModel.tinySteps_suit ConvertModel.tinySteps_keep (by decide) (by decide) ⟨?_, ?_, ?_⟩
  · exact List.forall_mem_singleton.mpr (ConvertModel.gapless_piece _ _ _)
  · refine List.forall_mem_singleton.mpr ?_
    simp only [List.forall_mem_cons]
    exact ⟨ConvertModel.gapless_piece _ _ _, ConvertModel.gapless_piece _ _ _, by simp⟩
  all_goals rw [hlayers]
  · exact List.forall_mem_singleton.mpr fun _ => List.nodup_singleton _
  · exact List.forall_mem_singleton.mpr fun _ => by decide
  · exact List.forall_mem_singleton.mpr fun _ => List.forall_mem_singleton.mpr fun _ => List.prefix_rfl

end delivery

end LoadedExperts
end StreamMoE
