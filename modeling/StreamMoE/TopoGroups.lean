import StreamMoE.LayerPlan
import StreamMoE.ReadPlan

/-! `build_topology`: the layers with experts, merged into groups by the bytes of an expert, the
columns of a group, and the segments an expert is read from. -/
namespace StreamMoE
namespace TopoGroups

open LayerPlan ReadPlan

structure SrcSeg where
  file : ℕ
  off : ℕ
  len : ℕ
  deriving DecidableEq, Repr

/-- One branch of the experts of a layer; `perExpertSrcs e` are the segments of expert `e`. -/
structure ExpertTensor where
  name : String
  ne : List ℤ
  type : ℤ
  perExpert : ℕ
  layer : ℤ
  perExpertSrcs : ℕ → List SrcSeg

structure Model where
  nLayer : ℕ
  nExpert : ℕ
  expert : List ExpertTensor

structure Column where
  colIndex : ℕ
  name : String
  tag : String
  type : ℤ
  ne : List ℤ
  perExpert : ℕ
  deriving DecidableEq, Repr

structure ExpertGroup where
  idx : ℕ
  layers : List ℕ
  expertSize : ℕ
  totalBytes : ℕ
  columns : List Column
  deriving DecidableEq, Repr

structure Topology where
  groups : List ExpertGroup
  moeLayers : List ℕ
  readPlan : ℕ → ℕ → ExpertReadPlan

def tagOf (name : String) : String :=
  if hasText name "gate_up" then "gate_up"
  else if hasText name "ffn_gate_exps" then "gate"
  else if hasText name "ffn_up_exps" then "up"
  else if hasText name "down_exps" then "down"
  else "?"

section build

variable (m : Model)

/-- The branches of a layer, in the order of the model. -/
def branches (l : ℕ) : List ExpertTensor := m.expert.filter fun et => decide (et.layer = l)

/-- A sum of `uint64_t`. -/
def layerExpertSize (l : ℕ) : ℕ := ((branches m l).map ExpertTensor.perExpert).sum % 2 ^ 64

def moeLayers : List ℕ := (List.range m.nLayer).filter fun l => !(branches m l).isEmpty

/-- The segments of one slice, one behind the other in its column. -/
def sliceReqs (col : ℕ) : ℕ → List SrcSeg → List SubTensorReq
  | _, [] => []
  | colStart, s :: segs =>
      { shardIdx := s.file, fileOffset := s.off, byteSize := s.len, column := col,
        colOff := colStart } :: sliceReqs col (colStart + s.len) segs

/-- What expert `e` of a layer is read from; the ordinal of a branch is its column. -/
def expertReqs (l e : ℕ) : List SubTensorReq :=
  (branches m l).zipIdx.flatMap fun x => sliceReqs x.2 0 (x.1.perExpertSrcs e)

/-- A layer that is not the last one already. -/
def addLayer (l : ℕ) (g : ExpertGroup) : ExpertGroup :=
  if g.layers.getLast? = some l then g else { g with layers := g.layers ++ [l] }

/-- The layer joins the first group of its expert size. -/
def groupStep (groups : List ExpertGroup) (l : ℕ) : List ExpertGroup :=
  match groups.find? fun g => decide (g.expertSize = layerExpertSize m l) with
  | some g => groups.modify g.idx (addLayer l)
  | none =>
      groups ++ [addLayer l { idx := groups.length, layers := [], expertSize := layerExpertSize m l,
                              totalBytes := 0, columns := [] }]

/-- A column unless there is one of the same tag, type and size. -/
def columnStep (cols : List Column) (b : ExpertTensor) : List Column :=
  if cols.any fun c => decide (c.tag = tagOf b.name ∧ c.type = b.type ∧ c.perExpert = b.perExpert)
  then cols
  else cols ++ [{ colIndex := cols.length, name := b.name, tag := tagOf b.name, type := b.type,
                  ne := b.ne, perExpert := b.perExpert }]

/-- Bytes and columns, taken from the first layer of the group. -/
def finishGroup (g : ExpertGroup) : ExpertGroup :=
  { g with
    totalBytes := g.layers.length * m.nExpert * g.expertSize % 2 ^ 64
    columns := match g.layers with
      | [] => []
      | l :: _ => (branches m l).foldl columnStep [] }

def buildTopology : Except String Topology :=
  if m.nLayer = 0 then .error "model has 0 layers"
  else if m.nExpert = 0 then
    .ok { groups := [], moeLayers := [], readPlan := fun _ _ => buildExpertReadPlan [] }
  else
    .ok { groups := ((moeLayers m).foldl (groupStep m) []).map (finishGroup m)
          moeLayers := moeLayers m
          readPlan := fun l e => buildExpertReadPlan (expertReqs m l e) }

end build

section sound

variable (m : Model)

/-- Every branch of every layer of a group has its column, and the strides add up to the bytes of an
expert. -/
structure Sound (groups : List ExpertGroup) : Prop where
  column : ∀ g ∈ groups, ∀ l ∈ g.layers, ∀ (c : ℕ) (b : ExpertTensor),
    (branches m l)[c]? = some b → ∃ col : Column, g.columns[c]? = some col ∧
      col.tag = tagOf b.name ∧ col.type = b.type ∧ col.perExpert = b.perExpert
  size : ∀ g ∈ groups, (g.columns.map Column.perExpert).sum = g.expertSize

/-- What two branches must share to be in one column. -/
def key (b : ExpertTensor) : String × ℤ × ℕ := (tagOf b.name, b.type, b.perExpert)

def Column.key (c : Column) : String × ℤ × ℕ := (c.tag, c.type, c.perExpert)

/-- No layer before `l` has experts of this size. -/
def FirstOfSize (l : ℕ) : Prop := ∀ k ∈ moeLayers m, k < l → layerExpertSize m k ≠ layerExpertSize m l

/-- The first layer of every size has no branch twice and its bytes fit a `uint64_t`, and the
branches of every other layer of that size are the first ones of its branches. -/
structure Uniform : Prop where
  distinct : ∀ l ∈ moeLayers m, FirstOfSize m l → ((branches m l).map key).Nodup
  bounded : ∀ l ∈ moeLayers m, FirstOfSize m l →
    ((branches m l).map ExpertTensor.perExpert).sum < 2 ^ 64
  matching : ∀ l ∈ moeLayers m, FirstOfSize m l → ∀ l' ∈ moeLayers m,
    layerExpertSize m l' = layerExpertSize m l →
    (branches m l').map key <+: (branches m l).map key

end sound

section columns

theorem map_key_columnStep (cols : List Column) (b : ExpertTensor) :
    (columnStep cols b).map Column.key =
      if key b ∈ cols.map Column.key then cols.map Column.key else cols.map Column.key ++ [key b] := by
  have hany : (cols.any fun c =>
      decide (c.tag = tagOf b.name ∧ c.type = b.type ∧ c.perExpert = b.perExpert)) = true ↔
      key b ∈ cols.map Column.key := by
    simp only [List.any_eq_true, decide_eq_true_eq, List.mem_map, Column.key, key, Prod.mk.injEq]
  unfold columnStep
  by_cases hmem : key b ∈ cols.map Column.key
  · rw [if_pos (hany.mpr hmem), if_pos hmem]
  · rw [if_neg (fun h => hmem (hany.mp h)), if_neg hmem, List.map_append]
    rfl

theorem nodup_columns {cols : List Column} (h : (cols.map Column.key).Nodup) (bs : List ExpertTensor) :
    ((bs.foldl columnStep cols).map Column.key).Nodup := by
  induction bs generalizing cols with
  | nil => exact h
  | cons b bs ih =>
    refine ih ?_
    rw [map_key_columnStep]
    split
    · exact h
    · rename_i hmem
      refine List.nodup_append.mpr ⟨h, List.nodup_singleton _, ?_⟩
      rintro x hx y hy rfl
      rw [List.mem_singleton] at hy
      exact hmem (hy ▸ hx)

/-- Columns are made of branches, each at most once. -/
theorem columns_sublist (cols : List Column) (bs : List ExpertTensor) :
    ((bs.foldl columnStep cols).map Column.key).Sublist (cols.map Column.key ++ bs.map key) := by
  induction bs generalizing cols with
  | nil => simp
  | cons b bs ih =>
    have hrest := ih (columnStep cols b)
    rw [map_key_columnStep] at hrest
    refine hrest.trans ?_
    split
    · exact List.Sublist.append_left (List.sublist_cons_self ..) _
    · rw [List.append_assoc]
      rfl

theorem columns_eq {cols : List Column} {bs : List ExpertTensor}
    (h : (cols.map Column.key ++ bs.map key).Nodup) :
    (bs.foldl columnStep cols).map Column.key = cols.map Column.key ++ bs.map key := by
  induction bs generalizing cols with
  | nil => simp
  | cons b bs ih =>
    have hnot : key b ∉ cols.map Column.key := by
      intro hmem
      exact (List.nodup_append.mp h).2.2 _ hmem _ (List.mem_cons_self ..) rfl
    have hstep := map_key_columnStep cols b
    rw [if_neg hnot] at hstep
    rw [List.foldl_cons, ih (by rw [hstep, List.append_assoc]; exact h), hstep, List.append_assoc]
    rfl

theorem sum_columns (cols : List Column) :
    (cols.map Column.perExpert).sum = ((cols.map Column.key).map fun k => k.2.2).sum := by
  rw [List.map_map]
  rfl

theorem sum_branches (bs : List ExpertTensor) :
    (bs.map ExpertTensor.perExpert).sum = ((bs.map key).map fun k => k.2.2).sum := by
  rw [List.map_map]
  rfl

/-- Every branch finds its column by its ordinal exactly if the columns begin with the branches. -/
theorem columns_iff (cols : List Column) (bs : List ExpertTensor) :
    (∀ (c : ℕ) (b : ExpertTensor), bs[c]? = some b → ∃ col : Column, cols[c]? = some col ∧
        col.tag = tagOf b.name ∧ col.type = b.type ∧ col.perExpert = b.perExpert) ↔
      bs.map key <+: cols.map Column.key := by
  rw [List.prefix_iff_getElem?]
  constructor
  · intro h c hc
    rw [List.length_map] at hc
    obtain ⟨col, hcol, htag, htype, hsize⟩ := h c bs[c] (List.getElem?_eq_getElem hc)
    rw [List.getElem?_map, hcol, List.getElem_map, Option.map_some, Column.key, key, htag, htype, hsize]
  · intro h c b hb
    obtain ⟨hc, hget⟩ := List.getElem?_eq_some_iff.mp hb
    have hcol := h c (by rwa [List.length_map])
    rw [List.getElem_map, hget, List.getElem?_map] at hcol
    obtain ⟨col, hcol, hkey⟩ := Option.map_eq_some_iff.mp hcol
    simp only [Column.key, key, Prod.mk.injEq] at hkey
    exact ⟨col, hcol, hkey⟩

end columns

section groups

variable {m : Model}

/-- The groups after the layers `done`: numbered in order, one for each size, each with the layers of
its size. -/
structure Grouped (m : Model) (done : List ℕ) (groups : List ExpertGroup) : Prop where
  idx : ∀ (i : ℕ) (g : ExpertGroup), groups[i]? = some g → g.idx = i
  distinct : ∀ g ∈ groups, ∀ g' ∈ groups, g.expertSize = g'.expertSize → g = g'
  layers : ∀ g ∈ groups, g.layers = done.filter fun l => decide (layerExpertSize m l = g.expertSize)
  cover : ∀ l ∈ done, ∃ g ∈ groups, g.expertSize = layerExpertSize m l
  inhabited : ∀ g ∈ groups, ∃ l ∈ done, layerExpertSize m l = g.expertSize

/-- The group at a place of the changed list, by the one that was there. -/
theorem Grouped.getElem?_modify {done : List ℕ} {groups : List ExpertGroup}
    (h : Grouped m done groups) {g : ExpertGroup} (hg : g ∈ groups) (f : ExpertGroup → ExpertGroup)
    {i : ℕ} {x : ExpertGroup} (hx : (groups.modify g.idx f)[i]? = some x) :
    ∃ g', groups[i]? = some g' ∧ x = if g' = g then f g' else g' := by
  rw [List.getElem?_modify] at hx
  obtain ⟨g', hg', rfl⟩ := Option.map_eq_some_iff.mp hx
  refine ⟨g', hg', ?_⟩
  have hidx : g.idx = i ↔ g' = g := by
    constructor
    · rintro rfl
      obtain ⟨j, hj⟩ := List.getElem?_of_mem hg
      have hj' := h.idx j g hj
      rw [hj', hj] at hg'
      exact (Option.some.inj hg').symm
    · rintro rfl
      exact h.idx i g' hg'
  simp only [hidx]

theorem addLayer_fields (l : ℕ) (g : ExpertGroup) :
    (addLayer l g).idx = g.idx ∧ (addLayer l g).expertSize = g.expertSize := by
  unfold addLayer
  split <;> exact ⟨rfl, rfl⟩

theorem Grouped.step {done : List ℕ} {groups : List ExpertGroup} (h : Grouped m done groups) {l : ℕ}
    (hl : l ∉ done) : Grouped m (done ++ [l]) (groupStep m groups l) := by
  have hadd : ∀ g : ExpertGroup, g ∈ groups ∨ g.layers = [] →
      (addLayer l g).layers = g.layers ++ [l] := by
    intro g hg
    have hlast : g.layers.getLast? ≠ some l := by
      intro hlast
      rcases hg with hg | hg
      · rw [h.layers g hg] at hlast
        exact hl (List.mem_of_mem_filter (List.mem_of_getLast? hlast))
      · rw [hg] at hlast
        cases hlast
    rw [addLayer, if_neg hlast]
  unfold groupStep
  cases hfind : groups.find? fun g => decide (g.expertSize = layerExpertSize m l) with
  | some g =>
    have hg := List.mem_of_find?_eq_some hfind
    have hsize : g.expertSize = layerExpertSize m l :=
      of_decide_eq_true
        (List.find?_some (p := fun g : ExpertGroup => decide (g.expertSize = layerExpertSize m l)) hfind)
    have hmem : ∀ x ∈ groups.modify g.idx (addLayer l),
        ∃ g' ∈ groups, x = if g' = g then addLayer l g' else g' := by
      intro x hx
      obtain ⟨i, hi⟩ := List.getElem?_of_mem hx
      obtain ⟨g', hg', heq⟩ := h.getElem?_modify hg (addLayer l) hi
      exact ⟨g', List.mem_of_getElem? hg', heq⟩
    have hkeep : ∀ g' : ExpertGroup, (if g' = g then addLayer l g' else g').expertSize = g'.expertSize := by
      intro g'
      split
      · exact (addLayer_fields l g').2
      · rfl
    refine ⟨fun i x hx => ?_, fun x hx y hy hxy => ?_, fun x hx => ?_, fun k hk => ?_, fun x hx => ?_⟩
    · obtain ⟨g', hg', rfl⟩ := h.getElem?_modify hg (addLayer l) hx
      split
      · exact (addLayer_fields l g').1.trans (h.idx i g' hg')
      · exact h.idx i g' hg'
    · obtain ⟨g₁, hg₁, rfl⟩ := hmem x hx
      obtain ⟨g₂, hg₂, rfl⟩ := hmem y hy
      rw [hkeep, hkeep] at hxy
      rw [h.distinct g₁ hg₁ g₂ hg₂ hxy]
    · obtain ⟨g', hg', rfl⟩ := hmem x hx
      rw [hkeep, List.filter_append, ← h.layers g' hg', List.filter_singleton]
      by_cases heq : g' = g
      · subst heq
        rw [if_pos rfl, hadd g' (Or.inl hg'), hsize]
        simp
      · rw [if_neg heq]
        have hne : layerExpertSize m l ≠ g'.expertSize := by
          intro hsize'
          exact heq (h.distinct g' hg' g hg (hsize'.symm.trans hsize.symm))
        simp [hne]
    · have hcover : ∃ g' ∈ groups, g'.expertSize = layerExpertSize m k := by
        rcases List.mem_append.mp hk with hk | hk
        · exact h.cover k hk
        · rw [List.mem_singleton.mp hk]
          exact ⟨g, hg, hsize⟩
      obtain ⟨g', hg', hsize'⟩ := hcover
      obtain ⟨i, hi⟩ := List.getElem?_of_mem hg'
      refine ⟨if g.idx = i then addLayer l g' else g', List.mem_of_getElem? (i := i) ?_, ?_⟩
      · rw [List.getElem?_modify, hi]
        rfl
      · rw [← hsize']
        split
        · exact (addLayer_fields l g').2
        · rfl
    · obtain ⟨g', hg', rfl⟩ := hmem x hx
      obtain ⟨k, hk, hsize'⟩ := h.inhabited g' hg'
      exact ⟨k, List.mem_append_left _ hk, hsize'.trans (hkeep g').symm⟩
  | none =>
    have hnone : ∀ g ∈ groups, g.expertSize ≠ layerExpertSize m l :=
      fun g hg heq => List.find?_eq_none.mp hfind g hg (decide_eq_true heq)
    have hout : ∀ k ∈ done, layerExpertSize m k ≠ layerExpertSize m l := by
      intro k hk heq
      obtain ⟨g, hg, hsize⟩ := h.cover k hk
      exact hnone g hg (hsize.trans heq)
    refine ⟨fun i x hx => ?_, fun x hx y hy hxy => ?_, fun x hx => ?_, fun k hk => ?_, fun x hx => ?_⟩
    · rw [List.getElem?_append] at hx
      split at hx
      · exact h.idx i x hx
      · rw [List.getElem?_singleton] at hx
        split at hx
        · cases hx
          rw [(addLayer_fields l _).1]
          show groups.length = i
          omega
        · cases hx
    · rcases List.mem_append.mp hx with hx | hx <;> rcases List.mem_append.mp hy with hy | hy
      · exact h.distinct x hx y hy hxy
      · rw [List.mem_singleton.mp hy, (addLayer_fields l _).2] at hxy
        exact absurd hxy (hnone x hx)
      · rw [List.mem_singleton.mp hx, (addLayer_fields l _).2] at hxy
        exact absurd hxy.symm (hnone y hy)
      · rw [List.mem_singleton.mp hx, List.mem_singleton.mp hy]
    · rw [List.filter_append, List.filter_singleton]
      rcases List.mem_append.mp hx with hx | hx
      · rw [← h.layers x hx]
        simp [(hnone x hx).symm]
      · rw [List.mem_singleton.mp hx, hadd _ (Or.inr rfl), (addLayer_fields l _).2]
        have hnil : done.filter (fun k => decide (layerExpertSize m k = layerExpertSize m l)) = [] :=
          List.filter_eq_nil_iff.mpr fun k hk => by simpa using hout k hk
        rw [hnil]
        simp
    · rcases List.mem_append.mp hk with hk | hk
      · obtain ⟨g, hg, hsize⟩ := h.cover k hk
        exact ⟨g, List.mem_append_left _ hg, hsize⟩
      · rw [List.mem_singleton.mp hk]
        exact ⟨_, List.mem_append_right _ (List.mem_singleton_self _), (addLayer_fields l _).2⟩
    · rcases List.mem_append.mp hx with hx | hx
      · obtain ⟨k, hk, hsize⟩ := h.inhabited x hx
        exact ⟨k, List.mem_append_left _ hk, hsize⟩
      · rw [List.mem_singleton.mp hx, (addLayer_fields l _).2]
        exact ⟨l, List.mem_append_right _ (List.mem_singleton_self _), rfl⟩

theorem grouped_foldl {done : List ℕ} {groups : List ExpertGroup} (h : Grouped m done groups)
    (ls : List ℕ) (hnodup : (done ++ ls).Nodup) : Grouped m (done ++ ls) (ls.foldl (groupStep m) groups) := by
  induction ls generalizing done groups with
  | nil =>
    rw [List.append_nil]
    exact h
  | cons l ls ih =>
    have hl : l ∉ done := fun hmem => (List.nodup_append.mp hnodup).2.2 l hmem l (List.mem_cons_self ..) rfl
    have hsplit : done ++ l :: ls = (done ++ [l]) ++ ls := by simp
    rw [hsplit] at hnodup ⊢
    exact ih (h.step hl) hnodup

theorem nodup_moeLayers : (moeLayers m).Nodup := List.nodup_range.filter _

theorem grouped (m : Model) : Grouped m (moeLayers m) ((moeLayers m).foldl (groupStep m) []) := by
  have hnil : Grouped m [] [] := by
    refine ⟨fun i g hg => ?_, fun g hg => ?_, fun g hg => ?_, fun l hl => ?_, fun g hg => ?_⟩ <;>
      contradiction
  exact grouped_foldl hnil (moeLayers m) nodup_moeLayers

theorem filter_of_first {l : ℕ} (hl : l ∈ moeLayers m) (hfirst : FirstOfSize m l) :
    ∃ rest, (moeLayers m).filter (fun k => decide (layerExpertSize m k = layerExpertSize m l)) =
      l :: rest := by
  have hsorted : ((moeLayers m).filter
      (fun k => decide (layerExpertSize m k = layerExpertSize m l))).Pairwise (· < ·) :=
    (List.pairwise_lt_range.filter _).filter _
  have hmem : l ∈ (moeLayers m).filter
      (fun k => decide (layerExpertSize m k = layerExpertSize m l)) :=
    List.mem_filter.mpr ⟨hl, decide_eq_true rfl⟩
  cases heq : (moeLayers m).filter fun k => decide (layerExpertSize m k = layerExpertSize m l) with
  | nil =>
    rw [heq] at hmem
    cases hmem
  | cons k rest =>
    rw [heq] at hmem hsorted
    rcases List.mem_cons.mp hmem with rfl | hmem
    · exact ⟨rest, rfl⟩
    · have hlt := (List.pairwise_cons.mp hsorted).1 l hmem
      have hk : k ∈ (moeLayers m).filter
          (fun k => decide (layerExpertSize m k = layerExpertSize m l)) := by
        rw [heq]
        exact List.mem_cons_self ..
      obtain ⟨hk, hsize⟩ := List.mem_filter.mp hk
      exact absurd (of_decide_eq_true hsize) (hfirst k hk hlt)

theorem exists_first {l : ℕ} (hl : l ∈ moeLayers m) :
    ∃ k ∈ moeLayers m, layerExpertSize m k = layerExpertSize m l ∧ FirstOfSize m k := by
  induction l using Nat.strongRecOn with
  | ind l ih =>
    by_cases hfirst : FirstOfSize m l
    · exact ⟨l, hl, rfl, hfirst⟩
    · simp only [FirstOfSize, not_forall, not_not] at hfirst
      obtain ⟨k, hk, hlt, hsize⟩ := hfirst
      obtain ⟨j, hj, hsize', hfirst'⟩ := ih k hlt hk
      exact ⟨j, hj, hsize'.trans hsize, hfirst'⟩

/-- What a group looks like in the end: its layers, the first one, and the columns made of that. -/
theorem Grouped.finished {groups : List ExpertGroup} (h : Grouped m (moeLayers m) groups)
    {g : ExpertGroup} (hg : g ∈ groups.map (finishGroup m)) :
    ∃ l ∈ moeLayers m, FirstOfSize m l ∧ g.expertSize = layerExpertSize m l ∧
      g.layers = (moeLayers m).filter (fun k => decide (layerExpertSize m k = layerExpertSize m l)) ∧
      g.columns = (branches m l).foldl columnStep [] := by
  obtain ⟨g, hin, rfl⟩ := List.mem_map.mp hg
  obtain ⟨k, hk, hsize⟩ := h.inhabited g hin
  obtain ⟨l, hl, hsize', hfirst⟩ := exists_first hk
  have hexpert : g.expertSize = layerExpertSize m l := hsize.symm.trans hsize'.symm
  have hlayers := h.layers g hin
  rw [hexpert] at hlayers
  obtain ⟨rest, hrest⟩ := filter_of_first hl hfirst
  refine ⟨l, hl, hfirst, hexpert, hlayers, ?_⟩
  show (match g.layers with
    | [] => []
    | l :: _ => (branches m l).foldl columnStep []) = _
  rw [hlayers, hrest]

theorem Grouped.exists_finished {groups : List ExpertGroup} (h : Grouped m (moeLayers m) groups)
    {l : ℕ} (hl : l ∈ moeLayers m) (hfirst : FirstOfSize m l) :
    ∃ g ∈ groups.map (finishGroup m), g.expertSize = layerExpertSize m l ∧
      g.layers = (moeLayers m).filter (fun k => decide (layerExpertSize m k = layerExpertSize m l)) ∧
      g.columns = (branches m l).foldl columnStep [] := by
  obtain ⟨g, hg, hsize⟩ := h.cover l hl
  have hmem : finishGroup m g ∈ groups.map (finishGroup m) := List.mem_map.mpr ⟨g, hg, rfl⟩
  obtain ⟨k, hk, hfirst', hsize', hlayers, hcols⟩ := h.finished hmem
  have hkl : layerExpertSize m k = layerExpertSize m l := hsize'.symm.trans hsize
  have heq : k = l := by
    rcases Nat.lt_trichotomy k l with hlt | heq | hlt
    · exact absurd hkl (hfirst k hk hlt)
    · exact heq
    · exact absurd hkl.symm (hfirst' l hl hlt)
  subst heq
  exact ⟨_, hmem, hsize', hlayers, hcols⟩

end groups

section grouping

variable {m : Model}

theorem uniform_of_sound {groups : List ExpertGroup} (h : Grouped m (moeLayers m) groups)
    (hsound : Sound m (groups.map (finishGroup m))) : Uniform m := by
  have hcols : ∀ l ∈ moeLayers m, FirstOfSize m l →
      ((branches m l).foldl columnStep []).map Column.key = (branches m l).map key := by
    intro l hl hfirst
    obtain ⟨g, hg, _, hlayers, hcolumns⟩ := h.exists_finished hl hfirst
    have hmem : l ∈ g.layers := by
      rw [hlayers]
      exact List.mem_filter.mpr ⟨hl, decide_eq_true rfl⟩
    have hcolpre := (columns_iff _ _).mp (hsound.column g hg l hmem)
    have hsub := columns_sublist [] (branches m l)
    rw [hcolumns] at hcolpre
    exact (hcolpre.eq_of_length_le hsub.length_le).symm
  refine ⟨fun l hl hfirst => ?_, fun l hl hfirst => ?_, fun l hl hfirst l' hl' hsize => ?_⟩
  · rw [← hcols l hl hfirst]
    exact @nodup_columns [] List.nodup_nil _
  · obtain ⟨g, hg, hsize, _, hcolumns⟩ := h.exists_finished hl hfirst
    have hsum := hsound.size g hg
    rw [hcolumns, sum_columns, hcols l hl hfirst, ← sum_branches, hsize] at hsum
    rw [hsum]
    exact Nat.mod_lt _ (Nat.two_pow_pos 64)
  · obtain ⟨g, hg, _, hlayers, hcolumns⟩ := h.exists_finished hl hfirst
    have hmem : l' ∈ g.layers := by
      rw [hlayers]
      exact List.mem_filter.mpr ⟨hl', decide_eq_true hsize⟩
    have hcolpre := (columns_iff _ _).mp (hsound.column g hg l' hmem)
    rwa [hcolumns, hcols l hl hfirst] at hcolpre

theorem sound_of_uniform {groups : List ExpertGroup} (h : Grouped m (moeLayers m) groups)
    (huniform : Uniform m) : Sound m (groups.map (finishGroup m)) := by
  have hcols : ∀ l ∈ moeLayers m, FirstOfSize m l →
      ((branches m l).foldl columnStep []).map Column.key = (branches m l).map key :=
    fun l hl hfirst => columns_eq (huniform.distinct l hl hfirst)
  refine ⟨fun g hg l' hl' => ?_, fun g hg => ?_⟩
  · obtain ⟨l, hl, hfirst, _, hlayers, hcolumns⟩ := h.finished hg
    rw [hlayers] at hl'
    obtain ⟨hl', hsize⟩ := List.mem_filter.mp hl'
    refine (columns_iff _ _).mpr ?_
    rw [hcolumns, hcols l hl hfirst]
    exact huniform.matching l hl hfirst l' hl' (of_decide_eq_true hsize)
  · obtain ⟨l, hl, hfirst, hsize, _, hcolumns⟩ := h.finished hg
    rw [hcolumns, sum_columns, hcols l hl hfirst, ← sum_branches, hsize]
    exact (Nat.mod_eq_of_lt (huniform.bounded l hl hfirst)).symm

/-- The grouping is sound exactly for models whose layers of one expert size have the same
branches. -/
theorem sound_iff_uniform (m : Model) :
    (∀ t, buildTopology m = .ok t → Sound m t.groups) ↔ m.nExpert = 0 ∨ Uniform m := by
  unfold buildTopology
  constructor
  · intro h
    by_cases hexpert : m.nExpert = 0
    · exact Or.inl hexpert
    · right
      by_cases hlayer : m.nLayer = 0
      · have hnil : moeLayers m = [] := by
          rw [moeLayers, hlayer]
          rfl
        refine ⟨?_, ?_, ?_⟩ <;> rw [hnil] <;> exact fun l hl => absurd hl List.not_mem_nil
      · rw [if_neg hlayer, if_neg hexpert] at h
        exact uniform_of_sound (grouped m) (h _ rfl)
  · intro h t ht
    split at ht
    · cases ht
    · split at ht
      · cases ht
        exact ⟨fun g hg => absurd hg List.not_mem_nil, fun g hg => absurd hg List.not_mem_nil⟩
      · cases ht
        rename_i hexpert
        exact sound_of_uniform (grouped m) (h.resolve_left hexpert)

theorem mem_sliceReqs {col start : ℕ} {segs : List SrcSeg} {r : SubTensorReq}
    (h : r ∈ sliceReqs col start segs) :
    r.column = col ∧ r.colOff + r.byteSize ≤ start + (segs.map SrcSeg.len).sum := by
  induction segs generalizing start with
  | nil => cases h
  | cons s segs ih =>
    rw [List.map_cons, List.sum_cons]
    rcases List.mem_cons.mp h with rfl | h
    · exact ⟨rfl, by dsimp only; omega⟩
    · obtain ⟨hcol, hend⟩ := ih h
      exact ⟨hcol, by omega⟩

/-- Every segment of an expert of a group lies within the stride of its column. -/
theorem request_fits {groups : List ExpertGroup} (h : Sound m groups) {g : ExpertGroup} (hg : g ∈ groups)
    {l e : ℕ} (hl : l ∈ g.layers)
    (hslices : ∀ b ∈ branches m l, ((b.perExpertSrcs e).map SrcSeg.len).sum ≤ b.perExpert)
    {r : SubTensorReq} (hr : r ∈ expertReqs m l e) :
    ∃ col, g.columns[r.column]? = some col ∧ r.colOff + r.byteSize ≤ col.perExpert := by
  obtain ⟨⟨b, c⟩, hb, hr⟩ := List.mem_flatMap.mp hr
  obtain ⟨hcolumn, hend⟩ := mem_sliceReqs hr
  have hget := List.mk_mem_zipIdx_iff_getElem?.mp hb
  obtain ⟨col, hcol, _, _, hsize⟩ := h.column g hg l hl c b hget
  have hle := hslices b (List.mem_of_getElem? hget)
  dsimp only at hend
  rw [hcolumn]
  exact ⟨col, hcol, by omega⟩

end grouping

section mixed

/-- Two layers whose branches swap their types and sizes. -/
def mixedModel : Model where
  nLayer := 2
  nExpert := 1
  expert :=
    [{ name := "blk.0.ffn_up_exps.weight", ne := [64, 64, 1, 1], type := 12, perExpert := 4096,
       layer := 0, perExpertSrcs := fun _ => [⟨0, 0, 4096⟩] },
      { name := "blk.0.ffn_down_exps.weight", ne := [64, 64, 1, 1], type := 14, perExpert := 8192,
        layer := 0, perExpertSrcs := fun _ => [⟨0, 4096, 8192⟩] },
      { name := "blk.1.ffn_up_exps.weight", ne := [64, 64, 1, 1], type := 14, perExpert := 8192,
        layer := 1, perExpertSrcs := fun _ => [⟨0, 12288, 8192⟩] },
      { name := "blk.1.ffn_down_exps.weight", ne := [64, 64, 1, 1], type := 12, perExpert := 4096,
        layer := 1, perExpertSrcs := fun _ => [⟨0, 20480, 4096⟩] }]

/-- The layers share a group, and the columns are those of the first. -/
theorem mixed_unsound : ¬ ∀ t, buildTopology mixedModel = .ok t → Sound mixedModel t.groups := by
  intro h
  obtain ⟨t, ht, hgroups⟩ : ∃ t, buildTopology mixedModel = .ok t ∧
      t.groups.map ExpertGroup.layers = [[0, 1]] ∧
      t.groups.map (fun g => g.columns.map Column.perExpert) = [[4096, 8192]] :=
    ⟨_, rfl, by decide, by decide⟩
  obtain ⟨hlayers, hcols⟩ := hgroups
  have hsound := h t ht
  obtain ⟨g, hg⟩ : ∃ g, t.groups = [g] := List.length_eq_one_iff.mp (by simpa using congrArg List.length hlayers)
  rw [hg] at hlayers hcols hsound
  have hl : 1 ∈ g.layers := by
    have heq : g.layers = [0, 1] := by simpa using hlayers
    rw [heq]
    decide
  obtain ⟨col, hcol, _, _, hsize⟩ := hsound.column g (List.mem_singleton_self g) 1 hl 0
    ((branches mixedModel 1).head (by decide)) (by rfl)
  have hfirst : (g.columns.map Column.perExpert)[0]? = some 4096 := by
    have heq : g.columns.map Column.perExpert = [4096, 8192] := by simpa using hcols
    rw [heq]
    rfl
  rw [List.getElem?_map, hcol, Option.map_some, hsize] at hfirst
  exact absurd hfirst (by decide)

end mixed

end TopoGroups
end StreamMoE
