import StreamMoE.LayerPlan
import StreamMoE.MixExec
import StreamMoE.PinRuns
import StreamMoE.RoundCells

/-! Where a round finds the weights of its experts: the ids a round stages from the pins of
`pin_layer`, and the weight shell that its `MUL_MAT_ID` indexes with them. -/
namespace StreamMoE
namespace ExpertAddress

open TransitionSystem PoolGeometry SchedConfig Sched MixSplit MixExec Scatter PinLayer PinRuns
open RoundCells
open LayerPlan (hasText)
open SchedRuns (smallOracle)

/-- `pin_slot`; every handle that `pin_layer` returns is pinned. -/
def pinSlot (pins : List Handle) (layer expert : ℕ) : Option ℕ :=
  (pins.find? fun h => decide (h.layer = layer ∧ h.expert = expert)).map Handle.slot

/-- The pool of every expert, -1 without a pin. -/
def expertPool (nExpert : ℕ) (pins : List Handle) : ℕ → ℤ :=
  pins.foldl
    (fun pool h => if h.expert < nExpert then Function.update pool h.expert (h.pool : ℤ) else pool)
    fun _ => -1

variable (C : Config)

/-- The arguments of `build_mix_plan`. -/
def routing (pins : List Handle) (ids : ℕ → ℤ) (nK nT : ℕ) (hcells : nT * nK < 2 ^ 31) : Routing where
  ids := ids
  nExpertUsed := nK
  nTokens := nT
  expertPool := expertPool C.topo.nExpert pins
  nExpert := C.topo.nExpert
  nPools := C.nPools
  cells_lt := hcells

/-- The plan of a layer from the pins of its call. -/
abbrev mixPlan (pins : List Handle) (ids : ℕ → ℤ) (nK nT : ℕ) (hcells : nT * nK < 2 ^ 31) : MixPlan :=
  buildMixPlan (routing C pins ids nK nT hcells)

/-- One index of `ids_exp` and `ids_slot`. -/
structure Staged where
  expert : ℕ
  slot : ℕ
  deriving DecidableEq, Repr

/-- The id of a round cell, `rid(a, s)`. -/
def rid (o : MixPlan) (r : MixRound) (a s : ℕ) : ℤ := o.ids.getD (r.off + a * r.width + s) 0

def stageCell (pins : List Handle) (layer : ℕ) (o : MixPlan) (r : MixRound) (a s : ℕ) :
    Option Staged :=
  if rid o r a s < 0 ∨ (C.topo.nExpert : ℤ) ≤ rid o r a s then none
  else
    (pinSlot pins layer (rid o r a s).toNat).bind fun slot =>
      (subpoolOfSlot C.geometry slot).map fun sp =>
        { expert := (rid o r a s).toNat, slot := slot - sp.slotBegin }

/-- The ids of a round, tight columns in turn, the slots of a column together. -/
def stageIds (pins : List Handle) (layer : ℕ) (o : MixPlan) (r : MixRound) (order : List ℕ) :
    Option (List Staged) :=
  ((List.range r.nActive).flatMap fun i => (List.range r.width).map fun s => (order.getD i 0, s)).mapM
    fun x => stageCell C pins layer o r x.1 x.2

/-- The staging of a round, which fails when the scatter plan rejects the round's tokens. -/
def stageRound (pins : List Handle) (layer : ℕ) (o : MixPlan) (nT : ℕ) (r : MixRound) :
    Option (List Staged) :=
  let order := (buildScatterPlan (tRound o r) nT).order
  if order.length ≠ r.nActive then none else stageIds C pins layer o r order

def columnOf (o : MixPlan) (nT : ℕ) (r : MixRound) (i : ℕ) : ℕ :=
  (buildScatterPlan (tRound o r) nT).order.getD i 0

/-- The tag `column_layout` finds in a tensor name. -/
def columnTag (name : String) : Option String :=
  if hasText name "gate_up" then some "gate_up"
  else if hasText name "ffn_gate_exps" then some "gate"
  else if hasText name "ffn_up_exps" then some "up"
  else if hasText name "down_exps" then some "down"
  else none

/-- The first column of a region that carries the tensor's tag; `tags` lists the column tags of
every group. -/
def columnLayout (tags : ℕ → List String) (sp : Subpool) (name : String) : Option Column :=
  (columnTag name).bind fun tag => sp.cols.find? fun c => decide ((tags sp.group)[c.index]? = some tag)

/-- The weight tensor of a round: column `col` of `region`, one matrix for every slot. -/
structure Shell where
  region : Subpool
  col : Column
  deriving DecidableEq, Repr

def Shell.nSlots (w : Shell) : ℕ := w.region.nSlots

/-- Where the region's bytes start for the kernel: at `base` on the CPU, at its device buffer
otherwise. -/
abbrev DataBase := Subpool → ℕ

def Shell.row (w : Shell) (data : DataBase) (id : ℕ) : ℕ :=
  data w.region + w.col.off + id * w.col.stride

/-- The shell `append_mm_bucket` makes for a weight of the layer, from the region of the round's
first expert. -/
def weightShell (tags : ℕ → List String) (pins : List Handle) (layer : ℕ) (name : String)
    (staged : List Staged) : Option Shell :=
  (groupOf C layer).bind fun _ =>
    staged.head?.bind fun first =>
      (pinSlot pins layer first.expert).bind fun slot =>
        (subpoolOfSlot C.geometry slot).bind fun sp =>
          (columnLayout tags sp name).map fun col => { region := sp, col := col }

section plan

variable {R : Routing}

/-- The ids of a plan are those of its cells, and every cell of a round is in the round's pool. -/
structure CellsOk (R : Routing) (o : MixPlan) : Prop where
  ids : o.ids = o.scatter.map fun c => idAt R c.1 c.2
  pool : ∀ r ∈ o.rounds, ∀ a < r.nActive, ∀ s < r.width,
    cellPool R (scat o r a s).1 (scat o r a s).2 = some r.pool

theorem ids_emitRound {o : MixPlan} (p vprev vj : ℕ)
    (h : o.ids = o.scatter.map fun c => idAt R c.1 c.2) :
    (emitRound R (poolHits R) p vprev vj o).ids =
      (emitRound R (poolHits R) p vprev vj o).scatter.map fun c => idAt R c.1 c.2 := by
  by_cases hskip : activeToks R p vj = [] ∨ vj - vprev = 0
  · rw [emitRound_skip hskip, h]
  · rw [emitRound_scatter, emitRound_emit hskip, h, List.map_append]

theorem ids_peelRounds {p : ℕ} (vs : List ℕ) : ∀ (vprev : ℕ) (o : MixPlan),
    (o.ids = o.scatter.map fun c => idAt R c.1 c.2) →
    (peelRounds R (poolHits R) p vprev vs o).ids =
      (peelRounds R (poolHits R) p vprev vs o).scatter.map fun c => idAt R c.1 c.2 := by
  induction vs with
  | nil => exact fun _ _ h => h
  | cons vj vs ih => exact fun vprev o h => ih vj _ (ids_emitRound p vprev vj h)

theorem buildMixPlan_cells (R : Routing) : CellsOk R (buildMixPlan R) := by
  refine ⟨?_, fun r hr a ha s hs => (cell_spec hr ha hs).2.2.2⟩
  have hplan : ∀ (ps : List ℕ) (o : MixPlan), (o.ids = o.scatter.map fun c => idAt R c.1 c.2) →
      (ps.foldl (fun o p => peelRounds R (poolHits R) p 0 (peelBounds R (poolHits R) p) o) o).ids =
        (ps.foldl (fun o p => peelRounds R (poolHits R) p 0 (peelBounds R (poolHits R) p) o)
          o).scatter.map fun c => idAt R c.1 c.2 := by
    intro ps
    induction ps with
    | nil => exact fun _ h => h
    | cons p ps ih => exact fun o h => ih _ (ids_peelRounds _ 0 o h)
  by_cases h : R.nTokens = 0 ∨ R.nExpertUsed = 0
  · rw [buildMixPlan, if_pos h]
    rfl
  · rw [buildMixPlan, if_neg h]
    exact hplan _ _ rfl

/-- The columns of a round in tight order. -/
theorem columnOf_lt {r : MixRound} (hr : r ∈ (buildMixPlan R).rounds) :
    (buildScatterPlan (tRound (buildMixPlan R) r) R.nTokens).order.length = r.nActive ∧
      ∀ i < r.nActive, columnOf (buildMixPlan R) R.nTokens r i < r.nActive := by
  have hok := round_ok hr
  have hperm : (buildScatterPlan (tRound (buildMixPlan R) r) R.nTokens).order.Perm _ :=
    (buildScatterPlan_spec hok.lt hok.nodup (nTokens_le hr) hok.nonempty).1
  rw [length_tRound] at hperm
  have hlen := hperm.length_eq
  rw [List.length_range] at hlen
  refine ⟨hlen, ?_⟩
  intro i hi
  have hi' : i < (buildScatterPlan (tRound (buildMixPlan R) r) R.nTokens).order.length := by omega
  rw [columnOf, List.getD_eq_getElem _ _ hi']
  exact List.mem_range.mp (hperm.mem_iff.mp (List.getElem_mem hi'))

end plan

section pins

theorem exists_handle {nExpert e : ℕ} {x : ℤ} (pins : List Handle) (pool : ℕ → ℤ)
    (h : pins.foldl (fun pool h => if h.expert < nExpert then
      Function.update pool h.expert (h.pool : ℤ) else pool) pool e = x) :
    (∃ h ∈ pins, h.expert = e ∧ (h.pool : ℤ) = x) ∨ pool e = x := by
  induction pins generalizing pool with
  | nil => exact .inr h
  | cons a pins ih =>
    rw [List.foldl_cons] at h
    rcases ih _ h with ⟨b, hb, hbe⟩ | hpool
    · exact .inl ⟨b, List.mem_cons_of_mem a hb, hbe⟩
    · split at hpool
      · by_cases hae : e = a.expert
        · subst hae
          rw [Function.update_self] at hpool
          exact .inl ⟨a, List.mem_cons_self, rfl, hpool⟩
        · rw [Function.update_of_ne hae] at hpool
          exact .inr hpool
      · exact .inr hpool

theorem handle_of_pool {nExpert e pool : ℕ} {pins : List Handle}
    (h : expertPool nExpert pins e = pool) : ∃ h ∈ pins, h.expert = e ∧ h.pool = pool := by
  rcases exists_handle pins (fun _ => -1) h with ⟨a, ha, he, hp⟩ | hneg
  · exact ⟨a, ha, he, Int.ofNat_inj.mp hp⟩
  · omega

theorem pinSlot_eq {layer : ℕ} {pins : List Handle} (hpins : Handed C layer pins)
    (hnodup : (pins.map Handle.expert).Nodup) {h : Handle} (hh : h ∈ pins) :
    pinSlot pins layer h.expert = some h.slot := by
  have hlayer := hpins.layer_eq h hh
  cases hfind : pins.find? fun a => decide (a.layer = layer ∧ a.expert = h.expert) with
  | none =>
    have hnot := List.find?_eq_none.mp hfind h hh
    simp [hlayer] at hnot
  | some a =>
    have ha := List.mem_of_find?_eq_some hfind
    have hp := List.find?_some hfind
    simp only [decide_eq_true_eq] at hp
    have hah : a = h := List.inj_on_of_nodup_map hnodup ha hh hp.2
    rw [pinSlot, hfind, hah]
    rfl

end pins

section round

variable {C} {layer nK nT : ℕ} {pins : List Handle} {ids : ℕ → ℤ} {hcells : nT * nK < 2 ^ 31}
  {r : MixRound}

theorem rid_eq {R : Routing} {r : MixRound} (hr : r ∈ (buildMixPlan R).rounds) {a s : ℕ}
    (ha : a < r.nActive) (hs : s < r.width) :
    rid (buildMixPlan R) r a s =
      idAt R (scat (buildMixPlan R) r a s).1 (scat (buildMixPlan R) r a s).2 := by
  have hcs := buildMixPlan_cells R
  have hspan := (buildMixPlan_spec R fun _ _ => (0 : ℕ)).1.span r hr
  have hrow : (a + 1) * r.width ≤ r.nActive * r.width := Nat.mul_le_mul_right _ ha
  rw [Nat.succ_mul] at hrow
  have hlt : r.off + a * r.width + s < (buildMixPlan R).scatter.length := by omega
  have hlt' : r.off + a * r.width + s < (buildMixPlan R).ids.length := by
    rw [hcs.ids, List.length_map]
    exact hlt
  rw [rid, scat, List.getD_eq_getElem _ _ hlt', List.getD_eq_getElem _ _ hlt]
  simp only [hcs.ids, List.getElem_map]

def roundRegion (C : Config) (layer : ℕ) (r : MixRound) : Option Subpool :=
  (groupOf C layer).bind (regionOf C r.pool)

/-- What one cell of a round finds: its expert's pin, in the region of the round. -/
theorem stageCell_eq (hpins : Handed C layer pins) (hnodup : (pins.map Handle.expert).Nodup)
    (hr : r ∈ (mixPlan C pins ids nK nT hcells).rounds) {a s : ℕ}
    (ha : a < r.nActive) (hs : s < r.width) :
    ∃ (e slot : ℕ) (sp : Subpool),
      rid (mixPlan C pins ids nK nT hcells) r a s = e ∧
      pinSlot pins layer e = some slot ∧ roundRegion C layer r = some sp ∧
      subpoolOfSlot C.geometry slot = some sp ∧
      stageCell C pins layer (mixPlan C pins ids nK nT hcells) r a s =
        some { expert := e, slot := slot - sp.slotBegin } := by
  have hpool := (buildMixPlan_cells (routing C pins ids nK nT hcells)).pool r hr a ha s hs
  have hrid := rid_eq hr ha hs
  simp only [cellPool] at hpool
  rw [← hrid] at hpool
  split at hpool
  · cases hpool
  · rename_i hid
    split at hpool
    · cases hpool
    · rename_i hbound
      have hnonneg : 0 ≤ expertPool C.topo.nExpert pins
          (rid (mixPlan C pins ids nK nT hcells) r a s).toNat :=
        not_lt.mp fun hneg => hbound (.inl hneg)
      have heq : expertPool C.topo.nExpert pins
          (rid (mixPlan C pins ids nK nT hcells) r a s).toNat = (r.pool : ℤ) := by
        have hto := Option.some.inj hpool
        rw [← hto]
        exact (Int.toNat_of_nonneg hnonneg).symm
      obtain ⟨h, hh, he, hp⟩ := handle_of_pool heq
      obtain ⟨group, sp, hgroup, hsp, hown⟩ := hpins.home h hh
      have hsub := C.owner sp (regionOf_spec C hsp).1 h.slot hown
      have hpin := pinSlot_eq C hpins hnodup hh
      rw [he] at hpin
      refine ⟨_, h.slot, sp, ?_, hpin, ?_, hsub, ?_⟩
      · have hpos : ¬ rid (mixPlan C pins ids nK nT hcells) r a s < 0 :=
          fun hneg => hid (.inl hneg)
        omega
      · rw [roundRegion, hgroup, ← hp]
        exact hsp
      · have hrange : ¬ (rid (mixPlan C pins ids nK nT hcells) r a s < 0 ∨
            (C.topo.nExpert : ℤ) ≤ rid (mixPlan C pins ids nK nT hcells) r a s) := hid
        rw [stageCell, if_neg hrange, hpin, Option.bind_some, hsub]
        rfl

theorem mapM_eq_map {α β : Type} {f : α → Option β} {g : α → β} {l : List α}
    (h : ∀ x ∈ l, f x = some (g x)) : l.mapM f = some (l.map g) := by
  induction l with
  | nil => rfl
  | cons x l ih =>
    have hx := h x List.mem_cons_self
    have hl := ih fun y hy => h y (List.mem_cons_of_mem x hy)
    simp [List.mapM_cons, hx, hl]

/-- The cells of a round in staging order. -/
theorem getElem?_cells {width n i s : ℕ} (col : ℕ → ℕ) (hi : i < n) (hs : s < width) :
    ((List.range n).flatMap fun i => (List.range width).map fun s => (col i, s))[i * width + s]? =
      some (col i, s) := by
  have hrow : ∀ u ∈ List.range n, ((List.range width).map fun s => (col u, s)).length = width := by
    intro u _
    rw [List.length_map, List.length_range]
  have hlen := length_flatMap_rows _ _ width hrow
  rw [List.length_range] at hlen
  have hlt : i * width + s < n * width := by
    have hmul := Nat.mul_le_mul_right width (Nat.succ_le_of_lt hi)
    rw [Nat.succ_mul] at hmul
    omega
  have hget := getD_flatMap_rows _ _ width hrow (0, 0) i s (by simpa using hi) hs
  rw [List.getD_eq_getElem _ _ (by omega), List.getD_eq_getElem _ _ (by simpa using hs)] at hget
  rw [List.getElem?_eq_getElem (by omega), hget]
  simp

theorem stageRound_eq (hpins : Handed C layer pins) (hnodup : (pins.map Handle.expert).Nodup)
    (hr : r ∈ (mixPlan C pins ids nK nT hcells).rounds) :
    ∃ staged, stageRound C pins layer (mixPlan C pins ids nK nT hcells) nT r = some staged ∧
      staged.length = r.nActive * r.width ∧ ∀ i < r.nActive, ∀ s < r.width,
        staged[i * r.width + s]? = stageCell C pins layer (mixPlan C pins ids nK nT hcells) r
          (columnOf (mixPlan C pins ids nK nT hcells) nT r i) s := by
  obtain ⟨hlen, hcol⟩ : _ ∧ ∀ i < r.nActive,
      columnOf (mixPlan C pins ids nK nT hcells) nT r i < r.nActive := columnOf_lt hr
  have hcell : ∀ x ∈ (List.range r.nActive).flatMap fun i => (List.range r.width).map fun s =>
      (columnOf (mixPlan C pins ids nK nT hcells) nT r i, s),
      stageCell C pins layer (mixPlan C pins ids nK nT hcells) r x.1 x.2 =
        some ((stageCell C pins layer (mixPlan C pins ids nK nT hcells) r x.1 x.2).getD ⟨0, 0⟩) := by
    intro x hx
    simp only [List.mem_flatMap, List.mem_map, List.mem_range] at hx
    obtain ⟨i, hi, s, hs, rfl⟩ := hx
    obtain ⟨e, slot, sp, _, _, _, _, hstage⟩ := stageCell_eq hpins hnodup hr (hcol i hi) hs
    rw [hstage]
    rfl
  have hround : stageRound C pins layer (mixPlan C pins ids nK nT hcells) nT r =
      stageIds C pins layer (mixPlan C pins ids nK nT hcells) r
        (buildScatterPlan (tRound (mixPlan C pins ids nK nT hcells) r) nT).order :=
    if_neg (not_not_intro hlen)
  refine ⟨_, hround.trans (mapM_eq_map hcell), ?_, ?_⟩
  · rw [List.length_map, length_flatMap_rows _ _ r.width, List.length_range]
    intro u _
    rw [List.length_map, List.length_range]
  · intro i hi s hs
    obtain ⟨e, slot, sp, _, _, _, _, hstage⟩ := stageCell_eq hpins hnodup hr (hcol i hi) hs
    have hget := getElem?_cells (columnOf (mixPlan C pins ids nK nT hcells) nT r) hi hs
    rw [hstage, List.getElem?_map]
    refine (congrArg (Option.map _) hget).trans ?_
    rw [Option.map_some, hstage]
    rfl

end round

/-- What a cell finds in the ids its round staged: the slot that `pin_layer` pinned for the cell's
expert is in the shell's region, its local id is one of the shell's matrices, and that matrix lies
where the slot's slice of the column lies in the region. -/
def Addressed (C : Config) (R : Routing) (pins : List Handle) (layer : ℕ) (cell : ℕ × ℕ) (w : Shell)
    (x : Staged) : Prop :=
  (x.expert : ℤ) = idAt R cell.1 cell.2 ∧
    ∃ slot, pinSlot pins layer x.expert = some slot ∧
      subpoolOfSlot C.geometry slot = some w.region ∧ x.slot < w.nSlots ∧
      ∀ data : DataBase, w.row data x.slot + w.region.base =
        data w.region + colSlice w.region w.col slot

variable {C}

/-- Whatever runs beside a call of `pin_layer`: every round of a plan made of its pins stages ids for
all its cells, and through every weight shell each cell reads the slice of its expert's pinned slot. -/
theorem weightRows_addressed {guard : Pair → PairAct → Prop} {x : Pair}
    (h : Reach (pairSystem C) guard x) {c : PinCall} {n : ℕ} {pins : List Handle}
    (hret : x.call = some (c, .ret (.pinned n pins))) (ids : ℕ → ℤ) (nK nT : ℕ)
    (hcells : nT * nK < 2 ^ 31) (r : MixRound) (hr : r ∈ (mixPlan C pins ids nK nT hcells).rounds) :
    ∃ staged, stageRound C pins c.layer (mixPlan C pins ids nK nT hcells) nT r = some staged ∧
      staged.length = r.nActive * r.width ∧
      ∀ tags name w, weightShell C tags pins c.layer name staged = some w →
        columnLayout tags w.region name = some w.col ∧
        ∀ i < r.nActive, ∀ s < r.width, ∃ id, staged[i * r.width + s]? = some id ∧
          Addressed C (routing C pins ids nK nT hcells) pins c.layer
            (scat (mixPlan C pins ids nK nT hcells) r
              (columnOf (mixPlan C pins ids nK nT hcells) nT r i) s) w id := by
  obtain ⟨hpins, hnodup⟩ := granted_of_reach h hret n pins rfl
  have hpos := nActive_pos hr
  have hwidth := width_pos hr
  obtain ⟨_, hcol⟩ : _ ∧ ∀ i < r.nActive,
      columnOf (mixPlan C pins ids nK nT hcells) nT r i < r.nActive := columnOf_lt hr
  obtain ⟨staged, hstaged, hlen, hcells'⟩ := stageRound_eq hpins hnodup hr
  refine ⟨staged, hstaged, hlen, ?_⟩
  intro tags name w hw
  -- the shell lies in the region of the first cell, which is the round's
  obtain ⟨e₀, slot₀, sp, _, hpin₀, hregion, hsub₀, hstage₀⟩ :=
    stageCell_eq hpins hnodup hr (hcol 0 hpos) hwidth
  have hfirst : staged.head? = some ⟨e₀, slot₀ - sp.slotBegin⟩ := by
    rw [List.head?_eq_getElem?, ← hstage₀, ← hcells' 0 hpos 0 hwidth, Nat.zero_mul]
  simp only [weightShell, hfirst, Option.bind_some, hpin₀, hsub₀] at hw
  obtain ⟨_, _, hw⟩ := Option.bind_eq_some_iff.mp hw
  obtain ⟨col, hlayout, rfl⟩ := Option.map_eq_some_iff.mp hw
  refine ⟨hlayout, ?_⟩
  intro i hi s hs
  obtain ⟨e, slot, sp', hrid, hpin, hregion', hsub, hstage⟩ :=
    stageCell_eq hpins hnodup hr (hcol i hi) hs
  have hsp : sp' = sp := by
    rw [hregion] at hregion'
    exact (Option.some.inj hregion').symm
  subst hsp
  refine ⟨_, (hcells' i hi s hs).trans hstage, ?_, slot, hpin, hsub, ?_, ?_⟩
  · rw [← rid_eq hr (hcol i hi) hs, hrid]
  · have hown := owns_of_subpoolOfSlot hsub
    simp only [Subpool.owns, decide_eq_true_eq] at hown
    simp only [Shell.nSlots]
    omega
  · intro data
    simp only [Shell.row, colSlice]
    omega

/-- One layer of two experts, with two slots in memory and one on a device -/
def splitTopology : Topology where
  nLayer := 1
  nExpert := 2
  groups := [{ layers := [0], expertSize := 1, totalBytes := 2, strides := [1] }]
  numTensors _ _ := 1

def splitConfig : Config :=
  (SchedConfig.init splitTopology 2 (fun _ => 0) 2 0 [⟨1, 0, 100, 1⟩]).get (by decide)

/-- A call for both experts: the device takes the first, the memory the second. -/
def splitRun : List PairAct :=
  .begin ⟨0, fun _ => true, 2, 0⟩ :: List.replicate 6 .exec ++
    .sched (.call (.accept smallOracle)) :: (List.replicate 22 (.sched .step) ++
      .sched (.env (.land 15)) :: .sched (.env (.land 14)) ::
        .sched (.call (.drainCompletions [(15, true), (14, true)])) ::
          (List.replicate 16 (.sched .step) ++ List.replicate 9 .exec))

def splitPins : List Handle := [⟨2, 1, 0, 0, 1⟩, ⟨0, 1, 0, 1, 0⟩]

theorem split_cells : 2 * 2 < 2 ^ 31 := by decide

/-- Two tokens that take both experts -/
abbrev splitPlan : MixPlan := mixPlan splitConfig splitPins (fun k => Int.ofNat (k % 2)) 2 2 split_cells

/-- In the round of either pool both tokens read the expert that lies there. -/
theorem weightRows_addressed_twoRegions : ∃ x c, Reach (pairSystem splitConfig) anyStep x ∧
    x.call = some (c, .ret (.pinned 2 splitPins)) ∧ ∀ p < 2, ∃ staged w,
      stageRound splitConfig splitPins 0 splitPlan 2 ⟨p, 1, 2, 2 * p⟩ = some staged ∧
      weightShell splitConfig (fun _ => ["down"]) splitPins 0 "blk.0.ffn_down_exps.weight" staged = some w ∧
      w.region.pool = p ∧ ∀ i < 2, ∃ id, staged[i]? = some id ∧
        Addressed splitConfig (routing splitConfig splitPins (fun k => Int.ofNat (k % 2)) 2 2 split_cells)
          splitPins 0 (i, 1 - p) w id := by
  obtain ⟨x, c, hx, hlayer, hret⟩ : ∃ x c, Reach (pairSystem splitConfig) anyStep x ∧ c.layer = 0 ∧
      x.call = some (c, .ret (.pinned 2 splitPins)) :=
    reach_result splitRun (by decide +kernel) (by decide +kernel)
  refine ⟨x, c, hx, hret, ?_⟩
  have hrounds : ∀ p < 2, (⟨p, 1, 2, 2 * p⟩ : MixRound) ∈ splitPlan.rounds := by decide +kernel
  have hvalue : ∀ p < 2, stageRound splitConfig splitPins 0 splitPlan 2 ⟨p, 1, 2, 2 * p⟩ =
      some [⟨1 - p, 0⟩, ⟨1 - p, 0⟩] := by decide +kernel
  have hshell : ∀ p < 2, ((weightShell splitConfig (fun _ => ["down"]) splitPins 0
      "blk.0.ffn_down_exps.weight" [⟨1 - p, 0⟩, ⟨1 - p, 0⟩]).map fun w => w.region.pool) = some p := by
    decide +kernel
  have hscat : ∀ p < 2, ∀ i < 2, scat splitPlan ⟨p, 1, 2, 2 * p⟩
      (columnOf splitPlan 2 ⟨p, 1, 2, 2 * p⟩ i) 0 = (i, 1 - p) := by decide +kernel
  intro p hp
  obtain ⟨staged, hstaged, _, haddr⟩ :=
    weightRows_addressed hx hret (fun k => Int.ofNat (k % 2)) 2 2 split_cells _ (hrounds p hp)
  rw [hlayer] at hstaged haddr
  have hsame : staged = [⟨1 - p, 0⟩, ⟨1 - p, 0⟩] := Option.some.inj (hstaged.symm.trans (hvalue p hp))
  subst hsame
  obtain ⟨w, hw, hpool⟩ := Option.map_eq_some_iff.mp (hshell p hp)
  refine ⟨_, w, hvalue p hp, hw, hpool, fun i hi => ?_⟩
  obtain ⟨id, hid, hcell⟩ := (haddr _ _ _ hw).2 i hi 0 Nat.one_pos
  rw [hscat p hp i hi] at hcell
  exact ⟨id, by simpa using hid, hcell⟩

end ExpertAddress
end StreamMoE
