import Mathlib.Algebra.BigOperators.Group.List.Basic
import Mathlib.Data.List.Pairwise
import StreamMoE.SchedConfig

/-! The bytes of a slot: its slice of every column of its region. Regions that lie apart give every
byte to one slot at most, and a move copies column by column between two regions of one group. -/
namespace StreamMoE
namespace SlotBytes

open ByteMemory PoolGeometry SchedConfig

def regionBytes (sp : Subpool) : ℕ := sp.nSlots * (sp.cols.map Column.stride).sum

/-- Every region has the columns of its group, and the memory of two regions does not meet. -/
structure Laid (C : Config) : Prop where
  carved : ∀ sp ∈ C.geometry.subpools, ∃ g, C.topo.groups[sp.group]? = some g ∧
    sp.cols = fillCols sp.nSlots 0 0 g.strides
  apart : C.geometry.subpools.Pairwise fun a b => Apart a.base (regionBytes a) b.base (regionBytes b)

def inSlice (sp : Subpool) (c : Column) (i a : ℕ) : Bool :=
  decide (colSlice sp c i ≤ a ∧ a < colSlice sp c i + c.stride)

theorem inSlice_iff {sp : Subpool} {c : Column} {i a : ℕ} : inSlice sp c i a = true ↔
    colSlice sp c i ≤ a ∧ a < colSlice sp c i + c.stride := decide_eq_true_iff

def inSlot (C : Config) (i a : ℕ) : Bool :=
  match subpoolOfSlot C.geometry i with
  | none => false
  | some sp => sp.cols.any fun c => inSlice sp c i a

/-- The byte copies of one move, target before source. -/
def copies (C : Config) (src dst : ℕ) : List (ℕ × ℕ) :=
  match subpoolOfSlot C.geometry src, subpoolOfSlot C.geometry dst with
  | some ssp, some dsp =>
      (ssp.cols.zip dsp.cols).flatMap fun c =>
        (List.range c.1.stride).map fun k => (colSlice dsp c.2 dst + k, colSlice ssp c.1 src + k)
  | _, _ => []

theorem apart_of_pairwise {α : Type} {f g : α → ℕ} {l : List α}
    (h : l.Pairwise fun a b => Apart (f a) (g a) (f b) (g b)) {a b : α} (ha : a ∈ l) (hb : b ∈ l)
    (hne : a ≠ b) : Apart (f a) (g a) (f b) (g b) := by
  have hsymm : Std.Symm fun a b : α => Apart (f a) (g a) (f b) (g b) := ⟨fun _ _ h => h.symm⟩
  exact h.forall ha hb hne

section region

variable {sp : Subpool} {c d : Column} {i j a : ℕ}

theorem fillCols_index {ns index off n : ℕ} {strides : List ℕ}
    (h : (fillCols ns index off strides)[n]? = some c) : c.index = index + n := by
  induction strides generalizing index off n with
  | nil => cases h
  | cons s ss ih =>
    cases n with
    | zero =>
      cases h
      rfl
    | succ n =>
      have hrest := ih h
      omega

/-- Two columns of a region do not meet. -/
theorem column_apart (hcols : ∃ strides, sp.cols = fillCols sp.nSlots 0 0 strides) (hc : c ∈ sp.cols)
    (hd : d ∈ sp.cols) (hne : c ≠ d) :
    Apart c.off (sp.nSlots * c.stride) d.off (sp.nSlots * d.stride) := by
  obtain ⟨strides, hs⟩ := hcols
  have hpair : sp.cols.Pairwise fun a b => Apart a.off (sp.nSlots * a.stride) b.off
      (sp.nSlots * b.stride) := by
    rw [hs]
    exact (fillCols_pairwise sp.nSlots 0 0 strides).imp fun h => .inl h
  exact apart_of_pairwise (g := fun c => sp.nSlots * c.stride) hpair hc hd hne

theorem local_slice (hown : sp.owns i = true) (c : Column) :
    (i - sp.slotBegin) * c.stride + c.stride ≤ sp.nSlots * c.stride := by
  simp only [Subpool.owns, decide_eq_true_eq] at hown
  have hle : i - sp.slotBegin + 1 ≤ sp.nSlots := by omega
  have hmul := Nat.mul_le_mul_right c.stride hle
  rwa [Nat.add_mul, Nat.one_mul] at hmul

theorem slice_bounds (hcols : ∃ strides, sp.cols = fillCols sp.nSlots 0 0 strides)
    (hown : sp.owns i = true) (hc : c ∈ sp.cols) :
    sp.base ≤ colSlice sp c i ∧ colSlice sp c i + c.stride ≤ sp.base + regionBytes sp := by
  obtain ⟨strides, hs⟩ := hcols
  have hend : c.off + sp.nSlots * c.stride ≤ 0 + sp.nSlots * strides.sum :=
    end_le_of_mem_fillCols (hs ▸ hc)
  have hlocal := local_slice hown c
  have hbytes : regionBytes sp = sp.nSlots * strides.sum := by
    rw [regionBytes, hs, stride_fillCols]
  simp only [colSlice]
  omega

theorem slice_unique (hcols : ∃ strides, sp.cols = fillCols sp.nSlots 0 0 strides)
    (hi : sp.owns i = true) (hj : sp.owns j = true) (hc : c ∈ sp.cols) (hd : d ∈ sp.cols)
    (hci : inSlice sp c i a = true) (hdj : inSlice sp d j a = true) : c = d ∧ i = j := by
  rw [inSlice_iff, colSlice] at hci hdj
  have hlocal := local_slice hi c
  have hlocal' := local_slice hj d
  have hcd : c = d := by
    by_contra hne
    have hapart := column_apart hcols hc hd hne
    simp only [Apart] at hapart
    omega
  subst hcd
  refine ⟨rfl, ?_⟩
  simp only [Subpool.owns, decide_eq_true_eq] at hi hj
  -- the byte's distance from the column's start, in slices
  have hle : ∀ p q : ℕ, p * c.stride < q * c.stride + c.stride → p ≤ q := by
    intro p q h
    rw [← Nat.succ_mul] at h
    exact Nat.lt_succ_iff.mp (Nat.lt_of_mul_lt_mul_right h)
  have h₁ := hle (i - sp.slotBegin) (j - sp.slotBegin) (by omega)
  have h₂ := hle (j - sp.slotBegin) (i - sp.slotBegin) (by omega)
  omega

end region

section slots

variable {C : Config} {i j a : ℕ}

theorem inSlot_iff : inSlot C i a = true ↔
    ∃ sp, subpoolOfSlot C.geometry i = some sp ∧ ∃ c ∈ sp.cols, inSlice sp c i a = true := by
  unfold inSlot
  cases subpoolOfSlot C.geometry i with
  | none => simp
  | some sp => simp

theorem subpool_mem {sp : Subpool} (h : subpoolOfSlot C.geometry i = some sp) :
    sp ∈ C.geometry.subpools := by
  unfold subpoolOfSlot at h
  split at h
  · exact List.mem_of_find?_eq_some h
  · cases h

theorem Laid.cols (h : Laid C) {sp : Subpool} (hsp : sp ∈ C.geometry.subpools) :
    ∃ strides, sp.cols = fillCols sp.nSlots 0 0 strides := by
  obtain ⟨g, _, hcols⟩ := h.carved sp hsp
  exact ⟨g.strides, hcols⟩

/-- No byte belongs to two slots. -/
theorem inSlot_unique (h : Laid C) (hi : inSlot C i a = true) (hj : inSlot C j a = true) : i = j := by
  obtain ⟨sp, hsp, c, hc, hci⟩ := inSlot_iff.mp hi
  obtain ⟨sp', hsp', d, hd, hdj⟩ := inSlot_iff.mp hj
  have hmem := subpool_mem hsp
  have hmem' := subpool_mem hsp'
  have hown := owns_of_subpoolOfSlot hsp
  have hown' := owns_of_subpoolOfSlot hsp'
  by_cases hsame : sp = sp'
  · subst hsame
    exact (slice_unique (h.cols hmem) hown hown' hc hd hci hdj).2
  · have hapart := apart_of_pairwise h.apart hmem hmem' hsame
    have hb := slice_bounds (h.cols hmem) hown hc
    have hb' := slice_bounds (h.cols hmem') hown' hd
    rw [inSlice_iff] at hci hdj
    simp only [Apart] at hapart
    omega

end slots

section copy

variable {C : Config} {src dst : ℕ} {ssp dsp : Subpool}

/-- Two regions of one group have the same columns but for the offsets. -/
theorem Laid.strides_eq (h : Laid C) (hs : subpoolOfSlot C.geometry src = some ssp)
    (hd : subpoolOfSlot C.geometry dst = some dsp) (hgroup : ssp.group = dsp.group) :
    ssp.cols.map Column.stride = dsp.cols.map Column.stride := by
  obtain ⟨g, hg, hcols⟩ := h.carved ssp (subpool_mem hs)
  obtain ⟨g', hg', hcols'⟩ := h.carved dsp (subpool_mem hd)
  rw [hgroup, hg'] at hg
  cases hg
  rw [hcols, hcols', stride_fillCols, stride_fillCols]

/-- A pair that is copied: byte `k` of column `n`. -/
theorem mem_copies (hs : subpoolOfSlot C.geometry src = some ssp)
    (hd : subpoolOfSlot C.geometry dst = some dsp) {p : ℕ × ℕ} : p ∈ copies C src dst ↔
    ∃ (n : ℕ) (c d : Column) (k : ℕ), ssp.cols[n]? = some c ∧ dsp.cols[n]? = some d ∧ k < c.stride ∧
      p = (colSlice dsp d dst + k, colSlice ssp c src + k) := by
  simp only [copies, hs, hd, List.mem_flatMap, List.mem_map, List.mem_range]
  constructor
  · rintro ⟨⟨c, d⟩, hcd, k, hk, rfl⟩
    obtain ⟨n, hn, heq⟩ := List.mem_iff_getElem.mp hcd
    rw [List.getElem_zip, Prod.mk.injEq] at heq
    rw [List.length_zip] at hn
    exact ⟨n, c, d, k, List.getElem?_eq_some_iff.mpr ⟨by omega, heq.1⟩,
      List.getElem?_eq_some_iff.mpr ⟨by omega, heq.2⟩, hk, rfl⟩
  · rintro ⟨n, c, d, k, hc, hd', hk, rfl⟩
    refine ⟨(c, d), ?_, k, hk, rfl⟩
    refine List.mem_iff_getElem?.mpr ⟨n, ?_⟩
    rw [List.getElem?_zip_eq_some]
    exact ⟨hc, hd'⟩

/-- Where a pair reads and where it writes. -/
theorem copies_inSlot (h : Laid C) (hs : subpoolOfSlot C.geometry src = some ssp)
    (hd : subpoolOfSlot C.geometry dst = some dsp) (hgroup : ssp.group = dsp.group) {p : ℕ × ℕ}
    (hp : p ∈ copies C src dst) : inSlot C dst p.1 = true ∧ inSlot C src p.2 = true := by
  obtain ⟨n, c, d, k, hc, hd', hk, rfl⟩ := (mem_copies hs hd).mp hp
  have hstrides := congrArg (·[n]?) (h.strides_eq hs hd hgroup)
  simp only [List.getElem?_map, hc, hd', Option.map_some, Option.some.injEq] at hstrides
  refine ⟨inSlot_iff.mpr ⟨dsp, hd, d, List.mem_of_getElem? hd', ?_⟩,
    inSlot_iff.mpr ⟨ssp, hs, c, List.mem_of_getElem? hc, ?_⟩⟩ <;>
    rw [inSlice_iff] <;> omega

/-- A target has one source. -/
theorem copies_functional (h : Laid C) (hs : subpoolOfSlot C.geometry src = some ssp)
    (hd : subpoolOfSlot C.geometry dst = some dsp) (hgroup : ssp.group = dsp.group) {p q : ℕ × ℕ}
    (hp : p ∈ copies C src dst) (hq : q ∈ copies C src dst) (heq : q.1 = p.1) : q.2 = p.2 := by
  obtain ⟨n, c, d, k, hc, hd', hk, rfl⟩ := (mem_copies hs hd).mp hp
  obtain ⟨n', c', d', k', hc', hd'', hk', rfl⟩ := (mem_copies hs hd).mp hq
  have hstride : ∀ {n : ℕ} {c d : Column}, ssp.cols[n]? = some c → dsp.cols[n]? = some d →
      c.stride = d.stride := by
    intro n c d hc hd'
    have hstrides := congrArg (·[n]?) (h.strides_eq hs hd hgroup)
    simpa only [List.getElem?_map, hc, hd', Option.map_some, Option.some.injEq] using hstrides
  have h₁ := hstride hc hd'
  have h₂ := hstride hc' hd''
  dsimp only at heq ⊢
  have hslice : inSlice dsp d dst (colSlice dsp d dst + k) = true := by
    rw [inSlice_iff]
    omega
  have hslice' : inSlice dsp d' dst (colSlice dsp d dst + k) = true := by
    rw [inSlice_iff]
    omega
  have hcols := h.cols (subpool_mem hd)
  have hown := owns_of_subpoolOfSlot hd
  obtain ⟨hdd, _⟩ := slice_unique hcols hown hown (List.mem_of_getElem? hd')
    (List.mem_of_getElem? hd'') hslice hslice'
  subst hdd
  -- a column's record says which one it is
  have hn : n = n' := by
    obtain ⟨strides, hstr⟩ := hcols
    rw [hstr] at hd' hd''
    have h₃ := fillCols_index hd'
    have h₄ := fillCols_index hd''
    omega
  subst hn
  rw [hc] at hc'
  cases hc'
  omega

end copy

section layout

variable {T : Topology} {share : ℕ → ℕ}

/-- `pool_bytes_`: what the regions in main memory take. -/
def commitBytes (sps : List Subpool) : ℕ := (sps.map fun sp => sp.nSlots * sp.expertSize).sum

def VRegion.bytes (T : Topology) (reg : VRegion) : ℕ :=
  ((T.groups[reg.group]?).map fun g => reg.nSlots * g.expertSize).getD 0

theorem regionBytes_of {sp : Subpool} {g : Group} (hcols : sp.cols = fillCols sp.nSlots 0 0 g.strides)
    (hsize : g.expertSize = g.strides.sum) : regionBytes sp = sp.nSlots * g.expertSize := by
  rw [regionBytes, hcols, stride_fillCols, hsize]

theorem carveRam_carved {i b base : ℕ} {gs : List Group} (hgs : T.groups.drop i = gs) {sp : Subpool}
    (h : sp ∈ carveRam T share i b base gs) : ∃ g, T.groups[sp.group]? = some g ∧
      sp.cols = fillCols sp.nSlots 0 0 g.strides := by
  induction gs generalizing i b base with
  | nil => cases h
  | cons g gs ih =>
    rcases List.mem_cons.mp h with rfl | h
    · refine ⟨g, ?_, rfl⟩
      have hhead := congrArg (·[0]?) hgs
      simpa using hhead
    · have htail : T.groups.drop (i + 1) = gs := by
        have hdrop := congrArg (List.drop 1) hgs
        simpa [Nat.add_comm] using hdrop
      exact ih htail h

/-- The regions in main memory follow one another. -/
theorem carveRam_bounds {i b base : ℕ} {gs : List Group}
    (hsize : ∀ g ∈ gs, g.expertSize = g.strides.sum) {sp : Subpool}
    (h : sp ∈ carveRam T share i b base gs) : base ≤ sp.base ∧
      sp.base + regionBytes sp ≤ base + commitBytes (carveRam T share i b base gs) := by
  induction gs generalizing i b base with
  | nil => cases h
  | cons g gs ih =>
    rw [carveRam] at h ⊢
    rw [commitBytes, List.map_cons, List.sum_cons]
    have hg := hsize g List.mem_cons_self
    rcases List.mem_cons.mp h with rfl | h
    · rw [regionBytes_of rfl hg]
      exact ⟨Nat.le_refl _, by dsimp only; omega⟩
    · obtain ⟨h₁, h₂⟩ := ih (fun g' hg' => hsize g' (List.mem_cons_of_mem g hg')) h
      rw [commitBytes] at h₂
      dsimp only
      exact ⟨by omega, by omega⟩

theorem carveRam_apart {i b base : ℕ} {gs : List Group}
    (hsize : ∀ g ∈ gs, g.expertSize = g.strides.sum) :
    (carveRam T share i b base gs).Pairwise fun a b =>
      Apart a.base (regionBytes a) b.base (regionBytes b) := by
  induction gs generalizing i b base with
  | nil => exact List.Pairwise.nil
  | cons g gs ih =>
    have htail : ∀ g' ∈ gs, g'.expertSize = g'.strides.sum :=
      fun g' hg' => hsize g' (List.mem_cons_of_mem g hg')
    refine List.Pairwise.cons ?_ (ih htail)
    intro sp hsp
    left
    rw [regionBytes_of rfl (hsize g List.mem_cons_self)]
    exact (carveRam_bounds htail hsp).1

theorem carveRegions_spec {b : ℕ} {regs : List VRegion}
    (hsize : ∀ g ∈ T.groups, g.expertSize = g.strides.sum) {sp : Subpool}
    (h : sp ∈ carveRegions T b regs) : (∃ g, T.groups[sp.group]? = some g ∧
      sp.cols = fillCols sp.nSlots 0 0 g.strides) ∧
      ∃ reg ∈ regs, sp.base = reg.base ∧ regionBytes sp = VRegion.bytes T reg := by
  induction regs generalizing b with
  | nil => cases h
  | cons reg regs ih =>
    have hrest : ∀ {b : ℕ}, sp ∈ carveRegions T b regs → (∃ g, T.groups[sp.group]? = some g ∧
        sp.cols = fillCols sp.nSlots 0 0 g.strides) ∧
        ∃ r ∈ reg :: regs, sp.base = r.base ∧ regionBytes sp = VRegion.bytes T r := by
      intro b hb
      obtain ⟨hcarved, r, hr, hsame⟩ := ih hb
      exact ⟨hcarved, r, List.mem_cons_of_mem reg hr, hsame⟩
    rw [carveRegions] at h
    split at h
    · exact hrest h
    · rename_i g hg
      split at h
      · exact hrest h
      · rcases List.mem_cons.mp h with rfl | h
        · refine ⟨⟨g, hg, rfl⟩, reg, List.mem_cons_self, rfl, ?_⟩
          rw [regionBytes_of rfl (hsize g (List.mem_of_getElem? hg)), VRegion.bytes, hg]
          rfl
        · exact hrest h

theorem carveRegions_apart {b : ℕ} {regs : List VRegion}
    (hsize : ∀ g ∈ T.groups, g.expertSize = g.strides.sum)
    (hregs : regs.Pairwise fun r s => Apart r.base (VRegion.bytes T r) s.base (VRegion.bytes T s)) :
    (carveRegions T b regs).Pairwise fun a b =>
      Apart a.base (regionBytes a) b.base (regionBytes b) := by
  induction regs generalizing b with
  | nil => exact List.Pairwise.nil
  | cons reg regs ih =>
    obtain ⟨hhead, htail⟩ := List.pairwise_cons.mp hregs
    rw [carveRegions]
    split
    · exact ih htail
    · rename_i g hg
      split
      · exact ih htail
      · refine List.Pairwise.cons ?_ (ih htail)
        intro sp hsp
        obtain ⟨_, r, hr, hbase, hbytes⟩ := carveRegions_spec hsize hsp
        have hreg : VRegion.bytes T reg = reg.nSlots * g.expertSize := by
          rw [VRegion.bytes, hg]
          rfl
        rw [hbase, hbytes, regionBytes_of rfl (hsize g (List.mem_of_getElem? hg))]
        have hapart := hhead r hr
        rw [hreg] at hapart
        exact hapart

/-- The regions of `init` are laid out so, where an expert's size is the sum of its strides and the
buffers the scheduler is given and the pool it allocates lie apart. -/
theorem laid_of_init {poolBytes poolBase loadStaging : ℕ} {regs : List VRegion} {C : Config}
    (h : init T poolBytes share poolBase loadStaging regs = some C)
    (hsize : ∀ g ∈ T.groups, g.expertSize = g.strides.sum)
    (hregs : regs.Pairwise fun r s => Apart r.base (VRegion.bytes T r) s.base (VRegion.bytes T s))
    (hram : ∀ r ∈ regs, Apart poolBase (commitBytes (carveRam T share 0 0 poolBase T.groups)) r.base
      (VRegion.bytes T r)) : Laid C := by
  have hC : C.topo = T ∧ C.geometry.subpools = carve T share poolBase regs := by
    unfold init at h
    split at h
    · cases h
    · split at h
      · cases h
      · split at h
        · cases h
        · cases h
          exact ⟨rfl, rfl⟩
  refine ⟨?_, ?_⟩
  · rw [hC.1, hC.2]
    intro sp hsp
    rcases List.mem_append.mp hsp with hsp | hsp
    · exact carveRam_carved rfl hsp
    · exact (carveRegions_spec hsize hsp).1
  · rw [hC.2]
    refine List.pairwise_append.mpr ⟨carveRam_apart hsize, carveRegions_apart hsize hregs, ?_⟩
    intro sp hsp sp' hsp'
    obtain ⟨h₁, h₂⟩ := carveRam_bounds hsize hsp
    obtain ⟨_, r, hr, hbase, hbytes⟩ := carveRegions_spec hsize hsp'
    have hapart := hram r hr
    rw [hbase, hbytes]
    exact hapart.mono h₁ h₂ (Nat.le_refl _) (Nat.le_refl _)

end layout

end SlotBytes
end StreamMoE
