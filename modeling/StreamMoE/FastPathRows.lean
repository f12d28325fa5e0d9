import StreamMoE.FastPaths
import StreamMoE.TwinRows

/-! The rows that the shortcuts read: those of the general path, unless a cell's index outgrew its
type. -/
namespace StreamMoE
namespace FastPaths

open ComputeGraph MixSplit MixExec Strided CompactTwins RoundCells Buffers
open GraphCapacity (made twinNodes operands)

variable {L : Layer} {R : Routing} {r : MixRound} {dev : Bool}

theorem Agree.refl (T : Tens F32) : Agree T T := ⟨rfl, rfl, rfl, fun _ _ _ _ => rfl⟩

theorem follows_self (F : Option (Tens F32)) : Follows F F := fun U h => ⟨U, h, .refl U⟩

section leaves

variable (C : Closure L R)
include C

/-- A node with a twin is none of the fold. -/
theorem mem_body_of_twin {p : ℕ} (h : p ∈ twinNodes L) : p ∈ L.body := by
  obtain ⟨hmem, hmade⟩ := List.mem_filter.mp h
  simp only [made, Bool.and_eq_true, Bool.not_eq_true'] at hmade
  refine mem_body.mpr ⟨hmem, hmade.1, ?_⟩
  by_contra hfold
  obtain ⟨hrep, hop⟩ := C.fold_replaced p hmem (by simpa using hfold)
  simp [hop, hrep] at hmade

theorem columnLeaf_ne2 {q : ℕ} (h : ColumnLeaf L q) : (L.shape q).ne2 = R.nTokens := by
  obtain ⟨p, hp, w, ids, hsrc, hop, -⟩ := h
  have hcontra : L.graph.op p ≠ .mulMatId → (L.shape q).ne2 = R.nTokens := fun hne => absurd hop hne
  cases C.built p (mem_body_of_twin C hp) with
  | mulMatId w' cur ids' _ hsrc' _ _ _ hfrom =>
    rw [hsrc] at hsrc'
    simp only [List.cons.injEq, Option.some.injEq] at hsrc'
    obtain ⟨-, rfl, -⟩ := hsrc'
    rcases hfrom with hact | ⟨j, hslots, hslice⟩
    · exact hact.ne2_eq
    · exact hslice.ne2_eq.trans (congrArg Shape.ne2 (slots_shape C hslots))
  | rows hne => exact hcontra hne
  | table q hne => exact hcontra hne
  | scale table ids hget => exact hcontra (by rw [hget]; decide)

/-- What is taken for a leaf of slots: a float for every slot of every token, or the scale of every
expert. -/
theorem slotLeaf_shape {q : ℕ} (h : SlotLeaf L R q) : 4 ∣ (L.shape q).nb1 ∧ 4 ∣ (L.shape q).nb2 ∧
    ((L.shape q).ne2 = R.nTokens ∨ L.shape q = .packed 1 R.nExpert 1) := by
  obtain ⟨p, hp, hop, hq, -⟩ := h
  have hpacked : ∀ {a b c : ℕ}, L.shape q = .packed a b c → 4 ∣ (L.shape q).nb1 ∧ 4 ∣ (L.shape q).nb2 := by
    intro a b c he
    rw [he]
    exact ⟨⟨a, rfl⟩, ⟨a * b, rfl⟩⟩
  cases C.built p (mem_body_of_twin C hp) with
  | mulMatId w cur ids hop' => exact absurd hop' hop
  | rows _ hne _ _ _ hfrom =>
    have hq' : q ∈ (L.graph.tensor p).sources := by
      unfold operands at hq
      split at hq <;> first | exact hq | exact absurd ‹_› hne
    rcases hfrom q hq' with hleaf | ⟨j, hslots, hslice⟩
    · exact ⟨hleaf.nb1_dvd, hleaf.nb2_dvd, .inl hleaf.ne2_eq⟩
    · have hshape := slots_shape C hslots
      rw [hslice.nb1_eq, hslice.nb2_eq, hslice.ne2_eq]
      exact ⟨⟨_, congrArg Shape.nb1 hshape⟩, ⟨_, congrArg Shape.nb2 hshape⟩,
        .inl (congrArg Shape.ne2 hshape)⟩
  | table leaf _ hne _ hsrc _ _ hshape =>
    have hq' : q = leaf := by
      unfold operands at hq
      split at hq
      · exact absurd ‹_› hne
      · simpa [hsrc] using hq
    subst hq'
    obtain ⟨h₁, h₂⟩ := hpacked hshape
    exact ⟨h₁, h₂, .inr hshape⟩
  | scale table ids hget _ hsrc _ hmem hrep =>
    have hq' : q = table := by simpa [operands, hget, hsrc] using hq
    subst hq'
    obtain ⟨-, hshape, -⟩ := table_built C hmem hrep
    obtain ⟨h₁, h₂⟩ := hpacked hshape
    exact ⟨h₁, h₂, .inl (congrArg Shape.ne2 hshape)⟩

end leaves

section rows

variable (hr : r ∈ (buildMixPlan R).rounds)
include hr

/-- A round of all tokens reads the leaf's columns in their order. -/
theorem follows_cur {m : Tens F32} (hne2 : m.ne2 = R.nTokens) :
    Follows (gatherCur R r dev m) (generalCur R r m) := by
  unfold gatherCur
  by_cases hdirect : TokFull R r ∧ (dev = false ∨ m.nb2 = 4 * m.ne0)
  · rw [if_pos hdirect]
    intro U hU
    unfold generalCur at hU
    split at hU
    · obtain rfl := Option.some.inj hU
      refine ⟨_, rfl, rfl, rfl, hne2.trans hdirect.1.symm, ?_⟩
      intro s hs i hi
      have hs0 : s = 0 := Nat.lt_one_iff.mp hs
      subst hs0
      rw [Tens.row_ofElems _ Nat.one_pos, tokenOf_full hr hdirect.1 hi]
      apply List.map_congr_left
      intro x _
      rw [Tens.elem, Nat.zero_mul, Nat.add_zero]
    · cases hU
  · rw [if_neg hdirect]
    exact follows_self _

/-- The cells of a leaf that is read in place, and their indices. -/
theorem direct_cell {sh : Shape} (h : Direct R r dev sh) {i s : ℕ} (hi : i < r.nActive)
    (hs : s < r.width) : cell R r i s = (i, s) := cell_full hr h.1 hi hs

/-- A leaf without gaps has no more floats than the layer has cells. -/
theorem index_of_packed {sh : Shape} (hfull : CellFull R r) (hne1 : sh.ne1 = R.nExpertUsed)
    (hnb1 : sh.nb1 = 4) (hnb2 : sh.nb2 = sh.ne1 * 4) {i s : ℕ} (hi : i < r.nActive) (hs : s < r.width) :
    flatIdx sh (cell R r i s) = (((cell R r i s).2 * sh.nb1 + (cell R r i s).1 * sh.nb2) / 4 : ℕ) := by
  apply flatIdx_eq
  rw [cell_full hr hfull hi hs, hnb1, hnb2, hne1]
  have hcell : i * R.nExpertUsed + s < R.nTokens * R.nExpertUsed := column_lt (hfull.1 ▸ hi) (hfull.2 ▸ hs)
  have hcells := R.cells_lt
  have hquot : (s * 4 + i * (R.nExpertUsed * 4)) / 4 = i * R.nExpertUsed + s := by
    rw [← Nat.mul_assoc, ← Nat.add_mul, Nat.mul_div_cancel _ (by decide), Nat.add_comm]
  simp only
  omega

theorem nActive_of_table {n : ℕ} (hfull : CellFull R r) (hn : n = R.nExpertUsed)
    (hspan : InSpan R r (.packed 1 n 1)) : r.nActive = 1 := by
  have hw := width_pos hr
  have hpos := nActive_pos hr
  have hlast := (hspan (r.nActive - 1) (by omega) 0 hw).2
  have hlen : span (.packed 1 n 1) = n := by
    have hused := hw.trans_le (width_le hr)
    simp only [span, Shape.packed]
    omega
  have hidx : flatIdx (.packed 1 n 1) (cell R r (r.nActive - 1) 0) = ((r.nActive - 1) * n : ℕ) := by
    rw [index_of_packed hr hfull hn rfl (by simp [Shape.packed, Nat.mul_comm]) (by omega) hw,
      cell_full hr hfull (by omega) hw]
    simp only [Shape.packed, Nat.one_mul, Nat.zero_mul, Nat.zero_add]
    rw [Nat.mul_left_comm, Nat.mul_div_cancel_left _ (by decide)]
  rw [hidx, hlen] at hlast
  have hfew : r.nActive - 1 < 1 := by
    by_contra hmany
    have hmul := Nat.mul_le_mul_right n (Nat.not_lt.mp hmany)
    omega
  omega

/-- With indices that kept their values the shortcut reads the cells of the general path. -/
theorem follows_perSlot {m : Tens F32} (hne0 : m.ne0 = 1) (hne1 : m.ne1 = R.nExpertUsed)
    (hdvd : 4 ∣ m.nb1 ∧ 4 ∣ m.nb2) (hne2 : m.ne2 = R.nTokens ∨ m.toShape = .packed 1 R.nExpert 1)
    (hidx : Direct R r false m.toShape → InSpan R r m.toShape → ∀ i < r.nActive, ∀ s < r.width,
      flatIdx m.toShape (cell R r i s) =
        (((cell R r i s).2 * m.nb1 + (cell R r i s).1 * m.nb2) / 4 : ℕ)) :
    Follows (gatherPerSlot R r dev m) (generalPerSlot R r m) := by
  unfold gatherPerSlot
  by_cases hdirect : Direct R r dev m.toShape
  · rw [if_pos hdirect]
    intro U hU
    unfold generalPerSlot at hU
    split at hU
    · rename_i hspan
      obtain rfl := Option.some.inj hU
      have hindex := hidx ⟨hdirect.1, .inl rfl⟩ hspan
      have htokens : m.ne2 = r.nActive := by
        rcases hne2 with hne2 | hshape
        · exact hne2.trans hdirect.1.1.symm
        · have hexpert : R.nExpert = R.nExpertUsed := (congrArg Shape.ne1 hshape).symm.trans hne1
          rw [nActive_of_table hr hdirect.1 hexpert (hshape ▸ hspan)]
          exact congrArg Shape.ne2 hshape
      refine ⟨m, rfl, hne0, hne1.trans hdirect.1.2.symm, htokens, ?_⟩
      intro s hs' i hi
      have hs : s < r.width := hs'
      have hoff : 4 * (flatIdx m.toShape (cell R r i s)).toNat = s * m.nb1 + i * m.nb2 := by
        rw [hindex i hi s hs, direct_cell hr hdirect hi hs, Int.toNat_natCast]
        exact Nat.mul_div_cancel' (Nat.dvd_add (hdvd.1.mul_left s) (hdvd.2.mul_left i))
      rw [Tens.row_ofElems _ hs i, Tens.row, hne0]
      apply List.map_congr_left
      intro x hx
      have hx0 : x = 0 := by simpa using hx
      rw [Tens.elem, hx0, hoff, Nat.mul_zero, Nat.zero_add]
    · cases hU
  · rw [if_neg hdirect]
    exact follows_self _

omit hr in
/-- Both ways read the same float of every cell. -/
theorem val_of_follows {m : Tens F32} (hdirect : Direct R r false m.toShape)
    (hspan : InSpan R r m.toShape)
    (h : Follows (gatherPerSlot R r false m) (generalPerSlot R r m)) {i s : ℕ} (hi : i < r.nActive)
    (hs : s < r.width) :
    m.val (s * m.nb1 + i * m.nb2) = m.val (4 * (flatIdx m.toShape (cell R r i s)).toNat) := by
  obtain ⟨T, hT, hagree⟩ := h _ (if_pos hspan)
  rw [gatherPerSlot, if_pos hdirect] at hT
  obtain rfl := Option.some.inj hT
  have hrow := (Tens.row_eq_iff hagree.ne0).mp (hagree.row s hs i hi) 0 Nat.one_pos
  rw [Tens.elem_ofElems _ Nat.one_pos hs, Tens.elem, Nat.mul_zero, Nat.zero_add] at hrow
  exact hrow

/-- A cell whose index lost its upper bits reads another float on the general path. -/
theorem not_follows_of_wraps {q : ℕ} (h : WrapsAround L R r q) :
    ∃ mem, ¬ Follows (gatherPerSlot R r false (L.tens mem q)) (generalPerSlot R r (L.tens mem q)) := by
  obtain ⟨hdirect, hspan, i, hi, s, hs, hne⟩ := h
  have hcell := direct_cell hr hdirect hi hs
  refine ⟨fun _ n => if n = L.graph.viewOffs q + (s * (L.shape q).nb1 + i * (L.shape q).nb2) then 1#32 else 0#32,
    fun hfollows => ?_⟩
  have hval := val_of_follows (m := L.tens _ q) hdirect hspan hfollows hi hs
  simp only [Layer.tens, if_true, Nat.add_left_cancel_iff] at hval
  have hoff : 4 * (flatIdx (L.shape q) (cell R r i s)).toNat =
      s * (L.shape q).nb1 + i * (L.shape q).nb2 := by
    by_contra hother
    rw [if_neg hother] at hval
    exact absurd hval (by decide)
  have hpos := (hspan i hi s hs).1
  apply hne
  rw [hcell] at hoff hpos ⊢
  simp only
  omega

end rows

end FastPaths
end StreamMoE
