import StreamMoE.ClosureGraph

/-! The tight copies of the leaves: the rows a round's cells read, whichever way they were
gathered. -/
namespace StreamMoE
namespace CompactTwins

open ComputeGraph MixSplit MixExec Scatter Strided RoundCells
open ExpertAddress (rid columnOf columnOf_lt)

variable {L : Layer} {R : Routing} {r : MixRound} {dev : Bool}

section cells

variable (hr : r ∈ (buildMixPlan R).rounds)
include hr

theorem tight_cell {i s : ℕ} (hi : i < r.nActive) (hs : s < r.width) :
    tokenOf R r i = (cell R r i s).1 ∧ (cell R r i s).1 < R.nTokens ∧
      (cell R r i s).2 < R.nExpertUsed := by
  obtain ⟨htok, hlt, hused, _⟩ := cell_spec hr ((columnOf_lt hr).2 i hi) hs
  exact ⟨htok.symm, hlt, hused⟩

theorem tokenOf_full (hfull : TokFull R r) {i : ℕ} (hi : i < r.nActive) : tokenOf R r i = i := by
  have hn : r.nActive = R.nTokens := hfull
  have htok := tRound_of_full hr hn
  have hpos := nActive_pos hr
  have hi' : i < R.nTokens := by omega
  have hcol : columnOf (buildMixPlan R) R.nTokens r i = i := by
    rw [columnOf, htok, order_range (nTokens_le hr) (by omega),
      List.getD_eq_getElem _ _ (by simpa using hi'), List.getElem_range]
  rw [tokenOf, hcol, htok, List.getD_eq_getElem _ _ (by simpa using hi'), List.getElem_range]

theorem cell_full (hfull : CellFull R r) {i s : ℕ} (hi : i < r.nActive) (hs : s < r.width) :
    cell R r i s = (i, s) := by
  have htok := (tight_cell hr hi hs).1
  rw [tokenOf_full hr hfull.1 hi] at htok
  exact Prod.ext htok.symm (slot_of_full hr ((columnOf_lt hr).2 i hi) hs hfull.2)

theorem tokens_of_single (h : tRound (buildMixPlan R) r = [0]) : r.nActive = 1 ∧
    ∀ s < r.width, (cell R r 0 s).1 = 0 := by
  have hlen := congrArg List.length h
  rw [length_tRound] at hlen
  have hone : r.nActive = 1 := hlen
  refine ⟨hone, ?_⟩
  intro s hs
  have hi : 0 < r.nActive := by omega
  have hcol := (columnOf_lt hr).2 0 hi
  have hzero : columnOf (buildMixPlan R) R.nTokens r 0 = 0 := by omega
  rw [← (tight_cell hr hi hs).1, tokenOf, hzero, h]
  rfl

end cells

variable (L R r) (K : Kernels) (mem : Memory)

/-- A copy with the rows that the round's cells read of an operand; an operand without slots keeps
its one row. -/
structure Carries (q : ℕ) (T : Tens F32) : Prop where
  ne0_eq : T.ne0 = (L.shape q).ne0
  ne1_eq : T.ne1 = if (L.shape q).ne1 = R.nExpertUsed then r.width else 1
  ne2_eq : T.ne2 = r.nActive
  rows : ∀ i < r.nActive, ∀ s < r.width, T.row (s % T.ne1) i =
    (L.tens (L.eval R K mem) q).row ((cell R r i s).2 % (L.shape q).ne1) (cell R r i s).1

/-- A copy of a scale leaf, one row for every expert. -/
structure TableLeaf (q : ℕ) (T : Tens F32) : Prop where
  ne0_eq : T.ne0 = 1
  ne1_eq : T.ne1 = R.nExpert
  ne2_eq : T.ne2 = 1
  rows : ∀ e < R.nExpert, T.row e 0 = (L.tens (L.eval R K mem) q).row e 0

variable {L R r}

theorem tens_leaf {q : ℕ} (h : Leaf L q) : L.tens (L.eval R K mem) q = L.tens mem q :=
  eval_of_leaf K mem h.1

theorem bmod_small {n m : ℕ} (h : 2 * n < m) : Int.bmod (n : ℤ) m = n :=
  Int.bmod_eq_of_le (by omega) (by omega)

theorem flatIdx_eq {sh : Shape} {c : ℕ × ℕ} (h : (c.2 * sh.nb1 + c.1 * sh.nb2) / 4 < 2 ^ 31) :
    flatIdx sh c = ((c.2 * sh.nb1 + c.1 * sh.nb2) / 4 : ℕ) := by
  exact bmod_small (by omega)

theorem flatIdx_lt_span {sh : Shape} {c : ℕ × ℕ} (h₁ : c.1 < sh.ne2) (h₂ : c.2 < sh.ne1) :
    (c.2 * sh.nb1 + c.1 * sh.nb2) / 4 < span sh := by
  have hk : c.2 * sh.nb1 ≤ sh.nb1 * (sh.ne1 - 1) := by
    rw [Nat.mul_comm]
    exact Nat.mul_le_mul_left _ (by omega)
  have ht : c.1 * sh.nb2 ≤ sh.nb2 * (sh.ne2 - 1) := by
    rw [Nat.mul_comm]
    exact Nat.mul_le_mul_left _ (by omega)
  rw [span]
  omega

section gather

variable (hr : r ∈ (buildMixPlan R).rounds)
include hr

theorem gatherCur_carries {q : ℕ} (h : Activation L R q) :
    ∃ T, gatherCur R r dev (L.tens mem q) = some T ∧ Carries L R r K mem q T := by
  have hone : (1 : ℕ) = if (L.shape q).ne1 = R.nExpertUsed then r.width else 1 := by
    have hpos := width_pos hr
    have hle := width_le hr
    rw [h.ne1_eq]
    split <;> omega
  have hmod : ∀ i s : ℕ, (cell R r i s).2 % (L.shape q).ne1 = 0 := by
    intro i s
    rw [h.ne1_eq, Nat.mod_one]
  by_cases hdirect : TokFull R r ∧ (dev = false ∨ (L.tens mem q).nb2 = 4 * (L.tens mem q).ne0)
  · refine ⟨_, if_pos hdirect, rfl, hone, h.ne2_eq.trans hdirect.1.symm, ?_⟩
    intro i hi s hs
    rw [hmod, Nat.mod_one, tens_leaf K mem h.leaf, ← (tight_cell hr hi hs).1,
      tokenOf_full hr hdirect.1 hi]
    rfl
  · have hrange : ∀ i < r.nActive, tokenOf R r i < (L.tens mem q).ne2 := by
      intro i hi
      obtain ⟨htok, hlt, _⟩ := tight_cell hr hi (width_pos hr)
      have hne2 : (L.tens mem q).ne2 = R.nTokens := h.ne2_eq
      omega
    refine ⟨_, (if_neg hdirect).trans (if_pos hrange), rfl, hone, rfl, ?_⟩
    intro i hi s hs
    have hzero : s % (Tens.ofElems (.packed (L.tens mem q).ne0 1 r.nActive) fun x _ i =>
        (L.tens mem q).val (4 * x + tokenOf R r i * (L.tens mem q).nb2)).ne1 = 0 := Nat.mod_one s
    rw [hzero, hmod, tens_leaf K mem h.leaf, Tens.row_ofElems _ Nat.one_pos]
    apply List.map_congr_left
    intro x _
    rw [Tens.elem, Nat.zero_mul, Nat.add_zero, (tight_cell hr hi hs).1]

theorem gatherPerSlot_carries {q : ℕ} (h : RoutingLeaf L R q)
    (hidx : ¬ Direct R r dev (L.shape q) → ∀ i < r.nActive, ∀ s < r.width,
      ((cell R r i s).2 * (L.shape q).nb1 + (cell R r i s).1 * (L.shape q).nb2) / 4 < 2 ^ 31) :
    ∃ T, gatherPerSlot R r dev (L.tens mem q) = some T ∧ Carries L R r K mem q T := by
  by_cases hdirect : Direct R r dev (L.shape q)
  · have hwidth : r.width = R.nExpertUsed := hdirect.1.2
    have hn : r.nActive = R.nTokens := hdirect.1.1
    refine ⟨_, if_pos hdirect, rfl, ?_, h.ne2_eq.trans hn.symm, ?_⟩
    · rw [if_pos h.ne1_eq, hwidth]
      exact h.ne1_eq
    · intro i hi s hs
      have hne1 : (L.tens mem q).ne1 = (L.shape q).ne1 := rfl
      rw [cell_full hr hdirect.1 hi hs, tens_leaf K mem h.leaf, hne1]
  · have hval := hidx hdirect
    have hrange : ∀ i < r.nActive, ∀ s < r.width,
        0 ≤ flatIdx (L.shape q) (cell R r i s) ∧
          flatIdx (L.shape q) (cell R r i s) < span (L.shape q) := by
      intro i hi s hs
      obtain ⟨_, hlt, hused⟩ := tight_cell hr hi hs
      have hspan := flatIdx_lt_span (h.ne2_eq.symm ▸ hlt) (h.ne1_eq.symm ▸ hused)
      rw [flatIdx_eq (hval i hi s hs)]
      omega
    refine ⟨_, (if_neg hdirect).trans (if_pos hrange), h.ne0_eq.symm, (if_pos h.ne1_eq).symm, rfl, ?_⟩
    intro i hi s hs
    obtain ⟨_, hlt, hused⟩ := tight_cell hr hi hs
    obtain ⟨a, ha⟩ := h.nb1_dvd
    obtain ⟨b, hb⟩ := h.nb2_dvd
    have hdvd : 4 ∣ (cell R r i s).2 * (L.shape q).nb1 + (cell R r i s).1 * (L.shape q).nb2 :=
      Nat.dvd_add (h.nb1_dvd.mul_left _) (h.nb2_dvd.mul_left _)
    have hoff : 4 * (flatIdx (L.shape q) (cell R r i s)).toNat =
        (cell R r i s).2 * (L.shape q).nb1 + (cell R r i s).1 * (L.shape q).nb2 := by
      rw [flatIdx_eq (hval i hi s hs), Int.toNat_natCast, Nat.mul_div_cancel' hdvd]
    have hmod : s % r.width = s := Nat.mod_eq_of_lt hs
    have hmod' : (cell R r i s).2 % (L.shape q).ne1 = (cell R r i s).2 := by
      rw [h.ne1_eq]
      exact Nat.mod_eq_of_lt hused
    have hcopy := Tens.row_ofElems (c := r.nActive) (fun _ s i =>
      (L.tens mem q).val (4 * (flatIdx (L.shape q) (cell R r i s)).toNat)) hs i (a := 1)
    have hne0 : (L.tens mem q).ne0 = 1 := h.ne0_eq
    refine (congrArg (fun s' => Tens.row _ s' i) hmod).trans (hcopy.trans ?_)
    rw [hmod', tens_leaf K mem h.leaf, Tens.row, hne0]
    apply List.map_congr_left
    intro x hx
    have hx0 : x = 0 := by simpa using hx
    rw [Tens.elem, hx0, hoff, Nat.mul_zero, Nat.zero_add]
    rfl

/-- When the experts are as many as the slots, the scale leaf is taken for a leaf of slots. -/
theorem gatherPerSlot_table {q : ℕ} (hleaf : Leaf L q) (hshape : L.shape q = .packed 1 R.nExpert 1)
    (heq : R.nExpert = R.nExpertUsed) (hwidth : r.width = R.nExpertUsed)
    (h : TokFull R r ∨ tRound (buildMixPlan R) r = [0]) :
    ∃ T, gatherPerSlot R r dev (L.tens mem q) = some T ∧ TableLeaf L R K mem q T := by
  by_cases hdirect : Direct R r dev (L.shape q)
  · refine ⟨_, if_pos hdirect, ?_, ?_, ?_, ?_⟩
    · exact congrArg Shape.ne0 hshape
    · exact congrArg Shape.ne1 hshape
    · exact congrArg Shape.ne2 hshape
    · intro e _
      rw [tens_leaf K mem hleaf]
  · have hsingle : tRound (buildMixPlan R) r = [0] := by
      refine h.resolve_left fun hfull => hdirect ⟨⟨hfull, hwidth⟩, .inr ?_⟩
      rw [hshape]
      refine ⟨rfl, ?_⟩
      simp only [Shape.packed]
      omega
    obtain ⟨hone, htok⟩ := tokens_of_single hr hsingle
    have hslot : ∀ s < r.width, (cell R r 0 s).2 = s := fun s hs =>
      slot_of_full hr ((columnOf_lt hr).2 0 (by omega)) hs hwidth
    have hbound : R.nExpertUsed < 2 ^ 31 := by
      have hpos := (nActive_pos hr).trans_le (nActive_le hr)
      have hcells := R.cells_lt
      have hmul := Nat.mul_le_mul_right R.nExpertUsed (Nat.succ_le_of_lt hpos)
      omega
    have hidx : ∀ s < r.width, flatIdx (L.shape q) (cell R r 0 s) = s := by
      intro s hs
      have hval : ((cell R r 0 s).2 * (L.shape q).nb1 + (cell R r 0 s).1 * (L.shape q).nb2) / 4 = s := by
        rw [htok s hs, hslot s hs, hshape]
        simp only [Shape.packed]
        omega
      rw [flatIdx_eq (by rw [hval]; omega), hval]
    have hspan : span (L.shape q) = R.nExpert := by
      have hpos := width_pos hr
      rw [hshape]
      simp only [span, Shape.packed]
      omega
    have hrange : ∀ i < r.nActive, ∀ s < r.width,
        0 ≤ flatIdx (L.shape q) (cell R r i s) ∧
          flatIdx (L.shape q) (cell R r i s) < span (L.shape q) := by
      intro i hi s hs
      have hi0 : i = 0 := by omega
      subst hi0
      rw [hidx s hs, hspan]
      omega
    refine ⟨_, (if_neg hdirect).trans (if_pos hrange), rfl, hwidth.trans heq.symm, hone, ?_⟩
    intro e he
    have hs : e < r.width := by omega
    have hcopy := Tens.row_ofElems (c := r.nActive) (fun _ s i =>
      (L.tens mem q).val (4 * (flatIdx (L.shape q) (cell R r i s)).toNat)) hs 0 (a := 1)
    have hne0 : (L.tens mem q).ne0 = 1 := congrArg Shape.ne0 hshape
    have hnb1 : (L.tens mem q).nb1 = 4 := congrArg Shape.nb1 hshape
    refine hcopy.trans ?_
    rw [tens_leaf K mem hleaf, Tens.row, hne0]
    apply List.map_congr_left
    intro x hx
    have hx0 : x = 0 := by simpa using hx
    have hoff : 4 * (flatIdx (L.shape q) (cell R r 0 e)).toNat = e * 4 := by
      rw [hidx e hs]
      omega
    rw [Tens.elem, hx0, hoff, hnb1, Nat.mul_zero, Nat.zero_mul, Nat.zero_add, Nat.add_zero]

theorem Carries.tableLeaf {q : ℕ} {T : Tens F32} (h : Carries L R r K mem q T)
    (hshape : L.shape q = .packed 1 R.nExpert 1) (heq : R.nExpert = R.nExpertUsed)
    (hwidth : r.width = R.nExpertUsed) (hone : R.nTokens = 1) : TableLeaf L R K mem q T := by
  have hn : r.nActive = 1 := by
    have hpos := nActive_pos hr
    have hle := nActive_le hr
    omega
  have hne1 : (L.shape q).ne1 = R.nExpert := congrArg Shape.ne1 hshape
  have hT : T.ne1 = R.nExpert := by
    rw [h.ne1_eq, hne1, if_pos heq, hwidth, heq]
  refine ⟨h.ne0_eq.trans (congrArg Shape.ne0 hshape), hT, h.ne2_eq.trans hn, ?_⟩
  intro e he
  have hs : e < r.width := by omega
  have hi : 0 < r.nActive := by omega
  have hrow := h.rows 0 hi e hs
  obtain ⟨_, hlt, _⟩ := tight_cell hr hi hs
  have htok : (cell R r 0 e).1 = 0 := by omega
  have hslot : (cell R r 0 e).2 = e := slot_of_full hr ((columnOf_lt hr).2 0 hi) hs hwidth
  rwa [hT, htok, hslot, hne1, Nat.mod_eq_of_lt he] at hrow

end gather

end CompactTwins
end StreamMoE
