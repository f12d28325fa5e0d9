import StreamMoE.ScatterPlan

/-! What an accepted scatter plan writes: every packed column once, to the row of its token. -/
namespace StreamMoE
namespace ScatterWrites

open Scatter Spans

/-- The pointer `t` and the count `n_active`. -/
inductive TokenArray
  | null (n : ℕ)
  | tokens (t : List ℕ)
  deriving DecidableEq, Repr

def TokenArray.length : TokenArray → ℕ
  | .null n => n
  | .tokens t => t.length

/-- `build_scatter_plan` with its check of the pointer. -/
def planOf (nT : ℕ) : TokenArray → ScatterPlan
  | .null n => { order := [], segs := [], nActive := n, nT := nT }
  | .tokens t => buildScatterPlan t nT

/-- Nothing to do, or a token out of range or given twice. -/
def Refused (nT : ℕ) : TokenArray → Prop
  | .null _ => True
  | .tokens t => t = [] ∨ nT = 0 ∨ (∃ v ∈ t, nT ≤ v) ∨ ¬ t.Nodup

/-- The value `u` after `k` turns of `u += delta`. -/
def walk (delta : ℕ) : ℕ → ℕ → ℕ
  | 0, u => u
  | k + 1, u => walk delta k ((u + delta) % 2 ^ 32)

/-- The loops come to an end: a walk leaves the tokens after at most `n_t` turns, whatever is in the
set, and the extraction goes on until no value remains. -/
structure Ends (t : List ℕ) (nT : ℕ) : Prop where
  walk : ∀ delta u, 0 < delta → delta < 2 ^ 31 → ∃ k ≤ nT, nT ≤ walk delta k u
  counted : ∀ inSet delta u fuel, 0 < delta → delta < 2 ^ 31 → nT ≤ fuel →
    chainLen inSet nT delta fuel u = chainLen inSet nT delta nT u
  extracted : (tightOf t nT).rem = []

/-- The packed column and the row of every write. -/
def writes (o : ScatterPlan) : List (ℕ × ℕ) :=
  o.segs.flatMap fun seg => (List.range seg.len).map fun i =>
    (o.order.getD (seg.src + i) 0, seg.dst + i * seg.delta)

/-- The segments cut the ordered columns into runs that end at the rows of their tokens. -/
structure Scatters (t : List ℕ) (nT : ℕ) (o : ScatterPlan) : Prop where
  perm : o.order.Perm (List.range t.length)
  tiles : Tiles ScatterSeg.src ScatterSeg.len 0 o.segs t.length
  target : ∀ seg ∈ o.segs, ∀ i < seg.len,
    seg.dst + i * seg.delta = t.getD (o.order.getD (seg.src + i) 0) 0 ∧ seg.dst + i * seg.delta < nT
  once : (writes o).Perm ((List.range t.length).map fun j => (j, t.getD j 0))

theorem exists_walk {delta nT : ℕ} (hpos : 0 < delta) (hdelta : delta < 2 ^ 31) (hnT : nT < 2 ^ 31)
    (n : ℕ) : ∀ u, nT ≤ u + n → ∃ k ≤ n, nT ≤ walk delta k u := by
  induction n with
  | zero => exact fun u hu => ⟨0, Nat.le_refl _, by simpa [walk] using hu⟩
  | succ n ih =>
    intro u hu
    by_cases hend : nT ≤ u
    · exact ⟨0, Nat.zero_le _, hend⟩
    · have hmod : (u + delta) % 2 ^ 32 = u + delta := Nat.mod_eq_of_lt (by omega)
      obtain ⟨k, hk, hle⟩ := ih (u + delta) (by omega)
      exact ⟨k + 1, by omega, by rwa [walk, hmod]⟩

/-- Turns beyond the end of a walk count nothing. -/
theorem chainLen_fuel {inSet : ℕ → Bool} {nT delta : ℕ} (hpos : 0 < delta) (hdelta : delta < 2 ^ 31)
    (hnT : nT < 2 ^ 31) (fuel : ℕ) : ∀ fuel' u, nT ≤ u + fuel → nT ≤ u + fuel' →
      chainLen inSet nT delta fuel u = chainLen inSet nT delta fuel' u := by
  have hend : ∀ fuel u, nT ≤ u → chainLen inSet nT delta fuel u = 0 := by
    intro fuel u hu
    cases fuel with
    | zero => rfl
    | succ fuel => rw [chainLen, if_neg (by omega)]
  induction fuel with
  | zero =>
    intro fuel' u h _
    rw [hend 0 u (by omega), hend fuel' u (by omega)]
  | succ fuel ih =>
    intro fuel' u h h'
    cases fuel' with
    | zero => rw [hend _ u (by omega), hend 0 u (by omega)]
    | succ fuel' =>
      rw [chainLen, chainLen]
      by_cases hin : u < nT ∧ inSet u = true
      · have hmod : (u + delta) % 2 ^ 32 = u + delta := Nat.mod_eq_of_lt (by omega)
        rw [if_pos hin, if_pos hin, hmod, ih fuel' (u + delta) (by omega) (by omega)]
      · rw [if_neg hin, if_neg hin]

theorem ends_of_valid {t : List ℕ} {nT : ℕ} (hlt : ∀ v ∈ t, v < nT) (ht : t.Nodup)
    (hnT : nT < 2 ^ 31) : Ends t nT where
  walk delta u hpos hdelta := exists_walk hpos hdelta hnT nT u (by omega)
  counted inSet delta u fuel hpos hdelta hfuel :=
    chainLen_fuel hpos hdelta hnT fuel nT u (by omega) (by omega)
  extracted := by
    obtain ⟨_, _, hnil⟩ := exists_tight hlt ht (Nat.le_of_lt hnT)
    exact hnil

/-- The tokens in the order they are extracted. -/
theorem writes_eq {t vals : List ℕ} {o : ScatterPlan}
    (hsegs : o.segs.flatMap segPairs = (List.range vals.length).map fun j => (j, vals.getD j 0))
    (horder : o.order = vals.map fun v => t.idxOf v) :
    writes o = vals.map fun v => (t.idxOf v, v) := by
  have hmap : writes o = (o.segs.flatMap segPairs).map fun x => (o.order.getD x.1 0, x.2) := by
    rw [List.map_flatMap]
    apply List.flatMap_congr
    intro seg _
    simp [segPairs, Function.comp_def]
  rw [hmap, hsegs, horder]
  apply List.ext_getElem
  · simp
  · intro j h₁ h₂
    have hj : j < vals.length := by simpa using h₂
    simp [hj]

theorem scatters_of_valid {t : List ℕ} {nT : ℕ} (hlt : ∀ v ∈ t, v < nT) (ht : t.Nodup)
    (hnT : nT < 2 ^ 31) (hne : t ≠ []) : Scatters t nT (buildScatterPlan t nT) := by
  obtain ⟨vals, hinv, hnil⟩ := exists_tight hlt ht (Nat.le_of_lt hnT)
  have hperm := hinv.perm
  rw [hnil, List.append_nil] at hperm
  have hplan := buildScatterPlan_of_valid hlt ht hne
  have hsegs : (buildScatterPlan t nT).segs = (tightOf t nT).segs := by rw [hplan]
  have horder : (buildScatterPlan t nT).order = vals.map fun v => t.idxOf v := by
    rw [hplan]
    exact hinv.order
  have hwrites := writes_eq (o := buildScatterPlan t nT) (hsegs ▸ hinv.segs) horder
  have hback : ∀ v ∈ t, t.getD (t.idxOf v) 0 = v := by
    intro v hv
    rw [List.getD_eq_getElem _ _ (List.idxOf_lt_length_iff.mpr hv), List.getElem_idxOf]
  refine ⟨?_, ?_, ?_, ?_⟩
  · rw [horder, ← map_idxOf_self ht]
    exact hperm.map _
  · rw [hsegs, ← hperm.length_eq]
    exact hinv.tiles
  · intro seg hseg i hi
    have hmem : ((buildScatterPlan t nT).order.getD (seg.src + i) 0, seg.dst + i * seg.delta) ∈
        writes (buildScatterPlan t nT) :=
      List.mem_flatMap.mpr ⟨seg, hseg, List.mem_map.mpr ⟨i, List.mem_range.mpr hi, rfl⟩⟩
    rw [hwrites] at hmem
    obtain ⟨v, hv, heq⟩ := List.mem_map.mp hmem
    obtain ⟨hidx, hval⟩ := Prod.mk.inj heq
    have hvt := hperm.mem_iff.mp hv
    rw [← hidx, ← hval, hback v hvt]
    exact ⟨rfl, hlt v hvt⟩
  · rw [hwrites]
    refine (hperm.map _).trans (List.Perm.of_eq ?_)
    apply List.ext_getElem
    · simp
    · intro j h₁ h₂
      have hj : j < t.length := by simpa using h₂
      simp [hj, ht.idxOf_getElem]

/-- The plan is empty exactly when the tokens are refused; otherwise the loops end and the segments
write every packed column once, to the row of its token. -/
theorem planOf_correct {nT : ℕ} (hnT : nT < 2 ^ 31) (a : TokenArray) :
    ((planOf nT a).order = [] ∧ (planOf nT a).segs = [] ↔ Refused nT a) ∧
      ∀ t, a = .tokens t → ¬ Refused nT a → Ends t nT ∧ Scatters t nT (planOf nT a) := by
  cases a with
  | null n => exact ⟨by simp [planOf, Refused], fun t h => by cases h⟩
  | tokens t =>
    have haccept : ¬ Refused nT (.tokens t) → (∀ v ∈ t, v < nT) ∧ t.Nodup ∧ t ≠ [] := by
      intro h
      simp only [Refused, not_or, not_exists, not_and, not_not, not_le] at h
      exact ⟨h.2.2.1, h.2.2.2, h.1⟩
    have hscatters : ¬ Refused nT (.tokens t) → Scatters t nT (planOf nT (.tokens t)) := by
      intro h
      obtain ⟨hlt, ht, hne⟩ := haccept h
      exact scatters_of_valid hlt ht hnT hne
    refine ⟨⟨?_, ?_⟩, ?_⟩
    · rintro ⟨horder, _⟩
      by_contra h
      have hlen := (hscatters h).perm.length_eq
      rw [horder, List.length_range, List.length_nil] at hlen
      exact (haccept h).2.2 (List.eq_nil_of_length_eq_zero hlen.symm)
    · intro h
      have hbad : t.length = 0 ∨ nT = 0 ∨ valid nT [] t = false := by
        rcases h with rfl | h | ⟨v, hv, hge⟩ | hdup
        · exact .inl rfl
        · exact .inr (.inl h)
        · refine .inr (.inr (Bool.eq_false_iff.mpr fun hvalid => ?_))
          have hless := ((valid_iff.mp hvalid).1 v hv).1
          omega
        · exact .inr (.inr (Bool.eq_false_iff.mpr fun hvalid => hdup (valid_iff.mp hvalid).2))
      simp only [planOf, buildScatterPlan, if_pos hbad, and_self]
    · intro t' heq h
      cases heq
      obtain ⟨hlt, ht, _⟩ := haccept h
      exact ⟨ends_of_valid hlt ht hnT, hscatters h⟩

theorem planOf_correct_five : Scatters [3, 0, 7, 5, 1] 8 (planOf 8 (.tokens [3, 0, 7, 5, 1])) ∧
    writes (planOf 8 (.tokens [3, 0, 7, 5, 1])) = [(4, 1), (0, 3), (3, 5), (2, 7), (1, 0)] :=
  ⟨((planOf_correct (by decide) (.tokens [3, 0, 7, 5, 1])).2 _ rfl (by simp [Refused])).2, by decide⟩

end ScatterWrites
end StreamMoE
