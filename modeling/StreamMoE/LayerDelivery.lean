import Mathlib.Algebra.BigOperators.Pi
import StreamMoE.LayerResult
import StreamMoE.RoundCells

/-! When the result of a layer is delivered: what the buffers of the targets hold after the rounds, and
what of it the copy into `moe_out` keeps. -/
namespace StreamMoE
namespace LayerResult

open MixSplit MixExec Scatter LayerOutput Buffers RoundCells
open CompactTwins (Layer)

variable {L : Layer} {R : Routing} {D : Devices} {m : MoeOut} {direct : Bool}

section segments

variable {r : MixRound} (hr : r ∈ (buildMixPlan R).rounds)
include hr

theorem segment_lt {seg : ScatterSeg} (hseg : seg ∈ (scatterPlan R r).segs) {i : ℕ} (hi : i < seg.len) :
    seg.src + i < r.nActive ∧ seg.dst + i * seg.delta < R.nTokens := by
  have hok := round_ok hr
  obtain ⟨hperm, hpairs⟩ := buildScatterPlan_spec hok.lt hok.nodup (nTokens_le hr) hok.nonempty
  have hmem : (seg.src + i, seg.dst + i * seg.delta) ∈ (scatterPlan R r).segs.flatMap segPairs :=
    List.mem_flatMap.mpr ⟨seg, hseg, List.mem_map.mpr ⟨i, List.mem_range.mpr hi, rfl⟩⟩
  rw [scatterPlan, hpairs] at hmem
  obtain ⟨j, hj, he⟩ := List.mem_map.mp hmem
  obtain ⟨hsrc, hdst⟩ := Prod.mk.inj he
  rw [List.mem_range] at hj
  have hlen := hperm.length_eq
  rw [List.length_range] at hlen
  have hcol : (buildScatterPlan (tRound (buildMixPlan R) r) R.nTokens).order.getD j 0 <
      (tRound (buildMixPlan R) r).length := by
    rw [List.getD_eq_getElem _ _ (hlen ▸ hj)]
    exact List.mem_range.mp (hperm.mem_iff.mp (List.getElem_mem _))
  constructor
  · rwa [← hsrc, ← length_tRound (buildMixPlan R) r]
  · rw [← hdst, List.getD_eq_getElem _ _ hcol]
    exact hok.lt _ (List.getElem_mem _)

end segments

section columns

variable {A : Type*} [AddCommMonoid A]

/-- A segment adds whole columns. -/
theorem accColumns_columns (hrow : dOut L = foldRow L) (b : Buf) (col : ℕ → ℕ → A) (seg : ScatterSeg)
    {st : State Buf A} {acc : ℕ → ℕ → A} (h : HasColumns R.nTokens (dOut L) (st.mem b) acc) :
    HasColumns R.nTokens (dOut L) ((accColumns L b (flat (foldRow L) col) st seg).mem b)
      (accSeg col acc seg) := by
  unfold accColumns accSeg
  induction List.range seg.len generalizing st acc with
  | nil => exact h
  | cons i l ih =>
    rw [List.foldl_cons, List.foldl_cons]
    apply ih
    intro t ht x hx
    rw [put_column _ _ _ _ hx]
    by_cases he : seg.dst + i * seg.delta = t
    · subst he
      rw [if_pos rfl, Function.update_self, h _ ht x hx, flat_column _ (hrow ▸ hx), Pi.add_apply]
    · rw [if_neg he, Function.update_of_ne (Ne.symm he), h t ht x hx]

theorem accColumns_other {b b' : Buf} (hne : b' ≠ b) (pt : ℕ → A) (st : State Buf A) (seg : ScatterSeg) :
    (accColumns L b pt st seg).mem b' = st.mem b' :=
  mem_foldl _ _ (fun st _ _ => put_other st hne _ _ _) st

theorem foldl_accColumns_columns (hrow : dOut L = foldRow L) (b : Buf) (col : ℕ → ℕ → A)
    (segs : List ScatterSeg) {st : State Buf A} {acc : ℕ → ℕ → A}
    (h : HasColumns R.nTokens (dOut L) (st.mem b) acc) :
    HasColumns R.nTokens (dOut L) ((segs.foldl (accColumns L b (flat (foldRow L) col)) st).mem b)
      (segs.foldl (accSeg col) acc) := by
  induction segs generalizing st acc with
  | nil => exact h
  | cons seg segs ih => exact ih (accColumns_columns hrow b col seg h)

theorem accBuf_inj {τ τ' : Option ℕ} :
    accBuf L R D m direct τ = accBuf L R D m direct τ' ↔ τ = τ' := by
  constructor
  · unfold accBuf
    split <;> split
    · rename_i h h'
      exact fun _ => h.2.trans h'.2.symm
    · simp
    · simp
    · simp
  · rintro rfl
    rfl

/-- The accumulators of the targets hold `accs`. -/
def Accumulated (L : Layer) (R : Routing) (D : Devices) (m : MoeOut) (direct : Bool) (st : State Buf A)
    (accs : Option ℕ → ℕ → ℕ → A) : Prop :=
  ∀ τ ∈ none :: (devTargets D R).pools.map some,
    HasColumns R.nTokens (dOut L) (st.mem (accBuf L R D m direct τ)) (accs τ)

theorem zeroAccs_accumulated (mem : Buf → ℕ → A) :
    Accumulated L R D m direct (zeroAccs L R D m direct mem) fun _ _ => 0 := by
  have hput : ∀ (τs : List (Option ℕ)) (st : State Buf A) (τ : Option ℕ),
      τ ∈ τs ∨ HasColumns R.nTokens (dOut L) (st.mem (accBuf L R D m direct τ)) (fun _ => 0) →
      HasColumns R.nTokens (dOut L) ((τs.foldl (fun st τ =>
        st.put (accBuf L R D m direct τ) 0 (accSize L R) fun _ => 0) st).mem
          (accBuf L R D m direct τ)) (fun _ => 0) := by
    intro τs
    induction τs with
    | nil => exact fun st τ h => h.resolve_left List.not_mem_nil
    | cons σ τs ih =>
      intro st τ h
      apply ih
      by_cases he : τ = σ
      · subst he
        right
        intro t ht x hx
        rw [put_whole]
        exact if_pos (column_lt ht hx)
      · rcases h with h | h
        · exact .inl ((List.mem_cons.mp h).resolve_left he)
        · right
          rwa [put_other _ (fun hb => he (accBuf_inj.mp hb))]
  intro τ hτ
  apply hput
  left
  rw [List.mem_append, List.mem_singleton]
  exact (List.mem_cons.mp hτ).symm

theorem foldl_runRound_accumulated (hrow : dOut L = foldRow L) (c : ℕ → ℕ → ℕ → A)
    (rs : List MixRound) {st : State Buf A} {accs accs' : Option ℕ → ℕ → ℕ → A}
    (hrun : runRounds (devTargets D R) c (buildMixPlan R) R.nTokens rs accs = some accs')
    (h : Accumulated L R D m false st accs) :
    Accumulated L R D m false (rs.foldl (runRound L R D m false c) st) accs' := by
  induction rs generalizing st accs with
  | nil =>
    obtain rfl := Option.some.inj hrun
    exact h
  | cons r rs ih =>
    obtain ⟨mid, hmid, hrest⟩ := Option.bind_eq_some_iff.mp hrun
    refine ih hrest ?_
    rw [MixExec.runRound] at hmid
    unfold runRound
    by_cases hskip : r.width = 0 ∨ r.nActive = 0
    · rw [if_pos hskip] at hmid ⊢
      obtain rfl := Option.some.inj hmid
      exact h
    · rw [if_neg hskip] at hmid ⊢
      have hlen : (buildScatterPlan (tRound (buildMixPlan R) r) R.nTokens).order.length = r.nActive := by
        by_contra hne
        rw [if_pos hne] at hmid
        cases hmid
      rw [if_neg (not_not_intro hlen)] at hmid
      obtain rfl := Option.some.inj hmid
      rw [if_neg Bool.false_ne_true]
      intro τ hτ
      by_cases he : τ = targetOf (devTargets D R) r
      · subst he
        rw [Function.update_self]
        exact foldl_accColumns_columns hrow _ _ _ (h _ hτ)
      · rw [Function.update_of_ne he, mem_foldl]
        · exact h τ hτ
        · exact fun st seg _ => accColumns_other (fun hb => he (accBuf_inj.mp hb)) _ st seg

/-- What the rounds of a layer bring to column `t` of a target. -/
def share (R : Routing) (D : Devices) (c : ℕ → ℕ → ℕ → A) (τ : Option ℕ) (t : ℕ) : ℕ → A :=
  ((buildMixPlan R).rounds.map fun r =>
    if targetOf (devTargets D R) r = τ then roundSum c (buildMixPlan R) r t else 0).sum

theorem compute_accumulated (hrow : dOut L = foldRow L) (hne : (buildMixPlan R).rounds ≠ [])
    (c : ℕ → ℕ → ℕ → A) (mem : Buf → ℕ → A) :
    Accumulated L R D m false (compute L R D m false c mem) (share R D c) := by
  obtain ⟨r, hr⟩ := List.exists_mem_of_ne_nil _ hne
  obtain ⟨accs, hrun, heq⟩ := runRounds_eq (devTargets D R) c (nTokens_le hr) (buildMixPlan R).rounds
    (fun r hr => round_ok hr) fun _ _ => 0
  have hshare : accs = share R D c := by
    funext τ t
    rw [heq, zero_add]
    rfl
  rw [← hshare]
  exact foldl_runRound_accumulated hrow c _ hrun (zeroAccs_accumulated mem)

theorem single_some {p : ℕ} (h : single R D = some p) :
    (devTargets D R).pools = [p] ∧
      ∀ r ∈ (buildMixPlan R).rounds, targetOf (devTargets D R) r = some p := by
  unfold single at h
  split at h
  · rename_i hone
    rw [singleDevTarget, Bool.and_eq_true, decide_eq_true_eq, Bool.not_eq_true'] at hone
    obtain ⟨q, hq⟩ := List.length_eq_one_iff.mp hone.1
    obtain rfl : q = p := by simpa [hq] using h
    refine ⟨hq, ?_⟩
    intro r hr
    have hsome : targetOf (devTargets D R) r ≠ none := by
      have hcpu := List.any_eq_false.mp hone.2 r hr
      simpa using hcpu
    have hmem := targetOf_mem (devTargets D R) r
    rw [hq] at hmem
    simpa [hsome] using hmem
  · cases h

theorem sum_rounds (c : ℕ → ℕ → ℕ → A) {t : ℕ} (ht : t < R.nTokens) :
    ((buildMixPlan R).rounds.map fun r => roundSum c (buildMixPlan R) r t).sum = total R c t :=
  (buildMixPlan_spec R c).2 t ht

/-- The only target has it all. -/
theorem share_single {p : ℕ} (h : single R D = some p) (c : ℕ → ℕ → ℕ → A) {t : ℕ}
    (ht : t < R.nTokens) : share R D c (some p) t = total R c t := by
  rw [share, ← sum_rounds c ht]
  congr 1
  apply List.map_congr_left
  intro r hr
  rw [if_pos ((single_some h).2 r hr)]

/-- The fold adds the accumulators of all targets. -/
theorem layerFold_columns {f : Option ℕ → ℕ → A} (c : ℕ → ℕ → ℕ → A)
    (h : ∀ τ ∈ none :: (devTargets D R).pools.map some,
      HasColumns R.nTokens (dOut L) (f τ) (share R D c τ)) :
    HasColumns R.nTokens (dOut L) (layerFold (allAccs (devTargets D R) f)) (total R c) := by
  intro t ht x hx
  have hfold := layerFold_allAccs (devTargets D R) c (buildMixPlan R) (buildMixPlan R).rounds t
    (fun τ => (rfl : share R D c τ t = _))
  rw [sum_rounds c ht, layerFold_eq] at hfold
  rw [← hfold, layerFold_eq, allAccs, allAccs, List.map_map, List.map_map, Pi.list_sum_apply, List.map_map]
  congr 1
  apply List.map_congr_left
  intro τ hτ
  exact h τ hτ t ht x hx

/-- A round of all tokens folds them in their order. -/
theorem perToken_full {r : MixRound} (hr : r ∈ (buildMixPlan R).rounds) (hfull : r.nActive = R.nTokens)
    (c : ℕ → ℕ → ℕ → A) {t : ℕ} (ht : t < R.nTokens) :
    perToken c (buildMixPlan R) r (scatterPlan R r).order t = roundSum c (buildMixPlan R) r t := by
  have htok := tRound_of_full hr hfull
  have horder : (scatterPlan R r).order = List.range R.nTokens := by
    rw [scatterPlan, htok]
    exact order_range (nTokens_le hr) (by omega)
  have hcell : ∀ a < R.nTokens, (scat (buildMixPlan R) r a 0).1 = a := by
    intro a ha
    rw [(cell_spec hr (hfull ▸ ha) (width_pos hr)).1, htok, List.getD_eq_getElem _ _ (by simpa using ha),
      List.getElem_range]
  rw [perToken, horder, List.getD_eq_getElem _ _ (by simpa using ht), List.getElem_range, roundSum, hfull]
  have hone : ((List.range R.nTokens).map fun a =>
      if (scat (buildMixPlan R) r a 0).1 = t then expertFold c (buildMixPlan R) r a else 0) =
        (List.range R.nTokens).map fun a =>
          if t = a then expertFold c (buildMixPlan R) r t else 0 := by
    apply List.map_congr_left
    intro a ha
    rw [hcell a (List.mem_range.mp ha)]
    by_cases he : a = t
    · subst he
      rfl
    · rw [if_neg he, if_neg (Ne.symm he)]
  rw [hone, sum_ite_mem _ List.nodup_range _ _ (List.mem_range.mpr ht)]

theorem singleTarget_round (h : singleTarget R = true) :
    ∃ r, (buildMixPlan R).rounds = [r] ∧ r.nActive = R.nTokens ∧ r.width = R.nExpertUsed := by
  unfold singleTarget at h
  split at h
  · rename_i r hr
    exact ⟨r, hr, of_decide_eq_true h⟩
  · cases h

theorem compute_direct (hone : singleTarget R = true) (c : ℕ → ℕ → ℕ → A) (mem : Buf → ℕ → A) :
    HasColumns R.nTokens (foldRow L)
      ((compute L R D m true c mem).mem (if inPlace R D m then .moeOut else .result)) (total R c) := by
  obtain ⟨r, hrounds, hfull, -⟩ := singleTarget_round hone
  have hr : r ∈ (buildMixPlan R).rounds := by simp [hrounds]
  have hskip : ¬ (r.width = 0 ∨ r.nActive = 0) := by
    have hw := width_pos hr
    have ha := nActive_pos hr
    omega
  intro t ht x hx
  rw [compute, hrounds, List.foldl_cons, List.foldl_nil, runRound, if_neg hskip, if_pos rfl, put_whole,
    if_pos (column_lt (hfull ▸ ht) hx), folded, flat_column _ hx, perToken_full hr hfull c ht,
    ← sum_rounds c ht, hrounds, List.map_singleton, List.sum_singleton]

end columns

end LayerResult
end StreamMoE
