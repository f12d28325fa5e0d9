import StreamMoE.MixExec

/-! What the rounds of a mix plan consist of: every column of a round is one token with a block of
its slots, and a round of all tokens is scattered in token order. -/
namespace StreamMoE
namespace RoundCells

open MixSplit MixExec Scatter

/-- A property of rounds that later cells of the plan do not touch and that every emitted round
has. -/
structure RoundRule (R : Routing) (Q : MixPlan → MixRound → Prop) : Prop where
  append : ∀ {o o' : MixPlan} {r : MixRound} {cs : List (ℕ × ℕ)}, o'.scatter = o.scatter ++ cs →
    r.off + r.nActive * r.width ≤ o.scatter.length → RoundOk R.nTokens o r → Q o r → Q o' r
  emit : ∀ {p vprev vj : ℕ} {o o' : MixPlan}, o'.scatter = o.scatter ++ roundCells R p vprev vj →
    (emittedRound R p vprev vj o).off = o.scatter.length →
    ¬ (activeToks R p vj = [] ∨ vj - vprev = 0) → Q o' (emittedRound R p vprev vj o)

variable {R : Routing} {Q : MixPlan → MixRound → Prop}

/-- `PlanInv` alone, from a weight that is zero everywhere. -/
theorem sumsCells_zero (o : MixPlan) : SumsCells (fun _ _ => (0 : ℕ)) o := by
  intro t
  have hcell : cellAt (fun _ _ => (0 : ℕ)) t = fun _ => 0 := by
    funext x
    simp [cellAt]
  simp [roundSum, expertFold, hcell]

theorem RoundRule.emitRound (hQ : RoundRule R Q) {o : MixPlan} (p vprev vj : ℕ)
    (hI : PlanInv R.nTokens o) (hlt : o.scatter.length < 2 ^ 32) (h : ∀ r ∈ o.rounds, Q o r) :
    ∀ r ∈ (emitRound R (poolHits R) p vprev vj o).rounds,
      Q (emitRound R (poolHits R) p vprev vj o) r := by
  have hcs := emitRound_scatter R p vprev vj o
  by_cases hskip : activeToks R p vj = [] ∨ vj - vprev = 0
  · rw [emitRound_skip hskip]
    exact h
  · have hoff : (emittedRound R p vprev vj o).off = o.scatter.length := by
      have hmod : (emittedRound R p vprev vj o).off = o.ids.length % 2 ^ 32 := rfl
      rw [hmod, hI.length_eq, Nat.mod_eq_of_lt hlt]
    intro r hr
    have hrounds : (MixSplit.emitRound R (poolHits R) p vprev vj o).rounds =
        o.rounds ++ [emittedRound R p vprev vj o] := by rw [emitRound_emit hskip]
    rw [hrounds, List.mem_append, List.mem_singleton] at hr
    rcases hr with hr | rfl
    · exact hQ.append hcs (hI.span r hr) (hI.ok r hr) (h r hr)
    · exact hQ.emit hcs hoff hskip

theorem RoundRule.peelRounds (hQ : RoundRule R Q) {p : ℕ} (vs : List ℕ) :
    ∀ (vprev : ℕ) (o : MixPlan), PlanInv R.nTokens o →
      o.scatter.length + (peelCells R p vprev vs).length < 2 ^ 32 → (∀ r ∈ o.rounds, Q o r) →
      ∀ r ∈ (peelRounds R (poolHits R) p vprev vs o).rounds,
        Q (peelRounds R (poolHits R) p vprev vs o) r := by
  induction vs with
  | nil => exact fun _ _ _ _ h => h
  | cons vj vs ih =>
    intro vprev o hI hlt h
    rw [peelCells, List.length_append] at hlt
    have hcs := emitRound_scatter R p vprev vj o
    have hI₁ := (emitRound_inv p vprev vj _ hI (sumsCells_zero o) (by omega)).1
    refine ih vj _ hI₁ ?_ (hQ.emitRound p vprev vj hI (by omega) h)
    rw [hcs, List.length_append]
    omega

theorem RoundRule.buildMixPlan (hQ : RoundRule R Q) :
    ∀ r ∈ (buildMixPlan R).rounds, Q (buildMixPlan R) r := by
  have hplan : ∀ (ps : List ℕ) (o : MixPlan), PlanInv R.nTokens o →
      o.scatter.length + (planCells R ps).length < 2 ^ 32 → (∀ r ∈ o.rounds, Q o r) →
      ∀ r ∈ (ps.foldl (fun o p =>
          MixSplit.peelRounds R (poolHits R) p 0 (peelBounds R (poolHits R) p) o) o).rounds,
        Q (ps.foldl (fun o p =>
          MixSplit.peelRounds R (poolHits R) p 0 (peelBounds R (poolHits R) p) o) o) r := by
    intro ps
    induction ps with
    | nil => exact fun _ _ _ h => h
    | cons p ps ih =>
      intro o hI hlt h
      have hcells : planCells R (p :: ps) =
          peelCells R p 0 (peelBounds R (poolHits R) p) ++ planCells R ps := rfl
      rw [hcells, List.length_append] at hlt
      obtain ⟨hI₁, _, hcs⟩ := peelRounds_inv (p := p) _ (peelBounds R (poolHits R) p) 0 o hI
        (sumsCells_zero o) (by omega)
      refine ih _ hI₁ ?_ (hQ.peelRounds _ 0 o hI (by omega) h)
      rw [hcs, List.length_append]
      omega
  by_cases h : R.nTokens = 0 ∨ R.nExpertUsed = 0
  · intro r hr
    rw [MixSplit.buildMixPlan, if_pos h] at hr
    exact absurd hr List.not_mem_nil
  · have hle := length_planCells_le R
    have hcells := R.cells_lt
    rw [MixSplit.buildMixPlan, if_neg h]
    refine hplan _ _ ⟨rfl, ?_, ?_⟩ ?_ ?_
    · exact fun r hr => absurd hr List.not_mem_nil
    · exact fun r hr => absurd hr List.not_mem_nil
    · simp only [List.length_nil]
      omega
    · exact fun r hr => absurd hr List.not_mem_nil

/-- Every column of the round is a token of the pool with one block of its slots. -/
def Blocks (R : Routing) (o : MixPlan) (r : MixRound) : Prop :=
  ∃ vprev vj, r.width = vj - vprev ∧ r.nActive = (activeToks R r.pool vj).length ∧
    tRound o r = activeToks R r.pool vj ∧
    ∀ a < r.nActive, ∃ t, t ∈ activeToks R r.pool vj ∧ ∀ s < r.width,
      scat o r a s = (t, (roundKs (poolHits R) r.pool t vprev vj).getD s 0)

theorem blocks_rule (R : Routing) : RoundRule R (Blocks R) where
  append := by
    rintro o o' r cs hcs hspan hok ⟨vprev, vj, hw, hact, htok, hcells⟩
    refine ⟨vprev, vj, hw, hact, (tRound_append hcs hspan hok.width).trans htok, ?_⟩
    intro a ha
    obtain ⟨t, ht, hrow⟩ := hcells a ha
    exact ⟨t, ht, fun s hs => (scat_append hcs hspan ha hs).trans (hrow s hs)⟩
  emit := by
    intro p vprev vj o o' hcs hoff hskip
    obtain ⟨_, hw⟩ := not_or.mp hskip
    refine ⟨vprev, vj, rfl, rfl, tRound_emit hcs hoff hw, ?_⟩
    intro a ha
    exact ⟨_, List.getElem_mem ha, fun s hs => scat_emit hcs hoff ha hs⟩

theorem blocks_of_mem {r : MixRound} (hr : r ∈ (buildMixPlan R).rounds) :
    Blocks R (buildMixPlan R) r :=
  (blocks_rule R).buildMixPlan r hr

theorem cellPool_of_mem_roundKs {p t vprev vj k : ℕ} (ht : t < R.nTokens)
    (hk : k ∈ roundKs (poolHits R) p t vprev vj) : cellPool R t k = some p := by
  have hks : k ∈ ksOf (poolHits R) p t := List.mem_of_mem_drop (List.mem_of_mem_take hk)
  rw [ksOf_eq R p ht, List.mem_filter] at hks
  simpa using hks.2

section round

variable {r : MixRound} (hr : r ∈ (buildMixPlan R).rounds)
include hr

theorem round_ok : RoundOk R.nTokens (buildMixPlan R) r :=
  (buildMixPlan_spec R fun _ _ => (0 : ℕ)).1.ok r hr

theorem width_pos : 0 < r.width := Nat.pos_of_ne_zero (round_ok hr).width

theorem nActive_pos : 0 < r.nActive := by
  have hne := List.length_pos_iff.mpr (round_ok hr).nonempty
  rwa [length_tRound] at hne

/-- A cell of a round: its token is that of its column, its expert is in the round's pool. -/
theorem cell_spec {a s : ℕ} (ha : a < r.nActive) (hs : s < r.width) :
    (scat (buildMixPlan R) r a s).1 = (tRound (buildMixPlan R) r).getD a 0 ∧
      (scat (buildMixPlan R) r a s).1 < R.nTokens ∧
      (scat (buildMixPlan R) r a s).2 < R.nExpertUsed ∧
      cellPool R (scat (buildMixPlan R) r a s).1 (scat (buildMixPlan R) r a s).2 = some r.pool := by
  obtain ⟨vprev, vj, hw, _, _, hcells⟩ := blocks_of_mem hr
  obtain ⟨t, ht, hrow⟩ := hcells a ha
  have hlt : t < R.nTokens := List.mem_range.mp (List.mem_filter.mp ht).1
  have hlen := length_roundKs vprev ht
  have hk : (roundKs (poolHits R) r.pool t vprev vj).getD s 0 ∈
      roundKs (poolHits R) r.pool t vprev vj := by
    rw [List.getD_eq_getElem _ _ (by omega)]
    exact List.getElem_mem _
  have hused : (roundKs (poolHits R) r.pool t vprev vj).getD s 0 < R.nExpertUsed := by
    have hks : _ ∈ ksOf (poolHits R) r.pool t := List.mem_of_mem_drop (List.mem_of_mem_take hk)
    rw [ksOf_eq R r.pool hlt, List.mem_filter] at hks
    exact List.mem_range.mp hks.1
  have htok : (tRound (buildMixPlan R) r).getD a 0 = t := by
    rw [List.getD_eq_getElem _ _ (by rwa [length_tRound])]
    simp only [tRound, List.getElem_map, List.getElem_range, hrow 0 (width_pos hr)]
  rw [hrow s hs]
  exact ⟨htok.symm, hlt, hused, cellPool_of_mem_roundKs hlt hk⟩

/-- A round as wide as the routing takes the slots of its tokens in order. -/
theorem slot_of_full {a s : ℕ} (ha : a < r.nActive) (hs : s < r.width)
    (hfull : r.width = R.nExpertUsed) : (scat (buildMixPlan R) r a s).2 = s := by
  obtain ⟨vprev, vj, hw, _, _, hcells⟩ := blocks_of_mem hr
  obtain ⟨t, ht, hrow⟩ := hcells a ha
  have hlt : t < R.nTokens := List.mem_range.mp (List.mem_filter.mp ht).1
  have hlen := length_roundKs vprev ht
  have hsub : (roundKs (poolHits R) r.pool t vprev vj).Sublist (List.range R.nExpertUsed) := by
    have hks := ksOf_eq R r.pool hlt
    refine ((List.take_sublist _ _).trans (List.drop_sublist _ _)).trans ?_
    rw [hks]
    exact List.filter_sublist
  have heq := hsub.eq_of_length (by rw [hlen, List.length_range]; omega)
  rw [hrow s hs, heq, List.getD_eq_getElem _ _ (by rw [List.length_range]; omega),
    List.getElem_range]

theorem width_le : r.width ≤ R.nExpertUsed := by
  obtain ⟨vprev, vj, hw, _, _, hcells⟩ := blocks_of_mem hr
  obtain ⟨t, ht, _⟩ := hcells 0 (nActive_pos hr)
  have hlt : t < R.nTokens := List.mem_range.mp (List.mem_filter.mp ht).1
  have hlen := length_roundKs vprev ht
  have hle : (roundKs (poolHits R) r.pool t vprev vj).length ≤ (ksOf (poolHits R) r.pool t).length := by
    rw [roundKs, List.length_take, List.length_drop]
    omega
  rw [length_ksOf] at hle
  have hcount := count_le R r.pool hlt
  omega

theorem tRound_sublist : (tRound (buildMixPlan R) r).Sublist (List.range R.nTokens) := by
  obtain ⟨vprev, vj, _, _, htok, _⟩ := blocks_of_mem hr
  rw [htok]
  exact List.filter_sublist

theorem nActive_le : r.nActive ≤ R.nTokens := by
  have hle := (tRound_sublist hr).length_le
  rwa [length_tRound, List.length_range] at hle

theorem tRound_of_full (hfull : r.nActive = R.nTokens) :
    tRound (buildMixPlan R) r = List.range R.nTokens :=
  (tRound_sublist hr).eq_of_length (by rw [length_tRound, List.length_range, hfull])

theorem nTokens_le : R.nTokens ≤ 2 ^ 31 := by
  have hw := (width_pos hr).trans_le (width_le hr)
  have hcells := R.cells_lt
  have hmul := Nat.mul_le_mul_left R.nTokens (Nat.succ_le_of_lt hw)
  omega

end round

section identity

theorem chainLen_range {n : ℕ} (hn : n < 2 ^ 32) (fuel u : ℕ) (hu : u ≤ n) (hfuel : n - u ≤ fuel) :
    chainLen (fun v => (List.range n).contains v) n 1 fuel u = n - u := by
  induction fuel generalizing u with
  | zero =>
    rw [chainLen]
    omega
  | succ fuel ih =>
    rw [chainLen]
    by_cases h : u < n
    · have hmod : (u + 1) % 2 ^ 32 = u + 1 := Nat.mod_eq_of_lt (by omega)
      rw [if_pos ⟨h, by simpa using h⟩, hmod, ih (u + 1) (by omega) (by omega)]
      omega
    · rw [if_neg fun hlt => h hlt.1]
      omega

theorem foldl_fixed {α β : Type*} {f : β → α → β} {b : β} {l : List α} (h : ∀ a ∈ l, f b a = b) :
    l.foldl f b = b := by
  induction l with
  | nil => rfl
  | cons a l ih =>
    rw [List.foldl_cons, h a List.mem_cons_self]
    exact ih fun c hc => h c (List.mem_cons_of_mem a hc)

/-- The first chain of the sweep takes every token. -/
theorem sweep_range {n : ℕ} (hn : n < 2 ^ 32) (hpos : 0 < n) :
    sweep (fun v => (List.range n).contains v) n 1 (List.range n) = (n, 0) := by
  obtain ⟨m, rfl⟩ : ∃ m, n = m + 1 := ⟨n - 1, by omega⟩
  have hchain := chainLen_range hn (m + 1) 0 (by omega) (by omega)
  have hfirst : sweepStep (fun v => (List.range (m + 1)).contains v) (m + 1) 1 (0, 0) 0 =
      (m + 1, 0) := by
    rw [sweepStep, if_neg (by simp), hchain]
    simp
  rw [sweep]
  conv => lhs; arg 3; rw [List.range_succ_eq_map]
  rw [List.foldl_cons, hfirst]
  apply foldl_fixed
  intro v hv
  obtain ⟨w, hw, rfl⟩ := List.mem_map.mp hv
  have hlt : w < m := List.mem_range.mp hw
  rw [sweepStep, if_pos ⟨by simp, by simpa using by omega⟩]

theorem bestRun_range {n : ℕ} (hn : n < 2 ^ 32) (h : 2 ≤ n) :
    bestRun (fun v => (List.range n).contains v) (List.range n) n 0 (n - 1) n =
      { len := n, delta := 1, start := 0 } := by
  obtain ⟨m, rfl⟩ : ∃ m, n = m + 2 := ⟨n - 2, by omega⟩
  have hsweep := sweep_range hn (by omega)
  have hone : m + 2 - 1 - 0 = m + 1 := by omega
  have hmore : ¬ (m + 1) / 1 + 1 ≤ 1 := by
    rw [Nat.div_one]
    omega
  have hbetter : better { len := 1, delta := 1, start := 0 } 1 (m + 2, 0) =
      { len := m + 2, delta := 1, start := 0 } := by
    rw [better, if_pos (.inl (by simp))]
  rw [bestRun, hone, deltaLoop, if_neg hmore, hsweep]
  simp only [hbetter]
  rw [if_neg (by omega), if_pos trivial]

theorem order_range {n : ℕ} (hn : n ≤ 2 ^ 31) (hpos : 0 < n) :
    (buildScatterPlan (List.range n) n).order = List.range n := by
  have hvalid : valid n [] (List.range n) = true :=
    valid_iff.mpr ⟨fun v hv => ⟨List.mem_range.mp hv, by simp⟩, List.nodup_range⟩
  have hok : ¬ ((List.range n).length = 0 ∨ n = 0 ∨ valid n [] (List.range n) = false) := by
    simp [hvalid]
    omega
  have hsort : (List.range n).insertionSort (· ≤ ·) = List.range n :=
    (List.pairwise_le_range).insertionSort_eq
  have hrun : nextRun n (initialTight (List.range n)) 0 (n - 1) =
      { len := n, delta := 1, start := 0 } := by
    by_cases h : n = 1
    · subst h
      rfl
    · rw [nextRun, if_neg (by simpa [initialTight, hsort] using h)]
      simp only [initialTight, hsort, List.length_range]
      exact bestRun_range (by omega) (by omega)
  have hvals : runValues { len := n, delta := 1, start := 0 } = List.range n := by
    simp [runValues]
  obtain ⟨m, rfl⟩ : ∃ m, n = m + 1 := ⟨n - 1, by omega⟩
  have hrem : (initialTight (List.range (m + 1))).rem = 0 :: (List.range m).map Nat.succ := by
    rw [initialTight, hsort, List.range_succ_eq_map]
  have hlast : ((List.range m).map Nat.succ).getLastD 0 = m + 1 - 1 := by
    cases m with
    | zero => rfl
    | succ m => simp [List.range_succ]
  rw [buildScatterPlan, if_neg hok]
  simp only [tightOf, List.length_range, extractLoop, hrem, hlast, hrun]
  have hnil : (extract (fun v => (List.range (m + 1)).idxOf v)
      { len := m + 1, delta := 1, start := 0 } 0 (m + 1 - 1)
        (initialTight (List.range (m + 1)))).rem = [] := by
    simp only [extract, hvals, List.filter_eq_nil_iff]
    intro v _
    simp [initialTight]
  have horder : (extract (fun v => (List.range (m + 1)).idxOf v)
      { len := m + 1, delta := 1, start := 0 } 0 (m + 1 - 1)
        (initialTight (List.range (m + 1)))).order = List.range (m + 1) := by
    have hidx := map_idxOf_self (List.nodup_range (n := m + 1))
    simp only [extract, hvals, initialTight, List.nil_append]
    simpa using hidx
  cases m with
  | zero => exact horder
  | succ m =>
    rw [extractLoop, hnil]
    exact horder

end identity

end RoundCells
end StreamMoE
