import Mathlib.Algebra.BigOperators.Fin
import Mathlib.Order.Bounds.Basic
import StreamMoE.MixCover

/-! How few rectangles a pool's hit counts can be cut into, and when the rounds of
`build_mix_plan` are that few. -/
namespace StreamMoE
namespace MixMinimal

open MixSplit MixExec MixCover

variable {R : MixInput} {p : ℕ}

/-- The slots of token `t` whose expert lives in the pool. -/
def validCount (R : MixInput) (p t : ℕ) : ℕ :=
  ((List.range R.nExpertUsed).filter fun k => decide (cellPool R t k = some p)).length

def hitCounts (R : MixInput) (p : ℕ) : Finset ℕ :=
  ((Finset.range R.nTokens).image (validCount R p)).erase 0

/-- `n` rectangles, each of some tokens and a width, that give every token its count. -/
structure Decomposition (R : MixInput) (p n : ℕ) where
  active : Fin n → Finset ℕ
  width : Fin n → ℕ
  counts : ∀ t < R.nTokens, (∑ i, if t ∈ active i then width i else 0) = validCount R p t

def poolRounds (o : MixPlan) (p : ℕ) : ℕ := (o.rounds.filter fun r => r.pool == p).length

/-- Fewer widths than there are counts never have all counts among their sums. -/
def NoFewer (R : MixInput) (p : ℕ) : Prop :=
  ∀ n (width : Fin n → ℕ), n < (hitCounts R p).card →
    ∃ c ∈ hitCounts R p, ∀ I : Finset (Fin n), ∑ i ∈ I, width i ≠ c

theorem count_eq_validCount {t : ℕ} (ht : t < R.nTokens) :
    (poolHits R).count p t = validCount R p t := by
  rw [← length_ksOf, ksOf_eq R p ht, validCount]

theorem mem_hitCounts {c : ℕ} : c ∈ hitCounts R p ↔ c ≠ 0 ∧ ∃ t < R.nTokens, validCount R p t = c := by
  simp [hitCounts]

theorem mem_peelBounds_iff {c : ℕ} : c ∈ peelBounds R (poolHits R) p ↔ c ∈ hitCounts R p := by
  rw [mem_hitCounts]
  constructor
  · intro h
    have hpos := pos_of_mem_peelBounds h
    simp only [peelBounds, List.mem_filter, decide_eq_true_eq] at h
    obtain ⟨t, ht, hcount⟩ := List.countP_pos_iff.mp (Nat.pos_of_ne_zero h.2.2)
    have ht' := List.mem_range.mp ht
    rw [count_eq_validCount ht'] at hcount
    exact ⟨by omega, t, ht', by simpa using hcount⟩
  · rintro ⟨hc, t, ht, rfl⟩
    rw [← count_eq_validCount ht] at hc ⊢
    exact (count_mem_peelBounds R p ht).resolve_left hc

theorem length_peelBounds : (peelBounds R (poolHits R) p).length = (hitCounts R p).card := by
  have hnd : (peelBounds R (poolHits R) p).Nodup := (peelBounds_pairwise _ _ _).imp Nat.ne_of_lt
  have hset : (peelBounds R (poolHits R) p).toFinset = hitCounts R p := by
    ext c
    simp [mem_peelBounds_iff]
  rw [← hset, List.toFinset_card_of_nodup hnd]

theorem length_peels (q : ℕ) (vs : List ℕ) (vprev : ℕ) : (peels q vprev vs).length = vs.length := by
  induction vs generalizing vprev with
  | nil => rfl
  | cons v vs ih => simp [peels, ih]

theorem filter_peels (q : ℕ) (vs : List ℕ) (vprev : ℕ) :
    (peels q vprev vs).filter (fun x => x.pool == p) = if q = p then peels q vprev vs else [] := by
  induction vs generalizing vprev with
  | nil => simp [peels]
  | cons v vs ih =>
    rw [peels, List.filter_cons, ih]
    by_cases h : q = p
    · simp [h]
    · simp [h]

theorem map_pool_roundsFrom (n : ℕ) (xs : List Peel) :
    (roundsFrom R n xs).map MixRound.pool = xs.map Peel.pool := by
  induction xs generalizing n with
  | nil => rfl
  | cons x xs ih => simp [roundsFrom, ih]

theorem poolRounds_eq (hp : p < R.nPools) : poolRounds (buildMixPlan R) p = (hitCounts R p).card := by
  have hrounds : (buildMixPlan R).rounds = roundsFrom R 0 (allPeels R) := by
    simp [buildMixPlan_extend, extend, emptyPlan]
  have hcount : ∀ (ms : List MixRound) (xs : List Peel), ms.map MixRound.pool = xs.map Peel.pool →
      (ms.filter fun r => r.pool == p).length = (xs.filter fun x => x.pool == p).length := by
    intro ms xs h
    have hms : (ms.filter fun r => r.pool == p).length = ((ms.map MixRound.pool).filter (· == p)).length := by
      simp [List.filter_map, Function.comp_def]
    rw [hms, h]
    simp [List.filter_map, Function.comp_def]
  have hpools : (List.range R.nPools).flatMap (fun q => if q = p then
      peels q 0 (peelBounds R (poolHits R) q) else []) = peels p 0 (peelBounds R (poolHits R) p) := by
    have hsame : (fun q => if q = p then peels q 0 (peelBounds R (poolHits R) q) else []) =
        fun q => if q = p then peels p 0 (peelBounds R (poolHits R) p) else [] := by
      funext q
      by_cases h : q = p
      · simp [h]
      · simp [h]
    rw [hsame, flatMap_ite_of_nodup _ List.nodup_range, if_pos (List.mem_range.mpr hp)]
  rw [poolRounds, hrounds, hcount _ _ (map_pool_roundsFrom 0 (allPeels R)), allPeels,
    List.filter_flatMap]
  simp only [filter_peels, hpools, length_peels, length_peelBounds]

theorem sum_steps (vs : List ℕ) : ∀ (vprev c : ℕ), (vprev :: vs).Pairwise (· < ·) →
    c ≤ vprev ∨ c ∈ vs →
    (∑ i : Fin vs.length, if vs[i] ≤ c then vs[i] - (vprev :: vs)[(i : ℕ)] else 0) = c - vprev := by
  induction vs with
  | nil =>
    intro vprev c _ h
    have hle : c ≤ vprev := by simpa using h
    simp only [List.length_nil, Finset.univ_eq_empty, Finset.sum_empty]
    omega
  | cons v vs ih =>
    intro vprev c hpair hc
    obtain ⟨hlt, hpair'⟩ := List.pairwise_cons.mp hpair
    have hv := hlt v (by simp)
    have hrest : c ≤ v ∨ c ∈ vs := by
      rcases hc with hc | hc
      · exact .inl (by omega)
      · rcases List.mem_cons.mp hc with rfl | hc
        · exact .inl (Nat.le_refl _)
        · exact .inr hc
    have htail := ih v c hpair' hrest
    simp only [List.length_cons, Fin.sum_univ_succ]
    simp only [Fin.getElem_fin, Fin.val_zero, Fin.val_succ, List.getElem_cons_zero,
      List.getElem_cons_succ] at htail ⊢
    rw [htail]
    have hstep : c ≤ vprev ∨ v ≤ c := by
      rcases hc with hc | hc
      · exact .inl hc
      · rcases List.mem_cons.mp hc with rfl | hc
        · exact .inr (Nat.le_refl _)
        · exact .inr (Nat.le_of_lt ((List.pairwise_cons.mp hpair').1 c hc))
    have hsum : (if v ≤ c then v - vprev else 0) + (c - v) = c - vprev := by split <;> omega
    exact hsum

/-- The rectangles of the rounds. -/
def peeling (R : MixInput) (p : ℕ) : Decomposition R p (peelBounds R (poolHits R) p).length where
  active i := (Finset.range R.nTokens).filter fun t =>
    (peelBounds R (poolHits R) p)[i] ≤ validCount R p t
  width i := (peelBounds R (poolHits R) p)[i] - (0 :: peelBounds R (poolHits R) p)[(i : ℕ)]
  counts := by
    intro t ht
    have hcount := count_mem_peelBounds R p ht
    rw [count_eq_validCount ht] at hcount
    have hsum := sum_steps (peelBounds R (poolHits R) p) 0 (validCount R p t) (bounds_pairwise R p)
      (hcount.imp_left Nat.le_of_eq)
    simpa [ht] using hsum

theorem Decomposition.exists_sum {n : ℕ} (D : Decomposition R p n) {c : ℕ} (hc : c ∈ hitCounts R p) :
    ∃ I : Finset (Fin n), ∑ i ∈ I, D.width i = c := by
  obtain ⟨_, t, ht, rfl⟩ := mem_hitCounts.mp hc
  refine ⟨Finset.univ.filter fun i => t ∈ D.active i, ?_⟩
  rw [Finset.sum_filter]
  exact D.counts t ht

/-- Widths with all counts among their sums make a decomposition. -/
theorem exists_decomposition {n : ℕ} {width : Fin n → ℕ}
    (h : ∀ c ∈ hitCounts R p, ∃ I : Finset (Fin n), ∑ i ∈ I, width i = c) :
    Nonempty (Decomposition R p n) := by
  have hall : ∀ t < R.nTokens, ∃ I : Finset (Fin n), ∑ i ∈ I, width i = validCount R p t := by
    intro t ht
    by_cases h0 : validCount R p t = 0
    · exact ⟨∅, by simp [h0]⟩
    · exact h _ (mem_hitCounts.mpr ⟨h0, t, ht, rfl⟩)
  choose! I hI using hall
  refine ⟨⟨fun i => (Finset.range R.nTokens).filter fun t => i ∈ I t, width, ?_⟩⟩
  intro t ht
  rw [← hI t ht]
  simp [ht, Finset.sum_ite_mem]

/-- The rounds of a pool are as few as possible exactly when fewer widths never do. -/
theorem isLeast_poolRounds (hp : p < R.nPools) :
    IsLeast {n | Nonempty (Decomposition R p n)} (poolRounds (buildMixPlan R) p) ↔ NoFewer R p := by
  rw [poolRounds_eq hp]
  constructor
  · rintro ⟨_, hleast⟩ n width hn
    by_contra hall
    have hsums : ∀ c ∈ hitCounts R p, ∃ I : Finset (Fin n), ∑ i ∈ I, width i = c := by
      intro c hc
      by_contra hno
      exact hall ⟨c, hc, fun I hI => hno ⟨I, hI⟩⟩
    have hle := hleast (exists_decomposition hsums)
    omega
  · intro h
    refine ⟨length_peelBounds (R := R) (p := p) ▸ ⟨peeling R p⟩, ?_⟩
    rintro n ⟨D⟩
    by_contra hlt
    obtain ⟨c, hc, hne⟩ := h n D.width (by omega)
    obtain ⟨I, hI⟩ := D.exists_sum hc
    exact hne I hI

/-- Up to two distinct counts need a rectangle each. -/
theorem noFewer_of_card_le_two (h : (hitCounts R p).card ≤ 2) : NoFewer R p := by
  intro n width hn
  have hcard : 1 ≤ (hitCounts R p).card := by omega
  obtain ⟨c, hc⟩ := Finset.card_pos.mp hcard
  by_contra hall
  have hsums : ∀ d ∈ hitCounts R p, ∃ I : Finset (Fin n), ∑ i ∈ I, width i = d := by
    intro d hd
    by_contra hno
    exact hall ⟨d, hd, fun I hI => hno ⟨I, hI⟩⟩
  -- one width has one sum that is not zero
  have hone : ∀ d ∈ hitCounts R p, d = ∑ i, width i := by
    intro d hd
    obtain ⟨I, rfl⟩ := hsums d hd
    have hne := (mem_hitCounts.mp hd).1
    have hn1 : n = 1 := by
      rcases Nat.eq_zero_or_pos n with h0 | h0
      · subst h0
        simp [Finset.eq_empty_of_isEmpty I] at hne
      · omega
    subst hn1
    rcases Finset.eq_empty_or_nonempty I with rfl | ⟨i, hi⟩
    · simp at hne
    · have hI : I = Finset.univ := Finset.eq_univ_of_forall fun j => Subsingleton.elim i j ▸ hi
      rw [hI]
  have hle : (hitCounts R p).card ≤ 1 := Finset.card_le_one.mpr fun a ha b hb =>
    (hone a ha).trans (hone b hb).symm
  have hzero : n = 0 := by omega
  subst hzero
  have hne := (mem_hitCounts.mp hc).1
  exact hne (by simpa using hone c hc)

/-- `build_mix_plan` returns a plan with the fewest possible rounds in every pool exactly when the
counter of `peel_bounds` does not wrap and in no pool fewer widths have all its counts among their
sums. -/
theorem mixPlan_minimal_iff (R : MixInput) :
    (∃ fuel o, mixPlanWithin fuel R = some o ∧
        ∀ p < R.nPools, IsLeast {n | Nonempty (Decomposition R p n)} (poolRounds o p)) ↔
      (R.nExpertUsed + 1 < 2 ^ 32 ∨ R.nTokens = 0 ∨ R.nPools = 0) ∧ ∀ p < R.nPools, NoFewer R p := by
  obtain ⟨hplan, hreturns⟩ := mixPlanWithin_iff R
  rw [← hreturns]
  constructor
  · rintro ⟨fuel, o, hsome, hleast⟩
    obtain rfl := hplan fuel o hsome
    exact ⟨⟨fuel, _, hsome⟩, fun p hp => (isLeast_poolRounds hp).mp (hleast p hp)⟩
  · rintro ⟨⟨fuel, o, hsome⟩, hfew⟩
    obtain rfl := hplan fuel o hsome
    exact ⟨fuel, _, hsome, fun p hp => (isLeast_poolRounds hp).mpr (hfew p hp)⟩

/-- Tokens with one, two and three experts in the first pool. -/
def threeCounts : MixInput where
  ids i := [0, 3, 4, 0, 1, 3, 0, 1, 2].getD i (-1)
  nExpertUsed := 3
  nTokens := 3
  expertPool e := [0, 0, 0, 1, 1].getD e (-1)
  nExpert := 5
  nPools := 2

/-- Width 1 for the first and the last token and width 2 for the last two. -/
def twoRectangles : Decomposition threeCounts 0 2 where
  active := ![{0, 2}, {1, 2}]
  width := ![1, 2]
  counts := by decide

theorem not_mixPlan_minimal_threeCounts : ¬ ∃ fuel o, mixPlanWithin fuel threeCounts = some o ∧
    ∀ p < threeCounts.nPools,
      IsLeast {n | Nonempty (Decomposition threeCounts p n)} (poolRounds o p) := by
  rintro ⟨fuel, o, hsome, hleast⟩
  obtain rfl := (mixPlanWithin_iff threeCounts).1 fuel o hsome
  have hle := (hleast 0 (by decide)).2 ⟨twoRectangles⟩
  have hrounds : poolRounds (buildMixPlan threeCounts) 0 = 3 := by decide
  omega

end MixMinimal
end StreamMoE
