import StreamMoE.FastPathChain
import StreamMoE.MoeOutPlacement

/-! When the shortcuts agree with the general path: always for the columns of a round and for a direct
result, and for the cells of a leaf as long as the general path can number them. -/
namespace StreamMoE
namespace FastPaths

open ComputeGraph MixSplit MixExec Scatter Strided CompactTwins LayerOutput LayerResult RoundCells Buffers
open GraphCapacity (twinNodes operands)

variable {L : Layer} {R : Routing} {D : Devices} {m : MoeOut}

section output

/-- The last segment of a round ends at its last column, so a view of it bounds the column length. -/
theorem dOut_le_of_views {r : MixRound} (hr : r ∈ (buildMixPlan R).rounds)
    (h : ∀ seg ∈ (scatterPlan R r).segs, ViewFits L r seg) : dOut L ≤ foldRow L := by
  have hok := round_ok hr
  have hpos := nActive_pos hr
  have hpairs := (buildScatterPlan_spec hok.lt hok.nodup (nTokens_le hr) hok.nonempty).2
  have hlast : ∃ pair ∈ (scatterPlan R r).segs.flatMap segPairs, pair.1 = r.nActive - 1 := by
    rw [scatterPlan, hpairs, length_tRound]
    exact ⟨_, List.mem_map.mpr ⟨r.nActive - 1, List.mem_range.mpr (by omega), rfl⟩, rfl⟩
  obtain ⟨pair, hpair, hcol⟩ := hlast
  obtain ⟨seg, hseg, hmem⟩ := List.mem_flatMap.mp hpair
  obtain ⟨i, hi, rfl⟩ := List.mem_map.mp hmem
  have hi' : i < seg.len := List.mem_range.mp hi
  have hend := (segment_lt hr hseg (i := seg.len - 1) (by omega)).1
  have hcol' : seg.src + i = r.nActive - 1 := hcol
  have hsum : r.nActive = seg.src + seg.len := by omega
  have hfits := (h seg hseg).resolve_left (by omega)
  rw [hsum, Nat.add_mul] at hfits
  exact Nat.le_of_mul_le_mul_left (Nat.le_of_add_le_add_left hfits) (by omega)

variable {A : Type*} [AddCommMonoid A]

/-- A direct result is accepted wherever an accumulated one is. -/
theorem converge_direct_ok (hlen : dOut L = foldRow L) (hc : contiguous L m = true)
    {st₀ st' : Buffers.State Buf A} (h : converge L R D m false st₀ = .ok st')
    (st₁ : Buffers.State Buf A) : ∃ st, converge L R D m true st₁ = .ok st := by
  cases hs : single R D with
  | none =>
    simp only [converge, hs, tensorWriteHost] at h ⊢
    split at h
    · rename_i hfits
      rw [if_pos hfits]
      split <;> exact ⟨_, rfl⟩
    · cases h
  | some p =>
    simp only [converge, hs, hc, and_true] at h ⊢
    split at h
    · rename_i hsame
      rw [if_pos hsame]
      exact ⟨_, rfl⟩
    · rename_i hsame
      rw [if_neg hsame]
      split at h
      · rename_i hhost
        rw [if_pos hhost, tensorGet, ← hlen, accSize, if_pos (Nat.le_refl _)]
        exact ⟨_, rfl⟩
      · rename_i hhost
        rw [if_neg hhost, tensorCopy, ← hlen]
        unfold tensorCopy at h
        split at h
        · rename_i hlayout
          rw [if_pos hlayout]
          exact ⟨_, rfl⟩
        · cases h

/-- A result that is written directly is the accumulated one, column for column. -/
theorem output_follow (C : Closure L R) (hd : directOut L R m = true)
    (hviews : ∀ r ∈ (buildMixPlan R).rounds, ∀ seg ∈ (scatterPlan R r).segs, ViewFits L r seg)
    (c : ℕ → ℕ → ℕ → A) (mem : Buf → ℕ → A) {st' : Buffers.State Buf A}
    (h : converge L R D m false (compute L R D m false c mem) = .ok st') :
    ∃ st, converge L R D m true (compute L R D m true c mem) = .ok st ∧
      ∀ t < R.nTokens, ∀ x < dOut L,
        st.mem .moeOut (t * dOut L + x) = st'.mem .moeOut (t * dOut L + x) := by
  rw [directOut, Bool.and_eq_true] at hd
  obtain ⟨r, hrounds, -, -⟩ := singleTarget_round hd.1
  have hr : r ∈ (buildMixPlan R).rounds := by simp [hrounds]
  have hle : foldRow L ≤ dOut L :=
    dOut_le_iff.mp (Nat.le_refl _) _ (mem_compute_of_body C.foldSrc_slots.1)
  have hlen := (dOut_le_of_views hr (hviews r hr)).antisymm hle
  obtain ⟨st, hst⟩ := converge_direct_ok hlen hd.2 h (compute L R D m true c mem)
  refine ⟨st, hst, ?_⟩
  intro t ht x hx
  rw [converge_direct hlen hd.1 c mem hst t ht x hx,
    converge_accumulated hlen (List.ne_nil_of_mem hr) c mem h t ht x hx]

end output

section limits

variable {A : Type*} [AddCommMonoid A]

/-- A leaf without gaps can be numbered whatever the round. -/
theorem not_wraps_of_packed {r : MixRound} (hr : r ∈ (buildMixPlan R).rounds) {q : ℕ}
    (hne1 : (L.shape q).ne1 = R.nExpertUsed) (hnb1 : (L.shape q).nb1 = 4)
    (hnb2 : (L.shape q).nb2 = (L.shape q).ne1 * 4) : ¬ WrapsAround L R r q := by
  rintro ⟨hdirect, -, i, hi, s, hs, hne⟩
  exact hne (index_of_packed hr hdirect.1 hne1 hnb1 hnb2 hi hs)

/-- The shortcuts agree with the general path in every round exactly if no leaf that is read in place
has cells whose indices lose their upper bits there. -/
theorem shortcuts_iff (C : Closure L R) : ShortcutsAgree L R A ↔
    ∀ r ∈ (buildMixPlan R).rounds, ∀ q, SlotLeaf L R q → ¬ WrapsAround L R r q := by
  constructor
  · intro h r hr q hq hwraps
    obtain ⟨mem, hmem⟩ := not_follows_of_wraps hr hwraps
    exact hmem ((h.rows r hr false mem q).2 hq)
  · intro h
    have hcur : ∀ r ∈ (buildMixPlan R).rounds, ∀ dev mem q, ColumnLeaf L q →
        Follows (gatherCur R r dev (L.tens mem q)) (generalCur R r (L.tens mem q)) :=
      fun r hr dev mem q hq => follows_cur hr (columnLeaf_ne2 C hq)
    have hslot : ∀ r ∈ (buildMixPlan R).rounds, ∀ dev mem q, SlotLeaf L R q →
        Follows (gatherPerSlot R r dev (L.tens mem q)) (generalPerSlot R r (L.tens mem q)) := by
      intro r hr dev mem q hq
      obtain ⟨h₁, h₂, hne2⟩ := slotLeaf_shape C hq
      have hshape := hq
      obtain ⟨p, -, -, -, -, hne0, hne1⟩ := hshape
      refine follows_perSlot hr hne0 hne1 ⟨h₁, h₂⟩ hne2 ?_
      intro hdirect hspan i hi s hs
      by_contra hne
      exact h r hr q hq ⟨hdirect, hspan, i, hi, s, hs, hne⟩
    exact {
      rows := fun r hr dev mem q => ⟨hcur r hr dev mem q, hslot r hr dev mem q⟩
      values := fun r hr dev K mem st' hst =>
        appendChain_follow C (hcur r hr dev mem) (hslot r hr dev mem) hst
      output := fun D m hd hviews c mem st' hst => output_follow C hd hviews c mem hst }

end limits

section weights

def weightTensors : List Tensor :=
  [{ name := "blk.0.ffn_down_exps.weight" }, { name := "ffn_norm-0" }, { name := "ffn_moe_topk-0" },
    { name := "ffn_moe_weights-0" },
    { op := .mulMatId, src := [some 0, some 1, some 2], name := "ffn_moe_down-0" },
    { op := .other 2, src := [some 4, some 3], name := "ffn_moe_weighted-0" },
    { op := .add, src := [some 5], name := "ffn_moe_out-0" }]

def weightGraph : Graph := .ofList weightTensors [4, 5, 6] (by decide) (by decide)

/-- Two tokens with one expert each, and a routing weight for each; `step` bytes between the weights. -/
def weightLayer (step : ℕ) : Layer where
  graph := weightGraph
  shape q := [.packed 1 2 1, .packed 1 1 2, .packed 1 2 1,
    { ne0 := 1, ne1 := 1, ne2 := 2, nb1 := 4, nb2 := step }, .packed 2 1 2, .packed 2 1 2,
    .packed 2 2 1].getD q (.packed 1 1 1)
  repeats _ := false
  compute := [4, 5, 6]
  fold q := decide (q = 6)
  foldSrc := 5

def oneExpert : Routing where
  ids _ := 0
  nExpertUsed := 1
  nTokens := 2
  expertPool _ := 0
  nExpert := 1
  nPools := 1
  cells_lt := by decide

theorem weight_body (step : ℕ) : (weightLayer step).body = [4, 5] :=
  (by decide : [4, 5, 6].filter (fun p => !isViewOp (weightGraph.op p) && !decide (p = 6)) = [4, 5])

theorem weight_slots (step : ℕ) : Slots (weightLayer step) 4 :=
  ⟨by rw [weight_body]; exact List.mem_cons_self, rfl⟩

theorem weight_built {step : ℕ} (h : 4 ∣ step) :
    ∀ p ∈ (weightLayer step).body, Built (weightLayer step) oneExpert p := by
  have hleaf : ∀ {q : ℕ}, (weightGraph.root q ∉ [4, 5, 6] ∧ producer weightGraph q ∉ [4, 5, 6]) →
      Leaf (weightLayer step) q := id
  intro p hp
  rw [weight_body] at hp
  simp only [List.mem_cons, List.not_mem_nil, or_false] at hp
  rcases hp with rfl | rfl
  · exact .mulMatId 0 1 2 (by decide : weightGraph.op 4 = .mulMatId) rfl rfl rfl rfl
      (.inl ⟨hleaf (by decide), rfl, rfl⟩)
  · refine .rows (by decide : weightGraph.op 5 ≠ .mulMatId) (by decide : weightGraph.op 5 ≠ .getRows) rfl
      (by decide : (weightGraph.tensor 5).sources ≠ []) rfl fun q hq => ?_
    have hq' : q = 4 ∨ q = 3 := by
      simpa [weightLayer, weightGraph, Graph.ofList, weightTensors, Tensor.sources] using hq
    rcases hq' with rfl | rfl
    · exact .inr ⟨4, weight_slots step, (by decide : producer weightGraph 4 = 4),
        (by decide : weightGraph.root 4 = 4), rfl, rfl, rfl, rfl, (by decide : 4 ∣ weightGraph.viewOffs 4),
        (by decide : weightGraph.viewOffs 4 + 4 * 2 ≤ 4 * 2)⟩
    · exact .inl ⟨hleaf (by decide), rfl, rfl, rfl, Nat.dvd_refl 4, h⟩

theorem weight_closure {step : ℕ} (h : 4 ∣ step) : Closure (weightLayer step) oneExpert where
  nodup := (by decide : [4, 5, 6].Nodup)
  operands_first := (by decide : [4, 5, 6].Pairwise fun a b =>
    ∀ q ∈ (weightGraph.tensor a).sources, producer weightGraph q ≠ b)
  built := weight_built h
  computed := by
    rw [weight_body]
    exact (by decide : ∀ p ∈ [4, 5], weightGraph.op p ≠ .none)
  own := by
    rw [weight_body]
    exact (by decide : ∀ p ∈ [4, 5], weightGraph.viewSrc p = none)
  pos q := by
    rcases q with _ | _ | _ | _ | _ | _ | _ | q <;> exact Nat.succ_pos _
  fold_replaced p _ hfold := by
    obtain rfl : p = 6 := of_decide_eq_true hfold
    refine ⟨?_, (by decide : weightGraph.op 6 ≠ .mulMatId)⟩
    exact (by decide : (LayerPlan.hasText (weightGraph.tensor 6).name "ffn_moe_out" ||
      (decide (weightGraph.op 6 = .add) &&
        !LayerPlan.hasText (weightGraph.tensor 6).name "ffn_moe_")) = true)
  foldSrc_slots := ⟨by rw [weight_body]; exact List.mem_cons_of_mem 4 List.mem_cons_self, rfl⟩
  read := by
    rw [weight_body]
    exact (by decide : ∀ p ∈ [4, 5], p ≠ 5 →
      ∃ p' ∈ [4, 5], ∃ q ∈ (weightGraph.tensor p').sources, producer weightGraph q = p)

theorem slotLeaf_weight {step q : ℕ} (hstep : 4 ∣ step)
    (h : SlotLeaf (weightLayer step) oneExpert q) : q = 3 := by
  obtain ⟨p, hp, hop, hq, -, hne0, -⟩ := h
  have hbody := mem_body_of_twin (weight_closure hstep) hp
  rw [weight_body, List.mem_cons, List.mem_singleton] at hbody
  have hsrc := GraphCapacity.operands_sub hq
  rcases hbody with rfl | rfl
  · exact absurd (by decide : weightGraph.op 4 = .mulMatId) hop
  · have hq' : q = 4 ∨ q = 3 := by
      simpa [weightLayer, weightGraph, Graph.ofList, weightTensors, Tensor.sources] using hsrc
    refine hq'.resolve_left ?_
    rintro rfl
    have htwo : (2 : ℕ) = 1 := hne0
    omega

theorem weight_round : (buildMixPlan oneExpert).rounds = [⟨0, 1, 2, 0⟩] := by decide

/-- Weights without gaps: every shortcut agrees. -/
theorem shortcuts_packed : ShortcutsAgree (weightLayer 4) oneExpert ℤ := by
  refine (shortcuts_iff (weight_closure (Nat.dvd_refl 4))).mpr fun r hr q hq => ?_
  obtain rfl := slotLeaf_weight (Nat.dvd_refl 4) hq
  exact not_wraps_of_packed hr rfl rfl rfl

/-- Weights 16 GiB apart: the index of the second token's weight is that of the first, where the weights
are not read in place. -/
theorem not_shortcuts_far : Closure (weightLayer (2 ^ 34)) oneExpert ∧
    ¬ ShortcutsAgree (weightLayer (2 ^ 34)) oneExpert ℤ := by
  refine ⟨weight_closure (by decide), fun h => ?_⟩
  have hr : (⟨0, 1, 2, 0⟩ : MixRound) ∈ (buildMixPlan oneExpert).rounds := by
    rw [weight_round]
    exact List.mem_cons_self
  have hslot : SlotLeaf (weightLayer (2 ^ 34)) oneExpert 3 :=
    ⟨5, by decide, by decide, by decide, by decide, rfl, rfl⟩
  have hdirect : Direct oneExpert ⟨0, 1, 2, 0⟩ false ((weightLayer (2 ^ 34)).shape 3) :=
    ⟨⟨rfl, rfl⟩, .inl rfl⟩
  have hzero : ∀ i < 2, ∀ s < 1, flatIdx ((weightLayer (2 ^ 34)).shape 3) (i, s) = 0 := by decide
  have hidx : ∀ i < 2, ∀ s < 1,
      flatIdx ((weightLayer (2 ^ 34)).shape 3) (cell oneExpert ⟨0, 1, 2, 0⟩ i s) = 0 := by
    intro i hi s hs
    rw [direct_cell hr hdirect hi hs, hzero i hi s hs]
  have hspan : InSpan oneExpert ⟨0, 1, 2, 0⟩ ((weightLayer (2 ^ 34)).shape 3) := by
    intro i hi s hs
    rw [hidx i hi s hs]
    decide
  have hwraps : WrapsAround (weightLayer (2 ^ 34)) oneExpert ⟨0, 1, 2, 0⟩ 3 := by
    refine ⟨hdirect, hspan, 1, by decide, 0, by decide, ?_⟩
    rw [hidx 1 (by decide) 0 (by decide), direct_cell hr hdirect (by decide) (by decide)]
    decide
  obtain ⟨mem, hmem⟩ := not_follows_of_wraps hr hwraps
  exact hmem ((h.rows _ hr false mem 3).2 hslot)

end weights

end FastPaths
end StreamMoE
