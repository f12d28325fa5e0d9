import StreamMoE.ChainNeeds

/-! When the compact chain computes the rows of the closure: the coincidences that mislead it. -/
namespace StreamMoE
namespace CompactTwins

open ComputeGraph MixSplit MixExec Scatter Strided RoundCells
open ExpertAddress (columnOf columnOf_lt)

variable {L : Layer} {R : Routing} {r : MixRound} {dev : Bool} {K : Kernels} {mem : Memory}

theorem ran_of_computes (C : Closure L R) (h : Computes L R r dev K mem) :
    ∃ st, Ran L R r dev K mem L.compute st ∧
      ∀ p ∈ L.body, ∃ T, (p, T) ∈ st.twins ∧ TwinOf L R r K mem p T := by
  obtain ⟨st, hrun, hall, _⟩ := h
  have htwin : ∀ p ∈ L.body, ∃ T, (p, T) ∈ st.twins ∧ TwinOf L R r K mem p T := by
    intro p hp
    obtain ⟨T, hget, hT⟩ := hall p hp
    rcases find_fst (l := st.twins) (q := p) with ⟨T', hget', hmem⟩ | ⟨hnone, _⟩
    · have he : T' = T := Option.some.inj (hget'.symm.trans hget)
      exact ⟨T, he ▸ hmem, hT⟩
    · rw [Chain.twinGet, hnone] at hget
      cases hget
  have hinit : Ran L R r dev K mem [] {} := by
    refine ⟨?_, Nat.zero_le _, Nat.zero_le _, ?_, ?_, ?_, ?_⟩
    · exact fun e he => absurd he List.not_mem_nil
    · exact fun e he => absurd he List.not_mem_nil
    · exact fun p hp => absurd hp List.not_mem_nil
    · exact fun e he => absurd he List.not_mem_nil
    · exact fun e he => absurd he List.not_mem_nil
  refine ⟨st, ran_of_foldlM C ?_ L.compute [] {} rfl hinit hrun, htwin⟩
  intro p hp
  obtain ⟨T, hmem, _⟩ := htwin p hp
  exact List.mem_map_of_mem (f := Prod.fst) hmem

/-- A cell whose offset stays inside a leaf of one token is one of the first token. -/
theorem token_of_table {sh : Shape} (hsh : sh = .packed 1 R.nExpertUsed 1) {c : ℕ × ℕ}
    (hlt : c.1 < R.nTokens) (hused : c.2 < R.nExpertUsed) (h : flatIdx sh c < span sh) : c.1 = 0 := by
  have hval : (c.2 * sh.nb1 + c.1 * sh.nb2) / 4 = c.2 + c.1 * R.nExpertUsed := by
    have hnb2 : sh.nb2 = R.nExpertUsed * 4 := by
      rw [hsh]
      simp only [Shape.packed]
      omega
    have hnb1 : sh.nb1 = 4 := by rw [hsh]; rfl
    rw [hnb1, hnb2, ← Nat.mul_assoc, ← Nat.add_mul, Nat.mul_div_cancel _ (Nat.succ_pos 3)]
  have hspan : span sh = R.nExpertUsed := by
    rw [hsh]
    simp only [span, Shape.packed]
    omega
  have hbound : c.2 + c.1 * R.nExpertUsed < 2 ^ 31 := by
    have hcells := R.cells_lt
    have hmul := Nat.mul_le_mul_right R.nExpertUsed (Nat.succ_le_of_lt hlt)
    rw [Nat.succ_mul] at hmul
    omega
  rw [flatIdx_eq (by rwa [hval]), hval, hspan, Int.ofNat_lt] at h
  by_contra hne
  have hge := Nat.mul_le_mul_right R.nExpertUsed (Nat.one_le_iff_ne_zero.mpr hne)
  omega

theorem tRound_single (hr : r ∈ (buildMixPlan R).rounds) (h : ∀ i < r.nActive, tokenOf R r i = 0) :
    tRound (buildMixPlan R) r = [0] := by
  have hok := round_ok hr
  have hperm := (buildScatterPlan_spec hok.lt hok.nodup (nTokens_le hr) hok.nonempty).1
  rw [length_tRound] at hperm
  have hlen := hperm.length_eq
  rw [List.length_range] at hlen
  have hzero : ∀ t ∈ tRound (buildMixPlan R) r, t = 0 := by
    intro t ht
    obtain ⟨a, ha, rfl⟩ := List.mem_iff_getElem.mp ht
    rw [length_tRound] at ha
    obtain ⟨i, hi, hcol⟩ := List.mem_iff_getElem.mp (hperm.mem_iff.mpr (List.mem_range.mpr ha))
    have htok := h i (by omega)
    rw [tokenOf, columnOf, List.getD_eq_getElem _ _ hi, hcol,
      List.getD_eq_getElem _ _ (by rwa [length_tRound])] at htok
    exact htok
  have hrep := List.eq_replicate_of_mem hzero
  have hnodup := hok.nodup
  have hpos := nActive_pos hr
  rw [length_tRound] at hrep
  rw [hrep, List.nodup_replicate] at hnodup
  have hone : r.nActive = 1 := by omega
  rw [hrep, hone]
  rfl

section needs

variable (C : Closure L R) (h : Computes L R r dev K mem)
include C h

theorem kept_of_computes : ∀ p ∈ L.body, L.graph.op p ≠ .mulMatId → L.replaced p = false := by
  intro p hp hop
  obtain ⟨st, hran, htwin⟩ := ran_of_computes C h
  obtain ⟨T, hmem, _⟩ := htwin p hp
  exact (hran.cloned _ hmem hop).1

theorem twins_of_computes : L.body.length ≤ 64 := by
  obtain ⟨st, hran, htwin⟩ := ran_of_computes C h
  have hsub : L.body ⊆ st.twins.map Prod.fst := by
    intro p hp
    obtain ⟨T, hmem, _⟩ := htwin p hp
    exact List.mem_map_of_mem (f := Prod.fst) hmem
  have hle := (List.subperm_of_subset (body_nodup C) hsub).length_le
  rw [List.length_map] at hle
  exact hle.trans hran.twins_le

theorem gathers_of_computes : (L.body.flatMap (gatherKeys L R)).dedup.length ≤ 16 := by
  obtain ⟨st, hran, _⟩ := ran_of_computes C h
  have hsub : (L.body.flatMap (gatherKeys L R)).dedup ⊆ st.gathers.map Prod.fst := by
    intro q hq
    obtain ⟨p, hp, hkey⟩ := List.mem_flatMap.mp (List.mem_dedup.mp hq)
    exact hran.gathered p (mem_compute_of_body hp) hp hkey
  have hle := (List.subperm_of_subset (List.nodup_dedup _) hsub).length_le
  rw [List.length_map] at hle
  exact hle.trans hran.gathers_le

/-- The twin of a node that is no product has the shape the chain gave it. -/
theorem narrowed_ne1 {p : ℕ} (hp : p ∈ L.body) (hop : L.graph.op p ≠ .mulMatId) :
    (narrowed R r (L.shape p)).ne1 = if L.repeats p then R.nExpert else r.width := by
  obtain ⟨st, hran, htwin⟩ := ran_of_computes C h
  obtain ⟨T, hmem, hshape, _⟩ := htwin p hp
  rw [← (hran.cloned _ hmem hop).2, hshape]
  rfl

theorem slots_of_computes : ∀ p ∈ L.body, L.graph.op p ≠ .mulMatId → L.repeats p = false →
    (L.shape p).ne0 = R.nExpertUsed → r.width = R.nExpertUsed := by
  intro p hp hop hrep hd
  have hne1 := narrowed_ne1 C h hp hop
  have hfull : (L.shape p).ne1 = R.nExpertUsed := congrArg Shape.ne1 (slots_shape C ⟨hp, hrep⟩)
  have hwide : (narrowed R r (L.shape p)).ne1 = (L.shape p).ne1 := if_neg fun hnot => hnot.2 hd
  rw [hrep, hwide, hfull] at hne1
  exact hne1.symm

theorem table_of_computes (hr : r ∈ (buildMixPlan R).rounds) : ∀ p ∈ L.body, L.repeats p = true →
    R.nExpert = R.nExpertUsed →
    r.width = R.nExpertUsed ∧ (TokFull R r ∨ tRound (buildMixPlan R) r = [0]) := by
  intro p hp hrep heq
  obtain ⟨⟨hop, hop'⟩, hshape, q, hsrc, hleaf, hq⟩ := table_built C hp hrep
  have hne0 : (L.shape p).ne0 = 1 := by rw [hshape]; rfl
  have hpne1 : (L.shape p).ne1 = R.nExpertUsed := by rw [hshape]; exact heq
  have hqne1 : (L.shape q).ne1 = R.nExpertUsed := by rw [hq]; exact heq
  have hwidth : r.width = R.nExpertUsed := by
    have hne1 := narrowed_ne1 C h hp hop
    rw [hrep, if_pos rfl, heq] at hne1
    by_cases hone : 1 = R.nExpertUsed
    · have hpos := width_pos hr
      have hle := width_le hr
      omega
    · have hnarrow : (narrowed R r (L.shape p)).ne1 = r.width :=
        if_pos ⟨hpne1, by rw [hne0]; exact hone⟩
      exact hnarrow.symm.trans hne1
  refine ⟨hwidth, ?_⟩
  obtain ⟨st, hran, _⟩ := ran_of_computes C h
  have hkey : q ∈ gatherKeys L R p := by
    rw [gatherKeys_rows hop hop', hsrc, List.mem_filter]
    refine ⟨List.mem_singleton_self q, decide_eq_true ⟨(not_body_of_leaf hleaf).2, ?_, hqne1⟩⟩
    rw [hq]
    rfl
  obtain ⟨e, he, rfl⟩ := List.mem_map.mp (hran.gathered p (mem_compute_of_body hp) hp hkey)
  rcases hran.origin e he with ⟨p', hp', hmm, ⟨w, ids, hsrc'⟩, _⟩ | ⟨_, hgather⟩
  · -- also an activation: then there is one token
    left
    cases C.built p' hp' with
    | mulMatId w' cur ids' _ hsrc'' _ _ _ hcur =>
      have he' : cur = e.1 := by
        rw [hsrc'] at hsrc''
        simpa using (List.cons.inj (List.cons.inj hsrc'').2).1.symm
      rcases hcur with hact | ⟨j, hj, hslice⟩
      · have hone : R.nTokens = 1 := by
          rw [← hact.ne2_eq, he', hq]
          rfl
        have hpos := nActive_pos hr
        have hle := nActive_le hr
        unfold TokFull
        omega
      · have hprod := hslice.producer_eq
        rw [he'] at hprod
        exact absurd (hprod.symm ▸ mem_compute_of_body hj.1) hleaf.2
    | rows hop'' => exact absurd hmm hop''
    | table q' hop'' => exact absurd hmm hop''
    | scale table ids' hop'' => rw [hmm] at hop''; cases hop''
  · unfold gatherPerSlot at hgather
    split at hgather
    · rename_i hdirect
      exact .inl hdirect.1.1
    · split at hgather
      · rename_i hrange
        right
        refine tRound_single hr fun i hi => ?_
        obtain ⟨htok, hlt, hused⟩ := tight_cell hr hi (width_pos hr)
        have hshape' : L.shape e.1 = .packed 1 R.nExpertUsed 1 := by rw [hq, heq]
        exact htok.trans (token_of_table hshape' hlt hused (hrange i hi 0 (width_pos hr)).2)
      · cases hgather

end needs

section stale

/-- Products hand on the first float of the column, everything else is zero. -/
def headKernels : Kernels where
  matVec _ _ xs _ := xs.headD 0
  rowOp _ _ _ := 0

/-- Ones where the closure node `j` has yet to write, zeros elsewhere. -/
def staleMemory (j : ℕ) : Memory := fun root _ => if root = j then 1 else 0

theorem headD_row {T : Tens F32} {v : F32} (hval : ∀ n, T.val n = v) (hpos : 0 < T.ne0) (s i : ℕ) :
    (T.row s i).headD 0 = v := by
  obtain ⟨m, hm⟩ : ∃ m, T.ne0 = m + 1 := ⟨T.ne0 - 1, by omega⟩
  rw [Tens.row, hm, List.range_succ_eq_map, List.map_cons, List.headD_cons, Tens.elem, hval]

theorem gatherCur_val {m T : Tens F32} {v : F32} (h : gatherCur R r dev m = some T)
    (hval : ∀ n, m.val n = v) : T.ne0 = m.ne0 ∧ ∀ n, T.val n = v := by
  unfold gatherCur at h
  split at h
  · cases h
    exact ⟨rfl, hval⟩
  · split at h
    · cases h
      exact ⟨rfl, fun n => hval _⟩
    · cases h

/-- With these kernels the full-width closure is zero. -/
theorem eval_zero (C : Closure L R) {j : ℕ} (hj : j ∈ L.compute) :
    ∀ p ∈ L.body, ∀ n, L.eval R headKernels (staleMemory j) p n = 0 := by
  intro p
  induction p using Nat.strongRecOn with
  | ind p ih =>
    intro hp n
    have hread : ∀ q ∈ reads L p, ∀ n, (L.tens (L.eval R headKernels (staleMemory j)) q).val n = 0 := by
      intro q hq n
      obtain ⟨hsrc, hroot⟩ := reads_spec C hp hq
      rcases hroot with hleaf | ⟨hbody, hslice⟩
      · rw [eval_of_leaf _ _ hleaf]
        have hne : L.graph.root q ≠ j := fun he => hleaf (he ▸ hj)
        exact if_neg hne
      · have hlt : L.graph.root q < p :=
          (Graph.root_le q).trans_lt ((L.graph.conforms p).src_lt q hsrc)
        exact ih _ hlt (hslice.root_eq.symm ▸ hbody) _
    have hown : L.eval R headKernels (staleMemory j) p n =
        (L.result R headKernels (L.eval R headKernels (staleMemory j)) p).val n := by
      have hoffs : L.graph.viewOffs p = 0 := (L.graph.conforms p).own_offs (C.own p hp)
      rw [← tens_eval C headKernels (staleMemory j) hp]
      simp only [Layer.tens, root_body C hp, hoffs, Nat.zero_add]
    rw [hown]
    cases C.built p hp with
    | mulMatId w cur ids hop hsrc =>
      rw [result_mulMatId _ _ hop hsrc]
      have hcur := hread cur (by simp [reads, hop, hsrc])
      exact headD_row hcur (C.pos cur) _ _
    | rows hop hop' =>
      rw [result_rows _ _ hop hop']
      rfl
    | table q hop hop' =>
      rw [result_rows _ _ hop hop']
      rfl
    | scale table ids hop _ hsrc =>
      rw [result_getRows _ _ hop hsrc]
      exact hread table (by simp [reads, hop, hsrc]) _

/-- A product that reads a view of the closure reads what was there before. -/
theorem whole_of_computes (C : Closure L R) (hr : r ∈ (buildMixPlan R).rounds)
    (h : ∀ K mem, Computes L R r dev K mem) : ∀ p ∈ L.body, L.graph.op p = .mulMatId → ∀ w cur ids,
      (L.graph.tensor p).src = [some w, some cur, some ids] →
        producer L.graph cur ∈ L.body → cur ∈ L.body := by
  intro p hp hop w cur ids hsrc hprod
  by_contra hcur
  have hslice : SliceOf L cur (producer L.graph cur) := by
    have hreads : cur ∈ reads L p := by simp [reads, hop, hsrc]
    rcases (reads_spec C hp hreads).2 with hleaf | hslice
    · cases C.built p hp with
      | mulMatId w' cur' ids' _ hsrc' _ _ _ hfrom =>
        have he : cur' = cur := by
          rw [hsrc] at hsrc'
          simpa using (List.cons.inj (List.cons.inj hsrc').2).1.symm
        subst he
        rcases hfrom with hact | ⟨j, hj, hslice⟩
        · exact absurd (mem_compute_of_body hprod) hact.leaf.2
        · rw [hslice.producer_eq]
          exact hslice
      | rows hop' => exact absurd hop hop'
      | table q hop' => exact absurd hop hop'
      | scale table ids' hop' => rw [hop] at hop'; cases hop'
    · exact hslice.2
  have hj := mem_compute_of_body hprod
  obtain ⟨st, hran, htwin⟩ :=
    ran_of_computes C (h headKernels (staleMemory (producer L.graph cur)))
  obtain ⟨T, hmem, hshape, hrows⟩ := htwin p hp
  obtain ⟨T', horigin, hT⟩ := hran.product _ hmem w cur ids hop hsrc hcur
  have hgather : gatherCur R r dev (L.tens (staleMemory (producer L.graph cur)) cur) = some T' := by
    rcases horigin with ⟨_, _, _, _, hgather⟩ | ⟨hnot, _⟩
    · exact hgather
    · exact absurd hprod hnot
  have hstale : ∀ n, (L.tens (staleMemory (producer L.graph cur)) cur).val n = 1 := by
    intro n
    exact if_pos hslice.root_eq
  obtain ⟨hne0, hones⟩ := gatherCur_val hgather hstale
  -- the twin is one everywhere, its node zero
  have hT₁ : ∀ n, T.val n = 1 := by
    intro n
    have hval : T.val n = (T'.row _ _).headD 0 := congrFun (congrArg Tens.val hT) n
    rw [hval, headD_row hones (by rw [hne0]; exact C.pos cur)]
  have hnode : L.repeats p = false := by
    cases C.built p hp with
    | mulMatId _ _ _ _ _ hrep => exact hrep
    | rows hop' => exact absurd hop hop'
    | table q hop' => exact absurd hop hop'
    | scale _ _ hop' => rw [hop] at hop'; cases hop'
  have hrow := hrows 0 (nActive_pos hr)
  rw [hnode] at hrow
  have heq := hrow 0 (width_pos hr)
  have hTne0 : T.ne0 = (L.tens (L.eval R headKernels (staleMemory (producer L.graph cur))) p).ne0 := by
    rw [hshape]
    rfl
  have helem := (Tens.row_eq_iff hTne0).mp heq 0 (C.pos p)
  rw [Tens.elem, hT₁, Tens.elem] at helem
  have hzero := eval_zero (R := R) C hj p hp
  simp only [Layer.tens, root_body C hp, hzero] at helem
  exact absurd helem (by decide)

end stale

/-- The chain of a round computes the rows of a closure, whatever the operators and the memory,
when no shape, name or table size misleads it and its offsets are what it takes them for; and it
does so only if nothing of the first kind misleads it. -/
theorem compactTwins_plain (C : Closure L R) (hr : r ∈ (buildMixPlan R).rounds) (dev : Bool) :
    (Plain L R r → Offsets L R r dev → ∀ K mem, Computes L R r dev K mem) ∧
      ((∀ K mem, Computes L R r dev K mem) → Plain L R r) := by
  refine ⟨fun hplain hoffs K mem => computes_of_plain K mem C hr hplain hoffs, ?_⟩
  intro h
  have h₀ := h headKernels (staleMemory 0)
  exact ⟨slots_of_computes C h₀, table_of_computes C h₀ hr, whole_of_computes C hr h,
    kept_of_computes C h₀, twins_of_computes C h₀, gathers_of_computes C h₀⟩

section small

def twoTokens : Routing where
  ids n := [0, 1, 1, 2].getD n (-1)
  nExpertUsed := 2
  nTokens := 2
  expertPool e := [0, 1, 0].getD e (-1)
  nExpert := 3
  nPools := 2
  cells_lt := by decide

def scaledTensors : List Tensor :=
  [{ name := "blk.0.ffn_gate_up_exps.weight" }, {}, { name := "ffn_moe_topk-0" },
    { name := "blk.0.ffn_down_exps.weight" }, {}, { name := "ffn_moe_weights-0" },
    { op := .mulMatId, src := [some 0, some 1, some 2], name := "ffn_moe_gate_up-0" },
    { op := .view, src := [some 6], viewSrc := some 6 },
    { op := .view, src := [some 6], viewSrc := some 6, viewOffs := 12 },
    { op := .other 0, src := [some 7, some 8], name := "ffn_moe_geglu-0" },
    { op := .mulMatId, src := [some 3, some 9, some 2], name := "ffn_moe_down-0" },
    { op := .other 1, src := [some 4], name := "node_56" },
    { op := .getRows, src := [some 11, some 2], name := "node_57" },
    { op := .other 2, src := [some 10, some 12], name := "ffn_moe_down_scaled-0" },
    { op := .other 2, src := [some 13, some 5], name := "ffn_moe_weighted-0" },
    { op := .view, src := [some 14], viewSrc := some 14 },
    { op := .view, src := [some 14], viewSrc := some 14, viewOffs := 20 },
    { op := .add, src := [some 15, some 16], name := "ffn_moe_out-0" }]

/-- Gate and up products in one, cut into halves; down products scaled by expert and weighted. -/
def scaledLayer : Layer where
  graph := .ofList scaledTensors (List.range' 6 12) (by decide) (by decide)
  shape q := [.packed 1 6 3, .packed 1 1 2, .packed 2 2 1, .packed 3 5 3, .packed 1 3 1,
    .packed 1 2 2, .packed 6 2 2, ⟨3, 2, 2, 24, 48⟩, ⟨3, 2, 2, 24, 48⟩, .packed 3 2 2,
    .packed 5 2 2, .packed 1 3 2, .packed 1 2 2, .packed 5 2 2, .packed 5 2 2].getD q (.packed 1 1 1)
  repeats q := decide (q = 11)
  compute := [6, 9, 10, 11, 12, 13, 14, 17]
  fold q := decide (q = 17)
  foldSrc := 14

theorem scaled_body : scaledLayer.body = [6, 9, 10, 11, 12, 13, 14] := by decide

theorem scaled_leaf {q : ℕ} (h : scaledLayer.graph.root q ∉ scaledLayer.compute ∧
    producer scaledLayer.graph q ∉ scaledLayer.compute) : Leaf scaledLayer q := h

theorem scaled_slots {q j : ℕ} (hj : j ∈ scaledLayer.body ∧ scaledLayer.repeats j = false)
    (h : (producer scaledLayer.graph q = j ∧ scaledLayer.graph.root q = j) ∧
      ((scaledLayer.shape q).ne1 = (scaledLayer.shape j).ne1 ∧
        (scaledLayer.shape q).ne2 = (scaledLayer.shape j).ne2 ∧
        (scaledLayer.shape q).nb1 = (scaledLayer.shape j).nb1 ∧
        (scaledLayer.shape q).nb2 = (scaledLayer.shape j).nb2) ∧
      4 ∣ scaledLayer.graph.viewOffs q ∧
      scaledLayer.graph.viewOffs q + 4 * (scaledLayer.shape q).ne0 ≤ 4 * (scaledLayer.shape j).ne0) :
    ∃ j, Slots scaledLayer j ∧ SliceOf scaledLayer q j :=
  ⟨j, hj, h.1.1, h.1.2, h.2.1.1, h.2.1.2.1, h.2.1.2.2.1, h.2.1.2.2.2, h.2.2.1, h.2.2.2⟩

theorem scaled_built : ∀ p ∈ scaledLayer.body, Built scaledLayer twoTokens p := by
  have hrouting : RoutingLeaf scaledLayer twoTokens 5 :=
    ⟨scaled_leaf (by decide), by decide, by decide, by decide, by decide, by decide⟩
  intro p hp
  rw [scaled_body] at hp
  simp only [List.mem_cons, List.not_mem_nil, or_false] at hp
  rcases hp with rfl | rfl | rfl | rfl | rfl | rfl | rfl
  · exact .mulMatId 0 1 2 (by decide) (by decide) (by decide) (by decide) (by decide)
      (.inl ⟨scaled_leaf (by decide), by decide, by decide⟩)
  · refine .rows (by decide) (by decide) (by decide) (by decide) (by decide) fun q hq => .inr ?_
    have hq' : q = 7 ∨ q = 8 := by simpa [scaledLayer, Graph.ofList, scaledTensors, Tensor.sources] using hq
    rcases hq' with rfl | rfl
    · exact @scaled_slots 7 6 (by decide) (by decide)
    · exact @scaled_slots 8 6 (by decide) (by decide)
  · exact .mulMatId 3 9 2 (by decide) (by decide) (by decide) (by decide) (by decide)
      (.inr (@scaled_slots 9 9 (by decide) (by decide)))
  · exact .table 4 (by decide) (by decide) (by decide) (by decide) (by decide)
      (scaled_leaf (by decide)) (by decide)
  · exact .scale 11 2 (by decide) (by decide) (by decide) (by decide) (by decide) (by decide)
  · refine .rows (by decide) (by decide) (by decide) (by decide) (by decide) fun q hq => .inr ?_
    have hq' : q = 10 ∨ q = 12 := by
      simpa [scaledLayer, Graph.ofList, scaledTensors, Tensor.sources] using hq
    rcases hq' with rfl | rfl
    · exact @scaled_slots 10 10 (by decide) (by decide)
    · exact @scaled_slots 12 12 (by decide) (by decide)
  · refine .rows (by decide) (by decide) (by decide) (by decide) (by decide) fun q hq => ?_
    have hq' : q = 13 ∨ q = 5 := by
      simpa [scaledLayer, Graph.ofList, scaledTensors, Tensor.sources] using hq
    rcases hq' with rfl | rfl
    · exact .inr (@scaled_slots 13 13 (by decide) (by decide))
    · exact .inl hrouting

theorem scaled_closure : Closure scaledLayer twoTokens where
  nodup := by decide
  operands_first := by decide
  built := scaled_built
  computed := by decide
  own := by decide
  pos q := by
    by_cases hq : q < 15
    · have hall : ∀ q < 15, 0 < (scaledLayer.shape q).ne0 := by decide
      exact hall q hq
    · have hdefault : scaledLayer.shape q = .packed 1 1 1 := by
        simp only [scaledLayer, List.getD_eq_getElem?_getD]
        rw [List.getElem?_eq_none (by simpa using hq), Option.getD_none]
      rw [hdefault]
      decide
  fold_replaced := by decide
  foldSrc_slots := by
    refine ⟨by decide, by decide⟩
  read := by decide

theorem scaled_plain : Plain scaledLayer twoTokens ⟨0, 1, 2, 0⟩ where
  slots := by decide
  table := by
    intro _ _ _ heq
    exact absurd heq (by decide)
  whole := by
    have hall : ∀ p ∈ scaledLayer.body, ∀ cur ∈ ((scaledLayer.graph.tensor p).src.getD 1 none),
        scaledLayer.graph.op p = .mulMatId → producer scaledLayer.graph cur ∈ scaledLayer.body →
          cur ∈ scaledLayer.body := by decide
    intro p hp hop w cur ids hsrc
    exact hall p hp cur (by rw [hsrc]; rfl) hop
  kept := by decide
  twins := by decide
  gathers := by decide

theorem scaled_rounds : (⟨0, 1, 2, 0⟩ : MixRound) ∈ (buildMixPlan twoTokens).rounds := by decide

theorem scaled_offsets (dev : Bool) : Offsets scaledLayer twoTokens ⟨0, 1, 2, 0⟩ dev where
  views := by decide
  floats := by
    have hall : ∀ p ∈ scaledLayer.body, ∀ q ∈ (scaledLayer.graph.tensor p).sources,
        (scaledLayer.shape q).nb1 ≤ 60 ∧ (scaledLayer.shape q).nb2 ≤ 60 := by decide
    intro p hp q hq _ _ i hi s hs
    obtain ⟨hnb1, hnb2⟩ := hall p hp q hq
    obtain ⟨_, hlt, hused⟩ := tight_cell scaled_rounds hi hs
    have hk : (cell twoTokens ⟨0, 1, 2, 0⟩ i s).2 * (scaledLayer.shape q).nb1 ≤ 2 * 60 :=
      Nat.mul_le_mul (le_of_lt hused) hnb1
    have ht : (cell twoTokens ⟨0, 1, 2, 0⟩ i s).1 * (scaledLayer.shape q).nb2 ≤ 2 * 60 :=
      Nat.mul_le_mul (le_of_lt hlt) hnb2
    omega

/-- Half of the slots of two tokens, on the CPU. -/
theorem compactTwins_plain_scaled : Plain scaledLayer twoTokens ⟨0, 1, 2, 0⟩ ∧ ∀ K mem,
    Computes scaledLayer twoTokens ⟨0, 1, 2, 0⟩ false K mem :=
  ⟨scaled_plain,
    (compactTwins_plain scaled_closure scaled_rounds false).1 scaled_plain (scaled_offsets false)⟩

/-- One token, its two experts in different pools. -/
def oneToken : Routing where
  ids n := [0, 1].getD n (-1)
  nExpertUsed := 2
  nTokens := 1
  expertPool e := [0, 1].getD e (-1)
  nExpert := 2
  nPools := 2
  cells_lt := by decide

def squareTensors : List Tensor :=
  [{ name := "blk.0.ffn_down_exps.weight" }, {}, { name := "ffn_moe_topk-0" },
    { name := "ffn_moe_weights-0" },
    { op := .mulMatId, src := [some 0, some 1, some 2], name := "ffn_moe_down-0" },
    { op := .other 2, src := [some 4, some 3], name := "ffn_moe_weighted-0" },
    { op := .view, src := [some 5], viewSrc := some 5 },
    { op := .view, src := [some 5], viewSrc := some 5, viewOffs := 8 },
    { op := .add, src := [some 6, some 7], name := "ffn_moe_out-0" }]

/-- Rows as long as a token has slots: `ffn_moe_weighted` keeps its full width, and its operand has
half of it. -/
def squareLayer : Layer where
  graph := .ofList squareTensors (List.range' 4 5) (by decide) (by decide)
  shape q := [.packed 1 2 2, .packed 1 1 1, .packed 2 1 1, .packed 1 2 1, .packed 2 2 1,
    .packed 2 2 1].getD q (.packed 1 1 1)
  repeats _ := false
  compute := [4, 5, 8]
  fold q := decide (q = 8)
  foldSrc := 5

theorem square_closure : Closure squareLayer oneToken where
  nodup := by decide
  operands_first := by decide
  built := by
    have hbody : squareLayer.body = [4, 5] := by decide
    have hleaf : ∀ {q : ℕ}, (squareLayer.graph.root q ∉ squareLayer.compute ∧
        producer squareLayer.graph q ∉ squareLayer.compute) → Leaf squareLayer q := id
    intro p hp
    rw [hbody] at hp
    simp only [List.mem_cons, List.not_mem_nil, or_false] at hp
    rcases hp with rfl | rfl
    · exact .mulMatId 0 1 2 (by decide) (by decide) (by decide) (by decide) (by decide)
        (.inl ⟨hleaf (by decide), by decide, by decide⟩)
    · refine .rows (by decide) (by decide) (by decide) (by decide) (by decide) fun q hq => ?_
      have hq' : q = 4 ∨ q = 3 := by
        simpa [squareLayer, Graph.ofList, squareTensors, Tensor.sources] using hq
      rcases hq' with rfl | rfl
      · exact .inr ⟨4, ⟨by decide, by decide⟩, by decide, by decide, by decide, by decide, by decide,
          by decide, by decide, by decide⟩
      · exact .inl ⟨hleaf (by decide), by decide, by decide, by decide, by decide, by decide⟩
  computed := by decide
  own := by decide
  pos q := by
    by_cases hq : q < 6
    · have hall : ∀ q < 6, 0 < (squareLayer.shape q).ne0 := by decide
      exact hall q hq
    · have hdefault : squareLayer.shape q = .packed 1 1 1 := by
        simp only [squareLayer, List.getD_eq_getElem?_getD]
        rw [List.getElem?_eq_none (by simpa using hq), Option.getD_none]
      rw [hdefault]
      decide
  fold_replaced := by decide
  foldSrc_slots := ⟨by decide, by decide⟩
  read := by decide

theorem square_misled : Closure squareLayer oneToken ∧
    (⟨0, 1, 1, 0⟩ : MixRound) ∈ (buildMixPlan oneToken).rounds ∧
    ∀ dev K mem, ¬ Computes squareLayer oneToken ⟨0, 1, 1, 0⟩ dev K mem := by
  refine ⟨square_closure, by decide, ?_⟩
  intro dev K mem h
  exact absurd (slots_of_computes square_closure h 5 (by decide) (by decide) rfl rfl) (by decide)

end small

end CompactTwins
end StreamMoE
