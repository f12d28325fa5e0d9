import StreamMoE.CompactTwins

/-! What an expert closure is built from, and what its full-width nodes hold: every node the value
of its operands, which keep theirs. -/
namespace StreamMoE
namespace CompactTwins

open ComputeGraph MixSplit MixExec Scatter Strided

variable (L : Layer) (R : Routing)

/-- A node with a row for every slot of every token. -/
def Slots (j : ℕ) : Prop := j ∈ L.body ∧ L.repeats j = false

/-- A tensor of the closure itself or views of it that cut the first axis. -/
structure SliceOf (q j : ℕ) : Prop where
  producer_eq : producer L.graph q = j
  root_eq : L.graph.root q = j
  ne1_eq : (L.shape q).ne1 = (L.shape j).ne1
  ne2_eq : (L.shape q).ne2 = (L.shape j).ne2
  nb1_eq : (L.shape q).nb1 = (L.shape j).nb1
  nb2_eq : (L.shape q).nb2 = (L.shape j).nb2
  offs_dvd : 4 ∣ L.graph.viewOffs q
  offs_le : L.graph.viewOffs q + 4 * (L.shape q).ne0 ≤ 4 * (L.shape j).ne0

def Leaf (q : ℕ) : Prop := L.graph.root q ∉ L.compute ∧ producer L.graph q ∉ L.compute

/-- Routing weights: one float for every slot of every token. -/
structure RoutingLeaf (q : ℕ) : Prop where
  leaf : Leaf L q
  ne0_eq : (L.shape q).ne0 = 1
  ne1_eq : (L.shape q).ne1 = R.nExpertUsed
  ne2_eq : (L.shape q).ne2 = R.nTokens
  nb1_dvd : 4 ∣ (L.shape q).nb1
  nb2_dvd : 4 ∣ (L.shape q).nb2

/-- The shared activation, one column for every token. -/
structure Activation (q : ℕ) : Prop where
  leaf : Leaf L q
  ne1_eq : (L.shape q).ne1 = 1
  ne2_eq : (L.shape q).ne2 = R.nTokens

inductive Built (p : ℕ) : Prop
  | mulMatId (w cur ids : ℕ) (op_eq : L.graph.op p = .mulMatId)
      (src_eq : (L.graph.tensor p).src = [some w, some cur, some ids])
      (repeats_eq : L.repeats p = false)
      (shape_eq : L.shape p = .packed (L.shape w).ne1 R.nExpertUsed R.nTokens)
      (cols_eq : (L.shape cur).ne0 = (L.shape w).ne0)
      (cur_from : Activation L R cur ∨ ∃ j, Slots L j ∧ SliceOf L cur j)
  | rows (op_ne : L.graph.op p ≠ .mulMatId) (op_ne' : L.graph.op p ≠ .getRows)
      (repeats_eq : L.repeats p = false) (src_ne : (L.graph.tensor p).sources ≠ [])
      (shape_eq : L.shape p = .packed (L.shape p).ne0 R.nExpertUsed R.nTokens)
      (src_from : ∀ q ∈ (L.graph.tensor p).sources,
        RoutingLeaf L R q ∨ ∃ j, Slots L j ∧ SliceOf L q j)
  | table (q : ℕ) (op_ne : L.graph.op p ≠ .mulMatId) (op_ne' : L.graph.op p ≠ .getRows)
      (repeats_eq : L.repeats p = true) (src_eq : (L.graph.tensor p).sources = [q])
      (shape_eq : L.shape p = .packed 1 R.nExpert R.nTokens)
      (leaf : Leaf L q) (leaf_shape : L.shape q = .packed 1 R.nExpert 1)
  | scale (table ids : ℕ) (op_eq : L.graph.op p = .getRows) (repeats_eq : L.repeats p = false)
      (src_eq : (L.graph.tensor p).src = [some table, some ids])
      (shape_eq : L.shape p = .packed 1 R.nExpertUsed R.nTokens)
      (table_mem : table ∈ L.body) (table_repeats : L.repeats table = true)

/-- A closure: operands first, every node with its own storage; the fold is known by its names and
every other node leads to the one it sums. -/
structure Closure : Prop where
  nodup : L.compute.Nodup
  operands_first : L.compute.Pairwise fun a b =>
    ∀ q ∈ (L.graph.tensor a).sources, producer L.graph q ≠ b
  built : ∀ p ∈ L.body, Built L R p
  computed : ∀ p ∈ L.body, L.graph.op p ≠ .none
  own : ∀ p ∈ L.body, L.graph.viewSrc p = none
  pos : ∀ q, 0 < (L.shape q).ne0
  fold_replaced : ∀ p ∈ L.compute, L.fold p = true → L.replaced p = true ∧ L.graph.op p ≠ .mulMatId
  foldSrc_slots : Slots L L.foldSrc
  read : ∀ p ∈ L.body, p ≠ L.foldSrc →
    ∃ p' ∈ L.body, ∃ q ∈ (L.graph.tensor p').sources, producer L.graph q = p

/-- What `bucket_gather_cur` and `bucket_gather_per_slot` copy for a node. -/
def gatherKeys (p : ℕ) : List ℕ :=
  match L.graph.op p, (L.graph.tensor p).src with
  | .mulMatId, [_, some cur, _] => if cur ∈ L.body then [] else [cur]
  | .getRows, _ => []
  | _, _ => (L.graph.tensor p).sources.filter fun q =>
      decide (producer L.graph q ∉ L.body ∧ (L.shape q).ne0 = 1 ∧ (L.shape q).ne1 = R.nExpertUsed)

section round

variable (r : MixRound) (dev : Bool)

/-- No coincidence of shapes, names or table sizes misleads the chain. -/
structure Plain : Prop where
  slots : ∀ p ∈ L.body, L.graph.op p ≠ .mulMatId → L.repeats p = false →
    (L.shape p).ne0 = R.nExpertUsed → r.width = R.nExpertUsed
  table : ∀ p ∈ L.body, L.repeats p = true → R.nExpert = R.nExpertUsed →
    r.width = R.nExpertUsed ∧ (TokFull R r ∨ tRound (buildMixPlan R) r = [0])
  whole : ∀ p ∈ L.body, L.graph.op p = .mulMatId → ∀ w cur ids,
    (L.graph.tensor p).src = [some w, some cur, some ids] →
      producer L.graph cur ∈ L.body → cur ∈ L.body
  kept : ∀ p ∈ L.body, L.graph.op p ≠ .mulMatId → L.replaced p = false
  twins : L.body.length ≤ 64
  gathers : (L.body.flatMap (gatherKeys L R)).dedup.length ≤ 16

/-- Offsets are what the chain takes them for: those of nested views add up, and those of gathered
floats fit an `int32_t`. -/
structure Offsets : Prop where
  views : ∀ p ∈ L.body, ∀ q ∈ (L.graph.tensor p).sources, producer L.graph q ∈ L.body →
    (unwrap L.graph q).2 = L.graph.viewOffs q
  floats : ∀ p ∈ L.body, ∀ q ∈ (L.graph.tensor p).sources, RoutingLeaf L R q →
    ¬ Direct R r dev (L.shape q) → ∀ i < r.nActive, ∀ s < r.width,
      ((cell R r i s).2 * (L.shape q).nb1 + (cell R r i s).1 * (L.shape q).nb2) / 4 < 2 ^ 31

end round

section full

variable {L R}

theorem mem_body {p : ℕ} :
    p ∈ L.body ↔ p ∈ L.compute ∧ isViewOp (L.graph.op p) = false ∧ L.fold p = false := by
  simp only [Layer.body, List.mem_filter, Bool.and_eq_true, Bool.not_eq_true']

theorem mem_compute_of_body {p : ℕ} (h : p ∈ L.body) : p ∈ L.compute := (mem_body.mp h).1

theorem producer_body {p : ℕ} (h : p ∈ L.body) : producer L.graph p = p := by
  rw [producer, unwrap_of_not_view (mem_body.mp h).2.1]

variable (C : Closure L R)
include C

theorem body_nodup : L.body.Nodup := C.nodup.filter _

theorem root_body {p : ℕ} (h : p ∈ L.body) : L.graph.root p = p := Graph.root_of_own (C.own p h)

theorem sliceOf_self {p : ℕ} (h : p ∈ L.body) : SliceOf L p p := by
  have hoffs : L.graph.viewOffs p = 0 := (L.graph.conforms p).own_offs (C.own p h)
  refine ⟨producer_body h, root_body C h, rfl, rfl, rfl, rfl, ?_, ?_⟩
  · rw [hoffs]
    exact Nat.dvd_zero 4
  · rw [hoffs, Nat.zero_add]

/-- What a node reads of the closure stands before it. -/
theorem operand_before {pre post : List ℕ} {p q : ℕ} (hsplit : L.compute = pre ++ p :: post)
    (hq : q ∈ (L.graph.tensor p).sources) (hmem : producer L.graph q ∈ L.compute) :
    producer L.graph q ∈ pre := by
  have hpair := C.operands_first
  rw [hsplit] at hpair hmem
  have hlt : producer L.graph q < p :=
    (producer_le q).trans_lt ((L.graph.conforms p).src_lt q hq)
  rcases List.mem_append.mp hmem with h | h
  · exact h
  · rcases List.mem_cons.mp h with h | h
    · omega
    · have hrest := (List.pairwise_cons.mp (List.pairwise_append.mp hpair).2.1).1
      exact absurd rfl (hrest _ h q hq)

/-- The body operands of a node stand before it in the body, and its leaves never change. -/
theorem root_before {pre post : List ℕ} {p q : ℕ} (hsplit : L.body = pre ++ p :: post)
    (hq : q ∈ (L.graph.tensor p).sources)
    (hroot : L.graph.root q ∉ L.compute ∨
      producer L.graph q ∈ L.body ∧ SliceOf L q (producer L.graph q)) :
    L.graph.root q ∉ p :: post := by
  have hsub : (p :: post).Sublist L.compute := by
    have hbody : L.body.Sublist L.compute := List.filter_sublist
    rw [hsplit] at hbody
    exact (List.sublist_append_right pre _).trans hbody
  rcases hroot with h | h
  · exact fun hmem => h (hsub.subset hmem)
  · rw [h.2.root_eq]
    intro hmem
    have hlt : producer L.graph q < p :=
      (producer_le q).trans_lt ((L.graph.conforms p).src_lt q hq)
    rcases List.mem_cons.mp hmem with he | hpost
    · omega
    · have hpair := (C.operands_first.sublist hsub)
      exact absurd rfl ((List.pairwise_cons.mp hpair).1 _ hpost q hq)

def reads (L : Layer) (p : ℕ) : List ℕ :=
  match L.graph.op p, (L.graph.tensor p).src with
  | .mulMatId, [some _, some cur, _] => [cur]
  | .getRows, [some table, _] => [table]
  | _, _ => (L.graph.tensor p).sources

omit C

variable (K : Kernels) (mem : Memory)

theorem result_mulMatId {p w cur : ℕ} {ids : Option ℕ} (hop : L.graph.op p = .mulMatId)
    (hsrc : (L.graph.tensor p).src = [some w, some cur, ids]) :
    L.result R K mem p = mulMatId K w (L.shape p) (routed R) (L.tens mem cur) := by
  simp only [Layer.result, hop, hsrc]

theorem result_getRows {p table : ℕ} {ids : Option ℕ} (hop : L.graph.op p = .getRows)
    (hsrc : (L.graph.tensor p).src = [some table, ids]) :
    L.result R K mem p = getRows (L.shape p) (routed R) (L.tens mem table) := by
  simp only [Layer.result, hop, hsrc]

theorem result_rows {p : ℕ} (hop : L.graph.op p ≠ .mulMatId) (hop' : L.graph.op p ≠ .getRows) :
    L.result R K mem p =
      rowsOp K p (L.shape p) ((L.graph.tensor p).sources.map (L.tens mem)) := by
  unfold Layer.result
  split
  · rename_i h _
    exact absurd h hop
  · rename_i h _
    exact absurd h hop'
  · rfl

theorem result_toShape (p : ℕ) : (L.result R K mem p).toShape = L.shape p := by
  unfold Layer.result
  split <;> rfl

theorem tens_congr {mem' : Memory} {q : ℕ} (h : mem (L.graph.root q) = mem' (L.graph.root q)) :
    L.tens mem q = L.tens mem' q := by
  simp only [Layer.tens, h]

theorem result_congr {mem' : Memory} {p : ℕ} (hbuilt : Built L R p)
    (h : ∀ q ∈ reads L p, mem (L.graph.root q) = mem' (L.graph.root q)) :
    L.result R K mem p = L.result R K mem' p := by
  have hrows : L.graph.op p ≠ .mulMatId → L.graph.op p ≠ .getRows →
      L.result R K mem p = L.result R K mem' p := by
    intro hop hop'
    have hreads : reads L p = (L.graph.tensor p).sources := by
      unfold reads
      split <;> first | rfl | exact absurd ‹_› hop | exact absurd ‹_› hop'
    rw [result_rows K mem hop hop', result_rows K mem' hop hop']
    congr 1
    apply List.map_congr_left
    intro q hq
    exact tens_congr mem (h q (hreads ▸ hq))
  cases hbuilt with
  | mulMatId w cur ids hop hsrc =>
    rw [result_mulMatId K mem hop hsrc, result_mulMatId K mem' hop hsrc,
      tens_congr mem (h cur (by simp [reads, hop, hsrc]))]
  | rows hop hop' => exact hrows hop hop'
  | table q hop hop' => exact hrows hop hop'
  | scale table ids hop _ hsrc =>
    rw [result_getRows K mem hop hsrc, result_getRows K mem' hop hsrc,
      tens_congr mem (h table (by simp [reads, hop, hsrc]))]

theorem foldl_evalStep_of_not_mem {l : List ℕ} {j : ℕ} (h : j ∉ l) :
    l.foldl (L.evalStep R K) mem j = mem j := by
  induction l generalizing mem with
  | nil => rfl
  | cons p l ih =>
    obtain ⟨hne, hl⟩ := not_or.mp (fun h' => h (List.mem_cons.mpr h'))
    rw [List.foldl_cons, ih _ hl, Layer.evalStep, Function.update_of_ne hne]

theorem eval_of_leaf {q : ℕ} (h : L.graph.root q ∉ L.compute) :
    L.tens (L.eval R K mem) q = L.tens mem q :=
  tens_congr _ (foldl_evalStep_of_not_mem K mem fun hmem => h (mem_compute_of_body hmem))

include C

/-- Every node reads leaves and earlier nodes. -/
theorem reads_spec {p q : ℕ} (hp : p ∈ L.body) (hq : q ∈ reads L p) :
    q ∈ (L.graph.tensor p).sources ∧
      (L.graph.root q ∉ L.compute ∨
        producer L.graph q ∈ L.body ∧ SliceOf L q (producer L.graph q)) := by
  have hslice : ∀ {q : ℕ}, (∃ j, Slots L j ∧ SliceOf L q j) →
      producer L.graph q ∈ L.body ∧ SliceOf L q (producer L.graph q) := by
    rintro q ⟨j, hslots, hj⟩
    rw [hj.producer_eq]
    exact ⟨hslots.1, hj⟩
  cases C.built p hp with
  | mulMatId w cur ids hop hsrc _ _ _ hcur =>
    simp only [reads, hop, hsrc, List.mem_singleton] at hq
    subst hq
    exact ⟨by simp [Tensor.sources, hsrc, List.reduceOption],
      hcur.imp (fun h => h.leaf.1) fun h => hslice h⟩
  | rows hop hop' _ _ _ hfrom =>
    have hq' : q ∈ (L.graph.tensor p).sources := by
      unfold reads at hq
      split at hq <;> first | exact hq | exact absurd ‹_› hop | exact absurd ‹_› hop'
    exact ⟨hq', (hfrom q hq').imp (fun h => h.leaf.1) fun h => hslice h⟩
  | table leaf hop hop' _ hsrc _ hleaf =>
    have hq' : q ∈ (L.graph.tensor p).sources := by
      unfold reads at hq
      split at hq <;> first | exact hq | exact absurd ‹_› hop | exact absurd ‹_› hop'
    have he : q = leaf := by simpa [hsrc] using hq'
    exact ⟨hq', .inl (he ▸ hleaf.1)⟩
  | scale table ids hop _ hsrc _ htable =>
    simp only [reads, hop, hsrc, List.mem_singleton] at hq
    subst hq
    refine ⟨by simp [Tensor.sources, hsrc, List.reduceOption], .inr ?_⟩
    rw [producer_body htable]
    exact ⟨htable, sliceOf_self C htable⟩

/-- A node holds the value of its operands. -/
theorem tens_eval {p : ℕ} (hp : p ∈ L.body) :
    L.tens (L.eval R K mem) p = L.result R K (L.eval R K mem) p := by
  obtain ⟨pre, post, hsplit⟩ := List.append_of_mem hp
  have hnodup := body_nodup C
  rw [hsplit] at hnodup
  have hpost : p ∉ post := (List.nodup_cons.mp (List.nodup_append.mp hnodup).2.1).1
  have hfold : L.eval R K mem =
      post.foldl (L.evalStep R K) (L.evalStep R K (pre.foldl (L.evalStep R K) mem) p) := by
    rw [Layer.eval, hsplit, List.foldl_append, List.foldl_cons]
  have hval : L.eval R K mem p = (L.result R K (pre.foldl (L.evalStep R K) mem) p).val := by
    rw [hfold, foldl_evalStep_of_not_mem K _ hpost, Layer.evalStep, Function.update_self]
  have hsame : L.result R K (pre.foldl (L.evalStep R K) mem) p =
      L.result R K (L.eval R K mem) p := by
    apply result_congr K _ (C.built p hp)
    intro q hq
    obtain ⟨hsrc, hroot⟩ := reads_spec C hp hq
    have hnot := root_before C hsplit hsrc hroot
    have hlater : L.eval R K mem = (p :: post).foldl (L.evalStep R K)
        (pre.foldl (L.evalStep R K) mem) := hfold
    rw [hlater, foldl_evalStep_of_not_mem K _ hnot]
  have hoffs : L.graph.viewOffs p = 0 := (L.graph.conforms p).own_offs (C.own p hp)
  have htens : L.tens (L.eval R K mem) p =
      { L.shape p with val := (L.result R K (L.eval R K mem) p).val } := by
    simp only [Layer.tens, root_body C hp, hoffs, Nat.zero_add, hval, hsame]
  rw [htens, ← result_toShape K (L.eval R K mem) p]

end full

end CompactTwins
end StreamMoE
