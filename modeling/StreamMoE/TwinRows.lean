import StreamMoE.TightGather

/-! The compact chain, node by node: as long as no coincidence misleads it, every clone carries the
rows of its node and the last one is that of the node the fold sums. -/
namespace StreamMoE
namespace CompactTwins

open ComputeGraph MixSplit MixExec Scatter Strided RoundCells
open ExpertAddress (rid columnOf columnOf_lt)

variable {L : Layer} {R : Routing} {r : MixRound} {dev : Bool}

/-- A leaf that a repeated table reads while experts and slots are equally many. -/
def TableSrc (L : Layer) (R : Routing) (q : ℕ) : Prop :=
  R.nExpert = R.nExpertUsed ∧ ∃ p ∈ L.body, L.repeats p = true ∧ q ∈ (L.graph.tensor p).sources

/-- A gathered copy serves every reader it may have. -/
def GatherOk (L : Layer) (R : Routing) (r : MixRound) (K : Kernels) (mem : Memory) (q : ℕ)
    (T : Tens F32) : Prop :=
  ((L.shape q).ne2 = R.nTokens → Carries L R r K mem q T) ∧
    (TableSrc L R q → TableLeaf L R K mem q T)

/-- The nodes of the closure that are cloned. -/
def kept (L : Layer) (p : ℕ) : Bool := !isViewOp (L.graph.op p) && !L.fold p

theorem body_eq_kept (L : Layer) : L.body = L.compute.filter (kept L) := rfl

/-- What holds of the tables of a round after the nodes `pre`. -/
structure Inv (L : Layer) (R : Routing) (r : MixRound) (K : Kernels) (mem : Memory) (pre : List ℕ)
    (st : Chain) : Prop where
  keys : st.twins.map Prod.fst = pre.filter (kept L)
  twins : ∀ e ∈ st.twins, TwinOf L R r K mem e.1 e.2
  gathered_nodup : (st.gathers.map Prod.fst).Nodup
  gathered_mem : ∀ q ∈ st.gathers.map Prod.fst, q ∈ L.body.flatMap (gatherKeys L R)
  gathers : ∀ e ∈ st.gathers, GatherOk L R r K mem e.1 e.2
  last : st.last = st.twins.getLast?

theorem find_fst {α : Type*} {l : List (ℕ × α)} {q : ℕ} :
    (∃ x, (l.find? fun e => decide (e.1 = q)).map Prod.snd = some x ∧ (q, x) ∈ l) ∨
      (l.find? fun e => decide (e.1 = q)).map Prod.snd = none ∧ q ∉ l.map Prod.fst := by
  cases h : l.find? fun e => decide (e.1 = q) with
  | some e =>
    have hmem := List.mem_of_find?_eq_some h
    have hq : e.1 = q := by simpa using List.find?_some h
    exact .inl ⟨e.2, rfl, hq ▸ hmem⟩
  | none =>
    refine .inr ⟨rfl, ?_⟩
    intro hmem
    obtain ⟨e, he, rfl⟩ := List.mem_map.mp hmem
    simpa using List.find?_eq_none.mp h e he

theorem twinGet_of_mem {st : Chain} {q : ℕ} (h : q ∈ st.twins.map Prod.fst) :
    ∃ T, st.twinGet q = some T ∧ (q, T) ∈ st.twins :=
  find_fst.resolve_right fun hnone => hnone.2 h

theorem twinGet_of_not_mem {st : Chain} {q : ℕ} (h : q ∉ st.twins.map Prod.fst) :
    st.twinGet q = none := by
  rcases find_fst (l := st.twins) (q := q) with ⟨T, _, hmem⟩ | hnone
  · exact absurd (List.mem_map_of_mem (f := Prod.fst) hmem) h
  · exact hnone.1

section chain

variable (K : Kernels) (mem : Memory) {pre post : List ℕ} {st : Chain}

theorem Inv.mem_keys (h : Inv L R r K mem pre st) {q : ℕ} :
    q ∈ st.twins.map Prod.fst ↔ q ∈ pre ∧ isViewOp (L.graph.op q) = false ∧ L.fold q = false := by
  rw [h.keys, List.mem_filter, kept, Bool.and_eq_true, Bool.not_eq_true', Bool.not_eq_true']

theorem Inv.twin (h : Inv L R r K mem pre st) {q : ℕ} (hq : q ∈ L.body) (hpre : q ∈ pre) :
    ∃ T, st.twinGet q = some T ∧ TwinOf L R r K mem q T := by
  obtain ⟨T, hget, hmem⟩ := twinGet_of_mem (h.mem_keys.mpr ⟨hpre, (mem_body.mp hq).2⟩)
  exact ⟨T, hget, h.twins _ hmem⟩

theorem Inv.no_twin (h : Inv L R r K mem pre st) (hsub : ∀ p ∈ pre, p ∈ L.compute) {q : ℕ}
    (hq : q ∉ L.body) : st.twinGet q = none := by
  apply twinGet_of_not_mem
  intro hmem
  obtain ⟨hpre, hkept⟩ := h.mem_keys.mp hmem
  exact hq (mem_body.mpr ⟨hsub q hpre, hkept⟩)

theorem TwinOf.carries (hr : r ∈ (buildMixPlan R).rounds) {p : ℕ} {T : Tens F32}
    (h : TwinOf L R r K mem p T) (hrep : L.repeats p = false)
    (hne1 : (L.shape p).ne1 = R.nExpertUsed) : Carries L R r K mem p T := by
  obtain ⟨hshape, hrows⟩ := h
  simp only [hrep, Bool.false_eq_true, if_false] at hshape hrows
  have hT₀ : T.ne0 = (L.shape p).ne0 := by
    rw [hshape]
    rfl
  have hT : T.ne1 = r.width := congrArg Shape.ne1 hshape
  refine ⟨hT₀, hT.trans (if_pos hne1).symm, congrArg Shape.ne2 hshape, ?_⟩
  intro i hi s hs
  rw [hT, Nat.mod_eq_of_lt hs, hrows i hi s hs, hne1, Nat.mod_eq_of_lt (tight_cell hr hi hs).2.2]

theorem Carries.slice (C : Closure L R) {q j : ℕ} {T : Tens F32} (h : Carries L R r K mem j T)
    (hj : j ∈ L.body) (hq : SliceOf L q j) (hoff : (unwrap L.graph q).2 = L.graph.viewOffs q) :
    Carries L R r K mem q (T.slice (unwrap L.graph q).2 (L.shape q).ne0) := by
  have hfull : L.tens (L.eval R K mem) q =
      (L.tens (L.eval R K mem) j).slice (L.graph.viewOffs q) (L.shape q).ne0 := by
    have hoffs : L.graph.viewOffs j = 0 := (L.graph.conforms j).own_offs (C.own j hj)
    simp only [Layer.tens, Tens.slice, hq.root_eq, root_body C hj, hoffs, Nat.zero_add, ← hq.ne1_eq,
      ← hq.ne2_eq, ← hq.nb1_eq, ← hq.nb2_eq]
  refine ⟨rfl, ?_, h.ne2_eq, ?_⟩
  · rw [hq.ne1_eq]
    exact h.ne1_eq
  · intro i hi s hs
    rw [hfull, hoff, hq.ne1_eq]
    exact Tens.row_slice h.ne0_eq (h.rows i hi s hs) hq.offs_dvd hq.offs_le

theorem Inv.gatherPut (h : Inv L R r K mem pre st) (hplain : Plain L R r) {q : ℕ} {T : Tens F32}
    (hq : q ∈ L.body.flatMap (gatherKeys L R)) (hnew : q ∉ st.gathers.map Prod.fst)
    (hT : GatherOk L R r K mem q T) : ∃ st', st.gatherPut q T = some st' ∧
      Inv L R r K mem pre st' ∧ st'.twins = st.twins := by
  have hnodup : (q :: st.gathers.map Prod.fst).Nodup := List.nodup_cons.mpr ⟨hnew, h.gathered_nodup⟩
  have hsub : q :: st.gathers.map Prod.fst ⊆ (L.body.flatMap (gatherKeys L R)).dedup := by
    intro x hx
    rw [List.mem_dedup]
    rcases List.mem_cons.mp hx with rfl | hx
    · exact hq
    · exact h.gathered_mem x hx
  have hlen := (List.subperm_of_subset hnodup hsub).length_le
  rw [List.length_cons, List.length_map] at hlen
  have hlt : st.gathers.length < 16 := by
    have hmax := hplain.gathers
    omega
  refine ⟨_, if_pos hlt, ⟨h.keys, h.twins, ?_, ?_, ?_, h.last⟩, rfl⟩
  · rw [List.map_append, List.map_singleton]
    exact (List.perm_append_singleton q _).nodup_iff.mpr hnodup
  · intro x hx
    rw [List.map_append, List.map_singleton] at hx
    rcases List.mem_append.mp hx with hx | hx
    · exact h.gathered_mem x hx
    · rwa [List.mem_singleton.mp hx]
  · intro e he
    rcases List.mem_append.mp he with he | he
    · exact h.gathers e he
    · rw [List.mem_singleton.mp he]
      exact hT

/-- A leaf is gathered once, for all its readers. -/
theorem Inv.gathered (h : Inv L R r K mem pre st) (hplain : Plain L R r) {q : ℕ} {T : Tens F32}
    (hq : q ∈ L.body.flatMap (gatherKeys L R)) (hT : GatherOk L R r K mem q T) :
    ∃ st' T', st.gathered q (some T) = some (st', T') ∧ Inv L R r K mem pre st' ∧
      GatherOk L R r K mem q T' := by
  rcases find_fst (l := st.gathers) (q := q) with ⟨T', hget, hmem⟩ | ⟨hget, hnew⟩
  · refine ⟨st, T', ?_, h, h.gathers _ hmem⟩
    simp only [Chain.gathered, Chain.gatherGet, hget]
  · obtain ⟨st', hput, hinv, _⟩ := h.gatherPut K mem hplain hq hnew hT
    refine ⟨st', T, ?_, hinv, hT⟩
    simp only [Chain.gathered, Chain.gatherGet, hget, Option.bind_some, hput, Option.map_some]

/-- A leaf is no node of the closure, nor made from one by views. -/
theorem not_body_of_leaf {q : ℕ} (h : Leaf L q) : q ∉ L.body ∧ producer L.graph q ∉ L.body := by
  refine ⟨?_, fun hq => h.2 (mem_compute_of_body hq)⟩
  intro hq
  apply h.2
  rw [producer_body hq]
  exact mem_compute_of_body hq

theorem slots_shape (C : Closure L R) {j : ℕ} (hj : Slots L j) :
    L.shape j = .packed (L.shape j).ne0 R.nExpertUsed R.nTokens := by
  obtain ⟨hbody, hrep⟩ := hj
  cases C.built j hbody with
  | mulMatId w cur ids _ _ _ hshape => rw [hshape]; rfl
  | rows _ _ _ _ hshape => exact hshape
  | table q _ _ hrep' => simp [hrep] at hrep'
  | scale table ids _ _ _ hshape => rw [hshape]; rfl

theorem table_built (C : Closure L R) {p : ℕ} (hp : p ∈ L.body) (hrep : L.repeats p = true) :
    (L.graph.op p ≠ .mulMatId ∧ L.graph.op p ≠ .getRows) ∧
      L.shape p = .packed 1 R.nExpert R.nTokens ∧
      ∃ q, (L.graph.tensor p).sources = [q] ∧ Leaf L q ∧ L.shape q = .packed 1 R.nExpert 1 := by
  cases C.built p hp with
  | mulMatId w cur ids _ _ hrep' => simp [hrep] at hrep'
  | rows _ _ hrep' => simp [hrep] at hrep'
  | table q hop hop' _ hsrc hshape hleaf hq => exact ⟨⟨hop, hop'⟩, hshape, q, hsrc, hleaf, hq⟩
  | scale table ids _ hrep' => simp [hrep] at hrep'

theorem tableSrc_spec (C : Closure L R) {q : ℕ} (h : TableSrc L R q) : R.nExpert = R.nExpertUsed ∧
    Leaf L q ∧ L.shape q = .packed 1 R.nExpert 1 := by
  obtain ⟨heq, p, hp, hrep, hq⟩ := h
  obtain ⟨_, _, q', hsrc, hleaf, hshape⟩ := table_built C hp hrep
  have he : q = q' := by simpa [hsrc] using hq
  subst he
  exact ⟨heq, hleaf, hshape⟩

/-- A copy with the rows of the round's cells serves a table too: then there is one token. -/
theorem gatherOk_of_carries (C : Closure L R) (hr : r ∈ (buildMixPlan R).rounds)
    (hplain : Plain L R r) {q : ℕ} {T : Tens F32} (hT : Carries L R r K mem q T)
    (hne2 : (L.shape q).ne2 = R.nTokens) : GatherOk L R r K mem q T := by
  refine ⟨fun _ => hT, ?_⟩
  intro htable
  obtain ⟨heq, _, hshape⟩ := tableSrc_spec C htable
  obtain ⟨_, p, hp, hrep, _⟩ := htable
  have hone : R.nTokens = 1 := by
    rw [← hne2, hshape]
    rfl
  exact hT.tableLeaf K mem hr hshape heq (hplain.table p hp hrep heq).1 hone

section node

variable (C : Closure L R) (hr : r ∈ (buildMixPlan R).rounds) (hplain : Plain L R r)
  (hoffs : Offsets L R r dev) {p : ℕ} (hsplit : L.compute = pre ++ p :: post) (hp : p ∈ L.body)
  (h : Inv L R r K mem pre st)
include C hr hplain hoffs hsplit hp h

omit C hr hplain hoffs hp h in
theorem mem_compute_of_pre : ∀ q ∈ pre, q ∈ L.compute := by
  intro q hq
  rw [hsplit]
  exact List.mem_append_left _ hq

omit hplain in
/-- An operand from the closure: the twin of its producer, cut as the view cuts it. -/
theorem srcLeaf_slice {q j : ℕ} (hq : q ∈ (L.graph.tensor p).sources) (hj : Slots L j)
    (hslice : SliceOf L q j) :
    ∃ T, srcLeaf L R r dev mem st q = some (st, T) ∧ Carries L R r K mem q T := by
  have hprod := hslice.producer_eq
  have hmem : producer L.graph q ∈ L.body := hprod.symm ▸ hj.1
  have hpre := operand_before C hsplit hq (mem_compute_of_body hmem)
  obtain ⟨T, hget, hT⟩ := h.twin K mem hmem hpre
  rw [hprod] at hT
  have hcarries := TwinOf.carries K mem hr hT hj.2 (congrArg Shape.ne1 (slots_shape C hj))
  refine ⟨_, ?_, hcarries.slice K mem C hj.1 hslice (hoffs.views p hp q hq hmem)⟩
  simp only [srcLeaf, hget]

/-- Routing weights: their tight copy. -/
theorem srcLeaf_routing {q : ℕ} (hq : q ∈ (L.graph.tensor p).sources)
    (hkeys : q ∈ gatherKeys L R p) (hroute : RoutingLeaf L R q) :
    ∃ st' T, srcLeaf L R r dev mem st q = some (st', T) ∧ Inv L R r K mem pre st' ∧
      Carries L R r K mem q T := by
  obtain ⟨T, hmake, hT⟩ := gatherPerSlot_carries K mem hr hroute (hoffs.floats p hp q hq hroute)
  have hok := gatherOk_of_carries K mem C hr hplain hT hroute.ne2_eq
  obtain ⟨st', T', hgathered, hinv, hok'⟩ := h.gathered K mem hplain
    (List.mem_flatMap.mpr ⟨p, hp, hkeys⟩) hok
  refine ⟨st', T', ?_, hinv, hok'.1 hroute.ne2_eq⟩
  have hnone := h.no_twin K mem (mem_compute_of_pre hsplit) (not_body_of_leaf hroute.leaf).2
  simp only [srcLeaf, hnone, extLeaf, hroute.ne0_eq, hroute.ne1_eq, and_self, if_true, hmake,
    hgathered]

omit hoffs in
/-- The activation of a routed product. -/
theorem curLeaf_spec {w cur ids : ℕ} (hop : L.graph.op p = .mulMatId)
    (hsrc : (L.graph.tensor p).src = [some w, some cur, some ids])
    (hcur : Activation L R cur ∨ ∃ j, Slots L j ∧ SliceOf L cur j) :
    ∃ st' T, curLeaf L R r dev mem st cur = some (st', T) ∧ Inv L R r K mem pre st' ∧
      Carries L R r K mem cur T := by
  rcases hcur with hact | ⟨j, hj, hslice⟩
  · have hbody := (not_body_of_leaf hact.leaf).1
    obtain ⟨T, hmake, hT⟩ := @gatherCur_carries L R r dev K mem hr cur hact
    have hkeys : cur ∈ gatherKeys L R p := by simp [gatherKeys, hop, hsrc, hbody]
    have hok := gatherOk_of_carries K mem C hr hplain hT hact.ne2_eq
    obtain ⟨st', T', hgathered, hinv, hok'⟩ := h.gathered K mem hplain
      (List.mem_flatMap.mpr ⟨p, hp, hkeys⟩) hok
    refine ⟨st', T', ?_, hinv, hok'.1 hact.ne2_eq⟩
    have hnone := h.no_twin K mem (mem_compute_of_pre hsplit) hbody
    simp only [curLeaf, hnone, ite_self, hmake, hgathered]
  · have hprod := hslice.producer_eq
    have hbody := hplain.whole p hp hop w cur ids hsrc (hprod.symm ▸ hj.1)
    have he : cur = j := (producer_body hbody).symm.trans hprod
    subst he
    have hq : cur ∈ (L.graph.tensor p).sources := by
      simp [Tensor.sources, hsrc, List.reduceOption]
    have hpre := operand_before C hsplit hq (hprod.symm ▸ mem_compute_of_body hbody)
    rw [hprod] at hpre
    obtain ⟨T, hget, hT⟩ := h.twin K mem hbody hpre
    refine ⟨st, T, ?_, h, TwinOf.carries K mem hr hT hj.2 (congrArg Shape.ne1 (slots_shape C hj))⟩
    simp only [curLeaf, C.computed cur hbody, if_false, hget]

/-- The operands of a row-wise node with slots. -/
theorem srcLeaves_spec (hkeys : ∀ q ∈ (L.graph.tensor p).sources, RoutingLeaf L R q →
      q ∈ gatherKeys L R p)
    (hfrom : ∀ q ∈ (L.graph.tensor p).sources, RoutingLeaf L R q ∨ ∃ j, Slots L j ∧ SliceOf L q j)
    (qs : List ℕ) (hqs : qs ⊆ (L.graph.tensor p).sources) :
    ∃ st' Ts, srcLeaves L R r dev mem st qs = some (st', Ts) ∧ Inv L R r K mem pre st' ∧
      List.Forall₂ (Carries L R r K mem) qs Ts := by
  induction qs generalizing st with
  | nil => exact ⟨st, [], rfl, h, .nil⟩
  | cons q qs ih =>
    have hq := hqs List.mem_cons_self
    have hleaf : ∃ st' T, srcLeaf L R r dev mem st q = some (st', T) ∧ Inv L R r K mem pre st' ∧
        Carries L R r K mem q T := by
      rcases hfrom q hq with hroute | ⟨j, hj, hslice⟩
      · exact srcLeaf_routing K mem C hr hplain hoffs hsplit hp h hq (hkeys q hq hroute) hroute
      · obtain ⟨T, hsome, hT⟩ := srcLeaf_slice K mem C hr hoffs hsplit hp h hq hj hslice
        exact ⟨st, T, hsome, h, hT⟩
    obtain ⟨st₁, T, hsome, hinv, hT⟩ := hleaf
    obtain ⟨st₂, Ts, hrest, hinv', hTs⟩ := ih hinv fun x hx => hqs (List.mem_cons_of_mem q hx)
    refine ⟨st₂, T :: Ts, ?_, hinv', .cons hT hTs⟩
    simp only [srcLeaves, hsome, Option.bind_some, hrest, Option.map_some]

omit C hoffs in
theorem srcLeaf_table (hrep : L.repeats p = true) {q : ℕ} (hsrc : (L.graph.tensor p).sources = [q])
    (hkeys : (L.shape q).ne0 = 1 ∧ (L.shape q).ne1 = R.nExpertUsed → q ∈ gatherKeys L R p)
    (hleaf : Leaf L q) (hshape : L.shape q = .packed 1 R.nExpert 1) :
    ∃ st' T, srcLeaf L R r dev mem st q = some (st', T) ∧ Inv L R r K mem pre st' ∧
      TableLeaf L R K mem q T := by
  have hnone := h.no_twin K mem (mem_compute_of_pre hsplit) (not_body_of_leaf hleaf).2
  have hne0 : (L.shape q).ne0 = 1 := congrArg Shape.ne0 hshape
  have hne1 : (L.shape q).ne1 = R.nExpert := congrArg Shape.ne1 hshape
  by_cases heq : R.nExpert = R.nExpertUsed
  · -- taken for a leaf of slots
    obtain ⟨hwidth, hcover⟩ := hplain.table p hp hrep heq
    obtain ⟨T, hmake, hT⟩ := @gatherPerSlot_table L R r dev K mem hr q hleaf hshape heq hwidth hcover
    have htable : TableSrc L R q := ⟨heq, p, hp, hrep, by rw [hsrc]; exact List.mem_singleton_self q⟩
    have hok : GatherOk L R r K mem q T := by
      refine ⟨?_, fun _ => hT⟩
      intro hne2
      have hone : R.nTokens = 1 := by
        rw [← hne2, hshape]
        rfl
      have hn : r.nActive = 1 := by
        have hpos := nActive_pos hr
        have hle := nActive_le hr
        omega
      refine ⟨hT.ne0_eq.trans hne0.symm, ?_, hT.ne2_eq.trans hn.symm, ?_⟩
      · rw [hT.ne1_eq, hne1, if_pos heq, hwidth, heq]
      · intro i hi s hs
        have hi0 : i = 0 := by omega
        subst hi0
        obtain ⟨_, hlt, _⟩ := tight_cell hr hi hs
        have htok : (cell R r 0 s).1 = 0 := by omega
        have hslot : (cell R r 0 s).2 = s := slot_of_full hr ((columnOf_lt hr).2 0 hi) hs hwidth
        have hs' : s < R.nExpert := by omega
        rw [hT.ne1_eq, htok, hslot, hne1, Nat.mod_eq_of_lt hs', hT.rows s hs']
    obtain ⟨st', T', hgathered, hinv, hok'⟩ := h.gathered K mem hplain
      (List.mem_flatMap.mpr ⟨p, hp, hkeys ⟨hne0, hne1.trans heq⟩⟩) hok
    refine ⟨st', T', ?_, hinv, hok'.2 htable⟩
    simp only [srcLeaf, hnone, extLeaf, hne0, hne1, heq, and_self, if_true, hmake, hgathered]
  · have hskip : ¬ ((L.shape q).ne0 = 1 ∧ (L.shape q).ne1 = R.nExpertUsed) :=
      fun hslots => heq (hne1.symm.trans hslots.2)
    refine ⟨st, L.tens mem q, ?_, h, hne0, hne1, congrArg Shape.ne2 hshape, ?_⟩
    · simp only [srcLeaf, hnone, extLeaf, hskip, if_false]
    · intro e _
      rw [tens_leaf K mem hleaf]

omit C hr hoffs in
/-- The twin of the next node goes into the table. -/
theorem twinPut_spec {T : Tens F32} (hT : TwinOf L R r K mem p T) :
    ∃ st', st.twinPut p T = some st' ∧ Inv L R r K mem (pre ++ [p]) st' := by
  have hkept : kept L p = true := (List.mem_filter.mp hp).2
  have hbody : L.body = pre.filter (kept L) ++ p :: post.filter (kept L) := by
    rw [body_eq_kept, hsplit, List.filter_append, List.filter_cons_of_pos hkept]
  have hlen := congrArg List.length h.keys
  rw [List.length_map] at hlen
  have hlt : st.twins.length < 64 := by
    have hmax := hplain.twins
    rw [hbody, List.length_append, List.length_cons] at hmax
    omega
  refine ⟨_, if_pos hlt, ⟨?_, ?_, h.gathered_nodup, h.gathered_mem, h.gathers, ?_⟩⟩
  · rw [List.map_append, h.keys, List.filter_append, List.filter_cons_of_pos hkept]
    rfl
  · intro e he
    rcases List.mem_append.mp he with he | he
    · exact h.twins e he
    · rw [List.mem_singleton.mp he]
      exact hT
  · simp

end node

end chain

end CompactTwins
end StreamMoE
