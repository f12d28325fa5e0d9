import StreamMoE.CompactChain

/-! What a chain that was built tells about the closure and the round: where its copies come from,
and that no coincidence of shapes, names or table sizes was met. -/
namespace StreamMoE
namespace CompactTwins

open ComputeGraph MixSplit MixExec Scatter Strided RoundCells
open ExpertAddress (columnOf columnOf_lt)

variable {L : Layer} {R : Routing} {r : MixRound} {dev : Bool} {K : Kernels} {mem : Memory}

/-- Where a tight copy comes from. -/
def Origin (L : Layer) (R : Routing) (r : MixRound) (dev : Bool) (mem : Memory)
    (e : ℕ × Tens F32) : Prop :=
  (∃ p ∈ L.body, L.graph.op p = .mulMatId ∧ (∃ w ids, (L.graph.tensor p).src = [w, some e.1, ids]) ∧
      gatherCur R r dev (L.tens mem e.1) = some e.2) ∨
    producer L.graph e.1 ∉ L.body ∧ gatherPerSlot R r dev (L.tens mem e.1) = some e.2

/-- What reading operands does to the tables. -/
structure Read (L : Layer) (R : Routing) (r : MixRound) (dev : Bool) (mem : Memory)
    (st st' : Chain) : Prop where
  twins_eq : st'.twins = st.twins
  gathers_sub : st.gathers.map Prod.fst ⊆ st'.gathers.map Prod.fst
  gathers_le : st.gathers.length ≤ 16 → st'.gathers.length ≤ 16
  origin : (∀ e ∈ st.gathers, Origin L R r dev mem e) → ∀ e ∈ st'.gathers, Origin L R r dev mem e

theorem Read.refl (st : Chain) : Read L R r dev mem st st :=
  ⟨rfl, List.Subset.refl _, id, id⟩

theorem Read.trans {st₁ st₂ st₃ : Chain} (h : Read L R r dev mem st₁ st₂)
    (h' : Read L R r dev mem st₂ st₃) : Read L R r dev mem st₁ st₃ :=
  ⟨h'.twins_eq.trans h.twins_eq, List.Subset.trans h.gathers_sub h'.gathers_sub,
    fun hle => h'.gathers_le (h.gathers_le hle), fun ho => h'.origin (h.origin ho)⟩

/-- A leaf that was read through the table is in it. -/
theorem read_gathered {st st' : Chain} {q : ℕ} {make : Option (Tens F32)} {T : Tens F32}
    (h : st.gathered q make = some (st', T))
    (horigin : ∀ T, make = some T → Origin L R r dev mem (q, T)) :
    Read L R r dev mem st st' ∧ (q, T) ∈ st'.gathers := by
  unfold Chain.gathered at h
  split at h
  · rename_i T' hget
    cases h
    rcases find_fst (l := st.gathers) (q := q) with ⟨T'', hget', hmem⟩ | ⟨hnone, _⟩
    · have he : T'' = T := Option.some.inj (hget'.symm.trans hget)
      exact ⟨.refl _, he ▸ hmem⟩
    · rw [Chain.gatherGet, hnone] at hget
      cases hget
  · obtain ⟨T', hmake, h⟩ := Option.bind_eq_some_iff.mp h
    obtain ⟨st₁, hput, h⟩ := Option.map_eq_some_iff.mp h
    cases h
    unfold Chain.gatherPut at hput
    split at hput
    · rename_i hlt
      cases hput
      refine ⟨⟨rfl, ?_, ?_, ?_⟩, List.mem_append_right _ (List.mem_singleton_self _)⟩
      · rw [List.map_append]
        exact List.subset_append_left _ _
      · intro _
        rw [List.length_append, List.length_singleton]
        omega
      · intro ho e he
        rcases List.mem_append.mp he with he | he
        · exact ho e he
        · rw [List.mem_singleton.mp he]
          exact horigin T hmake
    · cases hput

/-- What holds of the tables after the nodes `pre`, when every node has its twin in the end. -/
structure Ran (L : Layer) (R : Routing) (r : MixRound) (dev : Bool) (K : Kernels) (mem : Memory)
    (pre : List ℕ) (st : Chain) : Prop where
  keys : ∀ e ∈ st.twins, e.1 ∈ pre ∧ e.1 ∈ L.body
  twins_le : st.twins.length ≤ 64
  gathers_le : st.gathers.length ≤ 16
  origin : ∀ e ∈ st.gathers, Origin L R r dev mem e
  gathered : ∀ p ∈ pre, p ∈ L.body → gatherKeys L R p ⊆ st.gathers.map Prod.fst
  cloned : ∀ e ∈ st.twins, L.graph.op e.1 ≠ .mulMatId →
    L.replaced e.1 = false ∧ e.2.toShape = narrowed R r (L.shape e.1)
  product : ∀ e ∈ st.twins, ∀ w cur ids, L.graph.op e.1 = .mulMatId →
    (L.graph.tensor e.1).src = [some w, some cur, some ids] → cur ∉ L.body → ∃ T,
      Origin L R r dev mem (cur, T) ∧
        e.2 = mulMatId K w (.packed (L.shape w).ne1 r.width r.nActive) (idsExp R r) T

section step

variable {pre post : List ℕ} {p : ℕ} {st st' : Chain}

theorem twinGet_none (h : Ran L R r dev K mem pre st) {q : ℕ} (hq : q ∉ L.body) :
    st.twinGet q = none := by
  apply twinGet_of_not_mem
  intro hmem
  obtain ⟨e, he, rfl⟩ := List.mem_map.mp hmem
  exact hq (h.keys e he).2

/-- One operand: its twin if it comes from the closure, else a leaf. -/
theorem read_srcLeaf {q : ℕ} {x : Chain × Tens F32} (h : srcLeaf L R r dev mem st q = some x)
    (hbody : ∀ e ∈ st.twins, e.1 ∈ L.body)
    (htwin : producer L.graph q ∈ L.body → producer L.graph q ∈ st.twins.map Prod.fst) :
    Read L R r dev mem st x.1 ∧ (producer L.graph q ∉ L.body → (L.shape q).ne0 = 1 →
      (L.shape q).ne1 = R.nExpertUsed → q ∈ x.1.gathers.map Prod.fst) := by
  unfold srcLeaf at h
  split at h
  · rename_i T hget
    cases h
    refine ⟨.refl _, fun hnot => ?_⟩
    rcases find_fst (l := st.twins) (q := producer L.graph q) with ⟨_, _, hmem⟩ | ⟨hnone, _⟩
    · exact absurd (hbody _ hmem) hnot
    · rw [Chain.twinGet, hnone] at hget
      cases hget
  · rename_i hget
    have hnot : producer L.graph q ∉ L.body := by
      intro hmem
      obtain ⟨T, hsome, _⟩ := twinGet_of_mem (htwin hmem)
      rw [hget] at hsome
      cases hsome
    unfold extLeaf at h
    split at h
    · obtain ⟨hread, hmem⟩ : Read L R r dev mem st x.1 ∧ (q, x.2) ∈ x.1.gathers :=
        read_gathered h fun T hT => .inr ⟨hnot, hT⟩
      exact ⟨hread, fun _ _ _ => List.mem_map_of_mem (f := Prod.fst) hmem⟩
    · rename_i hshape
      cases h
      exact ⟨.refl _, fun _ hne0 hne1 => absurd ⟨hne0, hne1⟩ hshape⟩

theorem read_srcLeaves {qs : List ℕ} : ∀ {st : Chain} {x : Chain × List (Tens F32)},
    srcLeaves L R r dev mem st qs = some x → (∀ e ∈ st.twins, e.1 ∈ L.body) →
    (∀ q ∈ qs, producer L.graph q ∈ L.body → producer L.graph q ∈ st.twins.map Prod.fst) →
    Read L R r dev mem st x.1 ∧ ∀ q ∈ qs, producer L.graph q ∉ L.body → (L.shape q).ne0 = 1 →
      (L.shape q).ne1 = R.nExpertUsed → q ∈ x.1.gathers.map Prod.fst := by
  induction qs with
  | nil =>
    intro st x h _ _
    cases h
    exact ⟨.refl _, fun q hq => absurd hq List.not_mem_nil⟩
  | cons q qs ih =>
    intro st x h hbody htwin
    obtain ⟨y, hfirst, h⟩ := Option.bind_eq_some_iff.mp h
    obtain ⟨z, hrest, h⟩ := Option.map_eq_some_iff.mp h
    cases h
    obtain ⟨hread, hkey⟩ := read_srcLeaf hfirst hbody (htwin q List.mem_cons_self)
    have htwins := hread.twins_eq
    obtain ⟨hread', hkeys⟩ := ih hrest (by rwa [htwins]) fun a ha => by
      rw [htwins]
      exact htwin a (List.mem_cons_of_mem q ha)
    refine ⟨hread.trans hread', ?_⟩
    intro a ha hnot hne0 hne1
    rcases List.mem_cons.mp ha with rfl | ha
    · exact hread'.gathers_sub (hkey hnot hne0 hne1)
    · exact hkeys a ha hnot hne0 hne1

theorem twinPut_eq {T : Tens F32} (h : st.twinPut p T = some st') :
    st.twins.length < 64 ∧ st'.twins = st.twins ++ [(p, T)] ∧ st'.gathers = st.gathers := by
  unfold Chain.twinPut at h
  split at h
  · rename_i hlt
    cases h
    exact ⟨hlt, rfl, rfl⟩
  · cases h

/-- What one clone adds to the tables. -/
theorem Ran.put (h : Ran L R r dev K mem pre st) {st₁ : Chain} {T : Tens F32} (hp : p ∈ L.body)
    (hread : Read L R r dev mem st st₁) (hput : st₁.twinPut p T = some st')
    (hkeys : gatherKeys L R p ⊆ st₁.gathers.map Prod.fst)
    (hcloned : L.graph.op p ≠ .mulMatId →
      L.replaced p = false ∧ T.toShape = narrowed R r (L.shape p))
    (hproduct : ∀ w cur ids, L.graph.op p = .mulMatId →
      (L.graph.tensor p).src = [some w, some cur, some ids] → cur ∉ L.body → ∃ T',
        Origin L R r dev mem (cur, T') ∧
          T = mulMatId K w (.packed (L.shape w).ne1 r.width r.nActive) (idsExp R r) T') :
    Ran L R r dev K mem (pre ++ [p]) st' := by
  obtain ⟨hlt, htwins, hgathers⟩ := twinPut_eq hput
  have hmem : ∀ e ∈ st'.twins, e ∈ st.twins ∨ e = (p, T) := by
    intro e he
    rw [htwins, hread.twins_eq, List.mem_append, List.mem_singleton] at he
    exact he
  refine ⟨?_, ?_, ?_, ?_, ?_, ?_, ?_⟩
  · intro e he
    rcases hmem e he with he | rfl
    · exact ⟨List.mem_append_left _ (h.keys e he).1, (h.keys e he).2⟩
    · exact ⟨List.mem_append_right _ (List.mem_singleton_self p), hp⟩
  · rw [htwins, List.length_append, List.length_singleton]
    omega
  · rw [hgathers]
    exact hread.gathers_le h.gathers_le
  · rw [hgathers]
    exact hread.origin h.origin
  · intro p' hp' hbody
    rw [hgathers]
    rcases List.mem_append.mp hp' with hp' | hp'
    · exact List.Subset.trans (h.gathered p' hp' hbody) hread.gathers_sub
    · rw [List.mem_singleton.mp hp']
      exact hkeys
  · intro e he
    rcases hmem e he with he | rfl
    · exact h.cloned e he
    · exact hcloned
  · intro e he
    rcases hmem e he with he | rfl
    · exact h.product e he
    · exact hproduct

/-- A step that adds nothing. -/
theorem Ran.skip (h : Ran L R r dev K mem pre st) (hp : p ∉ L.body) :
    Ran L R r dev K mem (pre ++ [p]) st := by
  refine ⟨?_, h.twins_le, h.gathers_le, h.origin, ?_, h.cloned, h.product⟩
  · exact fun e he => ⟨List.mem_append_left _ (h.keys e he).1, (h.keys e he).2⟩
  · intro p' hp' hbody
    rcases List.mem_append.mp hp' with hp' | hp'
    · exact h.gathered p' hp' hbody
    · exact absurd (List.mem_singleton.mp hp' ▸ hbody) hp

/-- The step of a node that has its twin afterwards. -/
theorem Ran.body (C : Closure L R) (h : Ran L R r dev K mem pre st)
    (hsplit : L.compute = pre ++ p :: post) (hp : p ∈ L.body)
    (hbefore : ∀ j ∈ L.body, j ∈ pre → j ∈ st.twins.map Prod.fst)
    (hkey : p ∈ st'.twins.map Prod.fst)
    (hstep : chainStep L R r dev K mem st p = some st') : Ran L R r dev K mem (pre ++ [p]) st' := by
  have hbody : ∀ e ∈ st.twins, e.1 ∈ L.body := fun e he => (h.keys e he).2
  have htwin : ∀ q ∈ (L.graph.tensor p).sources, producer L.graph q ∈ L.body →
      producer L.graph q ∈ st.twins.map Prod.fst := fun q hq hmem =>
    hbefore _ hmem (operand_before C hsplit hq (mem_compute_of_body hmem))
  have hview : ¬ isViewOp (L.graph.op p) = true := by
    rw [(mem_body.mp hp).2.1]
    exact Bool.false_ne_true
  -- a node the chain leaves to the fold has no twin afterwards
  have hkept : L.graph.op p ≠ .mulMatId → L.replaced p = false := by
    intro hop
    by_contra hrep
    rw [chainStep, if_neg hview, if_neg hop, appendOp, if_pos (by simpa using hrep)] at hstep
    cases hstep
    obtain ⟨e, he, hfst⟩ := List.mem_map.mp hkey
    have hpre := (h.keys e he).1
    rw [hfst] at hpre
    have hnodup := C.nodup
    rw [hsplit] at hnodup
    exact (List.nodup_append.mp hnodup).2.2 p hpre p List.mem_cons_self rfl
  rw [chainStep, if_neg hview] at hstep
  have hrows : L.graph.op p ≠ .mulMatId → L.graph.op p ≠ .getRows →
      Ran L R r dev K mem (pre ++ [p]) st' := by
    intro hop hop'
    rw [if_neg hop, appendOp, if_neg (by simp [hkept hop])] at hstep
    split at hstep
    · rename_i hget _
      exact absurd hget hop'
    · obtain ⟨x, hread, hstep⟩ := Option.bind_eq_some_iff.mp hstep
      split at hstep
      · obtain ⟨hread', hkeys⟩ := read_srcLeaves hread hbody htwin
        refine h.put hp hread' hstep ?_ (fun hop => ⟨hkept hop, rfl⟩) fun w cur ids hmm => absurd hmm hop
        intro q hq
        rw [gatherKeys_rows hop hop', List.mem_filter, decide_eq_true_eq] at hq
        exact hkeys q hq.1 hq.2.1 hq.2.2.1 hq.2.2.2
      · cases hstep
  cases C.built p hp with
  | mulMatId w cur ids hop hsrc =>
    rw [if_pos hop, appendMm] at hstep
    simp only [hsrc] at hstep
    obtain ⟨x, hread, hstep⟩ := Option.bind_eq_some_iff.mp hstep
    split at hstep
    · by_cases hcur : cur ∈ L.body
      · have hq : cur ∈ (L.graph.tensor p).sources := by
          simp [Tensor.sources, hsrc, List.reduceOption]
        have hprod := producer_body hcur
        have hmem := htwin cur hq (hprod.symm ▸ hcur)
        rw [hprod] at hmem
        obtain ⟨T, hget, _⟩ := twinGet_of_mem hmem
        simp only [curLeaf, C.computed cur hcur, if_false, hget] at hread
        cases hread
        refine h.put hp (.refl _) hstep ?_ (fun hop' => absurd hop hop') ?_
        · simp [gatherKeys, hop, hsrc, hcur]
        · intro w' cur' ids' _ hsrc' hcur'
          simp only [hsrc, List.cons.injEq, Option.some.injEq] at hsrc'
          exact absurd (hsrc'.2.1 ▸ hcur) hcur'
      · have hnone := twinGet_none h hcur
        have hgathered : st.gathered cur (gatherCur R r dev (L.tens mem cur)) = some x := by
          simpa only [curLeaf, hnone, ite_self] using hread
        obtain ⟨hread', hmem⟩ : Read L R r dev mem st x.1 ∧ (cur, x.2) ∈ x.1.gathers :=
          read_gathered hgathered fun T hT => .inl ⟨p, hp, hop, ⟨_, _, hsrc⟩, hT⟩
        refine h.put hp hread' hstep ?_ (fun hop' => absurd hop hop') ?_
        · simp only [gatherKeys, hop, hsrc, if_neg hcur]
          intro q hq
          rw [List.mem_singleton.mp hq]
          exact List.mem_map_of_mem (f := Prod.fst) hmem
        · intro w' cur' ids' _ hsrc' _
          simp only [hsrc, List.cons.injEq, Option.some.injEq, and_true] at hsrc'
          obtain ⟨rfl, rfl, rfl⟩ := hsrc'
          exact ⟨x.2, hread'.origin h.origin _ hmem, rfl⟩
    · cases hstep
  | rows hop hop' => exact hrows hop hop'
  | table q hop hop' => exact hrows hop hop'
  | scale table ids hop _ hsrc _ htable =>
    have hmm : L.graph.op p ≠ .mulMatId := by
      rw [hop]
      exact fun he => by cases he
    rw [if_neg hmm, appendOp, if_neg (by simp [hkept hmm])] at hstep
    simp only [hop, hsrc] at hstep
    obtain ⟨x, hread, hstep⟩ := Option.bind_eq_some_iff.mp hstep
    split at hstep
    · have hq : table ∈ (L.graph.tensor p).sources := by
        simp [Tensor.sources, hsrc, List.reduceOption]
      obtain ⟨hread', _⟩ := read_srcLeaf hread hbody (htwin table hq)
      refine h.put hp hread' hstep ?_ (fun _ => ⟨hkept hmm, rfl⟩) fun w cur ids hop' => absurd hop' hmm
      simp [gatherKeys, hop]
    · cases hstep

end step

section growth

variable {st st' : Chain}

theorem gathered_twins {q : ℕ} {make : Option (Tens F32)} {x : Chain × Tens F32}
    (h : st.gathered q make = some x) : x.1.twins = st.twins := by
  unfold Chain.gathered at h
  split at h
  · cases h
    rfl
  · obtain ⟨T, _, h⟩ := Option.bind_eq_some_iff.mp h
    obtain ⟨st₁, hput, h⟩ := Option.map_eq_some_iff.mp h
    cases h
    unfold Chain.gatherPut at hput
    split at hput <;> cases hput
    rfl

theorem srcLeaf_twins {q : ℕ} {x : Chain × Tens F32} (h : srcLeaf L R r dev mem st q = some x) :
    x.1.twins = st.twins := by
  unfold srcLeaf at h
  split at h
  · cases h
    rfl
  · unfold extLeaf at h
    split at h
    · exact gathered_twins h
    · cases h
      rfl

theorem srcLeaves_twins {qs : List ℕ} : ∀ {st : Chain} {x : Chain × List (Tens F32)},
    srcLeaves L R r dev mem st qs = some x → x.1.twins = st.twins := by
  induction qs with
  | nil =>
    intro st x h
    cases h
    rfl
  | cons q qs ih =>
    intro st x h
    obtain ⟨y, hfirst, h⟩ := Option.bind_eq_some_iff.mp h
    obtain ⟨z, hrest, h⟩ := Option.map_eq_some_iff.mp h
    cases h
    exact (ih hrest).trans (srcLeaf_twins hfirst)

theorem curLeaf_twins {cur : ℕ} {x : Chain × Tens F32} (h : curLeaf L R r dev mem st cur = some x) :
    x.1.twins = st.twins := by
  unfold curLeaf at h
  split at h
  · cases h
    rfl
  · exact gathered_twins h

/-- A step adds the twin of its node, if anything. -/
theorem chainStep_keys {p q : ℕ} (h : chainStep L R r dev K mem st p = some st') (hq : q ≠ p) :
    q ∈ st'.twins.map Prod.fst → q ∈ st.twins.map Prod.fst := by
  have hput : ∀ {st₁ : Chain} {T : Tens F32}, st₁.twins = st.twins → st₁.twinPut p T = some st' →
      q ∈ st'.twins.map Prod.fst → q ∈ st.twins.map Prod.fst := by
    intro st₁ T htwins hput hmem
    rw [(twinPut_eq hput).2.1, htwins, List.map_append, List.mem_append] at hmem
    exact hmem.resolve_right fun hlast => hq (List.mem_singleton.mp hlast)
  unfold chainStep at h
  split at h
  · cases h
    exact id
  · split at h
    · unfold appendMm at h
      split at h
      · obtain ⟨x, hread, h⟩ := Option.bind_eq_some_iff.mp h
        split at h
        · exact hput (curLeaf_twins hread) h
        · cases h
      · cases h
    · unfold appendOp at h
      split at h
      · cases h
        exact id
      · split at h
        · obtain ⟨x, hread, h⟩ := Option.bind_eq_some_iff.mp h
          split at h
          · exact hput (srcLeaf_twins hread) h
          · cases h
        · obtain ⟨x, hread, h⟩ := Option.bind_eq_some_iff.mp h
          split at h
          · exact hput (srcLeaves_twins hread) h
          · cases h

theorem foldlM_keys {post : List ℕ} {q : ℕ} (hq : q ∉ post) :
    ∀ {st : Chain}, post.foldlM (chainStep L R r dev K mem) st = some st' →
      q ∈ st'.twins.map Prod.fst → q ∈ st.twins.map Prod.fst := by
  induction post with
  | nil =>
    intro st h
    cases h
    exact id
  | cons p post ih =>
    intro st h hmem
    rw [List.foldlM_cons] at h
    obtain ⟨st₁, hstep, h⟩ := Option.bind_eq_some_iff.mp h
    obtain ⟨hne, hpost⟩ := not_or.mp fun h' => hq (List.mem_cons.mpr h')
    exact chainStep_keys hstep hne (ih hpost h hmem)

end growth

/-- What is known of the tables in the end when every node has its twin there. -/
theorem ran_of_foldlM (C : Closure L R) {st' : Chain}
    (hall : ∀ p ∈ L.body, p ∈ st'.twins.map Prod.fst) (post : List ℕ) :
    ∀ (pre : List ℕ) (st : Chain), L.compute = pre ++ post → Ran L R r dev K mem pre st →
      post.foldlM (chainStep L R r dev K mem) st = some st' → Ran L R r dev K mem L.compute st' := by
  induction post with
  | nil =>
    intro pre st hsplit h hrun
    cases hrun
    rw [List.append_nil] at hsplit
    exact hsplit ▸ h
  | cons p post ih =>
    intro pre st hsplit h hrun
    have hnodup := C.nodup
    rw [hsplit] at hnodup
    obtain ⟨_, hcons, hdisj⟩ := List.nodup_append.mp hnodup
    have hrun' := hrun
    rw [List.foldlM_cons] at hrun'
    obtain ⟨st₁, hstep, hrest⟩ := Option.bind_eq_some_iff.mp hrun'
    refine ih (pre ++ [p]) st₁ (by simpa using hsplit) ?_ hrest
    by_cases hp : p ∈ L.body
    · refine h.body C hsplit hp ?_ ?_ hstep
      · intro j hj hpre
        exact foldlM_keys (fun hmem => hdisj j hpre j hmem rfl) hrun (hall j hj)
      · exact foldlM_keys (List.nodup_cons.mp hcons).1 hrest (hall p hp)
    · have hmem : p ∈ L.compute := by
        rw [hsplit]
        exact List.mem_append_right _ List.mem_cons_self
      have hsame : st₁ = st := by
        rw [chainStep_fold C hmem hp] at hstep
        exact (Option.some.inj hstep).symm
      rw [hsame]
      exact h.skip hp

end CompactTwins
end StreamMoE
