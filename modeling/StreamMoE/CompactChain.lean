import StreamMoE.TwinRows

/-! `append_bucket_chain_compact` as a whole: what one node adds, what the chain of a round
computes, and when it computes it. -/
namespace StreamMoE
namespace CompactTwins

open ComputeGraph MixSplit MixExec Scatter Strided RoundCells
open ExpertAddress (rid rid_eq columnOf columnOf_lt)

variable {L : Layer} {R : Routing} {r : MixRound} {dev : Bool}

theorem exists_of_forall₂ {α β : Type*} {P : α → β → Prop} {as : List α} {bs : List β}
    (h : List.Forall₂ P as bs) : ∀ b ∈ bs, ∃ a ∈ as, P a b := by
  induction h with
  | nil => exact fun b hb => absurd hb List.not_mem_nil
  | cons hab _ ih =>
    intro b hb
    rcases List.mem_cons.mp hb with rfl | hb
    · exact ⟨_, List.mem_cons_self, hab⟩
    · obtain ⟨a, ha, hP⟩ := ih b hb
      exact ⟨a, List.mem_cons_of_mem _ ha, hP⟩

section step

variable (K : Kernels) (mem : Memory) {pre post : List ℕ} {st : Chain} (C : Closure L R)
  (hr : r ∈ (buildMixPlan R).rounds)

include hr in
theorem idsExp_eq {i s : ℕ} (hi : i < r.nActive) (hs : s < r.width) :
    idsExp R r s i = routed R (cell R r i s).2 (cell R r i s).1 := by
  rw [idsExp, rid_eq hr ((columnOf_lt hr).2 i hi) hs]
  rfl

include hr in
theorem idsExp_lt {i s : ℕ} (hi : i < r.nActive) (hs : s < r.width) :
    idsExp R r s i < R.nExpert := by
  have hpool := (cell_spec hr ((columnOf_lt hr).2 i hi) hs).2.2.2
  rw [idsExp, rid_eq hr ((columnOf_lt hr).2 i hi) hs]
  simp only [cellPool] at hpool
  split at hpool
  · cases hpool
  · rename_i hrange
    omega

include hr in
/-- Operands with the rows of the cells give a row-wise operation the same rows. -/
theorem rows_congr {qs : List ℕ} {Ts : List (Tens F32)}
    (hqs : ∀ q ∈ qs, (L.shape q).ne2 = R.nTokens)
    (hTs : List.Forall₂ (Carries L R r K mem) qs Ts) {i s : ℕ} (hi : i < r.nActive)
    (hs : s < r.width) : (Ts.map fun T => T.row (s % T.ne1) (i % T.ne2)) =
      (qs.map (L.tens (L.eval R K mem))).map fun T =>
        T.row ((cell R r i s).2 % T.ne1) ((cell R r i s).1 % T.ne2) := by
  obtain ⟨_, hlt, _⟩ := tight_cell hr hi hs
  induction hTs with
  | nil => rfl
  | @cons q T qs Ts hT _ ih =>
    have hne2 : (L.tens (L.eval R K mem) q).ne2 = R.nTokens := hqs q List.mem_cons_self
    rw [List.map_cons, List.map_cons, List.map_cons, ih fun x hx => hqs x (List.mem_cons_of_mem q hx),
      hT.ne2_eq, Nat.mod_eq_of_lt hi, hne2, Nat.mod_eq_of_lt hlt, hT.rows i hi s hs]
    rfl

include C hr in
/-- A clone of a node with slots, element by element. -/
theorem twinOf_slots {p d : ℕ} (hp : p ∈ L.body) (hrep : L.repeats p = false)
    (hshape : L.shape p = .packed d R.nExpertUsed R.nTokens) {f g : ℕ → ℕ → ℕ → F32}
    (hfull : L.result R K (L.eval R K mem) p = .ofElems (L.shape p) g)
    (helem : ∀ i < r.nActive, ∀ s < r.width, ∀ x < d, f x s i = g x (cell R r i s).2 (cell R r i s).1) :
    TwinOf L R r K mem p (.ofElems (.packed d r.width r.nActive) f) := by
  refine ⟨?_, ?_⟩
  · rw [Tens.toShape_ofElems, hshape, hrep]
    rfl
  · intro i hi
    rw [hrep]
    intro s hs
    rw [Tens.row_ofElems _ hs, tens_eval C K mem hp, hfull, hshape,
      Tens.row_ofElems _ (tight_cell hr hi hs).2.2]
    apply List.map_congr_left
    intro x hx
    exact helem i hi s hs x (List.mem_range.mp hx)

theorem narrowed_eq {sh : Shape} {m : ℕ} (hne2 : sh.ne2 = R.nTokens)
    (hne1 : (if sh.ne1 = R.nExpertUsed ∧ sh.ne0 ≠ R.nExpertUsed then r.width else sh.ne1) = m) :
    narrowed R r sh = .packed sh.ne0 m r.nActive := by
  rw [narrowed, hne1, if_pos hne2]

theorem narrowed_slots {p d : ℕ} (hshape : L.shape p = .packed d R.nExpertUsed R.nTokens)
    (hd : d = R.nExpertUsed → r.width = R.nExpertUsed) :
    narrowed R r (L.shape p) = .packed d r.width r.nActive := by
  have hne0 : (L.shape p).ne0 = d := by rw [hshape]; rfl
  have hne1 : (L.shape p).ne1 = R.nExpertUsed := by rw [hshape]; rfl
  have hne2 : (L.shape p).ne2 = R.nTokens := by rw [hshape]; rfl
  have hwidth : (if (L.shape p).ne1 = R.nExpertUsed ∧ (L.shape p).ne0 ≠ R.nExpertUsed then r.width
      else (L.shape p).ne1) = r.width := by
    split
    · rfl
    · rename_i h
      rw [hne0, not_and, not_not] at h
      rw [hne1, hd (h hne1)]
  rw [narrowed_eq hne2 hwidth, hne0]

theorem narrowed_table {p : ℕ} (hshape : L.shape p = .packed 1 R.nExpert R.nTokens)
    (hd : R.nExpert = R.nExpertUsed → r.width = R.nExpertUsed) :
    narrowed R r (L.shape p) = .packed 1 R.nExpert r.nActive := by
  have hne0 : (L.shape p).ne0 = 1 := by rw [hshape]; rfl
  have hne1 : (L.shape p).ne1 = R.nExpert := by rw [hshape]; rfl
  have hne2 : (L.shape p).ne2 = R.nTokens := by rw [hshape]; rfl
  have hwidth : (if (L.shape p).ne1 = R.nExpertUsed ∧ (L.shape p).ne0 ≠ R.nExpertUsed then r.width
      else (L.shape p).ne1) = R.nExpert := by
    split
    · rename_i h
      have heq := hne1.symm.trans h.1
      rw [hd heq, heq]
    · exact hne1
  rw [narrowed_eq hne2 hwidth, hne0]

variable (hplain : Plain L R r) (hoffs : Offsets L R r dev) {p : ℕ}
  (hsplit : L.compute = pre ++ p :: post) (hp : p ∈ L.body) (h : Inv L R r K mem pre st)
include C hr hplain hoffs hsplit hp h

omit hoffs in
theorem appendMm_spec {w cur ids : ℕ} (hop : L.graph.op p = .mulMatId)
    (hsrc : (L.graph.tensor p).src = [some w, some cur, some ids]) (hrep : L.repeats p = false)
    (hshape : L.shape p = .packed (L.shape w).ne1 R.nExpertUsed R.nTokens)
    (hcols : (L.shape cur).ne0 = (L.shape w).ne0)
    (hcur : Activation L R cur ∨ ∃ j, Slots L j ∧ SliceOf L cur j) :
    ∃ st', appendMm L R r dev K mem st p = some st' ∧ Inv L R r K mem (pre ++ [p]) st' := by
  obtain ⟨st₁, T, hsome, hinv, hT⟩ := @curLeaf_spec L R r dev K mem pre post st C hr hplain p hsplit
    hp h w cur ids hop hsrc hcur
  have hfits : MulMatIdFits (L.shape w).ne0 r.width r.nActive T := by
    refine ⟨hT.ne0_eq.trans hcols, hT.ne2_eq, ?_⟩
    rw [hT.ne1_eq]
    split
    · exact Nat.mod_self _
    · exact Nat.mod_one _
  have htwin : TwinOf L R r K mem p
      (mulMatId K w (.packed (L.shape w).ne1 r.width r.nActive) (idsExp R r) T) := by
    refine twinOf_slots K mem C hr hp hrep hshape (result_mulMatId K _ hop hsrc) ?_
    intro i hi s hs x _
    rw [idsExp_eq hr hi hs, hT.rows i hi s hs]
    rfl
  obtain ⟨st₂, hput, hinv'⟩ := twinPut_spec K mem hplain hsplit hp hinv htwin
  refine ⟨st₂, ?_, hinv'⟩
  simp only [appendMm, hsrc, hsome, Option.bind_some, hfits, if_true, hput]

omit C hr hplain hoffs hsplit hp h in
theorem gatherKeys_rows (hop : L.graph.op p ≠ .mulMatId) (hop' : L.graph.op p ≠ .getRows) :
    gatherKeys L R p = (L.graph.tensor p).sources.filter fun q =>
      decide (producer L.graph q ∉ L.body ∧ (L.shape q).ne0 = 1 ∧ (L.shape q).ne1 = R.nExpertUsed) := by
  unfold gatherKeys
  split
  · rename_i hmm _
    exact absurd hmm hop
  · rename_i hget
    exact absurd hget hop'
  · rfl

omit C hr hoffs hsplit hplain hp h in
/-- The clone of a node that is neither a product nor a gather. -/
theorem appendOp_rows (hop' : L.graph.op p ≠ .getRows) (hkept : L.replaced p = false)
    {sh : Shape} (hsh : narrowed R r (L.shape p) = sh) {st' : Chain} {Ts : List (Tens F32)}
    (hsome : srcLeaves L R r dev mem st (L.graph.tensor p).sources = some (st', Ts))
    (hfit : RowsFit (L.repeats p) sh Ts) :
    appendOp L R r dev K mem st p = st'.twinPut p (rowsOp K p sh Ts) := by
  unfold appendOp
  rw [hkept, if_neg Bool.false_ne_true]
  split
  · rename_i hget _
    exact absurd hget hop'
  · rw [hsome, Option.bind_some, hsh, if_pos hfit]

theorem appendOp_slots (hop : L.graph.op p ≠ .mulMatId) (hop' : L.graph.op p ≠ .getRows)
    (hrep : L.repeats p = false) (hne : (L.graph.tensor p).sources ≠ [])
    (hshape : L.shape p = .packed (L.shape p).ne0 R.nExpertUsed R.nTokens)
    (hfrom : ∀ q ∈ (L.graph.tensor p).sources,
      RoutingLeaf L R q ∨ ∃ j, Slots L j ∧ SliceOf L q j) :
    ∃ st', appendOp L R r dev K mem st p = some st' ∧ Inv L R r K mem (pre ++ [p]) st' := by
  have hkeys : ∀ q ∈ (L.graph.tensor p).sources, RoutingLeaf L R q → q ∈ gatherKeys L R p := by
    intro q hq hroute
    rw [gatherKeys_rows hop hop', List.mem_filter]
    exact ⟨hq, decide_eq_true ⟨(not_body_of_leaf hroute.leaf).2, hroute.ne0_eq, hroute.ne1_eq⟩⟩
  obtain ⟨st₁, Ts, hsome, hinv, hTs⟩ := @srcLeaves_spec L R r dev K mem pre post st C hr hplain hoffs
    p hsplit hp h hkeys hfrom _ (List.Subset.refl _)
  have hnarrow := narrowed_slots (r := r) hshape (hplain.slots p hp hop hrep)
  have haxes : ∀ q ∈ (L.graph.tensor p).sources,
      (L.shape q).ne1 = R.nExpertUsed ∧ (L.shape q).ne2 = R.nTokens := by
    intro q hq
    rcases hfrom q hq with hroute | ⟨j, hj, hslice⟩
    · exact ⟨hroute.ne1_eq, hroute.ne2_eq⟩
    · have hj' := slots_shape C hj
      exact ⟨hslice.ne1_eq.trans (congrArg Shape.ne1 hj'), hslice.ne2_eq.trans (congrArg Shape.ne2 hj')⟩
  have hTs' : ∀ T ∈ Ts, T.ne1 = r.width ∧ T.ne2 = r.nActive := by
    intro T hT
    obtain ⟨q, hq, hcarries⟩ := exists_of_forall₂ hTs T hT
    exact ⟨hcarries.ne1_eq.trans (if_pos (haxes q hq).1), hcarries.ne2_eq⟩
  have hfit : RowsFit (L.repeats p) (.packed (L.shape p).ne0 r.width r.nActive) Ts := by
    refine ⟨?_, ?_⟩
    · cases Ts with
      | nil => exact absurd (List.forall₂_nil_right_iff.mp hTs) hne
      | cons T Ts => exact ⟨T, rfl, .inr (hTs' T List.mem_cons_self)⟩
    · intro T hT
      rw [(hTs' T hT).1, (hTs' T hT).2]
      exact ⟨Nat.mod_self _, Nat.mod_self _⟩
  have htwin : TwinOf L R r K mem p
      (rowsOp K p (.packed (L.shape p).ne0 r.width r.nActive) Ts) := by
    refine twinOf_slots K mem C hr hp hrep hshape (result_rows K _ hop hop') ?_
    intro i hi s hs x _
    rw [rows_congr K mem hr (fun q hq => (haxes q hq).2) hTs hi hs]
  obtain ⟨st₂, hput, hinv'⟩ := twinPut_spec K mem hplain hsplit hp hinv htwin
  exact ⟨st₂, (appendOp_rows K mem hop' (hplain.kept p hp hop) hnarrow hsome hfit).trans hput, hinv'⟩

omit hoffs in
theorem appendOp_table (hrep : L.repeats p = true) :
    ∃ st', appendOp L R r dev K mem st p = some st' ∧ Inv L R r K mem (pre ++ [p]) st' := by
  obtain ⟨⟨hop, hop'⟩, hshape, q, hsrc, hleaf, hq⟩ := table_built C hp hrep
  have hkeys : (L.shape q).ne0 = 1 ∧ (L.shape q).ne1 = R.nExpertUsed → q ∈ gatherKeys L R p := by
    rintro ⟨hne0, hne1⟩
    rw [gatherKeys_rows hop hop', hsrc, List.mem_filter]
    exact ⟨List.mem_singleton_self q, decide_eq_true ⟨(not_body_of_leaf hleaf).2, hne0, hne1⟩⟩
  obtain ⟨st₁, T, hsome, hinv, hT⟩ := @srcLeaf_table L R r dev K mem pre post st hr hplain p hsplit
    hp h hrep q hsrc hkeys hleaf hq
  have hnarrow := narrowed_table (r := r) hshape fun heq => (hplain.table p hp hrep heq).1
  have hsome' : srcLeaves L R r dev mem st (L.graph.tensor p).sources = some (st₁, [T]) := by
    rw [hsrc]
    simp only [srcLeaves, hsome, Option.bind_some, Option.map_some]
  have hfit : RowsFit (L.repeats p) (.packed 1 R.nExpert r.nActive) [T] := by
    refine ⟨⟨T, rfl, .inl hrep⟩, ?_⟩
    intro U hU
    rw [List.mem_singleton.mp hU, hT.ne1_eq, hT.ne2_eq]
    exact ⟨Nat.mod_self _, Nat.mod_one _⟩
  have hne0 : (L.shape p).ne0 = 1 := by rw [hshape]; rfl
  have htwin : TwinOf L R r K mem p (rowsOp K p (.packed 1 R.nExpert r.nActive) [T]) := by
    refine ⟨?_, ?_⟩
    · rw [hrep, hne0]
      rfl
    · intro i hi
      rw [hrep]
      intro e he
      have hqne1 : (L.tens (L.eval R K mem) q).ne1 = R.nExpert := congrArg Shape.ne1 hq
      have hqne2 : (L.tens (L.eval R K mem) q).ne2 = 1 := congrArg Shape.ne2 hq
      rw [tens_eval C K mem hp, result_rows K _ hop hop', hsrc, rowsOp, rowsOp, hshape,
        Tens.row_ofElems _ he, Tens.row_ofElems _ he]
      apply List.map_congr_left
      intro x _
      simp only [List.map_cons, List.map_nil, hT.ne1_eq, hT.ne2_eq, hqne1, hqne2, Nat.mod_one,
        Nat.mod_eq_of_lt he, hT.rows e he]
  obtain ⟨st₂, hput, hinv'⟩ := twinPut_spec K mem hplain hsplit hp hinv htwin
  exact ⟨st₂, (appendOp_rows K mem hop' (hplain.kept p hp hop) hnarrow hsome' hfit).trans hput, hinv'⟩

omit hoffs in
theorem appendOp_scale {table ids : ℕ} (hop : L.graph.op p = .getRows) (hrep : L.repeats p = false)
    (hsrc : (L.graph.tensor p).src = [some table, some ids])
    (hshape : L.shape p = .packed 1 R.nExpertUsed R.nTokens) (htable : table ∈ L.body)
    (hrepeats : L.repeats table = true) :
    ∃ st', appendOp L R r dev K mem st p = some st' ∧ Inv L R r K mem (pre ++ [p]) st' := by
  have hmm : L.graph.op p ≠ .mulMatId := by
    rw [hop]
    exact fun he => by cases he
  have hq : table ∈ (L.graph.tensor p).sources := by
    simp [Tensor.sources, hsrc, List.reduceOption]
  have hprod := producer_body htable
  have hpre := operand_before C hsplit hq (hprod.symm ▸ mem_compute_of_body htable)
  rw [hprod] at hpre
  obtain ⟨T, hget, hTshape, hTrows⟩ := h.twin K mem htable hpre
  obtain ⟨_, htshape, _⟩ := table_built C htable hrepeats
  simp only [hrepeats, if_true] at hTshape hTrows
  have hunwrap : unwrap L.graph table = (table, 0) := unwrap_of_not_view (mem_body.mp htable).2.1
  have hne0 : (L.shape table).ne0 = 1 := by rw [htshape]; rfl
  have hTne0 : T.ne0 = 1 := by rw [hTshape, hne0]; rfl
  have hTne1 : T.ne1 = R.nExpert := by rw [hTshape]; rfl
  have hTne2 : T.ne2 = r.nActive := by rw [hTshape]; rfl
  have hsome : srcLeaf L R r dev mem st table = some (st, T.slice 0 1) := by
    simp only [srcLeaf, producer, hunwrap, hget, hne0]
  have hslots : (1 = R.nExpertUsed → r.width = R.nExpertUsed) := by
    have hpos := width_pos hr
    have hle := width_le hr
    omega
  have hnarrow := narrowed_slots (r := r) hshape hslots
  have hfits : GetRowsFits (.packed 1 r.width r.nActive) r.width r.nActive (idsExp R r)
      (T.slice 0 1) := by
    refine ⟨⟨rfl, rfl⟩, ⟨rfl, hTne2⟩, ?_⟩
    intro t ht s hs
    exact (idsExp_lt hr ht hs).trans_eq hTne1.symm
  have htwin : TwinOf L R r K mem p
      (getRows (.packed 1 r.width r.nActive) (idsExp R r) (T.slice 0 1)) := by
    refine twinOf_slots K mem C hr hp hrep hshape (result_getRows K _ hop hsrc) ?_
    intro i hi s hs x hx
    have hrow := hTrows i hi (idsExp R r s i) (idsExp_lt hr hi hs)
    rw [← (tight_cell hr hi (width_pos hr)).1, (tight_cell hr hi hs).1, idsExp_eq hr hi hs] at hrow
    have hne : T.ne0 = (L.tens (L.eval R K mem) table).ne0 := hTne0.trans hne0.symm
    have helem := (Tens.row_eq_iff hne).mp hrow x (by rw [← hne, hTne0]; exact hx)
    rw [← helem, idsExp_eq hr hi hs]
    simp only [Tens.elem, Tens.slice, Nat.zero_add]
  obtain ⟨st₂, hput, hinv'⟩ := twinPut_spec K mem hplain hsplit hp h htwin
  refine ⟨st₂, ?_, hinv'⟩
  simp only [appendOp, hplain.kept p hp hmm, Bool.false_eq_true, if_false, hop, hsrc, hsome,
    Option.bind_some, hnarrow, hfits, if_true, hput]

/-- One node of the closure. -/
theorem chainStep_body :
    ∃ st', chainStep L R r dev K mem st p = some st' ∧ Inv L R r K mem (pre ++ [p]) st' := by
  have hview : ¬ isViewOp (L.graph.op p) = true := by
    rw [(mem_body.mp hp).2.1]
    exact Bool.false_ne_true
  rw [chainStep, if_neg hview]
  cases C.built p hp with
  | mulMatId w cur ids hop hsrc hrep hshape hcols hcur =>
    rw [if_pos hop]
    exact appendMm_spec K mem C hr hplain hsplit hp h hop hsrc hrep hshape hcols hcur
  | rows hop hop' hrep hne hshape hfrom =>
    rw [if_neg hop]
    exact appendOp_slots K mem C hr hplain hoffs hsplit hp h hop hop' hrep hne hshape hfrom
  | table q hop _ hrep =>
    rw [if_neg hop]
    exact appendOp_table K mem C hr hplain hsplit hp h hrep
  | scale table ids hop hrep hsrc hshape htable hrepeats =>
    have hmm : L.graph.op p ≠ .mulMatId := by
      rw [hop]
      exact fun he => by cases he
    rw [if_neg hmm]
    exact appendOp_scale K mem C hr hplain hsplit hp h hop hrep hsrc hshape htable hrepeats

end step

/-- A view or a node of the fold adds nothing. -/
theorem chainStep_fold {K : Kernels} {mem : Memory} {st : Chain} (C : Closure L R) {p : ℕ}
    (hmem : p ∈ L.compute) (hp : p ∉ L.body) : chainStep L R r dev K mem st p = some st := by
  rw [chainStep]
  by_cases hview : isViewOp (L.graph.op p) = true
  · rw [if_pos hview]
  · have hfold : L.fold p = true := by
      rw [mem_body] at hp
      simpa [hmem, hview] using hp
    obtain ⟨hrep, hmm⟩ := C.fold_replaced p hmem hfold
    rw [if_neg hview, if_neg hmm, appendOp, if_pos hrep]

theorem Inv.skip {K : Kernels} {mem : Memory} {pre : List ℕ} {st : Chain} {p : ℕ}
    (hmem : p ∈ L.compute) (hp : p ∉ L.body) (h : Inv L R r K mem pre st) :
    Inv L R r K mem (pre ++ [p]) st := by
  have hkept : ¬ kept L p = true := fun hk => hp (List.mem_filter.mpr ⟨hmem, hk⟩)
  refine { h with keys := ?_ }
  rw [h.keys, List.filter_append, List.filter_cons_of_neg hkept, List.filter_nil, List.append_nil]

theorem foldlM_chainStep (K : Kernels) (mem : Memory) (C : Closure L R)
    (hr : r ∈ (buildMixPlan R).rounds) (hplain : Plain L R r) (hoffs : Offsets L R r dev)
    (post : List ℕ) : ∀ (pre : List ℕ) (st : Chain), L.compute = pre ++ post →
      Inv L R r K mem pre st → ∃ st', post.foldlM (chainStep L R r dev K mem) st = some st' ∧
        Inv L R r K mem L.compute st' := by
  induction post with
  | nil =>
    intro pre st hsplit h
    rw [List.append_nil] at hsplit
    exact ⟨st, rfl, hsplit ▸ h⟩
  | cons p post ih =>
    intro pre st hsplit h
    have hstep : ∃ st', chainStep L R r dev K mem st p = some st' ∧
        Inv L R r K mem (pre ++ [p]) st' := by
      by_cases hp : p ∈ L.body
      · exact chainStep_body K mem C hr hplain hoffs hsplit hp h
      · have hmem : p ∈ L.compute := by
          rw [hsplit]
          exact List.mem_append_right _ List.mem_cons_self
        exact ⟨st, chainStep_fold C hmem hp, h.skip hmem hp⟩
    obtain ⟨st₁, hsome, hinv⟩ := hstep
    obtain ⟨st₂, hrest, hinv'⟩ := ih (pre ++ [p]) st₁ (by simpa using hsplit) hinv
    refine ⟨st₂, ?_, hinv'⟩
    rw [List.foldlM_cons, hsome]
    exact hrest

/-- The last node of the body is the one the fold sums: every other one is read later. -/
theorem getLast_body (C : Closure L R) : L.body.getLast? = some L.foldSrc := by
  have hne : L.body ≠ [] := List.ne_nil_of_mem C.foldSrc_slots.1
  have hlast := List.getLast_mem hne
  rw [List.getLast?_eq_some_getLast hne]
  by_contra hnot
  obtain ⟨p, hp, q, hq, hprod⟩ := C.read _ hlast fun he => hnot (congrArg some he)
  have hsplit := List.dropLast_append_getLast hne
  have hlt : L.body.getLast hne < p := by
    rw [← hprod]
    exact (producer_le q).trans_lt ((L.graph.conforms p).src_lt q hq)
  have hmem : p ∈ L.body.dropLast := by
    rw [← hsplit] at hp
    rcases List.mem_append.mp hp with hp | hp
    · exact hp
    · have he := List.mem_singleton.mp hp
      omega
  have hsub : L.body.Sublist L.compute := List.filter_sublist
  have hpair := C.operands_first.sublist hsub
  rw [← hsplit] at hpair
  exact (List.pairwise_append.mp hpair).2.2 p hmem _ List.mem_cons_self q hq hprod

/-- Without misleading coincidences the chain computes the rows of the closure. -/
theorem computes_of_plain (K : Kernels) (mem : Memory) (C : Closure L R)
    (hr : r ∈ (buildMixPlan R).rounds) (hplain : Plain L R r) (hoffs : Offsets L R r dev) :
    Computes L R r dev K mem := by
  have hinit : Inv L R r K mem [] {} :=
    ⟨rfl, fun e he => absurd he List.not_mem_nil, List.nodup_nil,
      fun q hq => absurd hq List.not_mem_nil, fun e he => absurd he List.not_mem_nil, rfl⟩
  obtain ⟨st, hsome, hinv⟩ := foldlM_chainStep K mem C hr hplain hoffs L.compute [] {} rfl hinit
  refine ⟨st, hsome, fun p hp => hinv.twin K mem hp (mem_compute_of_body hp), ?_⟩
  have hkeys : st.twins.map Prod.fst = L.body := hinv.keys
  have hlast := getLast_body C
  rw [← hkeys, List.getLast?_map] at hlast
  obtain ⟨e, he, hfst⟩ := Option.map_eq_some_iff.mp hlast
  have hmem : e ∈ st.twins := List.mem_of_getLast? he
  obtain ⟨T, hget, hT⟩ := @twinGet_of_mem st L.foldSrc
    (hfst ▸ List.mem_map_of_mem (f := Prod.fst) hmem)
  have hnodup : (st.twins.map Prod.fst).Nodup := hkeys ▸ body_nodup C
  have heq : e = (L.foldSrc, T) := List.inj_on_of_nodup_map hnodup hmem hT hfst
  rw [hinv.last, he, hget, heq]
  rfl

end CompactTwins
end StreamMoE
