import StreamMoE.RoundScratch

/-! What the rounds of a layer take of its scratch, told from the closure: the requests of every clone,
the copies of a leaf counted for its first reader. Whether the sizes suffice. -/
namespace StreamMoE
namespace RoundScratch

open ComputeGraph CompactTwins MixSplit MixExec MixCover RoundCells Scatter ScatterSearch Strided
  KeyedRequests
open GraphCapacity (made twinNodes twinShape)

section requests

variable (L : Layer) (R : Routing) (H : Residence) (r : MixRound) (τ : Option ℕ)

/-- What an operand takes when the nodes `known` have twins. -/
def operandRequest (known : List ℕ) (p : ℕ) (e : ℕ × ℕ) : List (Request ℕ Use) :=
  if IsIds L p e then [(none, uploadLeaf τ (4 * cells r))]
  else if producer L.graph e.2 ∈ known then []
  else if PerSlot L R e.2 then [(some e.2, gatherPerSlot L R H r τ e.2)]
  else [(none, wholeLeaf L H τ e.2)]

/-- What a clone takes: the ids of a product and its activation, or the operands in their order. -/
def requests (known : List ℕ) (p : ℕ) : List (Request ℕ Use) :=
  if L.graph.op p = .mulMatId then
    match (L.graph.tensor p).src with
    | [some _, some cur, _] =>
        (none, uploadLeaf τ (4 * cells r)) ::
          if L.graph.op cur ≠ .none ∧ cur ∈ known then [] else [(some cur, gatherCur L R H r τ cur)]
    | _ => []
  else (slots L p).flatMap (operandRequest L R H r τ known p)

def chainUse : List Use := fresh [] ((twinNodes L).flatMap (requests L R H r τ (twinNodes L)))

def roundUse : List Use :=
  [.index r.nActive, .index (cells r), .index (cells r)] ++ chainUse L R H r τ

end requests

section chain

variable {L : Layer} {R : Routing} {H : Residence} {r : MixRound} {τ : Option ℕ}

@[simp] theorem ask_twins (st : Chain) (a : Request ℕ Use) : (st.ask a).twins = st.twins := rfl

@[simp] theorem ask_gathers (st : Chain) (a : Request ℕ Use) :
    (st.ask a).gathers = st.gathers.ask a := rfl

/-- Several requests; no twin is made. -/
def Chain.askAll (st : Chain) (rs : List (Request ℕ Use)) : Chain :=
  { st with gathers := rs.foldl Ledger.ask st.gathers }

@[simp] theorem askAll_nil (st : Chain) : st.askAll [] = st := rfl

@[simp] theorem askAll_cons (st : Chain) (a : Request ℕ Use) (rs : List (Request ℕ Use)) :
    st.askAll (a :: rs) = (st.ask a).askAll rs := rfl

theorem askAll_append (st : Chain) (as bs : List (Request ℕ Use)) :
    st.askAll (as ++ bs) = (st.askAll as).askAll bs := by
  simp [Chain.askAll]

theorem operandLeaf_eq (p : ℕ) (st : Chain) (e : ℕ × ℕ) :
    operandLeaf L R H r τ p st e = st.askAll (operandRequest L R H r τ st.twins p e) := by
  unfold operandLeaf operandRequest srcLeaf extLeaf
  split
  · simp
  · split
    · simp
    · split <;> simp

theorem operandLeaves_eq (p : ℕ) (es : List (ℕ × ℕ)) : ∀ st : Chain,
    es.foldl (operandLeaf L R H r τ p) st =
      st.askAll (es.flatMap (operandRequest L R H r τ st.twins p)) := by
  induction es with
  | nil => simp
  | cons e es ih =>
    intro st
    rw [List.foldl_cons, ih, operandLeaf_eq, List.flatMap_cons, askAll_append]
    rfl

/-- A step makes the requests of its node and puts the twin, or does nothing. -/
theorem chainStep_eq (st : Chain) (p : ℕ) : chainStep L R H r τ st p =
    if made L p then (st.askAll (requests L R H r τ st.twins p)).twinPut p else st := by
  unfold chainStep made requests
  by_cases hview : isViewOp (L.graph.op p) = true
  · simp [hview]
  · by_cases hop : L.graph.op p = .mulMatId
    · have hnot : isViewOp .mulMatId = false := rfl
      simp only [hop, hnot, if_true, appendMm, Bool.false_eq_true, if_false, Bool.not_false, Bool.true_and]
      generalize (L.graph.tensor p).src = src
      split
      · rename_i cur _
        simp only [if_true]
        by_cases hcur : L.graph.op cur ≠ .none ∧ cur ∈ st.twins
        · simp [curLeaf, hcur]
        · rw [if_neg hcur, askAll_cons, askAll_cons, askAll_nil, curLeaf, ask_twins, if_neg hcur]
      · simp
    · simp only [hop, if_false, appendOp]
      by_cases hrep : L.replaced p = true
      · simp [hview, hrep]
      · simp [hview, hrep, operandLeaves_eq]

theorem mem_sources_of_slots {p : ℕ} {e : ℕ × ℕ} (h : e ∈ slots L p) :
    e.2 ∈ (L.graph.tensor p).sources := by
  obtain ⟨⟨x, i⟩, hmem, he⟩ := List.mem_filterMap.mp h
  obtain ⟨q, hq, rfl⟩ := Option.map_eq_some_iff.mp he
  have hx : x = some q := hq
  rw [Tensor.sources, List.reduceOption_mem_iff, ← hx]
  exact List.fst_mem_of_mem_zipIdx hmem

/-- A clone takes the same whether it knows the twins before it or all of them. -/
theorem requests_eq (C : Closure L R) {pre post : List ℕ} {p : ℕ} (hsplit : L.compute = pre ++ p :: post) :
    requests L R H r τ (pre.filter (made L)) p = requests L R H r τ (twinNodes L) p := by
  unfold requests
  split
  · split
    · rename_i cur _ hsrc
      have hread : cur ∈ (L.graph.tensor p).sources := by simp [Tensor.sources, hsrc, List.reduceOption]
      simp only [GraphCapacity.cur_before_iff C hsplit hread]
    · rfl
  · apply List.flatMap_congr
    intro e he
    simp only [operandRequest, GraphCapacity.twin_before_iff C hsplit (mem_sources_of_slots he)]

/-- The tables after the nodes `pre`. -/
structure Taken (pre : List ℕ) (st : Chain) : Prop where
  twins : st.twins = pre.filter (made L)
  gathers : st.gathers =
    ((pre.filter (made L)).flatMap (requests L R H r τ (twinNodes L))).foldl Ledger.ask {}

theorem chainStep_taken (C : Closure L R) {pre post : List ℕ} {p : ℕ} {st : Chain}
    (hsplit : L.compute = pre ++ p :: post) (h : @Taken L R H r τ pre st) :
    @Taken L R H r τ (pre ++ [p]) (chainStep L R H r τ st p) := by
  rw [chainStep_eq]
  by_cases hmade : made L p = true
  · rw [if_pos hmade, h.twins, requests_eq C hsplit]
    constructor
    · simp [Chain.askAll, Chain.twinPut, h.twins, List.filter_append, hmade]
    · simp [Chain.askAll, Chain.twinPut, h.gathers, List.filter_append, hmade]
  · rw [if_neg hmade]
    constructor
    · simp [h.twins, List.filter_append, hmade]
    · simp [h.gathers, List.filter_append, hmade]

theorem foldl_chainStep_taken (C : Closure L R) (post : List ℕ) : ∀ {pre : List ℕ} {st : Chain},
    L.compute = pre ++ post → @Taken L R H r τ pre st →
      @Taken L R H r τ L.compute (post.foldl (chainStep L R H r τ) st) := by
  induction post with
  | nil =>
    intro pre st hsplit h
    simpa [hsplit] using h
  | cons p post ih =>
    intro pre st hsplit h
    exact ih (by simp [hsplit]) (chainStep_taken C hsplit h)

theorem appendChain_eq (C : Closure L R) : (appendChain L R H r τ).twins = twinNodes L ∧
    (appendChain L R H r τ).gathers.made = chainUse L R H r τ := by
  have h := @foldl_chainStep_taken L R H r τ C L.compute [] {} rfl ⟨rfl, rfl⟩
  refine ⟨h.twins, ?_⟩
  have hgathers := h.gathers
  unfold appendChain
  rw [hgathers, made_foldl_ask]
  rfl

end chain

section tables

variable {L : Layer} {R : Routing} {H : Residence} {r : MixRound} {τ : Option ℕ}

theorem keys_records_eq (es : List (ℕ × List GraphCapacity.Node)) :
    ∀ tab : List (ℕ × List GraphCapacity.Node), (es.foldl GraphCapacity.record tab).map Prod.fst =
      (es.map Prod.fst).foldl enter (tab.map Prod.fst) := by
  induction es with
  | nil => simp
  | cons e es ih =>
    intro tab
    rw [List.foldl_cons, ih, List.map_cons, List.foldl_cons]
    congr 1
    rcases GraphCapacity.record_cases tab e with ⟨hmem, h⟩ | ⟨hmem, h⟩
    · rw [h, enter, if_pos hmem]
    · rw [h, enter, if_neg hmem, List.map_append, List.map_singleton]

theorem made_body (C : Closure L R) {p : ℕ} (h : p ∈ twinNodes L) : p ∈ L.body := by
  obtain ⟨hcompute, hmade⟩ := List.mem_filter.mp h
  simp only [made, Bool.and_eq_true, Bool.not_eq_true'] at hmade
  refine mem_body.mpr ⟨hcompute, hmade.1, ?_⟩
  by_contra hfold
  obtain ⟨hrep, hop⟩ := C.fold_replaced p hcompute (by simpa using hfold)
  simp [hop, hrep] at hmade

theorem slots_sources (p : ℕ) : (slots L p).map Prod.snd = (L.graph.tensor p).sources := by
  have hsnd : ∀ (xs : List (Option ℕ)) (k : ℕ),
      ((xs.zipIdx k).filterMap fun e => e.1.map fun q => (e.2, q)).map Prod.snd = xs.reduceOption := by
    intro xs
    induction xs with
    | nil => simp [List.reduceOption]
    | cons x xs ih =>
      intro k
      cases x with
      | none => simpa [List.reduceOption] using ih (k + 1)
      | some q => simpa [List.reduceOption] using ih (k + 1)
  exact hsnd _ 0

/-- A leaf per slot that no clone makes is asked for under its key. -/
theorem operandRequest_keys (known : List ℕ) (p : ℕ) (e : ℕ × ℕ) :
    (operandRequest L R H r τ known p e).filterMap Prod.fst =
      if ¬ IsIds L p e ∧ producer L.graph e.2 ∉ known ∧ (L.shape e.2).ne0 = 1 ∧
        (L.shape e.2).ne1 = R.nExpertUsed then [e.2] else [] := by
  unfold operandRequest
  by_cases hids : IsIds L p e
  · simp [hids]
  · by_cases hknown : producer L.graph e.2 ∈ known
    · simp [hids, hknown]
    · by_cases hslot : PerSlot L R e.2
      · have hshape := hslot
        unfold PerSlot at hshape
        simp [hids, hknown, hslot, hshape]
      · have hshape := hslot
        unfold PerSlot at hshape
        simp [hids, hknown, hslot, hshape]

theorem flatMap_ite {α β : Type*} (f : α → β) (P : β → Prop) [DecidablePred P] (xs : List α) :
    (xs.flatMap fun x => if P (f x) then [f x] else []) = (xs.map f).filter fun y => decide (P y) := by
  induction xs with
  | nil => rfl
  | cons x xs ih =>
    by_cases h : P (f x)
    · simp [h, ih]
    · simp [h, ih]

/-- A clone asks for the copies of the leaves that are counted for it. -/
theorem requests_keys (C : Closure L R) {p : ℕ} (h : p ∈ twinNodes L) (dev : Bool) :
    (requests L R H r τ (twinNodes L) p).filterMap Prod.fst =
      (GraphCapacity.leavesOf L R r dev (twinNodes L) p).map Prod.fst := by
  unfold requests GraphCapacity.leavesOf
  have hplain : L.graph.op p ≠ .mulMatId → L.graph.op p ≠ .getRows →
      ((slots L p).flatMap (operandRequest L R H r τ (twinNodes L) p)).filterMap Prod.fst =
        (((GraphCapacity.operands L p).filter fun q => decide (producer L.graph q ∉ twinNodes L ∧
          (L.shape q).ne0 = 1 ∧ (L.shape q).ne1 = R.nExpertUsed)).map
            fun q => (q, GraphCapacity.gatherPerSlot L R r dev q)).map Prod.fst := by
    intro hop hrows
    have hoperands : GraphCapacity.operands L p = (slots L p).map Prod.snd := by
      rw [slots_sources, GraphCapacity.operands]
      split
      · rename_i hget _
        exact absurd hget hrows
      · rfl
    have hids : ∀ e, ¬ IsIds L p e := fun e hids => hrows hids.1
    rw [List.filterMap_flatMap, List.map_map]
    simp only [operandRequest_keys, hids, not_false_eq_true, true_and]
    rw [hoperands, flatMap_ite Prod.snd fun q => producer L.graph q ∉ twinNodes L ∧
      (L.shape q).ne0 = 1 ∧ (L.shape q).ne1 = R.nExpertUsed]
    exact (List.map_id _).symm
  cases C.built p (made_body C h) with
  | mulMatId w cur ids op_eq src_eq =>
    simp only [op_eq, src_eq, if_true]
    by_cases hcur : L.graph.op cur ≠ .none ∧ cur ∈ twinNodes L
    · simp [hcur]
    · simp only [if_neg hcur]
      rfl
  | rows op_ne op_ne' => 
    rw [if_neg op_ne, if_neg op_ne]
    exact hplain op_ne op_ne'
  | table _ op_ne op_ne' =>
    rw [if_neg op_ne, if_neg op_ne]
    exact hplain op_ne op_ne'
  | scale table ids op_eq _ src_eq =>
    have hop : L.graph.op p ≠ .mulMatId := by simp [op_eq]
    have hoperands : GraphCapacity.operands L p = [table] := by
      simp [GraphCapacity.operands, op_eq, src_eq]
    have hslots : slots L p = [(0, table), (1, ids)] := by simp [slots, src_eq]
    rw [if_neg hop, if_neg hop, hoperands, hslots, List.filterMap_flatMap]
    simp only [operandRequest_keys]
    by_cases hleaf : producer L.graph table ∉ twinNodes L ∧ (L.shape table).ne0 = 1 ∧
        (L.shape table).ne1 = R.nExpertUsed
    · simp [IsIds, op_eq, hleaf]
    · simp [IsIds, op_eq, hleaf]

theorem same_tables (C : Closure L R) {nodes : List GraphCapacity.Node} {b : GraphCapacity.Build}
    (hlen : nodes.length ≤ 4096) (h : GraphCapacity.appendChain L R r τ.isSome nodes = .ok b) :
    (appendChain L R H r τ).twins = b.twins ∧ (appendChain L R H r τ).gathers.keys = b.gathers := by
  have htaken := @foldl_chainStep_taken L R H r τ C L.compute [] {} rfl ⟨rfl, rfl⟩
  rcases @GraphCapacity.appendChain_draws L R r τ.isSome C nodes hlen with
    ⟨b', hok, hcounted⟩ | ⟨i, herr, _⟩
  · obtain rfl : b' = b := Except.ok.inj (hok.symm.trans h)
    refine ⟨htaken.twins.trans hcounted.twins.symm, ?_⟩
    unfold appendChain
    rw [htaken.gathers, keys_foldl_ask, hcounted.gathers, GraphCapacity.copies, keys_records_eq,
      List.filterMap_flatMap, List.map_flatMap]
    congr 1
    exact List.flatMap_congr fun p hp => requests_keys C hp τ.isSome
  · rw [herr] at h
    cases h

end tables

section reads

/-- What a clone reads that no clone makes: the ids of the round, an activation, a leaf with a float for every slot of
a token, or any other leaf. -/
inductive Read
  | ids
  | activation (q : ℕ)
  | perSlot (q : ℕ)
  | whole (q : ℕ)
  deriving DecidableEq, Repr

/-- Activations and leaves per slot are copied once a round. -/
def Read.key : Read → Option ℕ
  | .ids => none
  | .activation q => some q
  | .perSlot q => some q
  | .whole _ => none

variable (L : Layer) (R : Routing) (H : Residence) (r : MixRound)

def Read.use (τ : Option ℕ) : Read → List Use
  | .ids => uploadLeaf τ (4 * cells r)
  | .activation q => gatherCur L R H r τ q
  | .perSlot q => gatherPerSlot L R H r τ q
  | .whole q => wholeLeaf L H τ q

def operandRead (p : ℕ) (e : ℕ × ℕ) : List Read :=
  if IsIds L p e then [.ids]
  else if producer L.graph e.2 ∈ twinNodes L then []
  else if PerSlot L R e.2 then [.perSlot e.2]
  else [.whole e.2]

/-- The reads of a clone, in the order in which it is built -/
def reads (p : ℕ) : List Read :=
  if L.graph.op p = .mulMatId then
    match (L.graph.tensor p).src with
    | [some _, some cur, _] =>
        .ids :: if L.graph.op cur ≠ .none ∧ cur ∈ twinNodes L then [] else [.activation cur]
    | _ => []
  else (slots L p).flatMap (operandRead L R p)

def firstReads : List Read :=
  fresh [] (((twinNodes L).flatMap (reads L R)).map fun x => (x.key, [x]))

variable {L R H r} {τ : Option ℕ}

theorem requests_reads (p : ℕ) :
    requests L R H r τ (twinNodes L) p = (reads L R p).map fun x => (x.key, x.use L R H r τ) := by
  unfold requests reads
  split
  · split
    · split <;> rfl
    · rfl
  · rw [List.map_flatMap]
    refine List.flatMap_congr fun e _ => ?_
    unfold operandRequest operandRead
    split
    · rfl
    · split
      · rfl
      · split <;> rfl

theorem chainUse_reads : chainUse L R H r τ = (firstReads L R).flatMap (Read.use L R H r τ) := by
  have hrequests : (twinNodes L).flatMap (requests L R H r τ (twinNodes L)) =
      ((twinNodes L).flatMap (reads L R)).map fun x => (x.key, x.use L R H r τ) := by
    rw [List.map_flatMap]
    exact List.flatMap_congr fun p _ => requests_reads p
  rw [chainUse, hrequests]
  exact fresh_map Read.key _ _ []

end reads

section rounds

variable {L : Layer} {R : Routing} (H : Residence) (devs : Targets)

theorem builtRounds_eq (R : Routing) : builtRounds R = (buildMixPlan R).rounds := by
  apply List.filter_eq_self.mpr
  intro r hr
  have hw := width_pos hr
  have hn := nActive_pos hr
  simp
  omega

/-- The loop ends after the first round of a closure in which nothing is cloned. -/
def ranRounds (L : Layer) (rs : List MixRound) : List MixRound :=
  if twinNodes L = [] then rs.take 1 else rs

theorem folds_iff (C : Closure L R) (r : MixRound) (τ : Option ℕ) :
    Folds L R r (appendChain L R H r τ) ↔ twinNodes L ≠ [] := by
  rw [Folds, (appendChain_eq C).1]
  constructor
  · rintro ⟨p, hp, _⟩ hnil
    simp [hnil] at hp
  · intro hne
    have hlast := List.getLast?_eq_some_getLast hne
    exact ⟨_, hlast, GraphCapacity.twinShape_ne2 C (List.getLast_mem hne)⟩

theorem roundsUse_eq (C : Closure L R) (rs : List MixRound) :
    (∀ r ∈ rs, r ∈ (buildMixPlan R).rounds) →
      roundsUse L R H devs rs =
        (ranRounds L rs).flatMap fun r => roundUse L R H r (targetOf devs r) := by
  induction rs with
  | nil => simp [roundsUse, ranRounds]
  | cons r rs ih =>
    intro hmem
    have hr := hmem r List.mem_cons_self
    have hskip : ¬ (r.width = 0 ∨ r.nActive = 0) := by
      have hw := width_pos hr
      have hn := nActive_pos hr
      omega
    have hrest := ih fun r' h => hmem r' (List.mem_cons_of_mem r h)
    rw [roundsUse, if_neg hskip, if_neg (by simp [GraphCapacity.length_order hr])]
    simp only [folds_iff H C, (appendChain_eq C).2]
    by_cases hnil : twinNodes L = []
    · simp [hnil, ranRounds, roundUse]
    · simp only [ne_eq, hnil, not_false_eq_true, if_true, hrest, ranRounds, if_false, List.flatMap_cons]
      rfl

theorem layerUse_eq (C : Closure L R) : layerUse L R H devs =
    (ranRounds L (buildMixPlan R).rounds).flatMap fun r => roundUse L R H r (targetOf devs r) :=
  roundsUse_eq H devs C _ fun _ h => h

/-- Where nothing is cloned nothing else is taken. -/
theorem chainUse_of_nil (h : twinNodes L = []) (r : MixRound) (τ : Option ℕ) :
    chainUse L R H r τ = [] := by
  simp [chainUse, h, fresh]

end rounds

end RoundScratch
end StreamMoE
