import StreamMoE.CapacityNeeds
import StreamMoE.ChainGuard
import StreamMoE.MixCover
import StreamMoE.RoundCells

/-! When the graph of a target and the tables of a round are large enough for all rounds of a
layer. -/
namespace StreamMoE
namespace GraphCapacity

open ComputeGraph CompactTwins MixSplit MixExec MixCover RoundCells Scatter ScatterSearch Strided
  LayerOutput Supplies

section limits

variable (L : Layer) (R : Routing) (moe : Option MoeOut) (devs : Targets)

/-- The leaves that the clone of `p` reads from outside the closure and has copied. -/
def leafKeys (p : ℕ) : List ℕ :=
  if L.graph.op p = .mulMatId then
    match (L.graph.tensor p).src with
    | [some _, some cur, _] => if L.graph.op cur ≠ .none ∧ cur ∈ twinNodes L then [] else [cur]
    | _ => []
  else
    (operands L p).filter fun q => decide (producer L.graph q ∉ twinNodes L ∧ (L.shape q).ne0 = 1 ∧
      (L.shape q).ne1 = R.nExpertUsed)

def copiedLeaves : List ℕ := ((twinNodes L).flatMap (leafKeys L R)).dedup

open Classical in
/-- The number of arithmetic runs a set falls into when a best one is taken at a time. -/
noncomputable def runCount (S : ℕ → Bool) : ℕ :=
  if h : ∃ rs, Greedy S rs then h.choose.length else 0

/-- The nodes of a round of the tokens `ts`: the clones, the copied leaves, the sum over the slots, and
two nodes for every run of tokens unless the sum is the result. -/
noncomputable def roundCost (r : MixRound) (ts : List ℕ) : ℕ :=
  (twinNodes L).length + copyNodes (copies L R r (targetOf devs r).isSome L.compute) +
    ((twinNodes L).getLast?.elim 0 fun p => (foldNodes (twinShape L R r p)).length) +
    if moe.any (directOut L R) then 0 else 2 * runCount fun v => ts.contains v

/-- The round of a peel, wherever its cells lie. -/
def peelRound (x : Peel) : MixRound where
  pool := x.pool
  width := x.vj - x.vprev
  nActive := (activeToks R x.pool x.vj).length
  off := 0

/-- The sizes suffice: for the clones and the copied leaves of the closure, and for the rounds that the
routing gives each target. -/
structure Fits : Prop where
  twins : (twinNodes L).length ≤ 64
  gathers : (copiedLeaves L R).length ≤ 16
  graph : ∀ τ, (((allPeels R).filter fun x => decide (targetOf devs (peelRound R x) = τ)).map fun x =>
    roundCost L R moe devs (peelRound R x) (activeToks R x.pool x.vj)).sum ≤ 4096

noncomputable def roundNeed (pre : List MixRound) : Held → ℕ
  | .twins => if pre = [] then 0 else (twinNodes L).length
  | .gathers => if pre = [] then 0 else (copiedLeaves L R).length
  | .graph τ => ((pre.filter fun r => decide (targetOf devs r = τ)).map fun r =>
      roundCost L R moe devs r (tRound (buildMixPlan R) r)).sum

/-- The graphs after some rounds. -/
structure Grown (pre : List MixRound) (gf : Option ℕ → List Node) : Prop where
  nodes : ∀ τ, (gf τ).length = roundNeed L R moe devs pre (.graph τ)
  fits : ∀ i, roundNeed L R moe devs pre i ≤ holds i

variable {L R moe devs} in
theorem Fits.cost_le (h : Fits L R moe devs) {x : Peel} (hx : x ∈ allPeels R) :
    roundCost L R moe devs (peelRound R x) (activeToks R x.pool x.vj) ≤ 4096 := by
  refine le_trans (List.le_sum_of_mem ?_) (h.graph (targetOf devs (peelRound R x)))
  exact List.mem_map_of_mem (List.mem_filter.mpr ⟨hx, decide_eq_true rfl⟩)

end limits

section keys

variable {L : Layer} {R : Routing} {r : MixRound} {dev : Bool}

theorem map_fst_leavesOf (p : ℕ) :
    (leavesOf L R r dev (twinNodes L) p).map Prod.fst = leafKeys L R p := by
  unfold leavesOf leafKeys
  by_cases hop : L.graph.op p = .mulMatId
  · rw [if_pos hop, if_pos hop]
    rcases (L.graph.tensor p).src with _ | ⟨_ | w, _ | ⟨_ | cur, _ | ⟨ids, _ | _⟩⟩⟩
    case cons.some.cons.some.cons.nil => exact apply_ite (List.map Prod.fst) _ _ _
    all_goals rfl
  · rw [if_neg hop, if_neg hop]
    simp [Function.comp_def]

/-- Every leaf is copied once. -/
theorem length_copies : (copies L R r dev L.compute).length = (copiedLeaves L R).length := by
  obtain ⟨hnodup, hkeys⟩ := keys_records
    ((L.compute.filter (made L)).flatMap (leavesOf L R r dev (twinNodes L))) [] List.nodup_nil
  have hperm : ((copies L R r dev L.compute).map Prod.fst).Perm (copiedLeaves L R) := by
    refine (List.perm_ext_iff_of_nodup hnodup (List.nodup_dedup _)).mpr fun q => (hkeys q).trans ?_
    simp only [List.map_flatMap, map_fst_leavesOf, List.map_nil, List.not_mem_nil, false_or]
    exact List.mem_dedup.symm
  simpa using hperm.length_eq

end keys

section peels

variable {R : Routing}

/-- With one slot a token hits its pool once. -/
theorem count_single (h : R.nExpertUsed = 1) {p t : ℕ} (ht : t < R.nTokens) :
    (poolHits R).count p t = if cellPool R t 0 = some p then 1 else 0 := by
  have hused : List.range R.nExpertUsed = [0] := by simp [h]
  rw [← length_ksOf, ksOf_eq _ _ ht, hused, List.filter_singleton]
  by_cases hp : cellPool R t 0 = some p <;> simp [hp]

theorem rounds_eq (R : Routing) : (buildMixPlan R).rounds = toldRounds (buildMixPlan R) := by
  rw [toldRounds_of_fits (fits_routing R), buildMixPlan_extend]
  rfl

theorem cutFrom_rounds (R : Routing) :
    List.Forall₂ (CutFrom R) (buildMixPlan R).rounds (allPeels R) := by
  have hlen := length_toldRounds (fits_routing R)
  rw [rounds_eq]
  refine List.forall₂_iff_get.mpr ⟨hlen, fun i hi hi' => ?_⟩
  exact cutFrom_getElem (fits_routing R) hi hi'

theorem tRound_of_cutFrom {r : MixRound} {x : Peel} (h : CutFrom R r x) :
    tRound (buildMixPlan R) r = activeToks R x.pool x.vj := by
  have hwidth : 0 < r.width := by
    have hlt := (mem_allPeels h.peel).2.1
    rw [h.width]
    omega
  apply List.ext_getElem
  · rw [length_tRound, h.active]
  · intro a ha ha'
    rw [length_tRound] at ha
    simp only [tRound, List.getElem_map, List.getElem_range, h.cell a ha 0 hwidth,
      List.getD_eq_getElem _ _ ha']

theorem exists_round {x : Peel} (hx : x ∈ allPeels R) :
    ∃ r ∈ (buildMixPlan R).rounds, CutFrom R r x := by
  obtain ⟨i, hi, rfl⟩ := List.getElem_of_mem hx
  have hi' := hi.trans_eq (length_toldRounds (fits_routing R)).symm
  rw [rounds_eq]
  exact ⟨_, List.getElem_mem hi', cutFrom_getElem (fits_routing R) hi' hi⟩

theorem sum_filter_of_forall₂ {α β : Type*} {P : α → Bool} {Q : β → Bool} {f : α → ℕ} {g : β → ℕ}
    {as : List α} {bs : List β} (h : List.Forall₂ (fun a b => P a = Q b ∧ f a = g b) as bs) :
    ((as.filter P).map f).sum = ((bs.filter Q).map g).sum := by
  induction h with
  | nil => rfl
  | cons hab _ ih =>
    rw [List.filter_cons, List.filter_cons, hab.1]
    split
    · rw [List.map_cons, List.sum_cons, List.map_cons, List.sum_cons, hab.2, ih]
    · exact ih

variable (L : Layer) (moe : Option MoeOut) (devs : Targets)

/-- What a target's rounds need is told by the peels. -/
theorem sum_rounds (τ : Option ℕ) : roundNeed L R moe devs (buildMixPlan R).rounds (.graph τ) =
    (((allPeels R).filter fun x => decide (targetOf devs (peelRound R x) = τ)).map fun x =>
      roundCost L R moe devs (peelRound R x) (activeToks R x.pool x.vj)).sum := by
  refine sum_filter_of_forall₂ ((cutFrom_rounds R).imp fun r x h => ?_)
  have hround : r = { peelRound R x with off := r.off } := by
    cases r
    simp only [peelRound, MixRound.mk.injEq, and_true]
    exact ⟨h.pool, h.width, h.active⟩
  rw [tRound_of_cutFrom h, hround]
  exact ⟨rfl, rfl⟩

end peels

section scatter

variable {R : Routing} {r : MixRound}

theorem runCount_eq {S : ℕ → Bool} {rs : List Run} (h : Greedy S rs) : runCount S = rs.length := by
  have hex : ∃ rs, Greedy S rs := ⟨rs, h⟩
  rw [runCount, dif_pos hex, hex.choose_spec.unique h]

theorem Greedy.len_pos {rs : List Run} : ∀ {S : ℕ → Bool}, Greedy S rs → ∀ r ∈ rs, 0 < r.len := by
  induction rs with
  | nil => simp
  | cons r rs ih =>
    intro S h r' hr'
    rcases List.mem_cons.mp hr' with rfl | hr'
    · exact h.1.mem.pos
    · exact ih h.2 r' hr'

/-- The scatter plan of a round orders all its columns. -/
theorem length_order (hr : r ∈ (buildMixPlan R).rounds) :
    (buildScatterPlan (tRound (buildMixPlan R) r) R.nTokens).order.length = r.nActive := by
  have hok := round_ok hr
  have hperm := (buildScatterPlan_spec hok.lt hok.nodup (nTokens_le hr) hok.nonempty).1
  rw [hperm.length_eq, List.length_range, length_tRound]

/-- The segments of a round are the best runs of its tokens. -/
theorem greedy_round (hr : r ∈ (buildMixPlan R).rounds) :
    Greedy (fun v => (tRound (buildMixPlan R) r).contains v)
      ((buildScatterPlan (tRound (buildMixPlan R) r) R.nTokens).segs.map ScatterSeg.run) := by
  have hok := round_ok hr
  have hnT := nTokens_le hr
  refine greedy_segs (by omega) hok.lt hok.nodup (neverWraps_of_near ?_)
  intro u v hu _
  have hlt := hok.lt u (by simpa using hu)
  omega

/-- Every segment brings two nodes. -/
theorem length_scatterNodes (hr : r ∈ (buildMixPlan R).rounds) :
    (scatterNodes (buildScatterPlan (tRound (buildMixPlan R) r) R.nTokens).segs).length =
      2 * runCount fun v => (tRound (buildMixPlan R) r).contains v := by
  have hgreedy := greedy_round hr
  rw [runCount_eq hgreedy, List.length_map, scatterNodes]
  have hall : ∀ e ∈ (buildScatterPlan (tRound (buildMixPlan R) r) R.nTokens).segs.zipIdx,
      decide (e.1.len ≠ 0) = true := by
    intro e he
    have hmem := List.mem_map_of_mem (f := ScatterSeg.run) (List.fst_mem_of_mem_zipIdx he)
    have hpos := Greedy.len_pos hgreedy _ hmem
    simp only [ScatterSeg.run] at hpos
    simp
    omega
  rw [List.filter_eq_self.mpr hall, List.length_flatMap]
  simp [Nat.mul_comm]

end scatter

section rounds

variable {L : Layer} {R : Routing} {r : MixRound} (C : Closure L R)
include C

/-- A node that is cloned computes something of the closure. -/
theorem body_of_made {p : ℕ} (hp : p ∈ twinNodes L) : p ∈ L.body := by
  obtain ⟨hmem, hmade⟩ := List.mem_filter.mp hp
  simp only [made, Bool.and_eq_true, Bool.not_eq_true'] at hmade
  refine mem_body.mpr ⟨hmem, hmade.1, ?_⟩
  by_contra hfold
  obtain ⟨hrep, hop⟩ := C.fold_replaced p hmem (by simpa using hfold)
  simp [hop, hrep] at hmade

/-- The sum over the slots has a column for every token of the round. -/
theorem twinShape_ne2 {p : ℕ} (hp : p ∈ twinNodes L) : (twinShape L R r p).ne2 = r.nActive := by
  have hne2 : (L.shape p).ne2 = R.nTokens := by
    cases C.built p (body_of_made C hp) with
    | mulMatId w cur ids _ _ _ hshape => exact congrArg Shape.ne2 hshape
    | rows _ _ _ _ hshape => exact congrArg Shape.ne2 hshape
    | table q _ _ _ _ hshape => exact congrArg Shape.ne2 hshape
    | scale table ids _ _ _ hshape => exact congrArg Shape.ne2 hshape
  unfold twinShape
  split
  · rfl
  · simp [narrowed, hne2, Shape.packed]

theorem twinNodes_ne_nil (hmm : ∃ p ∈ L.compute, L.graph.op p = .mulMatId) : twinNodes L ≠ [] := by
  obtain ⟨p, hp, hop⟩ := hmm
  have hview : isViewOp (L.graph.op p) = false := by rw [hop]; rfl
  have hbody : p ∈ L.body := by
    refine mem_body.mpr ⟨hp, hview, ?_⟩
    by_contra hfold
    exact (C.fold_replaced p hp (by simpa using hfold)).2 hop
  have hsrc : ∃ w cur ids, (L.graph.tensor p).src = [some w, some cur, some ids] := by
    cases C.built p hbody with
    | mulMatId w cur ids _ hsrc => exact ⟨w, cur, ids, hsrc⟩
    | rows hop' => exact absurd hop hop'
    | table q hop' => exact absurd hop hop'
    | scale table ids hop' =>
      rw [hop] at hop'
      cases hop'
  obtain ⟨w, cur, ids, hsrc⟩ := hsrc
  refine List.ne_nil_of_mem (List.mem_filter.mpr ⟨hp, ?_⟩)
  have hnot : isViewOp .mulMatId = false := rfl
  simp [made, hnot, hop, hsrc]

variable (moe : Option MoeOut) (devs : Targets)
  (hmm : ∃ p ∈ L.compute, L.graph.op p = .mulMatId)

omit C in
theorem roundNeed_mono (pre : List MixRound) (r : MixRound) (i : Held) :
    roundNeed L R moe devs pre i ≤ roundNeed L R moe devs (pre ++ [r]) i := by
  cases i with
  | twins =>
    simp only [roundNeed, List.append_ne_nil_of_right_ne_nil _ (List.cons_ne_nil r []), if_false]
    split <;> simp
  | gathers =>
    simp only [roundNeed, List.append_ne_nil_of_right_ne_nil _ (List.cons_ne_nil r []), if_false]
    split <;> simp
  | graph τ => simp [roundNeed, List.filter_append]

omit C in
theorem roundNeed_append (pre : List MixRound) (r : MixRound) (τ : Option ℕ) :
    roundNeed L R moe devs (pre ++ [r]) (.graph τ) = roundNeed L R moe devs pre (.graph τ) +
      if targetOf devs r = τ then roundCost L R moe devs r (tRound (buildMixPlan R) r) else 0 := by
  by_cases h : targetOf devs r = τ <;> simp [roundNeed, List.filter_append, h]

omit C in
theorem roundNeed_tables (pre : List MixRound) (r : MixRound) :
    roundNeed L R moe devs (pre ++ [r]) .twins = (twinNodes L).length ∧
      roundNeed L R moe devs (pre ++ [r]) .gathers = (copiedLeaves L R).length := by
  have hne : pre ++ [r] ≠ [] := by simp
  exact ⟨if_neg hne, if_neg hne⟩

omit C in
/-- A round changes the graph of its target alone. -/
theorem Grown.step {pre : List MixRound} {gf : Option ℕ → List Node} (h : Grown L R moe devs pre gf)
    {τ : Option ℕ} (hτ : targetOf devs r = τ) {nodes : List Node}
    (hnodes : nodes.length = roundNeed L R moe devs (pre ++ [r]) (.graph τ))
    (htwins : (twinNodes L).length ≤ 64) (hgathers : (copiedLeaves L R).length ≤ 16)
    (hgraph : roundNeed L R moe devs (pre ++ [r]) (.graph τ) ≤ 4096) :
    Grown L R moe devs (pre ++ [r]) (Function.update gf τ nodes) := by
  obtain ⟨htables, htables'⟩ := roundNeed_tables (L := L) moe devs pre r
  have hother : ∀ τ', τ' ≠ τ → roundNeed L R moe devs (pre ++ [r]) (.graph τ') =
      roundNeed L R moe devs pre (.graph τ') := by
    intro τ' hne
    rw [roundNeed_append, if_neg (by rw [hτ]; exact hne.symm), Nat.add_zero]
  refine ⟨fun τ' => ?_, fun i => ?_⟩
  · by_cases hne : τ' = τ
    · rw [hne, Function.update_self, hnodes]
    · rw [Function.update_of_ne hne, hother τ' hne, h.nodes]
  · cases i with
    | twins => exact htables.trans_le htwins
    | gathers => exact htables'.trans_le hgathers
    | graph τ' =>
      by_cases hne : τ' = τ
      · exact hne ▸ hgraph
      · rw [hother τ' hne]
        exact h.fits (.graph τ')

omit C in
theorem chainNeed_graph {dev : Bool} {n : ℕ} {pre : List ℕ} (τ τ' : Option ℕ) :
    chainNeed L R r dev n pre (.graph τ) = chainNeed L R r dev n pre (.graph τ') := rfl

/-- The nodes of the result follow those of the chain, if there is room for all of them. -/
theorem addResult_eq {p : ℕ} (hp : p ∈ twinNodes L) {b : Build} (hlast : b.last = some p)
    (scatter : List Node) : addResult L R r scatter b =
      if b.nodes.length + (foldNodes (twinShape L R r p)).length + scatter.length ≤ 4096 then
        .ok { b with nodes := b.nodes ++ (foldNodes (twinShape L R r p) ++ scatter) }
      else .error .graph := by
  have hne2 := twinShape_ne2 C hp (r := r)
  unfold addResult Build.expand
  simp only [hlast, hne2, ne_eq, not_true_eq_false, if_false]
  by_cases hfold : b.nodes.length + (foldNodes (twinShape L R r p)).length ≤ 4096
  · simp [hfold, Except.bind]
  · rw [if_neg hfold, if_neg (by omega)]
    rfl

include hmm in
/-- One round: it is built, or one of the sizes does not suffice for it. -/
theorem runRound_draws {pre : List MixRound} {gf : Option ℕ → List Node}
    (hr : r ∈ (buildMixPlan R).rounds) (h : Grown L R moe devs pre gf) :
    (∃ gf', runRound L R moe devs gf r = .ok gf' ∧ Grown L R moe devs (pre ++ [r]) gf') ∨
      ∃ i, runRound L R moe devs gf r = .error (stopOf i) ∧
        holds i < roundNeed L R moe devs (pre ++ [r]) i := by
  have hskip : ¬ (r.width = 0 ∨ r.nActive = 0) := by
    have hw := width_pos hr
    have hn := nActive_pos hr
    omega
  have horder := length_order hr
  obtain ⟨p, hp, hlast⟩ : ∃ p ∈ twinNodes L, (twinNodes L).getLast? = some p := by
    have hne := twinNodes_ne_nil C hmm
    exact ⟨_, List.getLast_mem hne, List.getLast?_eq_some_getLast hne⟩
  generalize hscatter : (if moe.any (directOut L R) then [] else scatterNodes
    (buildScatterPlan (tRound (buildMixPlan R) r) R.nTokens).segs) = scatter
  have hlen : scatter.length = if moe.any (directOut L R) then 0
      else 2 * runCount fun v => (tRound (buildMixPlan R) r).contains v := by
    rw [← hscatter]
    split
    · rfl
    · exact length_scatterNodes hr
  generalize hτ : targetOf devs r = τ
  obtain ⟨htwins, hgathers⟩ := roundNeed_tables (L := L) moe devs pre r
  -- the graph of the round's target, part by part
  have hgraph : roundNeed L R moe devs (pre ++ [r]) (.graph τ) =
      chainNeed L R r τ.isSome (gf τ).length L.compute (.graph τ) +
        (foldNodes (twinShape L R r p)).length + scatter.length := by
    rw [roundNeed_append, if_pos hτ, h.nodes, hlen, roundCost, hτ, hlast, chainNeed, Option.elim_some]
    have hmade : L.compute.filter (made L) = twinNodes L := rfl
    rw [hmade]
    omega
  have hfits : (gf τ).length ≤ 4096 := (h.nodes τ).trans_le (h.fits (.graph τ))
  have hrun : runRound L R moe devs gf r = ((appendChain L R r τ.isSome (gf τ)).bind
      (addResult L R r scatter)).map fun b => Function.update gf τ b.nodes := by
    rw [runRound, if_neg hskip]
    simp only [horder, hτ, hscatter, ne_eq, not_true_eq_false, if_false]
  rw [hrun]
  rcases @appendChain_draws L R r τ.isSome C (gf τ) hfits with ⟨b, hok, hb⟩ | ⟨i, herr, hi⟩
  · have hres := addResult_eq C hp (hb.last.trans hlast) scatter (r := r)
    rw [hb.nodes, chainNeed_graph none τ, ← hgraph] at hres
    simp only [hok, Except.bind, hres]
    by_cases hroom : roundNeed L R moe devs (pre ++ [r]) (.graph τ) ≤ 4096
    · left
      refine ⟨_, by rw [if_pos hroom]; rfl, h.step moe devs hτ ?_ (hb.fits .twins) ?_ hroom⟩
      · rw [hgraph, ← chainNeed_graph none τ, ← hb.nodes]
        simp [Nat.add_assoc]
      · exact length_copies (L := L) ▸ hb.fits .gathers
    · refine .inr ⟨.graph τ, by rw [if_neg hroom]; rfl, ?_⟩
      exact Nat.lt_of_not_le hroom
  · right
    rw [herr]
    cases i with
    | twins => exact ⟨.twins, rfl, htwins ▸ hi⟩
    | gathers =>
      refine ⟨.gathers, rfl, ?_⟩
      rw [hgathers, ← @length_copies L R r τ.isSome]
      exact hi
    | graph _ =>
      refine ⟨.graph τ, rfl, ?_⟩
      rw [hgraph]
      exact Nat.lt_of_lt_of_le hi (by rw [Nat.add_assoc]; exact Nat.le_add_right _ _)

include hmm in
theorem draws_rounds : Draws (runRound L R moe devs) holds stopOf (roundNeed L R moe devs)
    (Grown L R moe devs) (buildMixPlan R).rounds where
  within h := h.fits
  step hsplit h := runRound_draws C moe devs hmm (by rw [hsplit]; simp) h
  mono := roundNeed_mono moe devs

omit C hmm in
/-- Nothing is needed before the first round. -/
theorem grown_nil : Grown L R moe devs [] fun _ => [] := by
  refine ⟨fun τ => rfl, fun i => ?_⟩
  cases i <;> simp [roundNeed]

omit C hmm in
theorem roundNeed_le_iff (hne : (buildMixPlan R).rounds ≠ []) :
    (∀ i, roundNeed L R moe devs (buildMixPlan R).rounds i ≤ holds i) ↔ Fits L R moe devs := by
  have htwins : roundNeed L R moe devs (buildMixPlan R).rounds .twins = (twinNodes L).length := if_neg hne
  have hgathers : roundNeed L R moe devs (buildMixPlan R).rounds .gathers = (copiedLeaves L R).length :=
    if_neg hne
  constructor
  · intro h
    exact ⟨htwins ▸ h .twins, hgathers ▸ h .gathers, fun τ => sum_rounds L moe devs τ ▸ h (.graph τ)⟩
  · intro h i
    cases i with
    | twins => exact htwins.trans_le h.twins
    | gathers => exact hgathers.trans_le h.gathers
    | graph τ => exact (sum_rounds L moe devs τ).trans_le (h.graph τ)

include hmm in
/-- The round loop overflows nothing when the sizes suffice. -/
theorem suffices_iff_fits (hne : (buildMixPlan R).rounds ≠ []) :
    Suffices L R moe devs ↔ Fits L R moe devs := by
  rw [← roundNeed_le_iff moe devs hne,
    ← (draws_rounds C moe devs hmm).not_stopped_iff (grown_nil moe devs), Suffices, runRounds, if_neg hne]
  constructor
  · intro h i herr
    have hfailed := h _ herr
    cases i <;> simp [stopOf] at hfailed
  · intro h e herr
    rcases (draws_rounds C moe devs hmm).run (grown_nil moe devs) with ⟨_, hok, _⟩ | ⟨i, hstop, _⟩
    · rw [hok] at herr
      cases herr
    · exact absurd hstop (h i)

omit C in
/-- Without a valid cell there is no round. -/
theorem rounds_nil_iff : (buildMixPlan R).rounds = [] ↔
    ∀ t < R.nTokens, ∀ k < R.nExpertUsed, cellPool R t k = none := by
  constructor
  · intro hnil t ht k hk
    by_contra hcell
    obtain ⟨x, hx, _⟩ := once_of_fits (fits_routing R) ht hk (Option.isSome_iff_ne_none.mpr hcell)
    have hround := hx.round
    rw [← rounds_eq, hnil] at hround
    exact Nat.not_lt_zero _ hround
  · intro hnone
    apply List.eq_nil_iff_forall_not_mem.mpr
    intro r hr
    obtain ⟨_, hlt, hused, hpool⟩ := cell_spec hr (nActive_pos hr) (width_pos hr)
    rw [hnone _ hlt _ hused] at hpool
    cases hpool

end rounds

/-- No table and no graph overflows exactly when the closure has at most 64 clones and 16 copied leaves,
and the rounds of every target at most 4096 nodes, or when there is nothing to compute. -/
theorem graphCapacity_iff {L : Layer} {R : Routing} (C : Closure L R) (hmm : ∃ p ∈ L.compute, L.graph.op p = .mulMatId)
    (moe : Option MoeOut) (devs : Targets) : Suffices L R moe devs ↔
      (∀ t < R.nTokens, ∀ k < R.nExpertUsed, cellPool R t k = none) ∨ Fits L R moe devs := by
  by_cases hnil : (buildMixPlan R).rounds = []
  · refine iff_of_true (fun e herr => ?_) (.inl (rounds_nil_iff.mp hnil))
    rw [runRounds, if_pos hnil] at herr
    cases herr
    rfl
  · rw [suffices_iff_fits C moe devs hmm hnil]
    exact ⟨.inr, fun h => h.resolve_left fun hnone => hnil (rounds_nil_iff.mpr hnone)⟩

section sparse

/-- `n` digits to the base 3, none of them 2. -/
def sparse : ℕ → ℕ → Bool
  | 0, v => decide (v = 0)
  | n + 1, v => decide (v % 3 ≠ 2) && sparse n (v / 3)

/-- Three such numbers are not in arithmetic progression. -/
theorem sparse_progression {n : ℕ} : ∀ {a b c : ℕ}, sparse n a = true → sparse n b = true →
    sparse n c = true → a + c = 2 * b → a = b := by
  induction n with
  | zero =>
    intro a b c ha hb _ _
    simp only [sparse, decide_eq_true_eq] at ha hb
    rw [ha, hb]
  | succ n ih =>
    intro a b c ha hb hc hmid
    simp only [sparse, Bool.and_eq_true, decide_eq_true_eq] at ha hb hc
    have hrest := ih ha.2 hb.2 hc.2 (by omega)
    omega

/-- The number with the binary digits of `i`. -/
def spread : ℕ → ℕ → ℕ
  | 0, _ => 0
  | n + 1, i => i % 2 + 3 * spread n (i / 2)

theorem sparse_spread (n i : ℕ) : sparse n (spread n i) = true := by
  induction n generalizing i with
  | zero => rfl
  | succ n ih =>
    have hmod : (i % 2 + 3 * spread n (i / 2)) % 3 = i % 2 := by omega
    have hdiv : (i % 2 + 3 * spread n (i / 2)) / 3 = spread n (i / 2) := by omega
    simp only [sparse, spread, hmod, hdiv, ih, Bool.and_true, decide_eq_true_eq]
    omega

theorem spread_lt (n i : ℕ) : spread n i < 3 ^ n := by
  induction n generalizing i with
  | zero => simp [spread]
  | succ n ih =>
    have hlt := ih (i / 2)
    rw [spread, Nat.pow_succ]
    omega

theorem spread_injective {n : ℕ} : ∀ {i j : ℕ}, i < 2 ^ n → j < 2 ^ n → spread n i = spread n j →
    i = j := by
  induction n with
  | zero =>
    intro i j hi hj _
    simp only [Nat.pow_zero] at hi hj
    omega
  | succ n ih =>
    intro i j hi hj h
    rw [Nat.pow_succ] at hi hj
    simp only [spread] at h
    have hhalf := ih (i := i / 2) (j := j / 2) (by omega) (by omega) (by omega)
    omega

/-- There are many of them. -/
theorem le_length_sparse (n : ℕ) :
    2 ^ n ≤ ((List.range (3 ^ n)).filter fun v => sparse n v).length := by
  have hnodup : ((List.range (2 ^ n)).map (spread n)).Nodup := by
    refine List.Nodup.map_on (fun i hi j hj => ?_) List.nodup_range
    exact spread_injective (List.mem_range.mp hi) (List.mem_range.mp hj)
  have hsub : (List.range (2 ^ n)).map (spread n) ⊆ (List.range (3 ^ n)).filter fun v => sparse n v := by
    intro v hv
    obtain ⟨i, _, rfl⟩ := List.mem_map.mp hv
    exact List.mem_filter.mpr ⟨List.mem_range.mpr (spread_lt n i), sparse_spread n i⟩
  simpa using (List.subperm_of_subset hnodup hsub).length_le

/-- Runs in a set without progressions have at most two values. -/
theorem len_le_two {S : ℕ → Bool} (hS : ∀ a b c, S a = true → S b = true → S c = true →
    a + c = 2 * b → a = b) {rs : List Run} : ∀ {S' : ℕ → Bool}, (∀ v, S' v = true → S v = true) →
      Greedy S' rs → ∀ r ∈ rs, r.len ≤ 2 := by
  induction rs with
  | nil => simp
  | cons r rs ih =>
    intro S' hsub h r' hr'
    rcases List.mem_cons.mp hr' with rfl | hr'
    · by_contra hlong
      have hin := h.1.mem
      have hmem : ∀ i < 3, S (r'.start + i * r'.delta) = true :=
        fun i hi => hsub _ (hin.mem i (by omega))
      have hmid := hS _ _ _ (hmem 0 (by omega)) (hmem 1 (by omega)) (hmem 2 (by omega)) (by omega)
      have hpos := hin.delta
      omega
    · refine ih (fun v hv => hsub v ?_) h.2 r' hr'
      exact (Bool.and_eq_true_iff.mp hv).1

end sparse

section batch

/-- The tokens of a round fall into at least half as many runs when no three of them are in arithmetic
progression. -/
theorem length_le_runCount {R : Routing} {r : MixRound} (hr : r ∈ (buildMixPlan R).rounds)
    (hS : ∀ a b c, (tRound (buildMixPlan R) r).contains a = true →
      (tRound (buildMixPlan R) r).contains b = true → (tRound (buildMixPlan R) r).contains c = true →
        a + c = 2 * b → a = b) :
    r.nActive ≤ 2 * runCount fun v => (tRound (buildMixPlan R) r).contains v := by
  have hok := round_ok hr
  have hgreedy := greedy_round hr
  have htwo := len_le_two hS (fun _ h => h) hgreedy
  have hsegs := (buildScatterPlan_spec hok.lt hok.nodup (nTokens_le hr) hok.nonempty).2
  have hcover := congrArg List.length hsegs
  rw [List.length_flatMap, List.length_map, List.length_range, length_tRound] at hcover
  have hsum : ((buildScatterPlan (tRound (buildMixPlan R) r) R.nTokens).segs.map fun seg =>
      (segPairs seg).length).sum ≤
        (buildScatterPlan (tRound (buildMixPlan R) r) R.nTokens).segs.length * 2 := by
    refine List.sum_le_card_nsmul _ 2 ?_ |>.trans (by simp)
    intro n hn
    obtain ⟨seg, hseg, rfl⟩ := List.mem_map.mp hn
    have hlen := htwo _ (List.mem_map_of_mem (f := ScatterSeg.run) hseg)
    simp only [ScatterSeg.run] at hlen
    simpa [segPairs] using hlen
  rw [runCount_eq hgreedy, List.length_map]
  omega

/-- 531441 tokens with one expert each, those with a sparse number in pool 0. -/
def sparseBatch : Routing where
  ids i := if sparse 12 i then 0 else 1
  nExpertUsed := 1
  nTokens := 531441
  expertPool e := e
  nExpert := 2
  nPools := 2
  cells_lt := by decide

def productTensors : List Tensor :=
  [{ name := "blk.0.ffn_down_exps.weight" }, { name := "ffn_norm-0" }, { name := "ffn_moe_topk-0" },
    { op := .mulMatId, src := [some 0, some 1, some 2], name := "ffn_moe_down-0" },
    { op := .add, src := [some 3], name := "ffn_moe_out-0" }]

def productGraph : Graph := .ofList productTensors [3, 4] (by decide) (by decide)

/-- One product and its sum, for `n` tokens -/
def productOf (n : ℕ) : Layer where
  graph := productGraph
  shape q := [.packed 1 2 2, .packed 1 1 n, .packed 1 1 n, .packed 2 1 n, .packed 2 n 1].getD q (.packed 1 1 1)
  repeats _ := false
  compute := [3, 4]
  fold q := decide (q = 4)
  foldSrc := 3

def productLayer : Layer := productOf 531441

theorem productOf_closure {R : Routing} {n : ℕ} (hn : R.nTokens = n) (hused : R.nExpertUsed = 1) :
    Closure (productOf n) R where
  nodup := by simp [productOf]
  operands_first := (by decide : [3, 4].Pairwise fun a b =>
    ∀ q ∈ (productGraph.tensor a).sources, producer productGraph q ≠ b)
  built := by
    have hleaf : Leaf (productOf n) 1 :=
      (by decide : productGraph.root 1 ∉ [3, 4] ∧ producer productGraph 1 ∉ [3, 4])
    intro p hp
    obtain rfl := List.mem_singleton.mp (show p ∈ [3] from hp)
    exact .mulMatId 0 1 2 rfl rfl rfl (by rw [hused, hn]; rfl) rfl (.inl ⟨hleaf, rfl, hn.symm⟩)
  computed := (by decide : ∀ p ∈ productLayer.body, productGraph.op p ≠ .none)
  own := (by decide : ∀ p ∈ productLayer.body, productGraph.viewSrc p = none)
  pos q := by
    match q with
    | 0 | 1 | 2 | 3 | 4 => exact Nat.zero_lt_succ _
    | q + 5 => exact Nat.zero_lt_succ _
  fold_replaced := (by decide : ∀ p ∈ productLayer.compute, productLayer.fold p = true →
    productLayer.replaced p = true ∧ productLayer.graph.op p ≠ .mulMatId)
  foldSrc_slots := ⟨(by decide : 3 ∈ productLayer.body), rfl⟩
  read := (by decide : ∀ p ∈ productLayer.body, p ≠ 3 → ∃ p' ∈ productLayer.body,
    ∃ q ∈ (productGraph.tensor p').sources, producer productGraph q = p)

theorem product_closure : Closure productLayer sparseBatch := productOf_closure rfl rfl

theorem pair_cells : 2 * 1 < 2 ^ 31 := by decide

/-- Two tokens with one expert each, in two pools -/
def pairBatch : Routing where
  ids i := Int.ofNat (i % 2)
  nExpertUsed := 1
  nTokens := 2
  expertPool e := e
  nExpert := 2
  nPools := 2
  cells_lt := pair_cells

/-- The tokens of either pool are one run. -/
theorem runCount_pair {p : ℕ} (hp : p < 2) : runCount (fun v => [p].contains v) = 1 := by
  have hround : ∀ p < 2, (⟨p, 1, 1, p⟩ : MixRound) ∈ (buildMixPlan pairBatch.toMixInput).rounds ∧
      tRound (buildMixPlan pairBatch.toMixInput) ⟨p, 1, 1, p⟩ = [p] ∧
        (buildScatterPlan [p] pairBatch.nTokens).segs.length = 1 := by decide
  obtain ⟨hmem, htok, hsegs⟩ := hround p hp
  have hgreedy := greedy_round (R := pairBatch) hmem
  rw [htok] at hgreedy
  rw [runCount_eq hgreedy, List.length_map, hsegs]

theorem roundCost_pair {p : ℕ} (hp : p < 2) : roundCost (productOf 2) pairBatch none ⟨[1], List.nodup_singleton 1⟩
    (peelRound pairBatch ⟨p, 0, 1⟩) (activeToks pairBatch p 1) ≤ 16 := by
  have htoks : ∀ p < 2, activeToks pairBatch p 1 = [p] := by decide
  have hnodes : ∀ p < 2, (twinNodes (productOf 2)).length + copyNodes (copies (productOf 2) pairBatch
      (peelRound pairBatch ⟨p, 0, 1⟩) (targetOf ⟨[1], List.nodup_singleton 1⟩ (peelRound pairBatch ⟨p, 0, 1⟩)).isSome
        (productOf 2).compute) + ((twinNodes (productOf 2)).getLast?.elim 0 fun q =>
          (foldNodes (twinShape (productOf 2) pairBatch (peelRound pairBatch ⟨p, 0, 1⟩) q)).length) ≤ 14 := by
    decide
  have hle := hnodes p hp
  rw [roundCost, htoks p hp, runCount_pair hp]
  simp only [Option.any_none, Bool.false_eq_true, if_false]
  omega

/-- Two rounds of one product, on the CPU and on a device -/
theorem graphCapacity_iff_product : Suffices (productOf 2) pairBatch none ⟨[1], List.nodup_singleton 1⟩ := by
  refine (graphCapacity_iff (productOf_closure rfl rfl) ⟨3, by decide, by decide⟩ none
    ⟨[1], List.nodup_singleton 1⟩).mpr (.inr ⟨by decide, by decide, fun τ => ?_⟩)
  have hpeels : allPeels pairBatch.toMixInput = [⟨0, 0, 1⟩, ⟨1, 0, 1⟩] := by decide
  have hzero := roundCost_pair (show 0 < 2 by decide)
  have hone := roundCost_pair (show 1 < 2 by decide)
  refine (List.sum_le_card_nsmul _ 16 fun n hn => ?_).trans ?_
  · obtain ⟨x, hx, rfl⟩ := List.mem_map.mp hn
    have hmem := List.mem_of_mem_filter hx
    rw [hpeels] at hmem
    rcases List.mem_pair.mp hmem with rfl | rfl
    · exact hzero
    · exact hone
  · have hlen := List.length_filter_le (fun x => decide (targetOf ⟨[1], List.nodup_singleton 1⟩
      (peelRound pairBatch x) = τ)) (allPeels pairBatch.toMixInput)
    rw [hpeels] at hlen ⊢
    rw [List.length_map, nsmul_eq_mul, Nat.cast_id]
    simp only [List.length_cons, List.length_nil] at hlen
    omega

theorem cellPool_sparse (t : ℕ) :
    cellPool sparseBatch t 0 = if sparse 12 t then some 0 else some 1 := by
  have hid : idAt sparseBatch t 0 = if sparse 12 t then 0 else 1 := by simp [idAt, sparseBatch]
  rw [cellPool, hid]
  split <;> simp [sparseBatch]

theorem count_sparse {t : ℕ} (ht : t < sparseBatch.nTokens) :
    (poolHits sparseBatch).count 0 t = if sparse 12 t then 1 else 0 := by
  rw [count_single rfl ht, cellPool_sparse]
  cases sparse 12 t <;> simp

theorem activeToks_sparse :
    activeToks sparseBatch 0 1 = (List.range 531441).filter fun v => sparse 12 v := by
  apply List.filter_congr
  intro t ht
  rw [count_sparse (List.mem_range.mp ht)]
  cases sparse 12 t <;> simp

/-- Pool 0 has one round, of the sparse tokens. -/
theorem mem_allPeels_sparse : (⟨0, 0, 1⟩ : Peel) ∈ allPeels sparseBatch := by
  have hmem : 1 ∈ peelBounds sparseBatch (poolHits sparseBatch) 0 := by
    have hzero : (poolHits sparseBatch).count 0 0 = 1 := count_sparse (by decide)
    have hbound := count_mem_peelBounds sparseBatch 0 (t := 0) (by decide)
    rw [hzero] at hbound
    exact hbound.resolve_left (by decide)
  have hall : peelBounds sparseBatch (poolHits sparseBatch) 0 = [1] := by
    have hrange : List.range (sparseBatch.nExpertUsed + 1) = [0, 1] := rfl
    simp only [peelBounds, hrange] at hmem ⊢
    rw [List.filter_cons_of_neg (by simp), List.filter_eq_self]
    intro c hc
    rw [List.mem_singleton.mp hc]
    exact (List.mem_filter.mp hmem).2
  refine List.mem_flatMap.mpr ⟨0, by decide, ?_⟩
  rw [hall]
  exact List.mem_cons_self

/-- The accumulations of one round overflow the graph of the CPU, for a closure of one product that the
guard accepts. -/
theorem not_suffices_sparse : Closure productLayer sparseBatch ∧
    ChainGuard.verifyGraph productLayer.graph = true ∧
    ¬ Suffices productLayer sparseBatch none ⟨[], List.nodup_nil⟩ := by
  refine ⟨product_closure, ChainGuard.verifyGraph_true _, fun hsuffices => ?_⟩
  obtain ⟨r, hr, hcut⟩ := exists_round mem_allPeels_sparse
  have hfits := (suffices_iff_fits product_closure none ⟨[], List.nodup_nil⟩ ⟨3, by decide, by decide⟩
    (List.ne_nil_of_mem hr)).mp hsuffices
  -- the tokens of the round have no progressions
  have htok := (tRound_of_cutFrom hcut).trans activeToks_sparse
  have hmany := length_le_runCount hr (by
    intro a b c ha hb hc hmid
    simp only [htok, List.contains_iff_mem, List.mem_filter] at ha hb hc
    exact sparse_progression ha.2 hb.2 hc.2 hmid)
  have hcount : 4096 ≤ r.nActive := by
    rw [hcut.active, activeToks_sparse]
    exact le_length_sparse 12
  have hcost := hfits.cost_le mem_allPeels_sparse
  rw [roundCost, ← tRound_of_cutFrom hcut] at hcost
  have hnodes : (twinNodes productLayer).length = 1 := by decide
  simp only [Option.any_none, Bool.false_eq_true, if_false] at hcost
  omega

end batch

end GraphCapacity
end StreamMoE
