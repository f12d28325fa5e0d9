import StreamMoE.ClosureGraph
import StreamMoE.GraphCapacity

/-! What the chain of a round needs: one entry for every twin and every copied leaf, and their nodes
in the graph. -/
namespace StreamMoE
namespace GraphCapacity

open ComputeGraph CompactTwins MixSplit MixExec Scatter Strided LayerOutput Supplies

section needs

variable (L : Layer) (R : Routing) (r : MixRound) (dev : Bool)

/-- The node is cloned. -/
def made (p : ℕ) : Bool :=
  !isViewOp (L.graph.op p) &&
    if L.graph.op p = .mulMatId then
      match (L.graph.tensor p).src with
      | [some _, some _, _] => true
      | _ => false
    else !L.replaced p

def twinNodes : List ℕ := L.compute.filter (made L)

/-- The leaves a clone reads, with the nodes of a copy, when the nodes `known` have twins. -/
def leavesOf (known : List ℕ) (p : ℕ) : List (ℕ × List Node) :=
  if L.graph.op p = .mulMatId then
    match (L.graph.tensor p).src with
    | [some _, some cur, _] =>
        if L.graph.op cur ≠ .none ∧ cur ∈ known then [] else [(cur, gatherCur L R r dev cur)]
    | _ => []
  else
    ((operands L p).filter fun q => decide (producer L.graph q ∉ known ∧ (L.shape q).ne0 = 1 ∧
      (L.shape q).ne1 = R.nExpertUsed)).map fun q => (q, gatherPerSlot L R r dev q)

/-- A leaf is copied for its first reader. -/
def record (tab : List (ℕ × List Node)) (e : ℕ × List Node) : List (ℕ × List Node) :=
  if e.1 ∈ tab.map Prod.fst then tab else tab ++ [e]

/-- The copies of the leaves that the clones among `ps` read. -/
def copies (ps : List ℕ) : List (ℕ × List Node) :=
  ((ps.filter (made L)).flatMap (leavesOf L R r dev (twinNodes L))).foldl record []

def copyNodes (tab : List (ℕ × List Node)) : ℕ := (tab.map fun e => e.2.length).sum

end needs

section record

variable {tab : List (ℕ × List Node)}

theorem record_cases (tab : List (ℕ × List Node)) (e : ℕ × List Node) :
    e.1 ∈ tab.map Prod.fst ∧ record tab e = tab ∨
      e.1 ∉ tab.map Prod.fst ∧ record tab e = tab ++ [e] := by
  by_cases h : e.1 ∈ tab.map Prod.fst
  · exact .inl ⟨h, if_pos h⟩
  · exact .inr ⟨h, if_neg h⟩

theorem length_le_record (e : ℕ × List Node) : tab.length ≤ (record tab e).length := by
  rcases record_cases tab e with ⟨_, h⟩ | ⟨_, h⟩ <;> simp [h]

theorem copyNodes_le_record (e : ℕ × List Node) : copyNodes tab ≤ copyNodes (record tab e) := by
  rcases record_cases tab e with ⟨_, h⟩ | ⟨_, h⟩ <;> simp [h, copyNodes]

theorem length_le_records (es : List (ℕ × List Node)) : ∀ tab : List (ℕ × List Node),
    tab.length ≤ (es.foldl record tab).length := by
  induction es with
  | nil => simp
  | cons e es ih => exact fun tab => (length_le_record e).trans (ih _)

theorem copyNodes_le_records (es : List (ℕ × List Node)) : ∀ tab : List (ℕ × List Node),
    copyNodes tab ≤ copyNodes (es.foldl record tab) := by
  induction es with
  | nil => simp
  | cons e es ih => exact fun tab => (copyNodes_le_record e).trans (ih _)

/-- The table ends up with every leaf once. -/
theorem keys_records (es : List (ℕ × List Node)) : ∀ tab : List (ℕ × List Node),
    (tab.map Prod.fst).Nodup → ((es.foldl record tab).map Prod.fst).Nodup ∧
      ∀ q, q ∈ (es.foldl record tab).map Prod.fst ↔ q ∈ tab.map Prod.fst ∨ q ∈ es.map Prod.fst := by
  induction es with
  | nil => simp
  | cons e es ih =>
    intro tab hnodup
    rw [List.foldl_cons]
    rcases record_cases tab e with ⟨hmem, h⟩ | ⟨hmem, h⟩
    · obtain ⟨hnodup', hkeys⟩ := ih tab hnodup
      rw [h]
      refine ⟨hnodup', fun q => ?_⟩
      rw [hkeys, List.map_cons, List.mem_cons]
      constructor
      · rintro (hq | hq)
        · exact .inl hq
        · exact .inr (.inr hq)
      · rintro (hq | rfl | hq)
        · exact .inl hq
        · exact .inl hmem
        · exact .inr hq
    · obtain ⟨hnodup', hkeys⟩ := ih (tab ++ [e]) (by
        simpa [List.nodup_append] using ⟨hnodup, fun a b hab he => hmem (by
          rw [← he]
          exact List.mem_map_of_mem (f := Prod.fst) hab)⟩)
      rw [h]
      refine ⟨hnodup', fun q => ?_⟩
      rw [hkeys]
      simp [or_assoc]

end record

section leaves

variable {L : Layer} {R : Routing} {r : MixRound} {dev : Bool}

def takeLeaves : Build → List (ℕ × List Node) → Except Stop (Build × List Node)
  | b, [] => .ok (b, [])
  | b, e :: es =>
      (b.gathered e.1 e.2).bind fun x => (takeLeaves x.1 es).map fun y => (y.1, x.2 ++ y.2)

theorem gathered_cases (b : Build) (q : ℕ) (copy : List Node) :
    q ∈ b.gathers ∧ b.gathered q copy = .ok (b, []) ∨
      q ∉ b.gathers ∧ (b.gathers.length < 16 ∧
          b.gathered q copy = .ok ({ b with gathers := b.gathers ++ [q] }, copy) ∨
        16 ≤ b.gathers.length ∧ b.gathered q copy = .error .gathers) := by
  unfold Build.gathered Build.gatherPut
  by_cases h : q ∈ b.gathers
  · exact .inl ⟨h, if_pos h⟩
  · right
    refine ⟨h, ?_⟩
    by_cases hlt : b.gathers.length < 16
    · left
      simp [h, hlt, Except.map]
    · right
      simp [h, hlt, Except.map]
      omega

/-- Taking leaves changes the table of leaves alone, and ends when it is full. -/
theorem takeLeaves_spec (es : List (ℕ × List Node)) : ∀ (b : Build) (tab : List (ℕ × List Node)),
    b.gathers = tab.map Prod.fst → b.gathers.length ≤ 16 →
      (∃ new, takeLeaves b es =
          .ok ({ b with gathers := (es.foldl record tab).map Prod.fst }, new) ∧
        copyNodes (es.foldl record tab) = copyNodes tab + new.length ∧
        (es.foldl record tab).length ≤ 16) ∨
      takeLeaves b es = .error .gathers ∧ 16 < (es.foldl record tab).length := by
  induction es with
  | nil =>
    intro b tab hkeys hle
    left
    refine ⟨[], ?_, rfl, by simpa [hkeys] using hle⟩
    simp only [takeLeaves, List.foldl_nil, ← hkeys]
  | cons e es ih =>
    intro b tab hkeys hle
    simp only [takeLeaves, List.foldl_cons]
    rcases gathered_cases b e.1 e.2 with ⟨hmem, hgot⟩ | ⟨hmem, ⟨hlt, hgot⟩ | ⟨hge, hgot⟩⟩
    · have hrec : record tab e = tab := if_pos (hkeys ▸ hmem)
      rw [hgot, hrec]
      rcases ih b tab hkeys hle with ⟨new, hok, hnodes, hlen⟩ | ⟨herr, hlen⟩
      · exact .inl ⟨new, by simp [Except.bind, hok, Except.map], hnodes, hlen⟩
      · exact .inr ⟨by simp [Except.bind, herr, Except.map], hlen⟩
    · have hrec : record tab e = tab ++ [e] := if_neg (hkeys ▸ hmem)
      rw [hgot, hrec]
      rcases ih { b with gathers := b.gathers ++ [e.1] } (tab ++ [e]) (by simp [hkeys])
        (by simpa using Nat.succ_le_of_lt hlt) with ⟨new, hok, hnodes, hlen⟩ | ⟨herr, hlen⟩
      · refine .inl ⟨e.2 ++ new, by simp [Except.bind, hok, Except.map], ?_, hlen⟩
        rw [hnodes]
        simp [copyNodes, Nat.add_assoc]
      · exact .inr ⟨by simp [Except.bind, herr, Except.map], hlen⟩
    · have hrec : record tab e = tab ++ [e] := if_neg (hkeys ▸ hmem)
      rw [hgot, hrec]
      refine .inr ⟨rfl, ?_⟩
      have hgrow := length_le_records es (tab ++ [e])
      have hlen : b.gathers.length = tab.length := by simp [hkeys]
      simp only [List.length_append, List.length_singleton] at hgrow
      omega

theorem gathered_twins' {b : Build} {q : ℕ} {copy : List Node} {x : Build × List Node}
    (h : b.gathered q copy = .ok x) : x.1.twins = b.twins := by
  rcases gathered_cases b q copy with ⟨_, hgot⟩ | ⟨_, ⟨_, hgot⟩ | ⟨_, hgot⟩⟩
  all_goals
    rw [hgot] at h
    cases h
  · rfl
  · rfl

theorem srcLeaves_eq (qs : List ℕ) : ∀ b : Build, srcLeaves L R r dev b qs = takeLeaves b
    ((qs.filter fun q => decide (producer L.graph q ∉ b.twins ∧ (L.shape q).ne0 = 1 ∧
      (L.shape q).ne1 = R.nExpertUsed)).map fun q => (q, gatherPerSlot L R r dev q)) := by
  have hsame : ∀ (x : Except Stop (Build × List Node)) (b : Build),
      ((Except.ok (b, []) : Except Stop (Build × List Node)).bind fun y =>
        (x.map fun z => (z.1, y.2 ++ z.2))) = x := by
    intro x b
    cases x <;> simp [Except.bind, Except.map]
  induction qs with
  | nil => exact fun b => rfl
  | cons q qs ih =>
    intro b
    simp only [srcLeaves, srcLeaf, extLeaf]
    by_cases hprod : producer L.graph q ∈ b.twins
    · rw [if_pos hprod, List.filter_cons_of_neg (by simp [hprod]), ← ih b]
      simp only [Except.bind, List.nil_append]
      cases srcLeaves L R r dev b qs <;> rfl
    · rw [if_neg hprod]
      by_cases hshape : (L.shape q).ne0 = 1 ∧ (L.shape q).ne1 = R.nExpertUsed
      · rw [if_pos hshape, List.filter_cons_of_pos (by simp [hprod, hshape]), List.map_cons, takeLeaves]
        cases hgot : b.gathered q (gatherPerSlot L R r dev q) with
        | error e => rfl
        | ok x =>
          have htwins := gathered_twins' hgot
          simp only [Except.bind]
          rw [ih x.1, htwins]
      · rw [if_neg hshape, List.filter_cons_of_neg (by simp [hshape]), ← ih b]
        simp only [Except.bind, List.nil_append]
        cases srcLeaves L R r dev b qs <;> rfl

/-- A step clones its node behind the leaves it reads, or does nothing. -/
theorem chainStep_eq (b : Build) (p : ℕ) : chainStep L R r dev b p =
    if made L p then (takeLeaves b (leavesOf L R r dev b.twins p)).bind (addTwin p) else .ok b := by
  unfold chainStep made leavesOf
  by_cases hview : isViewOp (L.graph.op p) = true
  · simp [hview]
  · by_cases hop : L.graph.op p = .mulMatId
    · simp only [hop, if_true, appendMm]
      have hnot : isViewOp .mulMatId = false := rfl
      simp only [hnot, Bool.false_eq_true, if_false, Bool.not_false, Bool.true_and]
      generalize (L.graph.tensor p).src = src
      split
      · rename_i cur _
        simp only [if_true, curLeaf]
        by_cases hcur : L.graph.op cur ≠ .none ∧ cur ∈ b.twins
        · rw [if_pos hcur, if_pos hcur, takeLeaves]
        · rw [if_neg hcur, if_neg hcur, takeLeaves]
          cases b.gathered cur (gatherCur L R r dev cur) with
          | error e => rfl
          | ok x => simp [Except.bind, Except.map, takeLeaves]
      · simp
    · simp only [hop, if_false, appendOp]
      by_cases hrep : L.replaced p = true
      · simp [hview, hrep]
      · rw [srcLeaves_eq]
        simp [hview, hrep]

end leaves

section chain

variable {L : Layer} {R : Routing} {r : MixRound} {dev : Bool}

/-- What is limited: the tables of a round, the graph of a target. -/
inductive Held
  | twins | gathers
  | graph (τ : Option ℕ)

def holds : Held → ℕ
  | .twins => 64
  | .gathers => 16
  | .graph _ => 4096

def stopOf : Held → Stop
  | .twins => .twins
  | .gathers => .gathers
  | .graph _ => .graph

/-- What the first nodes of a closure need in a graph that has `n` nodes. -/
def chainNeed (L : Layer) (R : Routing) (r : MixRound) (dev : Bool) (n : ℕ) (pre : List ℕ) : Held → ℕ
  | .twins => (pre.filter (made L)).length
  | .gathers => (copies L R r dev pre).length
  | .graph _ => n + copyNodes (copies L R r dev pre) + (pre.filter (made L)).length

/-- The tables and the graph after the nodes `pre`. -/
structure Counted (L : Layer) (R : Routing) (r : MixRound) (dev : Bool) (n : ℕ) (pre : List ℕ)
    (b : Build) : Prop where
  twins : b.twins = pre.filter (made L)
  gathers : b.gathers = (copies L R r dev pre).map Prod.fst
  nodes : b.nodes.length = chainNeed L R r dev n pre (.graph none)
  last : b.last = (pre.filter (made L)).getLast?
  fits : ∀ i, chainNeed L R r dev n pre i ≤ holds i

theorem operands_sub {p q : ℕ} (h : q ∈ operands L p) : q ∈ (L.graph.tensor p).sources := by
  unfold operands at h
  split at h
  · rename_i hsrc
    simpa [Tensor.sources, hsrc, List.reduceOption] using .inl (List.mem_singleton.mp h)
  · exact h

theorem twin_before (C : Closure L R) {pre post : List ℕ} {p q : ℕ} (hsplit : L.compute = pre ++ p :: post)
    (hq : q ∈ (L.graph.tensor p).sources) (h : producer L.graph q ∈ twinNodes L) :
    producer L.graph q ∈ pre.filter (made L) := by
  obtain ⟨hcompute, hmade⟩ := List.mem_filter.mp h
  exact List.mem_filter.mpr ⟨operand_before C hsplit hq hcompute, hmade⟩

/-- What a clone reads from the closure has its twin before it. -/
theorem twin_before_iff (C : Closure L R) {pre post : List ℕ} {p q : ℕ}
    (hsplit : L.compute = pre ++ p :: post) (hq : q ∈ (L.graph.tensor p).sources) :
    producer L.graph q ∈ pre.filter (made L) ↔ producer L.graph q ∈ twinNodes L := by
  refine ⟨fun h => ?_, twin_before C hsplit hq⟩
  rw [twinNodes, hsplit, List.filter_append]
  exact List.mem_append_left _ h

theorem producer_twin {q : ℕ} (h : q ∈ twinNodes L) : producer L.graph q = q := by
  have hmade := (List.mem_filter.mp h).2
  simp only [made, Bool.and_eq_true, Bool.not_eq_true'] at hmade
  rw [producer, unwrap_of_not_view hmade.1]

theorem cur_before_iff (C : Closure L R) {pre post : List ℕ} {p cur : ℕ}
    (hsplit : L.compute = pre ++ p :: post) (hcur : cur ∈ (L.graph.tensor p).sources) :
    cur ∈ pre.filter (made L) ↔ cur ∈ twinNodes L := by
  constructor
  · intro h
    rw [twinNodes, hsplit, List.filter_append]
    exact List.mem_append_left _ h
  · intro h
    have hself := producer_twin h
    have hbefore := twin_before C hsplit hcur (by rwa [hself])
    rwa [hself] at hbefore

theorem leavesOf_eq (C : Closure L R) {pre post : List ℕ} {p : ℕ} (hsplit : L.compute = pre ++ p :: post) :
    leavesOf L R r dev (pre.filter (made L)) p = leavesOf L R r dev (twinNodes L) p := by
  unfold leavesOf
  split
  · split
    · rename_i cur _ hsrc
      have hread : cur ∈ (L.graph.tensor p).sources := by simp [Tensor.sources, hsrc, List.reduceOption]
      simp only [cur_before_iff C hsplit hread]
    · rfl
  · congr 1
    apply List.filter_congr
    intro q hq
    simp only [twin_before_iff C hsplit (operands_sub hq)]

theorem copies_append (pre : List ℕ) (p : ℕ) : copies L R r dev (pre ++ [p]) =
    (if made L p then leavesOf L R r dev (twinNodes L) p else []).foldl record (copies L R r dev pre) := by
  unfold copies
  by_cases h : made L p <;> simp [h, List.filter_append, List.foldl_append]

/-- A node that is not cloned needs nothing. -/
theorem chainNeed_skip {p : ℕ} (h : made L p = false) (n : ℕ) (pre : List ℕ) (i : Held) :
    chainNeed L R r dev n (pre ++ [p]) i = chainNeed L R r dev n pre i := by
  have hcopies : copies L R r dev (pre ++ [p]) = copies L R r dev pre := by simp [copies_append, h]
  cases i <;> simp [chainNeed, hcopies, h]

theorem chainNeed_mono (n : ℕ) (pre : List ℕ) (p : ℕ) (i : Held) :
    chainNeed L R r dev n pre i ≤ chainNeed L R r dev n (pre ++ [p]) i := by
  have hlen := length_le_records (if made L p then leavesOf L R r dev (twinNodes L) p else [])
    (copies L R r dev pre)
  have hnodes := copyNodes_le_records (if made L p then leavesOf L R r dev (twinNodes L) p else [])
    (copies L R r dev pre)
  rw [← copies_append] at hlen hnodes
  cases i <;> simp only [chainNeed, List.filter_append, List.length_append]
  · omega
  · exact hlen
  · omega

/-- A clone enters the graph and the table, unless one of them is full. -/
theorem addTwin_cases (p : ℕ) (b : Build) (new : List Node) :
    (b.nodes.length + new.length < 4096 ∧ b.twins.length < 64 ∧ addTwin p (b, new) =
        .ok { b with nodes := b.nodes ++ (new ++ [.twin p]), twins := b.twins ++ [p], last := some p }) ∨
      (4096 ≤ b.nodes.length + new.length ∧ addTwin p (b, new) = .error .graph) ∨
      (64 ≤ b.twins.length ∧ addTwin p (b, new) = .error .twins) := by
  have hlen : (new ++ [Node.twin p]).length = new.length + 1 := by simp
  unfold addTwin Build.expand
  simp only [hlen]
  by_cases hgraph : b.nodes.length + (new.length + 1) ≤ 4096
  · rw [if_pos hgraph]
    by_cases htwins : b.twins.length < 64
    · exact .inl ⟨by omega, htwins, by simp [Except.bind, Build.twinPut, htwins]⟩
    · exact .inr (.inr ⟨by omega, by simp [Except.bind, Build.twinPut, htwins]⟩)
  · exact .inr (.inl ⟨by omega, by simp [Except.bind, hgraph]⟩)

/-- One node of the closure: it is cloned, or one of the sizes does not suffice for it. -/
theorem chainStep_draws (C : Closure L R) {n : ℕ} {pre post : List ℕ} {p : ℕ} {b : Build}
    (hsplit : L.compute = pre ++ p :: post) (h : Counted L R r dev n pre b) :
    (∃ b', chainStep L R r dev b p = .ok b' ∧ Counted L R r dev n (pre ++ [p]) b') ∨
      ∃ i, chainStep L R r dev b p = .error (stopOf i) ∧
        holds i < chainNeed L R r dev n (pre ++ [p]) i := by
  rw [chainStep_eq]
  by_cases hmade : made L p = true
  · have hfilter : (pre ++ [p]).filter (made L) = pre.filter (made L) ++ [p] := by
      simp [List.filter_append, hmade]
    have hcopies : copies L R r dev (pre ++ [p]) =
        (leavesOf L R r dev b.twins p).foldl record (copies L R r dev pre) := by
      rw [copies_append, if_pos hmade, h.twins, leavesOf_eq C hsplit]
    have hgathers : b.gathers.length ≤ 16 := by
      rw [h.gathers, List.length_map]
      exact h.fits .gathers
    rw [if_pos hmade]
    rcases takeLeaves_spec (leavesOf L R r dev b.twins p) b _ h.gathers hgathers with
      ⟨new, hok, hnodes, hlen⟩ | ⟨herr, hlen⟩
    · rw [hok, ← hcopies]
      rw [← hcopies] at hnodes hlen
      have hbefore : b.nodes.length = n + copyNodes (copies L R r dev pre) + b.twins.length := by
        rw [h.nodes, h.twins]
        rfl
      have hgraph : ∀ τ, chainNeed L R r dev n (pre ++ [p]) (.graph τ) =
          b.nodes.length + new.length + 1 := by
        intro τ
        rw [chainNeed, hnodes, hbefore, hfilter, h.twins, List.length_append, List.length_singleton]
        omega
      have htwins : chainNeed L R r dev n (pre ++ [p]) .twins = b.twins.length + 1 := by
        rw [chainNeed, hfilter, h.twins, List.length_append, List.length_singleton]
      simp only [Except.bind]
      rcases addTwin_cases p { b with gathers := (copies L R r dev (pre ++ [p])).map Prod.fst } new with
        ⟨hlt, hlt', hadd⟩ | ⟨hle, hadd⟩ | ⟨hle, hadd⟩
      · left
        refine ⟨_, hadd, ?_, rfl, ?_, ?_, ?_⟩
        · simp [hfilter, h.twins]
        · simp only [hgraph, List.length_append, List.length_singleton]
          omega
        · simp [hfilter]
        · intro i
          cases i with
          | twins =>
            rw [htwins]
            exact hlt'
          | gathers => exact hlen
          | graph τ =>
            rw [hgraph]
            exact hlt
      · refine .inr ⟨.graph none, hadd, ?_⟩
        rw [hgraph]
        simpa only [holds] using Nat.lt_succ_of_le hle
      · refine .inr ⟨.twins, hadd, ?_⟩
        rw [htwins]
        simpa only [holds] using Nat.lt_succ_of_le hle
    · right
      refine ⟨.gathers, ?_, ?_⟩
      · rw [herr]
        rfl
      · rw [chainNeed, hcopies]
        exact hlen
  · have hskip : made L p = false := by simpa using hmade
    have hneed := @chainNeed_skip L R r dev p hskip n pre
    left
    refine ⟨b, if_neg hmade, ?_, ?_, ?_, ?_, ?_⟩
    · simp [h.twins, List.filter_append, hskip]
    · simp [h.gathers, copies_append, hskip]
    · rw [hneed, h.nodes]
    · simp [h.last, List.filter_append, hskip]
    · intro i
      rw [hneed]
      exact h.fits i

theorem draws_chain (C : Closure L R) (n : ℕ) : Draws (chainStep L R r dev) holds stopOf
    (chainNeed L R r dev n) (Counted L R r dev n) L.compute where
  within h := h.fits
  step hsplit h := chainStep_draws C hsplit h
  mono := chainNeed_mono n

/-- The chain of a round on a graph that has room for `n` nodes so far. -/
theorem appendChain_draws (C : Closure L R) {nodes : List Node} (hlen : nodes.length ≤ 4096) :
    (∃ b, appendChain L R r dev nodes = .ok b ∧ Counted L R r dev nodes.length L.compute b) ∨
      ∃ i, appendChain L R r dev nodes = .error (stopOf i) ∧
        holds i < chainNeed L R r dev nodes.length L.compute i := by
  refine (draws_chain C nodes.length).run ⟨rfl, rfl, ?_, rfl, ?_⟩
  · simp [chainNeed, copies, copyNodes]
  · intro i
    cases i <;> simp [chainNeed, copies, copyNodes, holds, hlen]

end chain

section tables

variable {L : Layer} {R : Routing} {r : MixRound} {dev : Bool} {K : Kernels} {mem : Memory}

/-- The tables with the tensors, and their keys. -/
structure SameTables (st : Chain) (b : Build) : Prop where
  twins : b.twins = st.twins.map Prod.fst
  gathers : b.gathers = st.gathers.map Prod.fst

theorem same_gathered {st st' : Chain} {b b' : Build} {q : ℕ} {make : Option (Tens F32)}
    {T : Tens F32} {copy new : List Node} (h : SameTables st b) (hst : st.gathered q make = some (st', T))
    (hb : b.gathered q copy = .ok (b', new)) : SameTables st' b' := by
  unfold Chain.gathered at hst
  have hkey : q ∈ b.gathers ↔ (st.gatherGet q).isSome := by
    rw [h.gathers, Chain.gatherGet, Option.isSome_map, List.find?_isSome]
    simp
  rcases gathered_cases b q copy with ⟨hmem, hgot⟩ | ⟨hmem, ⟨_, hgot⟩ | ⟨_, hgot⟩⟩
  all_goals
    rw [hgot] at hb
    cases hb
  · obtain ⟨T', hget⟩ := Option.isSome_iff_exists.mp (hkey.mp hmem)
    rw [hget] at hst
    cases hst
    exact h
  · have hnone : st.gatherGet q = none := Option.not_isSome_iff_eq_none.mp fun hsome => hmem (hkey.mpr hsome)
    rw [hnone] at hst
    obtain ⟨T', _, hput⟩ := Option.bind_eq_some_iff.mp hst
    obtain ⟨st₁, hput, heq⟩ := Option.map_eq_some_iff.mp hput
    cases heq
    unfold Chain.gatherPut at hput
    split at hput
    · cases hput
      exact ⟨h.twins, by simp [h.gathers]⟩
    · cases hput

theorem same_srcLeaf {st : Chain} {b : Build} {q : ℕ} {x : Chain × Tens F32} {y : Build × List Node}
    (h : SameTables st b) (hst : CompactTwins.srcLeaf L R r dev mem st q = some x)
    (hb : srcLeaf L R r dev b q = .ok y) : SameTables x.1 y.1 := by
  have hkey : producer L.graph q ∈ b.twins ↔ (st.twinGet (producer L.graph q)).isSome := by
    rw [h.twins, Chain.twinGet, Option.isSome_map, List.find?_isSome]
    simp
  unfold CompactTwins.srcLeaf at hst
  unfold srcLeaf at hb
  split at hst
  · rename_i T hget
    rw [if_pos (hkey.mpr (by simp [hget]))] at hb
    cases hst
    cases hb
    exact h
  · rename_i hget
    rw [if_neg fun hmem => by simpa [hget] using hkey.mp hmem] at hb
    unfold CompactTwins.extLeaf at hst
    unfold extLeaf at hb
    split at hst
    · rename_i hshape
      rw [if_pos hshape] at hb
      exact same_gathered h hst hb
    · rename_i hshape
      rw [if_neg hshape] at hb
      cases hst
      cases hb
      exact h

theorem same_srcLeaves {qs : List ℕ} : ∀ {st : Chain} {b : Build} {x : Chain × List (Tens F32)}
    {y : Build × List Node}, SameTables st b → CompactTwins.srcLeaves L R r dev mem st qs = some x →
      srcLeaves L R r dev b qs = .ok y → SameTables x.1 y.1 := by
  induction qs with
  | nil =>
    intro st b x y h hst hb
    cases hst
    cases hb
    exact h
  | cons q qs ih =>
    intro st b x y h hst hb
    obtain ⟨x₁, hfirst, hst⟩ := Option.bind_eq_some_iff.mp hst
    obtain ⟨x₂, hrest, hst⟩ := Option.map_eq_some_iff.mp hst
    cases hst
    simp only [srcLeaves] at hb
    cases hfirst' : srcLeaf L R r dev b q with
    | error e => simp [hfirst', Except.bind] at hb
    | ok y₁ =>
      cases hrest' : srcLeaves L R r dev y₁.1 qs with
      | error e => simp [hfirst', hrest', Except.bind, Except.map] at hb
      | ok y₂ =>
        simp only [hfirst', hrest', Except.bind, Except.map, Except.ok.injEq] at hb
        cases hb
        have hsame : SameTables x₂.1 y₂.1 := ih (same_srcLeaf h hfirst hfirst') hrest hrest'
        exact hsame

theorem same_curLeaf {st : Chain} {b : Build} {cur : ℕ} {x : Chain × Tens F32} {y : Build × List Node}
    (h : SameTables st b) (hst : CompactTwins.curLeaf L R r dev mem st cur = some x)
    (hb : curLeaf L R r dev b cur = .ok y) : SameTables x.1 y.1 := by
  have hkey : cur ∈ b.twins ↔ (st.twinGet cur).isSome := by
    rw [h.twins, Chain.twinGet, Option.isSome_map, List.find?_isSome]
    simp
  unfold CompactTwins.curLeaf at hst
  unfold curLeaf at hb
  by_cases hop : L.graph.op cur = .none
  · rw [if_pos hop] at hst
    rw [if_neg fun hand => hand.1 hop] at hb
    exact same_gathered h hst hb
  · rw [if_neg hop] at hst
    split at hst
    · rename_i T hget
      rw [if_pos ⟨hop, hkey.mpr (by simp [hget])⟩] at hb
      cases hst
      cases hb
      exact h
    · rename_i hget
      rw [if_neg fun hand => by simpa [hget] using hkey.mp hand.2] at hb
      exact same_gathered h hst hb

theorem same_addTwin {st st' : Chain} {b b' : Build} {p : ℕ} {T : Tens F32} {new : List Node}
    (h : SameTables st b) (hst : st.twinPut p T = some st') (hb : addTwin p (b, new) = .ok b') :
    SameTables st' b' := by
  unfold Chain.twinPut at hst
  split at hst
  · cases hst
    rcases addTwin_cases p b new with ⟨_, _, hadd⟩ | ⟨_, hadd⟩ | ⟨_, hadd⟩
    all_goals
      rw [hadd] at hb
      cases hb
    exact ⟨by simp [h.twins], h.gathers⟩
  · cases hst

/-- One node leaves the same keys in the tables. -/
theorem same_chainStep {st st' : Chain} {b b' : Build} {p : ℕ} (h : SameTables st b)
    (hst : CompactTwins.chainStep L R r dev K mem st p = some st')
    (hb : chainStep L R r dev b p = .ok b') : SameTables st' b' := by
  have hadd : ∀ {x : Chain} {T : Tens F32} {leaves : Except Stop (Build × List Node)},
      (∀ y, leaves = .ok y → SameTables x y.1) → x.twinPut p T = some st' →
        leaves.bind (addTwin p) = .ok b' → SameTables st' b' := by
    intro x T leaves hsame hput hbind
    cases leaves with
    | error e => cases hbind
    | ok y => exact same_addTwin (hsame y rfl) hput hbind
  unfold CompactTwins.chainStep at hst
  unfold chainStep at hb
  by_cases hview : isViewOp (L.graph.op p) = true
  · rw [if_pos hview] at hst hb
    cases hst
    cases hb
    exact h
  rw [if_neg hview] at hst hb
  by_cases hop : L.graph.op p = .mulMatId
  · rw [if_pos hop] at hst hb
    unfold CompactTwins.appendMm at hst
    unfold appendMm at hb
    split at hst
    · rename_i w cur ids hsrc
      simp only [hsrc] at hb
      obtain ⟨x, hread, hst⟩ := Option.bind_eq_some_iff.mp hst
      split at hst
      · exact hadd (fun y hy => same_curLeaf h hread hy) hst hb
      · cases hst
    · cases hst
  · rw [if_neg hop] at hst hb
    unfold CompactTwins.appendOp at hst
    unfold appendOp at hb
    by_cases hrep : L.replaced p = true
    · rw [if_pos hrep] at hst hb
      cases hst
      cases hb
      exact h
    · rw [if_neg hrep] at hst hb
      split at hst
      · rename_i table ids hget hsrc
        simp only [operands, hget, hsrc] at hb
        obtain ⟨x, hread, hst⟩ := Option.bind_eq_some_iff.mp hst
        split at hst
        · refine hadd (fun y hy => ?_) hst hb
          have hreads : CompactTwins.srcLeaves L R r dev mem st [table] = some (x.1, [x.2]) := by
            simp [CompactTwins.srcLeaves, hread]
          exact same_srcLeaves h hreads hy
        · cases hst
      · rename_i hother
        have hoperands : operands L p = (L.graph.tensor p).sources := by
          unfold operands
          split
          · rename_i hget hsrc
            exact absurd hsrc (hother _ _ hget)
          · rfl
        rw [hoperands] at hb
        obtain ⟨x, hread, hst⟩ := Option.bind_eq_some_iff.mp hst
        split at hst
        · exact hadd (fun y hy => same_srcLeaves h hread hy) hst hb
        · cases hst

/-- The chain with its tensors and the chain that is counted fill the tables alike. -/
theorem same_appendChain {st : Chain} {b : Build} {nodes : List Node}
    (hst : CompactTwins.appendChain L R r dev K mem = some st)
    (hb : appendChain L R r dev nodes = .ok b) : SameTables st b := by
  have hrun : ∀ (post : List ℕ) {st₀ : Chain} {b₀ : Build}, SameTables st₀ b₀ →
      post.foldlM (CompactTwins.chainStep L R r dev K mem) st₀ = some st →
      post.foldlM (chainStep L R r dev) b₀ = .ok b → SameTables st b := by
    intro post
    induction post with
    | nil =>
      intro st₀ b₀ h hst hb
      cases hst
      cases hb
      exact h
    | cons p post ih =>
      intro st₀ b₀ h hst hb
      rw [List.foldlM_cons] at hst hb
      obtain ⟨st₁, hstep, hst⟩ := Option.bind_eq_some_iff.mp hst
      cases hstep' : chainStep L R r dev b₀ p with
      | error e =>
        rw [hstep'] at hb
        cases hb
      | ok b₁ =>
        rw [hstep'] at hb
        exact ih (same_chainStep h hstep hstep') hst hb
  exact hrun L.compute ⟨rfl, rfl⟩ hst hb

end tables

end GraphCapacity
end StreamMoE
