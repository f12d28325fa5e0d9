import Mathlib.Data.List.Basic
import Mathlib.Data.List.Nodup
import Mathlib.Data.Nat.Notation
import Mathlib.Logic.Function.Basic

/-! Breadth-first search over a finite list of vertices: a vertex is queued once, with the label of
the vertex that queued it. -/
namespace StreamMoE
namespace Worklist

variable {V Λ : Type*} [DecidableEq V] [DecidableEq Λ]

/-- The tables of a search and the rest of its queue. -/
structure Search (V Λ : Type*) where
  visited : V → Bool
  label : V → Λ
  queued : V → Bool
  queue : List V

section search

variable (vertices : List V) (succ : V → V → Bool) (unset : Λ)

/-- Vertex `i` queues its successor `j` unless it was queued before. -/
def claim (i : V) (s : Search V Λ) (j : V) : Search V Λ :=
  if s.visited j || s.queued j then s
  else if s.label j ≠ unset then s
  else if succ i j then
    { s with
      label := Function.update s.label j (s.label i)
      queued := Function.update s.queued j true
      queue := s.queue ++ [j] }
  else s

/-- The vertex at the head of the queue queues its successors. -/
def visit (i : V) (rest : List V) (s : Search V Λ) : Search V Λ :=
  let s := vertices.foldl (claim succ unset i) { s with queue := rest }
  { s with visited := Function.update s.visited i true, queued := Function.update s.queued i false }

def search : ℕ → Search V Λ → Search V Λ
  | 0, s => s
  | fuel + 1, s =>
      match s.queue with
      | [] => s
      | i :: rest => search fuel (visit vertices succ unset i rest s)

/-- The search before its first step: the starts are queued with their own labels. -/
def start (first : V → Bool) (label : V → Λ) : Search V Λ where
  visited _ := false
  label i := if first i then label i else unset
  queued i := decide (i ∈ vertices) && first i
  queue := vertices.filter first

end search

section invariant

variable {vertices : List V} {succ : V → V → Bool} {unset : Λ} {s : Search V Λ} {i j : V}

/-- The vertex was queued at some time. -/
def Search.Met (s : Search V Λ) (j : V) : Prop := s.visited j = true ∨ s.queued j = true

/-- The books of a search in which the vertices `cur` are being visited. -/
structure Books (vertices : List V) (unset : Λ) (cur : List V) (s : Search V Λ) : Prop where
  queued_iff : ∀ j, s.queued j = true ↔ j ∈ cur ∨ j ∈ s.queue
  nodup : (cur ++ s.queue).Nodup
  apart : ∀ j, s.queued j = true → s.visited j = false
  known : ∀ j, s.Met j → j ∈ vertices
  labelled : ∀ j, s.label j ≠ unset → s.Met j

omit [DecidableEq Λ] in
theorem Books.start (hnodup : vertices.Nodup) (first : V → Bool) (label : V → Λ)
    (hstart : ∀ i, first i = true → i ∈ vertices) :
    Books vertices unset [] (start vertices unset first label) := by
  have hqueued : ∀ j, (Worklist.start vertices unset first label).queued j = true ↔
      j ∈ vertices ∧ first j = true := by
    intro j
    simp only [Worklist.start, Bool.and_eq_true, decide_eq_true_eq]
  refine ⟨fun j => ?_, ?_, fun _ _ => rfl, fun j hmet => ?_, fun j hlabel => ?_⟩
  · rw [hqueued]
    show _ ↔ j ∈ [] ∨ j ∈ vertices.filter first
    rw [List.mem_filter]
    simp only [List.not_mem_nil, false_or]
  · exact hnodup.filter _
  · rcases hmet with hvisited | hq
    · cases hvisited
    · exact ((hqueued j).mp hq).1
  · by_cases hfirst : first j = true
    · exact .inr ((hqueued j).mpr ⟨hstart j hfirst, hfirst⟩)
    · simp only [Worklist.start, hfirst, Bool.false_eq_true, if_false, ne_eq, not_true] at hlabel

/-- What a claim does to a vertex nobody has met. -/
theorem claim_new (hmet : ¬ s.Met j) (hlabel : s.label j = unset) (hsucc : succ i j = true) :
    claim succ unset i s j = { s with
      label := Function.update s.label j (s.label i)
      queued := Function.update s.queued j true
      queue := s.queue ++ [j] } := by
  have hnot : ¬ (s.visited j || s.queued j) = true := by
    rw [Bool.or_eq_true]
    exact hmet
  unfold claim
  rw [if_neg hnot, if_neg (by simpa using hlabel), if_pos hsucc]

/-- A claim leaves the search alone or queues a new successor. -/
theorem claim_cases (s : Search V Λ) (i j : V) :
    claim succ unset i s j = s ∧ (s.Met j ∨ s.label j ≠ unset ∨ succ i j = false) ∨
      ¬ s.Met j ∧ succ i j = true ∧ claim succ unset i s j = { s with
        label := Function.update s.label j (s.label i)
        queued := Function.update s.queued j true
        queue := s.queue ++ [j] } := by
  by_cases hmet : s.Met j
  · have hor : (s.visited j || s.queued j) = true := by
      rw [Bool.or_eq_true]
      exact hmet
    exact .inl ⟨by unfold claim; rw [if_pos hor], .inl hmet⟩
  · by_cases hlabel : s.label j = unset
    · by_cases hsucc : succ i j = true
      · exact .inr ⟨hmet, hsucc, claim_new hmet hlabel hsucc⟩
      · have hnot : ¬ (s.visited j || s.queued j) = true := by
          rw [Bool.or_eq_true]
          exact hmet
        refine .inl ⟨?_, .inr (.inr (by simpa using hsucc))⟩
        unfold claim
        rw [if_neg hnot, if_neg (by simpa using hlabel), if_neg hsucc]
    · have hnot : ¬ (s.visited j || s.queued j) = true := by
        rw [Bool.or_eq_true]
        exact hmet
      refine .inl ⟨?_, .inr (.inl hlabel)⟩
      unfold claim
      rw [if_neg hnot, if_pos hlabel]

theorem Met.claim (h : s.Met j) (i k : V) : (claim succ unset i s k).Met j := by
  rcases @claim_cases V Λ _ _ succ unset s i k with ⟨heq, _⟩ | ⟨_, _, heq⟩
  · rw [heq]
    exact h
  · rw [heq]
    rcases h with hvisited | hqueued
    · exact .inl hvisited
    · refine .inr ?_
      show Function.update s.queued k true j = true
      by_cases hjk : j = k
      · rw [hjk, Function.update_self]
      · rw [Function.update_of_ne hjk]
        exact hqueued

theorem Books.claimed {cur : List V} (h : Books vertices unset cur s) (i : V) (hj : j ∈ vertices) :
    Books vertices unset cur (claim succ unset i s j) := by
  rcases @claim_cases V Λ _ _ succ unset s i j with ⟨heq, _⟩ | ⟨hmet, _, heq⟩
  · rw [heq]
    exact h
  · have hnot : ¬ s.queued j = true := fun hq => hmet (.inr hq)
    have hnotin : j ∉ cur ++ s.queue := by
      rw [List.mem_append]
      exact fun hmem => hnot ((h.queued_iff j).mpr hmem)
    have hqueued : ∀ k, Function.update s.queued j true k = true ↔ k = j ∨ s.queued k = true := by
      intro k
      by_cases hkj : k = j
      · rw [hkj, Function.update_self]
        simp only [true_or]
      · rw [Function.update_of_ne hkj]
        simp only [hkj, false_or]
    rw [heq]
    refine ⟨fun k => ?_, ?_, fun k hk => ?_, fun k hk => ?_, fun k hk => ?_⟩
    · rw [hqueued, h.queued_iff, List.mem_append, List.mem_singleton]
      constructor
      · rintro (hkj | hcur | hqueue)
        · exact .inr (.inr hkj)
        · exact .inl hcur
        · exact .inr (.inl hqueue)
      · rintro (hcur | hqueue | hkj)
        · exact .inr (.inl hcur)
        · exact .inr (.inr hqueue)
        · exact .inl hkj
    · rw [← List.append_assoc]
      exact List.nodup_append.mpr ⟨h.nodup, List.nodup_singleton j, fun a ha b hb hab => by
        rw [List.mem_singleton.mp hb] at hab
        exact hnotin (hab ▸ ha)⟩
    · rcases (hqueued k).mp hk with rfl | hold
      · by_contra hvisited
        exact hmet (.inl (by simpa using hvisited))
      · exact h.apart k hold
    · rcases hk with hvisited | hk
      · exact h.known k (.inl hvisited)
      · rcases (hqueued k).mp hk with rfl | hold
        · exact hj
        · exact h.known k (.inr hold)
    · by_cases hkj : k = j
      · exact .inr ((hqueued k).mpr (.inl hkj))
      · replace hk : Function.update s.label j (s.label i) k ≠ unset := hk
        rw [Function.update_of_ne hkj] at hk
        rcases h.labelled k hk with hvisited | hold
        · exact .inl hvisited
        · exact .inr ((hqueued k).mpr (.inr hold))

/-- The successors a vertex claims: the books are kept, what was met stays met, and every successor
is met. -/
theorem Books.claims {cur : List V} (h : Books vertices unset cur s) (i : V) {todo : List V}
    (htodo : ∀ j ∈ todo, j ∈ vertices) :
    Books vertices unset cur (todo.foldl (claim succ unset i) s) ∧
      (∀ j, s.Met j → (todo.foldl (claim succ unset i) s).Met j) ∧
      ∀ j ∈ todo, succ i j = true → (todo.foldl (claim succ unset i) s).Met j := by
  induction todo generalizing s with
  | nil => exact ⟨h, fun _ hmet => hmet, fun _ hmem => absurd hmem List.not_mem_nil⟩
  | cons k todo ih =>
    have hk := htodo k (List.mem_cons_self ..)
    obtain ⟨hbooks, hkeep, hall⟩ := ih (@Books.claimed V Λ _ _ vertices succ unset s k cur h i hk) fun j hj => htodo j (List.mem_cons_of_mem _ hj)
    refine ⟨hbooks, fun j hmet => hkeep j (Met.claim hmet i k), fun j hj hsucc => ?_⟩
    rcases List.mem_cons.mp hj with rfl | hj
    · refine hkeep j ?_
      rcases @claim_cases V Λ _ _ succ unset s i j with ⟨heq, hmet | hlabel | hnot⟩ | ⟨_, _, heq⟩
      · rw [heq]
        exact hmet
      · rw [heq]
        exact h.labelled j hlabel
      · rw [hsucc] at hnot
        cases hnot
      · rw [heq]
        exact .inr (Function.update_self ..)
    · exact hall j hj hsucc

theorem claims_visited (i : V) (todo : List V) :
    (todo.foldl (claim succ unset i) s).visited = s.visited := by
  induction todo generalizing s with
  | nil => rfl
  | cons k todo ih =>
    rw [List.foldl_cons, ih]
    rcases @claim_cases V Λ _ _ succ unset s i k with ⟨heq, _⟩ | ⟨_, _, heq⟩ <;> rw [heq]

/-- A search between two visits: its books, and the successors of what was visited are met. -/
structure Between (vertices : List V) (succ : V → V → Bool) (unset : Λ) (s : Search V Λ) : Prop where
  books : Books vertices unset [] s
  closed : ∀ i, s.visited i = true → ∀ j ∈ vertices, succ i j = true → s.Met j

theorem Between.next (h : Between vertices succ unset s) {rest : List V} (hqueue : s.queue = i :: rest) :
    Between vertices succ unset (visit vertices succ unset i rest s) ∧
      (∀ j, (visit vertices succ unset i rest s).visited j = true ↔ j = i ∨ s.visited j = true) := by
  have hbooks := h.books
  have hopen : Books vertices unset [i] { s with queue := rest } := by
    refine ⟨fun j => ?_, ?_, hbooks.apart, hbooks.known, hbooks.labelled⟩
    · have hj := hbooks.queued_iff j
      rw [hqueue, List.mem_cons] at hj
      simp only [List.not_mem_nil, false_or] at hj
      rw [List.mem_singleton]
      exact hj
    · have hnodup := hbooks.nodup
      rw [hqueue] at hnodup
      exact hnodup
  obtain ⟨hafter, hkeep, hall⟩ := @Books.claims V Λ _ _ vertices succ unset _ [i] hopen i vertices fun _ hj => hj
  set s' := vertices.foldl (claim succ unset i) { s with queue := rest } with hs'
  have hvisited : s'.visited = s.visited := claims_visited i vertices
  have hvisit : ∀ j, (Worklist.visit vertices succ unset i rest s).visited j = true ↔
      j = i ∨ s.visited j = true := by
    intro j
    show Function.update s'.visited i true j = true ↔ _
    by_cases hji : j = i
    · rw [hji, Function.update_self]
      simp only [true_or]
    · rw [Function.update_of_ne hji, hvisited]
      simp only [hji, false_or]
  have hqueued : ∀ j, (Worklist.visit vertices succ unset i rest s).queued j = true ↔
      j ≠ i ∧ s'.queued j = true := by
    intro j
    show Function.update s'.queued i false j = true ↔ _
    by_cases hji : j = i
    · rw [hji, Function.update_self]
      simp
    · rw [Function.update_of_ne hji]
      simp only [ne_eq, hji, not_false_iff, true_and]
  have hmet : ∀ j, s'.Met j → (Worklist.visit vertices succ unset i rest s).Met j := by
    rintro j (hj | hj)
    · exact .inl ((hvisit j).mpr (.inr (hvisited ▸ hj)))
    · by_cases hji : j = i
      · exact .inl ((hvisit j).mpr (.inl hji))
      · exact .inr ((hqueued j).mpr ⟨hji, hj⟩)
  have hmet' : ∀ j, (Worklist.visit vertices succ unset i rest s).Met j → j = i ∨ s'.Met j := by
    rintro j (hj | hj)
    · rcases (hvisit j).mp hj with rfl | hold
      · exact .inl rfl
      · exact .inr (.inl (hvisited ▸ hold))
    · exact .inr (.inr ((hqueued j).mp hj).2)
  have hi : i ∈ vertices := by
    refine hbooks.known i (.inr ((hbooks.queued_iff i).mpr (.inr ?_)))
    rw [hqueue]
    exact List.mem_cons_self ..
  have hnodup := List.nodup_cons.mp hafter.nodup
  refine ⟨⟨⟨fun j => ?_, hnodup.2, fun j hj => ?_, fun j hj => ?_, fun j hj => ?_⟩, fun k hk j hj hsucc => ?_⟩,
    hvisit⟩
  · rw [hqueued, hafter.queued_iff, List.mem_singleton]
    show _ ↔ j ∈ [] ∨ j ∈ s'.queue
    simp only [List.not_mem_nil, false_or]
    constructor
    · rintro ⟨hne, heq | hmem⟩
      · exact absurd heq hne
      · exact hmem
    · intro hmem
      refine ⟨?_, .inr hmem⟩
      rintro rfl
      exact hnodup.1 hmem
  · obtain ⟨hne, hold⟩ := (hqueued j).mp hj
    have hfalse := hafter.apart j hold
    by_contra hv
    rcases (hvisit j).mp (by simpa using hv) with heq | hv'
    · exact hne heq
    · rw [hvisited, hv'] at hfalse
      cases hfalse
  · rcases hmet' j hj with rfl | hold
    · exact hi
    · exact hafter.known j hold
  · exact hmet j (hafter.labelled j hj)
  · rcases (hvisit k).mp hk with rfl | hold
    · exact hmet j (hall j hj hsucc)
    · refine hmet j (hkeep j ?_)
      exact h.closed k hold j hj hsucc

omit [DecidableEq V] in
theorem countP_lt {l : List V} {p q : V → Bool} {x : V} (hle : ∀ y, p y = true → q y = true) (hx : x ∈ l)
    (hp : p x = false) (hq : q x = true) : l.countP p < l.countP q := by
  induction l with
  | nil => cases hx
  | cons a l ih =>
    have hrest : l.countP p ≤ l.countP q := List.countP_mono_left fun y _ => hle y
    rw [List.countP_cons, List.countP_cons]
    rcases List.mem_cons.mp hx with rfl | hx
    · rw [if_neg (by rw [hp]; exact Bool.false_ne_true), if_pos hq]
      omega
    · have hlt := ih hx
      by_cases hpa : p a = true
      · rw [if_pos hpa, if_pos (hle a hpa)]
        omega
      · rw [if_neg hpa]
        omega

/-- Fuel for every vertex not yet visited empties the queue. -/
theorem Between.finish (h : Between vertices succ unset s) {fuel : ℕ}
    (hfuel : vertices.countP (fun i => !s.visited i) ≤ fuel) :
    Between vertices succ unset (search vertices succ unset fuel s) ∧
      (search vertices succ unset fuel s).queue = [] := by
  induction fuel generalizing s with
  | zero =>
    refine ⟨h, ?_⟩
    show s.queue = []
    by_contra hne
    obtain ⟨i, rest, hqueue⟩ := List.exists_cons_of_ne_nil hne
    have hqueued : s.queued i = true := (h.books.queued_iff i).mpr (.inr (hqueue ▸ List.mem_cons_self ..))
    have hpos : 0 < vertices.countP (fun i => !s.visited i) := List.countP_pos_iff.mpr
      ⟨i, h.books.known i (.inr hqueued), by rw [h.books.apart i hqueued]; rfl⟩
    omega
  | succ fuel ih =>
    unfold Worklist.search
    cases hqueue : s.queue with
    | nil => exact ⟨h, hqueue⟩
    | cons i rest =>
      obtain ⟨hnext, hvisit⟩ := h.next hqueue
      have hqueued : s.queued i = true := (h.books.queued_iff i).mpr (.inr (hqueue ▸ List.mem_cons_self ..))
      refine ih hnext ?_
      have hlt := countP_lt (l := vertices) (p := fun j => !(visit vertices succ unset i rest s).visited j)
        (q := fun j => !s.visited j) (x := i) (fun j hj => ?_) (h.books.known i (.inr hqueued)) ?_ ?_
      · omega
      · by_contra hold
        have hv := (hvisit j).mpr (.inr (by simpa using hold))
        rw [hv] at hj
        cases hj
      · rw [(hvisit i).mpr (.inl rfl)]
        rfl
      · rw [h.books.apart i hqueued]
        rfl

theorem claims_met (i : V) (todo : List V) (hmet : s.Met j) : (todo.foldl (claim succ unset i) s).Met j := by
  induction todo generalizing s with
  | nil => exact hmet
  | cons k todo ih => exact ih (Met.claim hmet i k)

theorem visit_met_iff {rest : List V} (hi : s.Met i) :
    (visit vertices succ unset i rest s).Met j ↔
      (vertices.foldl (claim succ unset i) { s with queue := rest }).Met j := by
  have hmeti : (vertices.foldl (claim succ unset i) { s with queue := rest }).Met i := claims_met i vertices hi
  unfold visit
  set s' := vertices.foldl (claim succ unset i) { s with queue := rest } with hs'
  show Function.update s'.visited i true j = true ∨ Function.update s'.queued i false j = true ↔ _
  by_cases hji : j = i
  · rw [hji, Function.update_self]
    simp only [true_or, hmeti]
  · rw [Function.update_of_ne hji, Function.update_of_ne hji]
    rfl

theorem search_met (h : Between vertices succ unset s) (fuel : ℕ) (hmet : s.Met j) :
    (search vertices succ unset fuel s).Met j := by
  induction fuel generalizing s with
  | zero => exact hmet
  | succ fuel ih =>
    unfold search
    cases hqueue : s.queue with
    | nil => exact hmet
    | cons i rest =>
      have hi : s.Met i := .inr ((h.books.queued_iff i).mpr (.inr (hqueue ▸ List.mem_cons_self ..)))
      exact ih (h.next hqueue).1 ((visit_met_iff hi).mpr (claims_met i vertices hmet))

section labels

variable {M : V → Λ → Prop}

theorem claims_labels (hstep : ∀ i j l, M i l → j ∈ vertices → succ i j = true → M j l) {todo : List V}
    (htodo : ∀ j ∈ todo, j ∈ vertices) (hi : s.Met i) (h : ∀ j, s.Met j → M j (s.label j)) :
    ∀ j, (todo.foldl (claim succ unset i) s).Met j → M j ((todo.foldl (claim succ unset i) s).label j) := by
  induction todo generalizing s with
  | nil => exact h
  | cons k todo ih =>
    refine ih (fun j hj => htodo j (List.mem_cons_of_mem _ hj)) (Met.claim hi i k) fun j hj => ?_
    rcases @claim_cases V Λ _ _ succ unset s i k with ⟨heq, _⟩ | ⟨hnew, hsucc, heq⟩
    · rw [heq] at hj ⊢
      exact h j hj
    · rw [heq] at hj ⊢
      show M j (Function.update s.label k (s.label i) j)
      by_cases hjk : j = k
      · rw [hjk, Function.update_self]
        exact hstep i k _ (h i hi) (htodo k (List.mem_cons_self ..)) hsucc
      · rw [Function.update_of_ne hjk]
        refine h j ?_
        rcases hj with hvisited | hqueued
        · exact .inl hvisited
        · replace hqueued : Function.update s.queued k true j = true := hqueued
          rw [Function.update_of_ne hjk] at hqueued
          exact .inr hqueued

/-- What the starts have and successors inherit along with the label every met vertex has. -/
theorem search_labels (hstep : ∀ i j l, M i l → j ∈ vertices → succ i j = true → M j l) (fuel : ℕ)
    (hbetween : Between vertices succ unset s) (h : ∀ j, s.Met j → M j (s.label j)) :
    ∀ j, (search vertices succ unset fuel s).Met j → M j ((search vertices succ unset fuel s).label j) := by
  induction fuel generalizing s with
  | zero => exact h
  | succ fuel ih =>
    unfold search
    cases hqueue : s.queue with
    | nil => exact h
    | cons i rest =>
      refine ih (hbetween.next hqueue).1 fun j hj => ?_
      have hi : s.Met i := .inr ((hbetween.books.queued_iff i).mpr (.inr (hqueue ▸ List.mem_cons_self ..)))
      have hclaims := @claims_labels V Λ _ _ vertices succ unset { s with queue := rest } i M hstep vertices
        (fun _ hj => hj) hi h
      exact hclaims j ((visit_met_iff hi).mp hj)

end labels

/-- A search with fuel for every vertex ends: it has visited its starts and the successors of all it
has visited, and every visited vertex got there from a start along with its label. -/
theorem search_spec (hnodup : vertices.Nodup) {first : V → Bool} (label : V → Λ)
    (hfirst : ∀ i, first i = true → i ∈ vertices) {M : V → Λ → Prop}
    (hstart : ∀ i, first i = true → M i (label i))
    (hstep : ∀ i j l, M i l → j ∈ vertices → succ i j = true → M j l) :
    ∃ s, search vertices succ unset vertices.length (start vertices unset first label) = s ∧ s.queue = [] ∧
      (∀ i, first i = true → s.visited i = true) ∧
      (∀ i, s.visited i = true → ∀ j ∈ vertices, succ i j = true → s.visited j = true) ∧
      (∀ i, s.visited i = true → i ∈ vertices ∧ M i (s.label i)) := by
  have hbooks : Books vertices unset [] (start vertices unset first label) :=
    Books.start hnodup first label hfirst
  have hbetween : Between vertices succ unset (start vertices unset first label) :=
    ⟨hbooks, fun i hi => by cases hi⟩
  have hmet : ∀ j, (start vertices unset first label).Met j → first j = true := by
    rintro j (hj | hj)
    · cases hj
    · simp only [start, Bool.and_eq_true] at hj
      exact hj.2
  have hfuel : vertices.countP (fun i => !(start vertices unset first label).visited i) ≤ vertices.length :=
    List.countP_le_length
  obtain ⟨hend, hqueue⟩ := hbetween.finish hfuel
  set s := search vertices succ unset vertices.length (start vertices unset first label) with hs
  have hvisited : ∀ j, s.Met j → s.visited j = true := by
    rintro j (hj | hj)
    · exact hj
    · rcases (hend.books.queued_iff j).mp hj with hcur | hmem
      · exact absurd hcur List.not_mem_nil
      · rw [hqueue] at hmem
        exact absurd hmem List.not_mem_nil
  refine ⟨s, rfl, hqueue, fun i hi => ?_, fun i hi j hj hsucc => hvisited j (hend.closed i hi j hj hsucc),
    fun i hi => ⟨hend.books.known i (.inl hi), ?_⟩⟩
  · refine hvisited i (search_met hbetween _ (.inr ?_))
    simp only [start, hi, hfirst i hi, decide_true, Bool.and_self]
  · refine search_labels hstep _ hbetween (fun j hj => ?_) i (.inl hi)
    have hj' := hmet j hj
    show M j (if first j then label j else unset)
    rw [if_pos hj']
    exact hstart j hj'

end invariant

end Worklist
end StreamMoE
