import Mathlib.Logic.Function.Iterate
import StreamMoE.ComputeGraph

/-! Where the executor takes an aliasing tensor to be, in each of the four places that resolve
aliases, against the tensor library's meaning: the root's data plus the total offset. -/
namespace StreamMoE
namespace AliasResolution

open ComputeGraph

variable (g : Graph)

/-- The address of a tensor when `start` places the tensors that own storage. -/
def address (start : ℕ → ℕ) (p : ℕ) : ℕ := start (g.root p) + g.viewOffs p

section resolvers

/-- The loop of the second pass of `layout_arena`, along `view_src`. -/
def aliasRoot : ℕ → ℕ → ℕ → ℕ × ℕ
  | 0, t, off => (t, off)
  | fuel + 1, t, off =>
      match g.viewSrc t with
      | none => (t, off)
      | some r => aliasRoot fuel r (if g.op t = .view then off + g.viewOffs t else off)

/-- The data pointers the second pass leaves. -/
def aliasPass (start : ℕ → ℕ) (nd : ℕ) : ℕ :=
  let (t, off) := aliasRoot g nd nd 0
  start t + off

structure ViewAlias where
  view : ℕ
  prod : ℕ
  off : ℕ
  deriving DecidableEq, Repr

def viewAlias (compute : List ℕ) (nd : ℕ) : Option ViewAlias :=
  if isViewOp (g.op nd) then
    let (t, off) := unwrap g nd
    if t ∈ compute then some { view := nd, prod := t, off := off } else none
  else none

/-- The views met on the way to the producer, outermost first. -/
def viewsFrom : ℕ → ℕ → List ℕ
  | 0, _ => []
  | fuel + 1, t =>
      if isViewOp (g.op t) then
        match (g.tensor t).src0 with
        | none => [t]
        | some q => t :: viewsFrom fuel q
      else []

def views (t : ℕ) : List ℕ := viewsFrom g (t + 1) t

def pushLayout (layouts : List ℕ) (t : ℕ) : List ℕ :=
  if t ∈ layouts then layouts else layouts ++ [t]

def inputLayouts (compute : List ℕ) : List ℕ :=
  (compute.flatMap fun cn => (g.tensor cn).sources.flatMap (views g)).foldl pushLayout []

def fixLayout (data : ℕ → Option ℕ) (lt : ℕ) : ℕ → Option ℕ :=
  match (g.tensor lt).src0 with
  | none => data
  | some src =>
      match data src with
      | none => data
      | some a => Function.update data lt (some (if g.op lt = .view then a + g.viewOffs lt else a))

def fixLayerInputLayouts (layouts : List ℕ) (data : ℕ → Option ℕ) : ℕ → Option ℕ :=
  layouts.foldl (fixLayout g) data

/-- The data pointers behind `layout_arena`. -/
def boundData (start : ℕ → ℕ) (p : ℕ) : Option ℕ :=
  some (if (g.viewSrc p).isSome then aliasPass g start p else start p)

/-- The address `bucket_src_leaf` gives a source: of its producer's twin, else of the resident
copy of its producer, else its own. -/
def bucketSrcLeaf (twin resident : ℕ → Option ℕ) (data : ℕ → ℕ) (src : ℕ) : ℕ :=
  let (t, off) := unwrap g src
  match twin t with
  | some a => a + off
  | none =>
      match resident t with
      | some a => a + off
      | none => data src

end resolvers

/-- Every resolver gives `n` the address it has; for a copy this is its own storage. -/
structure Resolved (n : ℕ) : Prop where
  aliasPass : g.viewSrc n ≠ none → ∀ start, aliasPass g start n = address g start n
  viewAlias : ∀ start compute a, viewAlias g compute n = some a →
    address g start a.prod + a.off = address g start n
  inputLayout : ∀ start compute k,
    (fixLayerInputLayouts g (inputLayouts g compute))^[k] (boundData g start) n =
      some (address g start n)
  bucketLeaf : ∀ start twin resident,
    (∀ t a, twin t = some a → a = address g start t) →
    (∀ t a, resident t = some a → a = address g start t) →
    bucketSrcLeaf g twin resident (address g start) n = address g start n

/-- No copy on the way to the producer, and a non-zero offset only by one `VIEW` of a tensor
without offset. -/
def Plain (n : ℕ) : Prop :=
  (∀ c ∈ views g n, g.op c ≠ .cont) ∧
    (g.viewOffs n ≠ 0 → g.op n = .view ∧ ∀ q ∈ (g.tensor n).src0, g.viewOffs q = 0)

variable {g}

section views

theorem viewsFrom_fuel {n m t : ℕ} (h : t < n) (h' : t < m) : viewsFrom g n t = viewsFrom g m t := by
  induction n generalizing m t with
  | zero => exact absurd h (Nat.not_lt_zero t)
  | succ n ih =>
    obtain ⟨m, rfl⟩ : ∃ k, m = k + 1 := ⟨m - 1, by omega⟩
    unfold viewsFrom
    split
    · cases hq : (g.tensor t).src0 with
      | none => rfl
      | some q =>
        have hlt := Graph.src0_lt hq
        dsimp only
        rw [ih (m := m) (by omega) (by omega)]
    · rfl

theorem views_of_not_view {t : ℕ} (h : isViewOp (g.op t) = false) : views g t = [] := by
  simp only [views, viewsFrom, h, Bool.false_eq_true, if_false]

theorem views_of_view {t q : ℕ} (h : isViewOp (g.op t) = true) (hq : (g.tensor t).src0 = some q) :
    views g t = t :: views g q := by
  have hlt := Graph.src0_lt hq
  rw [views, viewsFrom]
  simp only [h, if_true, hq]
  rw [views, viewsFrom_fuel (m := q + 1) (by omega) (by omega)]

theorem isViewOp_of_mem_views {t c : ℕ} (h : c ∈ views g t) : isViewOp (g.op c) = true := by
  induction t using view_induction (g := g) with
  | own t ht =>
    rw [views_of_not_view ht] at h
    cases h
  | view t q ht hq ih =>
    rw [views_of_view ht hq] at h
    rcases List.mem_cons.mp h with rfl | h
    · exact ht
    · exact ih h

/-- On a way without copies the storage stays the same. -/
theorem root_producer {n : ℕ} (h : ∀ c ∈ views g n, g.op c ≠ .cont) :
    g.root (producer g n) = g.root n := by
  induction n using view_induction (g := g) with
  | own n hn => rw [producer, unwrap_of_not_view hn]
  | view n q hn hq ih =>
    rw [views_of_view hn hq] at h
    have halias : isAliasOp (g.op n) = true :=
      ((isViewOp_iff _).mp hn).resolve_right (h n (List.mem_cons_self ..))
    have hrest := ih fun c hc => h c (List.mem_cons_of_mem _ hc)
    rw [producer_of_view hn hq, Graph.root_aliasOf (Graph.aliasOf_src0 halias hq)]
    exact hrest

/-- A copy on the way owns the storage of everything above it; the walk goes past it. -/
theorem producer_lt_root {n c : ℕ} (hc : c ∈ views g n) (hcont : g.op c = .cont) :
    producer g n < g.root n := by
  induction n using view_induction (g := g) with
  | own n hn =>
    rw [views_of_not_view hn] at hc
    cases hc
  | view n q hn hq ih =>
    rw [producer_of_view hn hq]
    by_cases hself : g.op n = .cont
    · rw [Graph.root_of_own ((g.conforms n).cont_own hself)]
      exact Nat.lt_of_le_of_lt (producer_le q) (Graph.src0_lt hq)
    · rw [views_of_view hn hq] at hc
      have hcq : c ∈ views g q := by
        rcases List.mem_cons.mp hc with rfl | hc
        · exact absurd hcont hself
        · exact hc
      have halias : isAliasOp (g.op n) = true := ((isViewOp_iff _).mp hn).resolve_right hself
      rw [Graph.root_aliasOf (Graph.aliasOf_src0 halias hq)]
      exact ih hcq

/-- Offsets only grow along a way without copies: none at the top, none below. -/
theorem unwrap_offs_zero {n : ℕ} (h : ∀ c ∈ views g n, g.op c ≠ .cont) (hz : g.viewOffs n = 0) :
    (unwrap g n).2 = 0 ∧ g.viewOffs (producer g n) = 0 := by
  induction n using view_induction (g := g) with
  | own n hn =>
    rw [producer, unwrap_of_not_view hn]
    exact ⟨rfl, hz⟩
  | view n q hn hq ih =>
    rw [views_of_view hn hq] at h
    have halias : isAliasOp (g.op n) = true :=
      ((isViewOp_iff _).mp hn).resolve_right (h n (List.mem_cons_self ..))
    have hle := Graph.viewOffs_aliasOf (Graph.aliasOf_src0 halias hq)
    have hrest := ih (fun c hc => h c (List.mem_cons_of_mem _ hc)) (by omega)
    rw [producer, unwrap_of_view hn hq, hz, ite_self, Nat.zero_add]
    exact hrest

/-- The walk counts at least the offset the tensor has. -/
theorem viewOffs_le_unwrap {n : ℕ} (h : ∀ c ∈ views g n, g.op c ≠ .cont) :
    g.viewOffs n ≤ g.viewOffs (producer g n) + (unwrap g n).2 := by
  induction n using view_induction (g := g) with
  | own n hn =>
    rw [producer, unwrap_of_not_view hn]
    exact Nat.le_refl _
  | view n q hn hq ih =>
    rw [views_of_view hn hq] at h
    have halias : isAliasOp (g.op n) = true :=
      ((isViewOp_iff _).mp hn).resolve_right (h n (List.mem_cons_self ..))
    have hrest := ih fun c hc => h c (List.mem_cons_of_mem _ hc)
    have hoffs := (Graph.aliasOf_src0 halias hq).2
    rw [producer_of_view hn hq, unwrap_of_view hn hq]
    split at hoffs
    · rename_i hview
      simp only [Graph.op, hview, if_true]
      omega
    · rename_i hview
      simp only [Graph.op, hview, if_false, Nat.zero_add]
      have hsame : g.viewOffs n = g.viewOffs q := hoffs
      omega

end views

section plain

theorem aliasPass_of_view {n r : ℕ} (h : g.viewSrc n = some r) (start : ℕ → ℕ) :
    aliasPass g start n = start r + if g.op n = .view then g.viewOffs n else 0 := by
  have hlt := (g.conforms n).view_lt r h
  have hroot := (g.conforms n).view_root r h
  have hr : ∀ fuel off, aliasRoot g fuel r off = (r, off) := by
    intro fuel off
    cases fuel with
    | zero => rfl
    | succ fuel =>
      unfold aliasRoot
      rw [show g.viewSrc r = none from hroot]
  obtain ⟨m, rfl⟩ : ∃ m, n = m + 1 := ⟨n - 1, by omega⟩
  simp only [aliasPass, aliasRoot, h, hr, Nat.zero_add]

theorem Plain.src0 {n q : ℕ} (h : Plain g n) (hn : isViewOp (g.op n) = true)
    (hq : (g.tensor n).src0 = some q) : AliasOf g.tensor n q ∧ Plain g q ∧
      g.viewOffs n = g.viewOffs q + if g.op n = .view then g.viewOffs n else 0 := by
  obtain ⟨hcont, hoffs⟩ := h
  rw [views_of_view hn hq] at hcont
  have halias : isAliasOp (g.op n) = true :=
    ((isViewOp_iff _).mp hn).resolve_right (hcont n (List.mem_cons_self ..))
  have hof := Graph.aliasOf_src0 halias hq
  have hle := Graph.viewOffs_aliasOf hof
  have hzero : g.viewOffs q = 0 := by
    by_cases hz : g.viewOffs n = 0
    · omega
    · exact (hoffs hz).2 q hq
  refine ⟨hof, ⟨fun c hc => hcont c (List.mem_cons_of_mem _ hc), absurd hzero⟩, ?_⟩
  by_cases hz : g.viewOffs n = 0
  · rw [hz, hzero, ite_self]
  · rw [hzero, if_pos (hoffs hz).1, Nat.zero_add]

/-- On a plain way the walk finds the root and the offset. -/
theorem Plain.address_unwrap {n : ℕ} (h : Plain g n) (start : ℕ → ℕ) :
    address g start (unwrap g n).1 + (unwrap g n).2 = address g start n := by
  have hroot := root_producer h.1
  simp only [address, hroot]
  cases hn : isViewOp (g.op n) with
  | false => rw [unwrap_of_not_view hn]; rfl
  | true =>
    obtain ⟨q, hq⟩ := Graph.exists_src0 hn
    obtain ⟨_, hplain, hoffs⟩ := h.src0 hn hq
    rw [unwrap_of_view hn hq]
    have hz : g.viewOffs q = 0 := by
      by_cases hz : g.viewOffs n = 0
      · omega
      · exact (h.2 hz).2 q hq
    obtain ⟨hsum, hprod⟩ := unwrap_offs_zero hplain.1 hz
    have hoff : g.viewOffs (ComputeGraph.unwrap g q).1 = 0 := hprod
    simp only [hsum, hoff]
    omega

theorem Plain.aliasPass {n : ℕ} (h : Plain g n) (hview : g.viewSrc n ≠ none) (start : ℕ → ℕ) :
    aliasPass g start n = address g start n := by
  obtain ⟨r, hr⟩ := Option.ne_none_iff_exists'.mp hview
  rw [aliasPass_of_view hr, address, Graph.root_of_view hr]
  by_cases hz : g.viewOffs n = 0
  · rw [hz, ite_self]
  · rw [if_pos (h.2 hz).1]

/-- The data of plain tensors is right. -/
def RightData (g : Graph) (start : ℕ → ℕ) (data : ℕ → Option ℕ) : Prop :=
  ∀ t, Plain g t → data t = some (address g start t)

theorem rightData_boundData (start : ℕ → ℕ) : RightData g start (boundData g start) := by
  intro t ht
  cases hv : g.viewSrc t with
  | none =>
    have hoffs := (g.conforms t).own_offs hv
    simp only [boundData, hv, Option.isSome_none, Bool.false_eq_true, if_false, address,
      Graph.root_of_own hv, Graph.viewOffs, hoffs, Nat.add_zero]
  | some r =>
    have hne : g.viewSrc t ≠ none := by simp [hv]
    simp only [boundData, hv, Option.isSome_some, if_true, ht.aliasPass hne]

theorem RightData.fixLayout {start : ℕ → ℕ} {data : ℕ → Option ℕ} (h : RightData g start data)
    {lt : ℕ} (hlt : isViewOp (g.op lt) = true) : RightData g start (fixLayout g data lt) := by
  obtain ⟨q, hq⟩ := Graph.exists_src0 hlt
  intro t ht
  unfold AliasResolution.fixLayout
  simp only [hq]
  cases hd : data q with
  | none => exact h t ht
  | some a =>
    dsimp only
    by_cases htl : t = lt
    · subst htl
      obtain ⟨hof, hplain, hoffs⟩ := ht.src0 hlt hq
      have ha : a = address g start q := Option.some.inj (hd.symm.trans (h q hplain))
      rw [Function.update_self, ha]
      simp only [address, Graph.root_aliasOf hof]
      split
      · rename_i hop
        rw [if_pos hop] at hoffs
        congr 1
        omega
      · rename_i hop
        rw [if_neg hop] at hoffs
        rw [hoffs, Nat.add_zero]
    · rw [Function.update_of_ne htl]
      exact h t ht

theorem isViewOp_of_mem_inputLayouts {compute : List ℕ} {lt : ℕ} (h : lt ∈ inputLayouts g compute) :
    isViewOp (g.op lt) = true := by
  have hpush : ∀ (l acc : List ℕ), lt ∈ l.foldl pushLayout acc → lt ∈ acc ∨ lt ∈ l := by
    intro l
    induction l with
    | nil => exact fun acc hmem => Or.inl hmem
    | cons t l ih =>
      intro acc hmem
      rcases ih _ hmem with hacc | hl
      · unfold pushLayout at hacc
        split at hacc
        · exact Or.inl hacc
        · rcases List.mem_append.mp hacc with hacc | ht
          · exact Or.inl hacc
          · exact Or.inr (List.mem_cons.mpr (Or.inl (List.mem_singleton.mp ht)))
      · exact Or.inr (List.mem_cons_of_mem _ hl)
  rcases hpush _ _ h with hnil | hmem
  · cases hnil
  · obtain ⟨cn, _, hcn⟩ := List.mem_flatMap.mp hmem
    obtain ⟨s, _, hs⟩ := List.mem_flatMap.mp hcn
    exact isViewOp_of_mem_views hs

theorem RightData.fixLayerInputLayouts {start : ℕ → ℕ} {layouts : List ℕ}
    (hl : ∀ lt ∈ layouts, isViewOp (g.op lt) = true) {data : ℕ → Option ℕ}
    (h : RightData g start data) : RightData g start (fixLayerInputLayouts g layouts data) := by
  induction layouts generalizing data with
  | nil => exact h
  | cons lt layouts ih =>
    exact ih (fun x hx => hl x (List.mem_cons_of_mem _ hx)) (h.fixLayout (hl lt (List.mem_cons_self ..)))

theorem Plain.resolved {n : ℕ} (h : Plain g n) : Resolved g n where
  aliasPass hview start := h.aliasPass hview start
  viewAlias := by
    intro start compute a ha
    unfold AliasResolution.viewAlias at ha
    split at ha
    · dsimp only at ha
      split at ha
      · cases ha
        exact h.address_unwrap start
      · cases ha
    · cases ha
  inputLayout := by
    intro start compute k
    have hk : RightData g start
        ((fixLayerInputLayouts g (inputLayouts g compute))^[k] (boundData g start)) := by
      induction k with
      | zero => exact rightData_boundData start
      | succ k ih =>
        rw [Function.iterate_succ_apply']
        exact ih.fixLayerInputLayouts fun lt hlt => isViewOp_of_mem_inputLayouts hlt
    exact hk n h
  bucketLeaf := by
    intro start twin resident htwin hres
    simp only [bucketSrcLeaf]
    cases ht : twin (unwrap g n).1 with
    | some a => rw [htwin _ a ht]; exact h.address_unwrap start
    | none =>
      cases hr : resident (unwrap g n).1 with
      | some a => rw [hres _ a hr]; exact h.address_unwrap start
      | none => rfl

end plain

/-- The resolvers agree with the graph's meaning on exactly the plain tensors. -/
theorem resolved_iff_plain (g : Graph) (n : ℕ) : Resolved g n ↔ Plain g n := by
  refine ⟨fun h => ?_, Plain.resolved⟩
  have hwalk : isViewOp (g.op n) = true → ∀ start,
      address g start (producer g n) + (unwrap g n).2 = address g start n := by
    intro hn start
    refine h.viewAlias start [producer g n] ⟨n, producer g n, (unwrap g n).2⟩ ?_
    simp only [viewAlias, hn, if_true, producer, List.mem_singleton]
  have hcont : ∀ c ∈ views g n, g.op c ≠ .cont := by
    intro c hc hop
    have hn : isViewOp (g.op n) = true := by
      by_contra hn
      rw [views_of_not_view (Bool.not_eq_true _ ▸ hn)] at hc
      cases hc
    have hlt := producer_lt_root hc hop
    -- storage behind the copy and storage of the copy lie apart
    have heq := hwalk hn fun p => if p = g.root n then 0 else g.viewOffs n + 1
    have hne : g.root (producer g n) ≠ g.root n :=
      Nat.ne_of_lt (Nat.lt_of_le_of_lt (Graph.root_le _) hlt)
    simp only [address, if_neg hne, if_true] at heq
    omega
  refine ⟨hcont, fun hz => ?_⟩
  have hview : g.viewSrc n ≠ none := fun hnone => hz ((g.conforms n).own_offs hnone)
  obtain ⟨r, hr⟩ := Option.ne_none_iff_exists'.mp hview
  have hpass := h.aliasPass hview fun _ => 0
  rw [aliasPass_of_view hr, address] at hpass
  have hop : g.op n = .view := by
    by_contra hop
    rw [if_neg hop] at hpass
    omega
  refine ⟨hop, fun q hq => ?_⟩
  have hn : isViewOp (g.op n) = true := by rw [hop]; rfl
  have heq := hwalk hn fun _ => 0
  rw [views_of_view hn hq] at hcont
  have hle := viewOffs_le_unwrap (n := q) fun c hc => hcont c (List.mem_cons_of_mem _ hc)
  simp only [address, producer, unwrap_of_view hn hq, hop, if_true] at heq
  simp only [producer] at hle
  omega

/-- A tensor of 64 bytes, its second half, that half reshaped, a copy of the reshaped half, and the
last quarter of the tensor as a view of the second half. -/
def slicedGraph : Graph :=
  Graph.ofList
    [{ nbytes := 64 },
      { op := .view, src := [some 0], viewSrc := some 0, viewOffs := 32, nbytes := 32 },
      { op := .reshape, src := [some 1], viewSrc := some 0, viewOffs := 32, nbytes := 32 },
      { op := .cont, src := [some 2], nbytes := 32 },
      { op := .view, src := [some 1], viewSrc := some 0, viewOffs := 48, nbytes := 16 }]
    [1, 2, 3, 4] (by decide) (by decide)

/-- The second pass drops the offset of the reshaped half, and two of the other resolvers take the
copy for its source and count the offset of the second half twice. -/
theorem slicedGraph_misresolved :
    aliasPass slicedGraph (fun _ => 0) 2 ≠ address slicedGraph (fun _ => 0) 2 ∧
      (∃ a, viewAlias slicedGraph [0] 3 = some a ∧
        address slicedGraph id a.prod + a.off ≠ address slicedGraph id 3) ∧
      (∃ a, viewAlias slicedGraph [0] 4 = some a ∧
        address slicedGraph id a.prod + a.off ≠ address slicedGraph id 4) ∧
      ¬ Resolved slicedGraph 2 ∧ ¬ Resolved slicedGraph 3 ∧ ¬ Resolved slicedGraph 4 := by
  refine ⟨by decide, ⟨⟨3, 0, 32⟩, by decide, by decide⟩, ⟨⟨4, 0, 80⟩, by decide, by decide⟩, ?_, ?_, ?_⟩
  · intro h
    have hpass := h.aliasPass (by decide) fun _ => 0
    revert hpass
    decide
  · intro h
    have halias := h.viewAlias id [0] ⟨3, 0, 32⟩ (by decide)
    revert halias
    decide
  · intro h
    have halias := h.viewAlias id [0] ⟨4, 0, 80⟩ (by decide)
    revert halias
    decide

end AliasResolution
end StreamMoE
