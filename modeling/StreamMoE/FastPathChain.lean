import Mathlib.Data.List.Basic
import StreamMoE.FastPathRows

/-! Two partial loops over one list that stay related as far as the second goes. -/
namespace StreamMoE
namespace Lockstep

variable {α S T : Type*}

/-- The first loop follows the second if every turn does; a turn knows what came before it. -/
theorem foldlM_follow {f : S → α → Option S} {g : T → α → Option T} (Rel : List α → S → T → Prop)
    {l : List α}
    (hstep : ∀ pre a post, l = pre ++ a :: post → ∀ s t t', Rel pre s t → g t a = some t' →
      ∃ s', f s a = some s' ∧ Rel (pre ++ [a]) s' t')
    {s : S} {t t' : T} (h : Rel [] s t) (hg : l.foldlM g t = some t') :
    ∃ s', l.foldlM f s = some s' ∧ Rel l s' t' := by
  have hrest : ∀ (post pre : List α) (s : S) (t : T), l = pre ++ post → Rel pre s t →
      post.foldlM g t = some t' → ∃ s', post.foldlM f s = some s' ∧ Rel l s' t' := by
    intro post
    induction post with
    | nil =>
      intro pre s t hl hrel hg
      rw [List.append_nil] at hl
      obtain rfl := Option.some.inj hg
      exact ⟨s, rfl, hl ▸ hrel⟩
    | cons a post ih =>
      intro pre s t hl hrel hg
      rw [List.foldlM_cons] at hg
      obtain ⟨t₁, ht₁, hg⟩ := Option.bind_eq_some_iff.mp hg
      obtain ⟨s₁, hs₁, hrel₁⟩ := hstep pre a post hl s t t₁ hrel ht₁
      obtain ⟨s', hs', hrel'⟩ := ih (pre ++ [a]) s₁ t₁ (by simp [hl]) hrel₁ hg
      exact ⟨s', by rw [List.foldlM_cons, hs₁]; exact hs', hrel'⟩
  exact hrest l [] s t rfl h hg

end Lockstep
/-! The chain of a round follows the general path: from rows that agree the same twins are built, and a
result that is written directly is the one that was accumulated. -/
namespace FastPaths

open ComputeGraph MixSplit MixExec Strided CompactTwins RoundCells
open GraphCapacity (made twinNodes operands operands_sub twin_before)

variable {L : Layer} {R : Routing} {r : MixRound} {dev : Bool} {K : Kernels} {mem : Memory}
variable {st st' : Chain}

section operators

variable {T U : Tens F32}

theorem Agree.elem (h : Agree T U) {x s i : ℕ} (hx : x < U.ne0) (hs : s < U.ne1) (hi : i < U.ne2) :
    T.elem x s i = U.elem x s i := (Tens.row_eq_iff h.ne0).mp (h.row s hs i hi) x hx

theorem Agree.slice (h : Agree T U) {off n : ℕ} (hoff : 4 ∣ off) (hin : off + 4 * n ≤ 4 * U.ne0) :
    Agree (T.slice off n) (U.slice off n) :=
  ⟨rfl, h.ne1, h.ne2, fun s hs i hi => Tens.row_slice h.ne0 (h.row s hs i hi) hoff hin⟩

/-- Rows are made from rows. -/
theorem agree_ofElems {a b c : ℕ} {f g : ℕ → ℕ → ℕ → F32}
    (h : ∀ x < a, ∀ s < b, ∀ i < c, f x s i = g x s i) :
    Agree (.ofElems (.packed a b c) f) (.ofElems (.packed a b c) g) := by
  refine ⟨rfl, rfl, rfl, ?_⟩
  intro s hs' i hi
  have hs : s < b := hs'
  rw [Tens.row_ofElems _ hs, Tens.row_ofElems _ hs]
  apply List.map_congr_left
  intro x hx
  exact h x (List.mem_range.mp hx) s hs i hi

theorem mod_lt_of_dvd {n m s : ℕ} (h : n % m = 0) (hs : s < n) : s % m < m := by
  apply Nat.mod_lt
  rcases Nat.eq_zero_or_pos m with rfl | hm
  · rw [Nat.mod_zero] at h
    omega
  · exact hm

theorem agree_mulMatId (h : Agree T U) {ne0 n w : ℕ} (ids : ℕ → ℕ → ℕ)
    (hfits : MulMatIdFits ne0 r.width r.nActive U) :
    Agree (mulMatId K w (.packed n r.width r.nActive) ids T)
      (mulMatId K w (.packed n r.width r.nActive) ids U) := by
  apply agree_ofElems
  intro x _ s hs i hi
  rw [h.ne1, h.row _ (mod_lt_of_dvd hfits.2.2 hs) i (hfits.2.1 ▸ hi)]

theorem agree_getRows (h : Agree T U) {a b c : ℕ} {ids : ℕ → ℕ → ℕ}
    (hfits : GetRowsFits (.packed a b c) r.width r.nActive ids U) :
    Agree (getRows (.packed a b c) ids T) (getRows (.packed a b c) ids U) := by
  obtain ⟨⟨hb, hc⟩, ⟨h0, h2⟩, hids⟩ := hfits
  have hb' : b = r.width := hb
  have hc' : c = r.nActive := hc
  have h0' : U.ne0 = a := h0
  have h2' : U.ne2 = c := h2
  apply agree_ofElems
  intro x hx s hs i hi
  exact h.elem (by omega) (hids i (by omega) s (by omega)) (by omega)

theorem agree_rowsOp {Ts Us : List (Tens F32)} (h : List.Forall₂ Agree Ts Us) {p a b c : ℕ}
    {repeats : Bool} (hfits : RowsFit repeats (.packed a b c) Us) :
    Agree (rowsOp K p (.packed a b c) Ts) (rowsOp K p (.packed a b c) Us) := by
  apply agree_ofElems
  intro x _ s hs i hi
  congr 1
  have hrest := hfits.2
  clear hfits
  induction h with
  | nil => rfl
  | cons hTU _ ih =>
    obtain ⟨h₁, h₂⟩ := hrest _ List.mem_cons_self
    rw [List.map_cons, List.map_cons, ih fun V hV => hrest V (List.mem_cons_of_mem _ hV), hTU.ne1,
      hTU.ne2, hTU.row _ (mod_lt_of_dvd h₁ hs) _ (mod_lt_of_dvd h₂ hi)]

theorem rowsFit_congr {Ts Us : List (Tens F32)} (h : List.Forall₂ Agree Ts Us) {sh : Shape}
    {repeats : Bool} (hfits : RowsFit repeats sh Us) : RowsFit repeats sh Ts := by
  obtain ⟨⟨U, hU, hfirst⟩, hrest⟩ := hfits
  refine ⟨?_, ?_⟩
  · cases h with
    | nil => cases hU
    | cons hTU _ =>
      obtain rfl : _ = U := by simpa using hU
      refine ⟨_, rfl, ?_⟩
      rwa [hTU.ne1, hTU.ne2]
  · clear hfirst hU
    induction h with
    | nil => exact fun T hT => absurd hT List.not_mem_nil
    | cons hTU _ ih =>
      intro T hT
      rcases List.mem_cons.mp hT with rfl | hT
      · rw [hTU.ne1, hTU.ne2]
        exact hrest _ List.mem_cons_self
      · exact ih (fun V hV => hrest V (List.mem_cons_of_mem _ hV)) T hT

end operators

section tables

theorem find_agree {l l' : List (ℕ × Tens F32)} (h : List.Forall₂ AgreeAt l l') (q : ℕ) :
    Option.Rel Agree ((l.find? fun e => decide (e.1 = q)).map Prod.snd)
      ((l'.find? fun e => decide (e.1 = q)).map Prod.snd) := by
  induction h with
  | nil => exact .none
  | @cons e f l l' hef _ ih =>
    rw [List.find?_cons, List.find?_cons, hef.1]
    by_cases hq : f.1 = q
    · simpa [hq] using Option.Rel.some hef.2
    · simpa [hq] using ih

theorem twinGet_none_iff (st : Chain) (q : ℕ) : st.twinGet q = none ↔ q ∉ st.twins.map Prod.fst := by
  rw [Chain.twinGet, Option.map_eq_none_iff, List.find?_eq_none]
  simp only [List.mem_map, decide_eq_true_eq, not_exists, not_and]

theorem gathered_follow (h : SameTables st st') {q : ℕ} {F G : Option (Tens F32)} (hF : Follows F G)
    {x' : Chain × Tens F32} (hx : st'.gathered q G = some x') :
    ∃ x, st.gathered q F = some x ∧ SameTables x.1 x'.1 ∧ Agree x.2 x'.2 ∧ x'.1.twins = st'.twins := by
  have hget := find_agree h.gathers q
  unfold Chain.gathered Chain.gatherGet at hx ⊢
  cases hold : (st.gathers.find? fun e => decide (e.1 = q)).map Prod.snd with
  | some T =>
    rw [hold] at hget
    cases hnew : (st'.gathers.find? fun e => decide (e.1 = q)).map Prod.snd with
    | none =>
      rw [hnew] at hget
      cases hget
    | some U =>
      rw [hnew] at hget hx
      obtain rfl := Option.some.inj hx
      cases hget with
      | some hTU => exact ⟨_, rfl, h, hTU, rfl⟩
  | none =>
    rw [hold] at hget
    cases hnew : (st'.gathers.find? fun e => decide (e.1 = q)).map Prod.snd with
    | some U =>
      rw [hnew] at hget
      cases hget
    | none =>
      rw [hnew] at hx
      obtain ⟨U, hU, hput⟩ := Option.bind_eq_some_iff.mp hx
      obtain ⟨y, hy, rfl⟩ := Option.map_eq_some_iff.mp hput
      obtain ⟨T, hT, hTU⟩ := hF U hU
      unfold Chain.gatherPut at hy
      split at hy
      · rename_i hroom
        obtain rfl := Option.some.inj hy
        rw [← h.gathers.length_eq] at hroom
        refine ⟨({ st with gathers := st.gathers ++ [(q, T)] }, T), ?_, ?_, hTU, rfl⟩
        · rw [hT]
          simp [Chain.gatherPut, hroom]
        · exact ⟨h.twins, List.rel_append h.gathers (.cons ⟨rfl, hTU⟩ .nil), h.last⟩
      · cases hy

theorem twinPut_follow (h : SameTables st st') {p : ℕ} {T U : Tens F32} (hTU : Agree T U) {y' : Chain}
    (hput : st'.twinPut p U = some y') : ∃ y, st.twinPut p T = some y ∧ SameTables y y' ∧
      y'.twins = st'.twins ++ [(p, U)] := by
  unfold Chain.twinPut at hput ⊢
  split at hput
  · rename_i hroom
    obtain rfl := Option.some.inj hput
    rw [← h.twins.length_eq] at hroom
    refine ⟨_, if_pos hroom, ?_, rfl⟩
    exact ⟨List.rel_append h.twins (.cons ⟨rfl, hTU⟩ .nil), h.gathers, .some ⟨rfl, hTU⟩⟩
  · cases hput

end tables

section steps

/-- A leaf, or a view of a twin inside its row. -/
theorem srcLeaf_follow (h : SameTables st st') {q : ℕ}
    (hleaf : producer L.graph q ∉ st'.twins.map Prod.fst → (L.shape q).ne0 = 1 →
      (L.shape q).ne1 = R.nExpertUsed →
        Follows (gatherPerSlot R r dev (L.tens mem q)) (generalPerSlot R r (L.tens mem q)))
    {x' : Chain × Tens F32} (hx : srcLeaf L R (general R r) mem st' q = some x') :
    ∃ x, srcLeaf L R (executor R r dev) mem st q = some x ∧ SameTables x.1 x'.1 ∧ Agree x.2 x'.2 ∧
      x'.1.twins = st'.twins := by
  have hget : Option.Rel Agree (st.twinGet (producer L.graph q)) (st'.twinGet (producer L.graph q)) :=
    find_agree h.twins _
  unfold srcLeaf at hx ⊢
  cases hnew : st'.twinGet (producer L.graph q) with
  | some U =>
    rw [hnew] at hget hx
    cases hold : st.twinGet (producer L.graph q) with
    | none =>
      rw [hold] at hget
      cases hget
    | some T =>
      rw [hold] at hget
      obtain ⟨S, hS, rfl⟩ := Option.map_eq_some_iff.mp hx
      cases hget with
      | some hTU =>
        have hcut : generalSlice U (unwrap L.graph q).2 (L.shape q).ne0 = some S := hS
        unfold generalSlice at hcut
        split at hcut
        · rename_i hin
          obtain rfl := Option.some.inj hcut
          exact ⟨_, rfl, h, hTU.slice hin.1 hin.2, rfl⟩
        · cases hcut
  | none =>
    rw [hnew] at hget hx
    cases hold : st.twinGet (producer L.graph q) with
    | some T =>
      rw [hold] at hget
      cases hget
    | none =>
      simp only [extLeaf] at hx ⊢
      split at hx
      · rename_i hshape
        rw [if_pos hshape]
        exact gathered_follow h (hleaf ((twinGet_none_iff st' _).mp hnew) hshape.1 hshape.2) hx
      · rename_i hshape
        rw [if_neg hshape]
        obtain rfl := Option.some.inj hx
        exact ⟨_, rfl, h, .refl _, rfl⟩

theorem srcLeaves_follow {qs : List ℕ} (h : SameTables st st')
    (hleaf : ∀ q ∈ qs, producer L.graph q ∉ st'.twins.map Prod.fst → (L.shape q).ne0 = 1 →
      (L.shape q).ne1 = R.nExpertUsed →
        Follows (gatherPerSlot R r dev (L.tens mem q)) (generalPerSlot R r (L.tens mem q)))
    {x' : Chain × List (Tens F32)} (hx : srcLeaves L R (general R r) mem st' qs = some x') :
    ∃ x, srcLeaves L R (executor R r dev) mem st qs = some x ∧ SameTables x.1 x'.1 ∧
      List.Forall₂ Agree x.2 x'.2 ∧ x'.1.twins = st'.twins := by
  induction qs generalizing st st' x' with
  | nil =>
    obtain rfl := Option.some.inj hx
    exact ⟨_, rfl, h, .nil, rfl⟩
  | cons q qs ih =>
    obtain ⟨y', hy, hx⟩ := Option.bind_eq_some_iff.mp hx
    obtain ⟨z', hz, rfl⟩ := Option.map_eq_some_iff.mp hx
    obtain ⟨y, hy₁, hsame, hTU, htwins⟩ := srcLeaf_follow h (hleaf q List.mem_cons_self) hy
    obtain ⟨z, hz₁, hsame', hTUs, htwins'⟩ := ih hsame (by
      rw [htwins]
      exact fun q' hq' => hleaf q' (List.mem_cons_of_mem q hq')) hz
    refine ⟨(z.1, y.2 :: z.2), ?_, hsame', .cons hTU hTUs, htwins'.trans htwins⟩
    rw [srcLeaves, hy₁, Option.bind_some, hz₁]
    rfl

theorem curLeaf_follow (h : SameTables st st') {cur : ℕ}
    (hleaf : ¬ (L.graph.op cur ≠ .none ∧ cur ∈ st'.twins.map Prod.fst) →
      Follows (gatherCur R r dev (L.tens mem cur)) (generalCur R r (L.tens mem cur)))
    {x' : Chain × Tens F32} (hx : curLeaf L (general R r) mem st' cur = some x') :
    ∃ x, curLeaf L (executor R r dev) mem st cur = some x ∧ SameTables x.1 x'.1 ∧ Agree x.2 x'.2 ∧
      x'.1.twins = st'.twins := by
  have hget : Option.Rel Agree (if L.graph.op cur = .none then none else st.twinGet cur)
      (if L.graph.op cur = .none then none else st'.twinGet cur) := by
    split
    · exact .none
    · exact find_agree h.twins _
  unfold curLeaf at hx ⊢
  cases hnew : (if L.graph.op cur = .none then none else st'.twinGet cur) with
  | some U =>
    rw [hnew] at hget hx
    cases hold : (if L.graph.op cur = .none then none else st.twinGet cur) with
    | none =>
      rw [hold] at hget
      cases hget
    | some T =>
      rw [hold] at hget
      obtain rfl := Option.some.inj hx
      cases hget with
      | some hTU => exact ⟨_, rfl, h, hTU, rfl⟩
  | none =>
    rw [hnew] at hget hx
    cases hold : (if L.graph.op cur = .none then none else st.twinGet cur) with
    | some T =>
      rw [hold] at hget
      cases hget
    | none =>
      refine gathered_follow h (hleaf ?_) hx
      rintro ⟨hop, hmem⟩
      rw [if_neg hop, twinGet_none_iff] at hnew
      exact hnew hmem

/-- `GET_ROWS` reads its table, every other operation its operands. -/
theorem appendOp_cases {p : ℕ} (hrep : L.replaced p = false) :
    (∃ table, operands L p = [table] ∧ ∀ G st, appendOp L R r G K mem st p =
      (srcLeaf L R G mem st table).bind fun x =>
        if GetRowsFits (narrowed R r (L.shape p)) r.width r.nActive (idsExp R r) x.2 then
          x.1.twinPut p (getRows (narrowed R r (L.shape p)) (idsExp R r) x.2) else none) ∨
    (operands L p = (L.graph.tensor p).sources ∧ ∀ G st, appendOp L R r G K mem st p =
      (srcLeaves L R G mem st (L.graph.tensor p).sources).bind fun x =>
        if RowsFit (L.repeats p) (narrowed R r (L.shape p)) x.2 then
          x.1.twinPut p (rowsOp K p (narrowed R r (L.shape p)) x.2) else none) := by
  have hkept : ¬ L.replaced p = true := by simp [hrep]
  by_cases hgather : ∃ table ids, L.graph.op p = .getRows ∧ (L.graph.tensor p).src = [some table, some ids]
  · obtain ⟨table, ids, hop, hsrc⟩ := hgather
    refine .inl ⟨table, by simp only [operands, hop, hsrc], fun G st => ?_⟩
    simp only [appendOp, if_neg hkept, hop, hsrc]
  · have hother : ∀ table ids, L.graph.op p = .getRows → (L.graph.tensor p).src ≠ [some table, some ids] :=
      fun table ids hop hsrc => hgather ⟨table, ids, hop, hsrc⟩
    refine .inr ⟨?_, fun G st => ?_⟩
    · unfold operands
      split
      · rename_i hop hsrc
        exact absurd hsrc (hother _ _ hop)
      · rfl
    · rw [appendOp, if_neg hkept]
      split
      · rename_i hop hsrc
        exact absurd hsrc (hother _ _ hop)
      · rfl

variable (C : Closure L R)
  (hcur : ∀ q, ColumnLeaf L q → Follows (gatherCur R r dev (L.tens mem q)) (generalCur R r (L.tens mem q)))
  (hslot : ∀ q, SlotLeaf L R q →
    Follows (gatherPerSlot R r dev (L.tens mem q)) (generalPerSlot R r (L.tens mem q)))

/-- The twins that a node finds are those of the nodes before it. -/
def Follow (L : Layer) (pre : List ℕ) (st st' : Chain) : Prop :=
  SameTables st st' ∧ st'.twins.map Prod.fst = pre.filter (made L)

theorem follow_put {pre : List ℕ} {p : ℕ} (hmade : made L p = true) {T U : Tens F32} {x x' y' : Chain}
    (h : SameTables x x') (htwins : x'.twins = st'.twins) (hkeys : st'.twins.map Prod.fst = pre.filter (made L))
    (hTU : Agree T U) (hput : x'.twinPut p U = some y') :
    ∃ y, x.twinPut p T = some y ∧ Follow L (pre ++ [p]) y y' := by
  obtain ⟨y, hy, hsame, hnew⟩ := twinPut_follow h hTU hput
  refine ⟨y, hy, hsame, ?_⟩
  rw [hnew, htwins, List.map_append, hkeys, List.filter_append]
  simp [hmade]

include C hcur hslot

theorem chainStep_follow {pre post : List ℕ} {p : ℕ} (hsplit : L.compute = pre ++ p :: post)
    (h : Follow L pre st st') {t' : Chain} (ht : chainStep L R r (general R r) K mem st' p = some t') :
    ∃ t, chainStep L R r (executor R r dev) K mem st p = some t ∧ Follow L (pre ++ [p]) t t' := by
  obtain ⟨hsame, hkeys⟩ := h
  have hmem : p ∈ L.compute := by simp [hsplit]
  have hskip : made L p = false → t' = st' →
      ∃ t, some st = some t ∧ Follow L (pre ++ [p]) t t' := by
    rintro hmade rfl
    refine ⟨st, rfl, hsame, ?_⟩
    rw [hkeys, List.filter_append]
    simp [hmade]
  unfold chainStep at ht ⊢
  by_cases hview : isViewOp (L.graph.op p) = true
  · rw [if_pos hview] at ht ⊢
    exact hskip (by simp [made, hview]) (Option.some.inj ht).symm
  · rw [if_neg hview] at ht ⊢
    by_cases hop : L.graph.op p = .mulMatId
    · rw [if_pos hop] at ht ⊢
      unfold appendMm at ht ⊢
      split at ht
      · rename_i w cur ids hsrc
        have hmade : made L p = true := by simp [made, hop, hsrc, isViewOp]
        obtain ⟨x', hx', ht⟩ := Option.bind_eq_some_iff.mp ht
        have hread : cur ∈ (L.graph.tensor p).sources := by
          simp [Tensor.sources, hsrc, List.reduceOption]
        obtain ⟨x, hx, hsame', hTU, htwins⟩ := curLeaf_follow hsame (fun hnone => hcur cur (by
          refine ⟨p, List.mem_filter.mpr ⟨hmem, hmade⟩, w, ids, hsrc, hop, ?_⟩
          rintro ⟨hown, htwin⟩
          have hself : producer L.graph cur = cur := by
            have hcur' := (List.mem_filter.mp htwin).2
            simp only [made, Bool.and_eq_true, Bool.not_eq_true'] at hcur'
            rw [producer, unwrap_of_not_view hcur'.1]
          apply hnone
          rw [hkeys]
          have hbefore := twin_before C hsplit hread (by rwa [hself])
          rw [hself] at hbefore
          exact ⟨hown, hbefore⟩)) hx'
        split at ht
        · rename_i hfits
          obtain ⟨y, hy, hfollow⟩ := follow_put hmade hsame' htwins hkeys
            (agree_mulMatId hTU _ hfits) ht
          refine ⟨y, ?_, hfollow⟩
          have hfits' : MulMatIdFits (L.shape w).ne0 r.width r.nActive x.2 := by
            rw [MulMatIdFits, hTU.ne0, hTU.ne1, hTU.ne2]
            exact hfits
          rw [hx, Option.bind_some, if_pos hfits', hy]
        · cases ht
      · cases ht
    · rw [if_neg hop] at ht ⊢
      by_cases hrep : L.replaced p = true
      · unfold appendOp at ht ⊢
        rw [if_pos hrep] at ht ⊢
        exact hskip (by simp [made, hop, hrep]) (Option.some.inj ht).symm
      · have hrep' := Bool.eq_false_of_not_eq_true hrep
        have hmade : made L p = true := by simp [made, hop, hrep', hview]
        have hleaf : ∀ q ∈ operands L p, q ∈ (L.graph.tensor p).sources →
            producer L.graph q ∉ st'.twins.map Prod.fst → (L.shape q).ne0 = 1 →
              (L.shape q).ne1 = R.nExpertUsed →
                Follows (gatherPerSlot R r dev (L.tens mem q)) (generalPerSlot R r (L.tens mem q)) := by
          intro q hq hsub hnot h0 h1
          refine hslot q ⟨p, List.mem_filter.mpr ⟨hmem, hmade⟩, hop, hq, fun htwin => hnot ?_, h0, h1⟩
          rw [hkeys]
          exact twin_before C hsplit hsub htwin
        have hsub := fun q hq => operands_sub (L := L) (p := p) (q := q) hq
        rcases appendOp_cases hrep' with ⟨table, hops, happend⟩ | ⟨hops, happend⟩
        · rw [happend] at ht ⊢
          obtain ⟨x', hx', ht⟩ := Option.bind_eq_some_iff.mp ht
          have htable : table ∈ operands L p := by simp [hops]
          obtain ⟨x, hx, hsame', hTU, htwins⟩ :=
            srcLeaf_follow hsame (hleaf table htable (hsub _ htable)) hx'
          split at ht
          · rename_i hfits
            obtain ⟨y, hy, hfollow⟩ := follow_put hmade hsame' htwins hkeys (agree_getRows hTU hfits) ht
            refine ⟨y, ?_, hfollow⟩
            have hfits' : GetRowsFits (narrowed R r (L.shape p)) r.width r.nActive (idsExp R r) x.2 := by
              rw [GetRowsFits, hTU.ne0, hTU.ne1, hTU.ne2]
              exact hfits
            rw [hx, Option.bind_some, if_pos hfits']
            exact hy
          · cases ht
        · rw [happend] at ht ⊢
          obtain ⟨x', hx', ht⟩ := Option.bind_eq_some_iff.mp ht
          obtain ⟨x, hx, hsame', hTUs, htwins⟩ :=
            srcLeaves_follow hsame (fun q hq => hleaf q (hops ▸ hq) hq) hx'
          split at ht
          · rename_i hfits
            obtain ⟨y, hy, hfollow⟩ := follow_put hmade hsame' htwins hkeys (agree_rowsOp hTUs hfits) ht
            refine ⟨y, ?_, hfollow⟩
            rw [hx, Option.bind_some, if_pos (rowsFit_congr hTUs hfits)]
            exact hy
          · cases ht

/-- From rows that agree the executor builds what the general path builds. -/
theorem appendChain_follow {st' : Chain} (h : appendChain L R r (general R r) K mem = some st') :
    ∃ st, CompactTwins.appendChain L R r dev K mem = some st ∧ SameTables st st' := by
  have hfold := Lockstep.foldlM_follow (Follow L) (f := chainStep L R r (executor R r dev) K mem)
    (fun pre p post hsplit s t t' hrel ht => chainStep_follow C hcur hslot hsplit hrel ht)
    (s := {}) ⟨⟨.nil, .nil, .none⟩, rfl⟩ h
  obtain ⟨st, hst, hfollow⟩ := hfold
  refine ⟨st, ?_, hfollow.1⟩
  rw [← appendChain_executor]
  exact hst

end steps

end FastPaths
end StreamMoE
