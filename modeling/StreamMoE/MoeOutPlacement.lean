import StreamMoE.ClosureGraph
import StreamMoE.LayerDelivery

/-! Which placements of `moe_out` receive the result of a layer: columns without gaps do, and other
strides only where the packed copy happens to suit them. -/
namespace StreamMoE
namespace LayerResult

open MixSplit MixExec Scatter LayerOutput Buffers RoundCells
open CompactTwins (Layer)
open ComputeGraph (Tensor)

variable {L : Layer} {R : Routing} {D : Devices} {m : MoeOut} {direct : Bool}
variable {A : Type*} [AddCommMonoid A]

theorem bound_some {p : ℕ} (h : bound L R D m direct = some p) :
    single R D = some p ∧ direct = false ∧ sameDev D m p = true ∧ contiguous L m = true := by
  obtain ⟨hsingle, hp⟩ := Option.filter_eq_some_iff.mp h
  simp only [Bool.and_eq_true, Bool.not_eq_true'] at hp
  exact ⟨hsingle, hp.1.1, hp.1.2, hp.2⟩

theorem accBuf_bound {p : ℕ} (hsingle : single R D = some p) (hsame : sameDev D m p = true)
    (hc : contiguous L m = true) : accBuf L R D m false (some p) = .moeOut := by
  have hbound : bound L R D m false = some p := by simp [bound, hsingle, hsame, hc]
  simp [accBuf, hbound]

theorem accBuf_own {τ : Option ℕ} (h : ∀ p, τ = some p → (sameDev D m p && contiguous L m) = false) :
    accBuf L R D m direct τ = .acc τ := by
  apply if_neg
  rintro ⟨hne, hb⟩
  obtain ⟨p, rfl⟩ := Option.ne_none_iff_exists'.mp hne
  obtain ⟨-, -, hsame, hc⟩ := bound_some hb.symm
  simpa [hsame, hc] using h p rfl

theorem contiguous_iff : contiguous L m = true ↔ m.nb0 = 4 ∧ m.nb1 = dOut L * 4 := decide_eq_true_iff

section room

variable (hcol : dOut L = m.ne0) (hpos : 0 < m.ne0) (hT : 0 < R.nTokens)
include hcol hpos hT

/-- Columns without gaps are as long as an accumulator. -/
theorem nbytes_contiguous (hc : contiguous L m = true) : nbytes m R.nTokens = 4 * accSize L R := by
  obtain ⟨h₀, h₁⟩ := contiguous_iff.mp hc
  obtain ⟨d, hd⟩ := Nat.exists_eq_succ_of_ne_zero hpos.ne'
  obtain ⟨n, hn⟩ := Nat.exists_eq_succ_of_ne_zero hT.ne'
  have hmul : n * (d.succ * 4) = n * d.succ * 4 := (Nat.mul_assoc n d.succ 4).symm
  rw [nbytes, accSize, h₀, h₁, hcol, hd, hn, Nat.succ_sub_one, Nat.succ_sub_one, hmul, Nat.succ_mul n]
  omega

theorem room_accBuf {n : ℕ} (hn : n ≤ accSize L R) (τ : Option ℕ) :
    Room L R m (accBuf L R D m direct τ) n := by
  unfold accBuf
  split
  · rename_i h
    obtain ⟨p, hp⟩ := Option.ne_none_iff_exists'.mp h.1
    have hc := (bound_some (h.2.symm.trans hp)).2.2.2
    rw [Room, nbytes_contiguous hcol hpos hT hc]
    omega
  · exact hn

theorem inside_zeroAccs (mem : Buf → ℕ → A) :
    Inside (Room L R m) (zeroAccs L R D m direct mem).writes := by
  apply inside_foldl
  · intro st τ _ h
    apply h.put
    rw [Nat.zero_add]
    exact room_accBuf hcol hpos hT (Nat.le_refl _) τ
  · exact inside_nil

variable (hrow : m.ne0 = foldRow L) (hdirect : direct = true → contiguous L m = true)
include hrow hdirect

theorem inside_runRound (c : ℕ → ℕ → ℕ → A) {r : MixRound} (hr : r ∈ (buildMixPlan R).rounds)
    {st : State Buf A} (h : Inside (Room L R m) st.writes) :
    Inside (Room L R m) (runRound L R D m direct c st r).writes := by
  unfold runRound
  split
  · exact h
  · split
    · rename_i hd
      apply h.put
      rw [Nat.zero_add]
      split
      · rw [Room, nbytes_contiguous hcol hpos hT (hdirect hd), accSize, hcol, hrow]
        exact Nat.mul_le_mul_left 4 (Nat.mul_le_mul_right _ (nActive_le hr))
      · trivial
    · refine inside_foldl _ _ ?_ h
      intro st seg hseg hst
      refine inside_foldl _ _ ?_ hst
      intro st i hi hst
      apply hst.put
      apply room_accBuf hcol hpos hT
      have htok := (segment_lt hr hseg (List.mem_range.mp hi)).2
      rw [accSize, ← Nat.succ_mul]
      exact Nat.mul_le_mul_right _ htok

/-- All writes of the graphs stay inside. -/
theorem inside_compute (c : ℕ → ℕ → ℕ → A) (mem : Buf → ℕ → A) :
    Inside (Room L R m) (compute L R D m direct c mem).writes :=
  inside_foldl _ _ (fun _ _ hr => inside_runRound hcol hpos hT hrow hdirect c hr)
    (inside_zeroAccs hcol hpos hT mem)

omit hpos hT hrow hdirect in
/-- So do those into `moe_out`, if the packed result fits. -/
theorem inside_converge (hfits : 4 * accSize L R ≤ nbytes m R.nTokens) {st st' : State Buf A}
    (h : Inside (Room L R m) st.writes) (hst : converge L R D m direct st = .ok st') :
    Inside (Room L R m) st'.writes := by
  have hput : ∀ {n : ℕ} (v : ℕ → A), n = accSize L R →
      Inside (Room L R m) (st.put .moeOut 0 n v).writes := by
    rintro n v rfl
    apply h.put
    rwa [Nat.zero_add]
  have hget : ∀ src n, tensorGet L R src n st = .ok st' → Inside (Room L R m) st'.writes := by
    intro src n hsome
    unfold tensorGet at hsome
    split at hsome
    · obtain rfl := Except.ok.inj hsome
      exact hput _ rfl
    · cases hsome
  have hcopy : ∀ src n, tensorCopy R m src n st = .ok st' → Inside (Room L R m) st'.writes := by
    intro src n hsome
    unfold tensorCopy at hsome
    split at hsome
    · rename_i hlayout
      obtain rfl := Except.ok.inj hsome
      apply hput
      rw [accSize, hcol, (of_decide_eq_true hlayout).1]
    · cases hsome
  have hwrite : ∀ v, tensorWriteHost L R m v st = .ok st' → Inside (Room L R m) st'.writes := by
    intro v hsome
    rw [tensorWriteHost, if_pos hfits] at hsome
    obtain rfl := Except.ok.inj hsome
    exact hput _ rfl
  have hok : Except.ok st = (Except.ok st' : Outcome A) → Inside (Room L R m) st'.writes := by
    intro he
    obtain rfl := Except.ok.inj he
    exact h
  unfold converge at hst
  split at hst
  · split at hst
    · exact hok hst
    · exact hwrite _ hst
  · split at hst
    · exact hok hst
    · split at hst
      · exact hget _ _ hst
      · exact hcopy _ _ hst
  · split at hst
    · exact hok hst
    · split at hst
      · exact hget _ _ hst
      · exact hcopy _ _ hst
  · exact hwrite _ hst

end room

/-- A refused copy writes nothing. -/
theorem converge_error {st : State Buf A} {ws : List (Write Buf)}
    (h : converge L R D m direct st = .error ws) : ws = st.writes := by
  unfold converge tensorGet tensorCopy tensorWriteHost at h
  repeat' split at h
  all_goals first
    | exact (Except.error.inj h).symm
    | cases h

def gathered (L : Layer) (R : Routing) (D : Devices) (m : MoeOut) (st : State Buf A) : ℕ → A :=
  match single R D with
  | some p => st.mem (accBuf L R D m false (some p))
  | none => layerFold (allAccs (devTargets D R) fun τ => st.mem (accBuf L R D m false τ))

section values

variable (hcol : dOut L = foldRow L) (hne : (buildMixPlan R).rounds ≠ [])
include hcol

/-- A direct result, wherever it was computed. -/
theorem converge_direct (hone : singleTarget R = true) (c : ℕ → ℕ → ℕ → A) (mem : Buf → ℕ → A)
    {st : State Buf A} (h : converge L R D m true (compute L R D m true c mem) = .ok st) :
    HasColumns R.nTokens (dOut L) (st.mem .moeOut) (total R c) := by
  have hcols := compute_direct (L := L) (D := D) (m := m) hone c mem
  rw [← hcol] at hcols
  have hput : ∀ {n : ℕ}, n = R.nTokens * dOut L → inPlace R D m = false →
      HasColumns R.nTokens (dOut L) (((compute L R D m true c mem).put .moeOut 0 n
        ((compute L R D m true c mem).mem .result)).mem .moeOut) (total R c) := by
    rintro n rfl hplace
    apply put_columns
    simpa [hplace] using hcols
  cases hs : single R D with
  | none =>
    have hplace : inPlace R D m = m.host := by rw [inPlace, hs]
    simp only [converge, hs] at h
    split at h
    · rename_i hhost
      obtain rfl := Except.ok.inj h
      simpa [hplace, hhost] using hcols
    · rename_i hhost
      unfold tensorWriteHost at h
      split at h
      · obtain rfl := Except.ok.inj h
        exact hput rfl (hplace.trans (Bool.eq_false_of_not_eq_true hhost))
      · cases h
  | some p =>
    have hplace : inPlace R D m = sameDev D m p := by rw [inPlace, hs]
    simp only [converge, hs] at h
    split at h
    · rename_i hsame
      obtain rfl := Except.ok.inj h
      simpa [hplace, hsame] using hcols
    · rename_i hsame
      have hplace' := hplace.trans (Bool.eq_false_of_not_eq_true hsame)
      split at h
      · unfold tensorGet at h
        split at h
        · obtain rfl := Except.ok.inj h
          exact hput rfl hplace'
        · cases h
      · unfold tensorCopy at h
        split at h
        · obtain rfl := Except.ok.inj h
          exact hput (by rw [hcol]) hplace'
        · cases h

include hne

theorem gathered_columns (c : ℕ → ℕ → ℕ → A) (mem : Buf → ℕ → A) :
    HasColumns R.nTokens (dOut L) (gathered L R D m (compute L R D m false c mem)) (total R c) := by
  have hacc := compute_accumulated (D := D) (m := m) hcol hne c mem
  cases hs : single R D with
  | none =>
    simp only [gathered, hs]
    exact layerFold_columns c hacc
  | some p =>
    simp only [gathered, hs]
    have hmem : some p ∈ none :: (devTargets D R).pools.map some := by simp [(single_some hs).1]
    intro t ht x hx
    rw [hacc (some p) hmem t ht x hx, share_single hs c ht]

theorem converge_accumulated (c : ℕ → ℕ → ℕ → A) (mem : Buf → ℕ → A) {st : State Buf A}
    (h : converge L R D m false (compute L R D m false c mem) = .ok st) :
    HasColumns R.nTokens (dOut L) (st.mem .moeOut) (total R c) := by
  have hcols := gathered_columns (D := D) (m := m) hcol hne c mem
  cases hs : single R D with
  | none =>
    simp only [converge, hs] at h
    simp only [gathered, hs] at hcols
    unfold tensorWriteHost at h
    split at h
    · obtain rfl := Except.ok.inj h
      exact put_columns _ _ hcols
    · cases h
  | some p =>
    simp only [converge, hs] at h
    simp only [gathered, hs] at hcols
    split at h
    · rename_i hplace
      obtain rfl := Except.ok.inj h
      rwa [accBuf_bound hs hplace.1 hplace.2] at hcols
    · rename_i hplace
      rw [accBuf_own (by
        rintro q hq
        obtain rfl := Option.some.inj hq
        simpa using hplace)] at hcols
      split at h
      · unfold tensorGet at h
        rw [if_pos (Nat.le_refl _)] at h
        obtain rfl := Except.ok.inj h
        exact put_columns _ _ hcols
      · unfold tensorCopy at h
        split at h
        · obtain rfl := Except.ok.inj h
          exact put_columns _ _ hcols
        · cases h

end values

section strided

/-- The copy of a packed result into strided columns is accepted: from a device by the host only, from
the fold if it fits. -/
def copies (L : Layer) (R : Routing) (D : Devices) (m : MoeOut) : Bool :=
  match single R D with
  | some _ => m.host
  | none => decide (4 * accSize L R ≤ nbytes m R.nTokens)

variable (hc : contiguous L m = false)
include hc

theorem directOut_strided : directOut L R m = false := by rw [directOut, hc, Bool.and_false]

theorem accBuf_strided (τ : Option ℕ) : accBuf L R D m direct τ = .acc τ :=
  accBuf_own fun p _ => by rw [hc, Bool.and_false]

theorem converge_strided (st : State Buf A) :
    converge L R D m false st = if copies L R D m then
      .ok (st.put .moeOut 0 (accSize L R) (gathered L R D m st)) else .error st.writes := by
  have hlayout : sameLayout m (dOut L) = false := by
    apply decide_eq_false
    rintro ⟨-, h⟩
    exact Bool.false_ne_true (hc.symm.trans (contiguous_iff.mpr h))
  cases hs : single R D with
  | none =>
    simp only [converge, copies, gathered, hs, tensorWriteHost, decide_eq_true_eq]
  | some p =>
    simp only [converge, copies, gathered, hs, hc, tensorGet, tensorCopy, hlayout, accBuf_strided hc]
    simp

theorem compute_moeOut (c : ℕ → ℕ → ℕ → A) (mem : Buf → ℕ → A) :
    (compute L R D m false c mem).mem .moeOut = mem .moeOut := by
  have hother : ∀ τ, Buf.moeOut ≠ accBuf L R D m false τ := by
    intro τ
    rw [accBuf_strided hc]
    exact fun h => Buf.noConfusion h
  rw [compute, mem_foldl, zeroAccs, mem_foldl]
  · exact fun st τ _ => put_other st (hother τ) _ _ _
  · intro st r _
    unfold runRound
    split
    · rfl
    · exact mem_foldl _ _ (fun st seg _ => accColumns_other (hother _) _ st seg) st

/-- What a packed copy leaves in the memory of `moe_out`. -/
def packed (L : Layer) (R : Routing) (c : ℕ → ℕ → ℕ → A) (old : ℕ → A) (i : ℕ) : A :=
  if i < accSize L R then total R c (i / dOut L) (i % dOut L) else old i

theorem strided_moeOut (hcol : dOut L = foldRow L) (hne : (buildMixPlan R).rounds ≠ [])
    (hpos : 0 < dOut L) (c : ℕ → ℕ → ℕ → A) (mem : Buf → ℕ → A) :
    ((compute L R D m false c mem).put .moeOut 0 (accSize L R)
      (gathered L R D m (compute L R D m false c mem))).mem .moeOut = packed L R c (mem .moeOut) := by
  funext i
  rw [put_whole, packed]
  by_cases hi : i < accSize L R
  · rw [if_pos hi, if_pos hi]
    have hcols := gathered_columns (D := D) (m := m) hcol hne c mem (i / dOut L)
      (Nat.div_lt_of_lt_mul (by rwa [Nat.mul_comm])) (i % dOut L) (Nat.mod_lt i hpos)
    rwa [Nat.div_add_mod'] at hcols
  · rw [if_neg hi, if_neg hi, compute_moeOut hc]

end strided

section sums

/-- No slot of the token is routed. -/
def Idle (R : Routing) (t : ℕ) : Prop := ∀ k < R.nExpertUsed, cellPool R t k = none

theorem total_idle {t : ℕ} (h : Idle R t) (c : ℕ → ℕ → ℕ → A) : total R c t = 0 := by
  apply List.sum_eq_zero
  intro v hv
  obtain ⟨k, hk, rfl⟩ := List.mem_map.mp hv
  rw [h k (List.mem_range.mp hk)]
  rfl

theorem total_zero (t x : ℕ) : total R (fun _ _ _ => (0 : A)) t x = 0 := by
  have hrow : (fun _ => 0 : ℕ → A) = 0 := rfl
  simp [total, hrow]

/-- A single nonzero element of one routed slot. -/
theorem total_single {t k : ℕ} (hk : k < R.nExpertUsed) (hv : (cellPool R t k).isSome) (x : ℕ) (a : A)
    (u y : ℕ) : total R (fun t' k' => if t' = t ∧ k' = k then Pi.single x a else 0) u y =
      if u = t ∧ y = x then a else 0 := by
  by_cases hu : u = t
  · subst hu
    have hrow : ((List.range R.nExpertUsed).map fun k' => if (cellPool R u k').isSome then
        (if u = u ∧ k' = k then Pi.single x a else 0 : ℕ → A) else 0) =
          (List.range R.nExpertUsed).map fun k' => if k = k' then Pi.single x a else 0 := by
      apply List.map_congr_left
      intro k' _
      by_cases he : k' = k
      · subst he
        simp [hv]
      · simp [he, Ne.symm he]
    rw [total, hrow, sum_ite_mem _ List.nodup_range _ _ (List.mem_range.mpr hk), Pi.single_apply]
    simp
  · rw [if_neg fun h => hu h.1, total]
    simp [hu]

/-- The strides put every element where the packed copy puts it, unless neither token has a routed
slot. -/
def Lands (R : Routing) (m : MoeOut) : Prop :=
  ∀ t < R.nTokens, ∀ x < m.ne0, place m t x = t * m.ne0 + x ∨
    place m t x < R.nTokens * m.ne0 ∧ Idle R t ∧ Idle R (place m t x / m.ne0)

theorem complete_of_columns {c : ℕ → ℕ → ℕ → A} {f : ℕ → A} (hcol : dOut L = m.ne0)
    (hc : contiguous L m = true) (h : HasColumns R.nTokens (dOut L) f (total R c)) :
    Complete R m c f := by
  obtain ⟨h₀, h₁⟩ := contiguous_iff.mp hc
  intro t ht x hx
  have hplace : place m t x = t * dOut L + x := by
    rw [place, h₀, h₁, ← Nat.mul_assoc, ← Nat.add_mul, Nat.mul_div_cancel _ (by decide), Nat.add_comm]
  rw [hplace, h t ht x (hcol ▸ hx)]

theorem complete_packed_iff [Nontrivial A] (hcol : dOut L = m.ne0) :
    (∀ (c : ℕ → ℕ → ℕ → A) old, Complete R m c (packed L R c old)) ↔ Lands R m := by
  obtain ⟨a, ha⟩ := exists_ne (0 : A)
  constructor
  · intro h t ht x hx
    have hpos : 0 < m.ne0 := by omega
    rw [or_iff_not_imp_left]
    intro hne
    -- behind the packed result memory keeps any value it had
    have hin : place m t x < R.nTokens * m.ne0 := by
      by_contra hout
      have hold := h (fun _ _ => 0) (fun _ => a) t ht x hx
      rw [packed, accSize, hcol, if_neg hout] at hold
      exact ha (hold.trans (total_zero t x))
    have hsame : ∀ c : ℕ → ℕ → ℕ → A, total R c (place m t x / m.ne0) (place m t x % m.ne0) =
        total R c t x := by
      intro c
      have hval := h c (fun _ => a) t ht x hx
      rwa [packed, accSize, hcol, if_pos hin] at hval
    have hother : ¬ (place m t x / m.ne0 = t ∧ place m t x % m.ne0 = x) := by
      rintro ⟨h₁, h₂⟩
      apply hne
      rw [← Nat.div_add_mod' (place m t x) m.ne0, h₁, h₂]
    refine ⟨hin, ?_, ?_⟩
    · intro k hk
      by_contra hsome
      have hv := Option.isSome_iff_ne_none.mpr hsome
      have heq := hsame fun t' k' => if t' = t ∧ k' = k then Pi.single x a else 0
      rw [total_single hk hv, total_single hk hv, if_neg hother, if_pos ⟨rfl, rfl⟩] at heq
      exact ha heq.symm
    · intro k hk
      by_contra hsome
      have hv := Option.isSome_iff_ne_none.mpr hsome
      have heq := hsame fun t' k' =>
        if t' = place m t x / m.ne0 ∧ k' = k then Pi.single (place m t x % m.ne0) a else 0
      rw [total_single hk hv, total_single hk hv, if_pos ⟨rfl, rfl⟩, if_neg fun h => hother ⟨h.1.symm, h.2.symm⟩] at heq
      exact ha heq
  · intro h c old t ht x hx
    rcases h t ht x hx with he | ⟨hin, hidle, hidle'⟩
    · rw [packed, he, accSize, hcol, if_pos (column_lt ht hx), column_div hx, column_mod hx]
    · rw [packed, accSize, hcol, if_pos hin, total_idle hidle, total_idle hidle',
        Pi.zero_apply, Pi.zero_apply]

end sums

section delivery

/-- The tail runs in the graph of the rounds. -/
def Fused (R : Routing) (D : Devices) (m : MoeOut) (tail : List TailNode) : Prop :=
  canFuseTail R D m tail = true ∧ tailNodes tail ≠ []

/-- The layer gets as far as the copy into strided columns, and the copy is accepted. -/
def Copied (L : Layer) (R : Routing) (D : Devices) (m : MoeOut) (tail : List TailNode) : Prop :=
  (buildMixPlan R).rounds ≠ [] ∧ dOut L ≠ 0 ∧ builds L R D m false tail = true ∧
    copies L R D m = true

variable {tail : List TailNode}

/-- The longest row is that of `moe_out` unless a row is longer. -/
theorem dOut_eq_iff (hp : Placed L m) :
    dOut L = m.ne0 ↔ ∀ p ∈ L.compute, (L.shape p).ne0 ≤ m.ne0 := by
  obtain ⟨p, hmem, -, hrow⟩ := hp.node
  have hle : m.ne0 ≤ dOut L := hrow ▸ dOut_le_iff.mp (Nat.le_refl _) p hmem
  rw [← dOut_le_iff]
  omega

/-- Without a copy into strided columns all writes stay inside. -/
theorem inside_exec (hcol : dOut L = m.ne0) (hrow : m.ne0 = foldRow L)
    (h : contiguous L m = true ∨ 4 * accSize L R ≤ nbytes m R.nTokens ∨ ¬ Copied L R D m tail)
    (c : ℕ → ℕ → ℕ → A) (mem : Buf → ℕ → A) :
    Inside (Room L R m) (madeWrites (exec L R D m c tail mem)) := by
  unfold exec
  split
  · exact inside_nil
  · rename_i hstart
    obtain ⟨hne, hlong⟩ := not_or.mp hstart
    obtain ⟨r, hr⟩ := List.exists_mem_of_ne_nil _ hne
    have hT : 0 < R.nTokens := (nActive_pos hr).trans_le (nActive_le hr)
    have hpos : 0 < m.ne0 := hcol ▸ Nat.pos_of_ne_zero hlong
    have hdirect : directOut L R m = true → contiguous L m = true := by
      rw [directOut, Bool.and_eq_true]
      exact And.right
    split
    · rename_i hbuilds
      have hgraphs := inside_compute (D := D) hcol hpos hT hrow hdirect c mem
      cases hst : converge L R D m (directOut L R m) (compute L R D m (directOut L R m) c mem) with
      | error ws => exact converge_error hst ▸ hgraphs
      | ok st =>
        have hfits : 4 * accSize L R ≤ nbytes m R.nTokens := by
          by_cases hc : contiguous L m = true
          · exact (nbytes_contiguous hcol hpos hT hc).ge
          · have hc' := Bool.eq_false_of_not_eq_true hc
            refine (h.resolve_left hc).resolve_right (not_not_intro ?_)
            rw [directOut_strided hc'] at hbuilds hst
            rw [converge_strided hc'] at hst
            refine ⟨hne, hlong, hbuilds, ?_⟩
            by_contra hcopy
            rw [if_neg hcopy] at hst
            cases hst
        exact inside_converge hcol hfits hgraphs hst
    · exact inside_zeroAccs hcol hpos hT mem

/-- What an accepted result was made from. -/
theorem exec_ok {c : ℕ → ℕ → ℕ → A} {mem : Buf → ℕ → A} {b : Burst A}
    (h : exec L R D m c tail mem = .ok b) :
    (buildMixPlan R).rounds ≠ [] ∧ dOut L ≠ 0 ∧ builds L R D m (directOut L R m) tail = true ∧
      converge L R D m (directOut L R m) (compute L R D m (directOut L R m) c mem) = .ok b.state ∧
      ∀ f, b.seen = some f ↔
        Fused R D m tail ∧ (compute L R D m (directOut L R m) c mem).mem .moeOut = f := by
  unfold exec at h
  split at h
  · cases h
  · rename_i hstart
    obtain ⟨hne, hlong⟩ := not_or.mp hstart
    split at h
    · rename_i hbuilds
      cases hst : converge L R D m (directOut L R m) (compute L R D m (directOut L R m) c mem) with
      | error ws =>
        rw [hst] at h
        cases h
      | ok st =>
        rw [hst] at h
        obtain rfl := Except.ok.inj h
        refine ⟨hne, hlong, hbuilds, rfl, ?_⟩
        intro f
        simp only [Fused, Option.ite_none_right_eq_some, Bool.and_eq_true, bne_iff_ne, Option.some.injEq]
    · cases h

theorem fused_some (h : Fused R D m tail) : ∃ p, single R D = some p ∧ sameDev D m p = true := by
  have hfuse := h.1
  cases hs : single R D with
  | none => simp [canFuseTail, hs] at hfuse
  | some p =>
    simp only [canFuseTail, hs, Option.any_some, Bool.and_eq_true] at hfuse
    exact ⟨p, rfl, hfuse.1.1⟩

/-- Columns without gaps receive the whole sum, and before a fused tail. -/
theorem delivers_contiguous (hcol : dOut L = m.ne0) (hrow : m.ne0 = foldRow L)
    (hc : contiguous L m = true) : Delivers A L R D m tail where
  columns := hcol
  inside := inside_exec hcol hrow (.inl hc)
  complete c mem b hb := by
    obtain ⟨hne, -, -, hst, hseen⟩ := exec_ok hb
    have hlen : dOut L = foldRow L := hcol.trans hrow
    cases hd : directOut L R m with
    | false =>
      rw [hd] at hst hseen
      refine ⟨complete_of_columns hcol hc (converge_accumulated hlen hne c mem hst), ?_⟩
      intro f hf
      obtain ⟨hfused, rfl⟩ := (hseen f).mp hf
      obtain ⟨p, hs, hsame⟩ := fused_some hfused
      have hcols := gathered_columns (D := D) (m := m) hlen hne c mem
      simp only [gathered, hs, accBuf_bound hs hsame hc] at hcols
      exact complete_of_columns hcol hc hcols
    | true =>
      have hone : singleTarget R = true := by
        rw [directOut, Bool.and_eq_true] at hd
        exact hd.1
      rw [hd] at hst hseen
      refine ⟨complete_of_columns hcol hc (converge_direct hlen hone c mem hst), ?_⟩
      intro f hf
      obtain ⟨hfused, rfl⟩ := (hseen f).mp hf
      obtain ⟨p, hs, hsame⟩ := fused_some hfused
      have hcols := compute_direct (L := L) (D := D) (m := m) hone c mem
      have hplace : inPlace R D m = true := by
        rw [inPlace, hs]
        exact hsame
      rw [hplace, if_pos rfl, ← hlen] at hcols
      exact complete_of_columns hcol hc hcols

/-- The copy into strided columns, and a fused tail that runs before it. -/
theorem exec_strided (hc : contiguous L m = false) (hlen : dOut L = foldRow L)
    {c : ℕ → ℕ → ℕ → A} {mem : Buf → ℕ → A} {b : Burst A} (h : exec L R D m c tail mem = .ok b) :
    Copied L R D m tail ∧ b.state.mem .moeOut = packed L R c (mem .moeOut) ∧
      (⟨.moeOut, 0, accSize L R⟩ : Write Buf) ∈ b.state.writes ∧
      ∀ f, b.seen = some f ↔ Fused R D m tail ∧ mem .moeOut = f := by
  obtain ⟨hne, hlong, hbuilds, hst, hseen⟩ := exec_ok h
  rw [directOut_strided hc] at hbuilds hst hseen
  rw [converge_strided hc] at hst
  split at hst
  · rename_i hcopies
    have hstate := Except.ok.inj hst
    refine ⟨⟨hne, hlong, hbuilds, hcopies⟩, ?_, ?_, ?_⟩
    · rw [← hstate, strided_moeOut hc hlen hne (Nat.pos_of_ne_zero hlong)]
    · rw [← hstate, put_writes]
      exact List.mem_append_right _ List.mem_cons_self
    · intro f
      rw [hseen, compute_moeOut hc]
  · cases hst

theorem exec_copied (hc : contiguous L m = false) (h : Copied L R D m tail) (c : ℕ → ℕ → ℕ → A)
    (mem : Buf → ℕ → A) : ∃ b, exec L R D m c tail mem = .ok b := by
  obtain ⟨hne, hlong, hbuilds, hcopies⟩ := h
  have hstart : ¬ ((buildMixPlan R).rounds = [] ∨ dOut L = 0) := not_or.mpr ⟨hne, hlong⟩
  rw [exec, if_neg hstart, directOut_strided hc, if_pos hbuilds, converge_strided hc, if_pos hcopies]
  exact ⟨_, rfl⟩

/-- The result reaches `moe_out` exactly when no row of the closure is longer than a row of `moe_out`,
and the columns of `moe_out` have no gaps, or no copy is made into them, or the packed copy fits, suits
their strides and no tail was fused before it. -/
theorem delivers_iff [Nontrivial A] (hp : Placed L m) :
    Delivers A L R D m tail ↔ (∀ p ∈ L.compute, (L.shape p).ne0 ≤ m.ne0) ∧
      (contiguous L m = true ∨ ¬ Copied L R D m tail ∨
        (4 * accSize L R ≤ nbytes m R.nTokens ∧ Lands R m ∧ ¬ Fused R D m tail)) := by
  rw [← dOut_eq_iff hp]
  constructor
  · intro h
    refine ⟨h.columns, ?_⟩
    rw [or_iff_not_imp_left, or_iff_not_imp_left]
    intro hc hcopied
    have hc' := Bool.eq_false_of_not_eq_true hc
    have hcopied' := not_not.mp hcopied
    have hlen := h.columns.trans hp.row
    refine ⟨?_, ?_, ?_⟩
    · obtain ⟨b, hb⟩ := exec_copied hc' hcopied' (fun _ _ _ => (0 : A)) fun _ _ => 0
      have hinside := h.inside (fun _ _ _ => 0) fun _ _ => 0
      rw [hb] at hinside
      simpa [Room] using hinside _ (exec_strided hc' hlen hb).2.2.1
    · rw [← complete_packed_iff (A := A) h.columns]
      intro c old
      obtain ⟨b, hb⟩ := exec_copied hc' hcopied' c fun _ => old
      rw [← (exec_strided hc' hlen hb).2.1]
      exact (h.complete c _ b hb).1
    · intro hfused
      -- the fused tail finds what memory held before
      obtain ⟨a, ha⟩ := exists_ne (0 : A)
      obtain ⟨b, hb⟩ := exec_copied hc' hcopied' (fun _ _ _ => (0 : A)) fun _ _ => a
      have hseen := ((exec_strided hc' hlen hb).2.2.2 _).mpr ⟨hfused, rfl⟩
      obtain ⟨r, hr⟩ := List.exists_mem_of_ne_nil _ hcopied'.1
      have hT : 0 < R.nTokens := (nActive_pos hr).trans_le (nActive_le hr)
      have hpos : 0 < m.ne0 := h.columns ▸ Nat.pos_of_ne_zero hcopied'.2.1
      exact ha (((h.complete _ _ b hb).2 _ hseen 0 hT 0 hpos).trans (total_zero 0 0))
  · rintro ⟨hcol, h⟩
    by_cases hc : contiguous L m = true
    · exact delivers_contiguous hcol hp.row hc
    · have hc' := Bool.eq_false_of_not_eq_true hc
      have hlen := hcol.trans hp.row
      have h' := h.resolve_left hc
      refine ⟨hcol, inside_exec hcol hp.row (.inr (h'.symm.imp (fun h => h.1) id)), ?_⟩
      intro c mem b hb
      obtain ⟨hcopied, hmoe, -, hseen⟩ := exec_strided hc' hlen hb
      obtain ⟨-, hlands, hfused⟩ := h'.resolve_left (not_not_intro hcopied)
      refine ⟨?_, ?_⟩
      · rw [hmoe]
        exact (complete_packed_iff hcol).mpr hlands c _
      · intro f hf
        exact absurd ((hseen f).mp hf).1 hfused

end delivery

section wide

def feedTensors : List Tensor :=
  [{ name := "blk.0.ffn_gate_exps.weight" }, { name := "ffn_norm-0" }, { name := "ffn_moe_topk-0" },
    { name := "blk.0.ffn_down_exps.weight" },
    { op := .mulMatId, src := [some 0, some 1, some 2], name := "ffn_moe_gate-0" },
    { op := .mulMatId, src := [some 3, some 4, some 2], name := "ffn_moe_down-0" },
    { op := .add, src := [some 5], name := "ffn_moe_out-0" }]

/-- Experts of `ff` floats between rows of two. -/
def feedLayer (ff : ℕ) : Layer where
  graph := .ofList feedTensors [4, 5, 6] (by decide) (by decide)
  shape q := [.packed 2 ff 3, .packed 2 1 3, .packed 2 3 1, .packed ff 2 3, .packed ff 2 3,
    .packed 2 2 3, .packed 2 3 1].getD q (.packed 1 1 1)
  repeats _ := false
  compute := [4, 5, 6]
  fold q := decide (q = 6)
  foldSrc := 5

/-- Two floats a column, on the host. -/
def hostRows : MoeOut where
  ne0 := 2
  nb0 := 4
  nb1 := 8
  host := true
  device := none

theorem feed_placed (ff : ℕ) : Placed (feedLayer ff) hostRows where
  node := ⟨6, by simp [feedLayer], (by decide : LayerPlan.hasText "ffn_moe_out-0" "ffn_moe_out" = true), rfl⟩
  row := rfl
  nb0_dvd := by decide
  nb1_dvd := by decide

/-- Rows no longer than those of `moe_out`: the sum of every token arrives. -/
theorem delivers_feed : Delivers ℤ (feedLayer 1) threeTokens ⟨fun _ => false, id⟩ hostRows [] :=
  (delivers_iff (feed_placed 1)).mpr ⟨by decide, .inl (by decide)⟩

theorem wide_closure : CompactTwins.Closure (feedLayer 3) threeTokens where
  nodup := by decide
  operands_first := by decide
  built := by
    have hbody : (feedLayer 3).body = [4, 5] := by decide
    have hleaf : ∀ {q : ℕ}, ((feedLayer 3).graph.root q ∉ (feedLayer 3).compute ∧
        ComputeGraph.producer (feedLayer 3).graph q ∉ (feedLayer 3).compute) →
          CompactTwins.Leaf (feedLayer 3) q := id
    intro p hp
    rw [hbody] at hp
    simp only [List.mem_cons, List.not_mem_nil, or_false] at hp
    rcases hp with rfl | rfl
    · exact .mulMatId 0 1 2 (by decide) (by decide) (by decide) (by decide) (by decide)
        (.inl ⟨hleaf (by decide), by decide, by decide⟩)
    · exact .mulMatId 3 4 2 (by decide) (by decide) (by decide) (by decide) (by decide)
        (.inr ⟨4, ⟨by decide, by decide⟩, by decide, by decide, by decide, by decide, by decide,
          by decide, by decide, by decide⟩)
  computed := by decide
  own := by decide
  pos q := by
    by_cases hq : q < 7
    · have hall : ∀ q < 7, 0 < ((feedLayer 3).shape q).ne0 := by decide
      exact hall q hq
    · have hdefault : (feedLayer 3).shape q = .packed 1 1 1 := by
        simp only [feedLayer, List.getD_eq_getElem?_getD]
        rw [List.getElem?_eq_none (by simpa using hq), Option.getD_none]
      rw [hdefault]
      decide
  fold_replaced := by decide
  foldSrc_slots := ⟨by decide, by decide⟩
  read := by decide

/-- Experts wider than the rows of `moe_out`: the accumulators have columns of three floats for rows
of two. -/
theorem not_delivers_wide : CompactTwins.Closure (feedLayer 3) threeTokens ∧
    Placed (feedLayer 3) hostRows ∧
    ¬ Delivers ℤ (feedLayer 3) threeTokens ⟨fun _ => false, id⟩ hostRows [] := by
  refine ⟨wide_closure, feed_placed 3, fun h => ?_⟩
  have hcol : dOut (feedLayer 3) = 3 := by decide
  exact absurd (hcol.symm.trans h.columns) (by decide)

end wide

end LayerResult
end StreamMoE
