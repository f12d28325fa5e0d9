import Mathlib.Algebra.Order.BigOperators.Group.List
import Mathlib.Algebra.Order.Ring.Nat
import Mathlib.Data.Finset.Range
import Mathlib.Data.Finset.Card
import Mathlib.Data.Nat.Find
import StreamMoE.ExpertLoad

/-! Which expert loads are content correct: the byte mask of staged slices and the
32-bit window length decide it. -/
namespace StreamMoE
namespace LoadContent

open ByteMemory PoolGeometry ReadPlan TransitionSystem ExpertLoad

theorem getLsbD_sliceBit (s i : ℕ) : (sliceBit s).getLsbD i = decide (i < 8 ∧ i = s) := by
  simp only [sliceBit, BitVec.getLsbD_setWidth, BitVec.getLsbD_shiftLeft, BitVec.getLsbD_one]
  by_cases h : i = s
  · subst h
    by_cases h8 : i < 8
    · have h32 : i < 32 := by omega
      simp [h8, h32]
    · simp [h8]
  · by_cases h8 : i < 8
    · by_cases hlt : i < s
      · simp [h, hlt]
      · have hne : i - s ≠ 0 := by omega
        simp [h, hne]
    · simp [h8]

/-- The test of `drain_completions` sees a slice's bit only below index 8. -/
theorem and_sliceBit_ne_zero (m : BitVec 8) (s : ℕ) :
    m &&& sliceBit s ≠ 0#8 ↔ s < 8 ∧ m.getLsbD s = true := by
  constructor
  · intro h
    by_contra hno
    apply h
    apply BitVec.eq_of_getLsbD_eq
    intro i hi
    rw [BitVec.getLsbD_and, getLsbD_sliceBit, BitVec.getLsbD_zero]
    by_cases his : i = s
    · subst his
      have hm : m.getLsbD i = false := by
        by_contra hm
        exact hno ⟨hi, by simpa using hm⟩
      simp [hm]
    · simp [his]
  · rintro ⟨h8, hm⟩ hzero
    have hbit : (m &&& sliceBit s).getLsbD s = (0#8).getLsbD s := by rw [hzero]
    rw [BitVec.getLsbD_and, getLsbD_sliceBit, hm, BitVec.getLsbD_zero] at hbit
    simp [h8] at hbit

def ReqState.isOpen : ReqState → Bool
  | .inFlight _ | .landed _ => true
  | .idle | .drained => false

@[simp] theorem isOpen_idle : ReqState.isOpen .idle = false := rfl

@[simp] theorem isOpen_inFlight (b : Buf) : ReqState.isOpen (.inFlight b) = true := rfl

@[simp] theorem isOpen_landed (ok : Bool) : ReqState.isOpen (.landed ok) = true := rfl

@[simp] theorem isOpen_drained : ReqState.isOpen .drained = false := rfl

/-- The submitted requests that have not been drained. -/
def openReqs (E : LoadInput) (t : Load) : Finset ℕ :=
  (Finset.range E.reqs.length).filter fun s => ReqState.isOpen (t.reqs s) = true

/-- The load right after the loop of `start_async_load` submitted its first `k` slices. -/
structure Fresh (E : LoadInput) (mem staging : ℕ → UInt8) (k : ℕ) (t : Load) : Prop where
  mem_eq : t.mem = mem
  staging_eq : t.staging = staging
  le : k ≤ E.reqs.length
  submitted : ∀ s < k, ∃ sl d, E.plan.slices[s]? = some sl ∧ useDirect E sl = some d ∧
    t.reqs s = .inFlight (alignedBuf E sl d)
  idle : ∀ s, k ≤ s → t.reqs s = .idle
  pending_eq : t.pending = k
  dir_eq : t.dir = .loading
  noShift : E.reqs.length ≤ 32 → t.shiftUndefined = false
  mask : ∀ (s : ℕ) (sl : TensorSliceRead) (d : Bool), s < k → s < 8 →
    E.plan.slices[s]? = some sl → useDirect E sl = some d → t.stagingMask.getLsbD s = !d

theorem fresh_newLoad (E : LoadInput) (mem staging : ℕ → UInt8) :
    Fresh E mem staging 0 (newLoad mem staging) := by
  constructor <;> simp [newLoad]

theorem fresh_markStaging {E : LoadInput} {mem staging : ℕ → UInt8} {k : ℕ} {t : Load}
    (h : Fresh E mem staging k t) (hk : k < E.reqs.length) :
    Fresh E mem staging k (markStaging k t) := by
  unfold markStaging
  split
  · rename_i h32
    exact ⟨h.mem_eq, h.staging_eq, h.le, h.submitted, h.idle, h.pending_eq, h.dir_eq,
      fun hle => by omega, h.mask⟩
  · refine ⟨h.mem_eq, h.staging_eq, h.le, h.submitted, h.idle, h.pending_eq, h.dir_eq,
      h.noShift, ?_⟩
    intro s sl d hsk h8 hsl hd
    have hne : ¬ (s < 8 ∧ s = k) := by omega
    simp only [BitVec.getLsbD_or, getLsbD_sliceBit, decide_eq_false hne, Bool.or_false]
    exact h.mask s sl d hsk h8 hsl hd

theorem fresh_failed {E : LoadInput} {mem staging : ℕ → UInt8} {k : ℕ} {t : Load}
    (h : Fresh E mem staging k t) : Fresh E mem staging k { t with failed := true } :=
  ⟨h.mem_eq, h.staging_eq, h.le, h.submitted, h.idle, h.pending_eq, h.dir_eq, h.noShift, h.mask⟩

/-- One accepted submission. `clean` says that no later slice has a mask bit yet. -/
theorem fresh_submit {E : LoadInput} {mem staging : ℕ → UInt8} {k : ℕ} {t : Load}
    {sl : TensorSliceRead} {d : Bool} (h : Fresh E mem staging k t)
    (clean : ∀ s, k ≤ s → t.stagingMask.getLsbD s = false)
    (hsl : E.plan.slices[k]? = some sl) (hd : useDirect E sl = some d) :
    let t₁ := if d then t else markStaging k t
    let t₂ : Load := { t₁ with
      reqs := Function.update t₁.reqs k (.inFlight (alignedBuf E sl d))
      pending := t₁.pending + 1 }
    Fresh E mem staging (k + 1) t₂ ∧ (∀ s, k + 1 ≤ s → t₂.stagingMask.getLsbD s = false) ∧
      t₂.failed = t.failed := by
  have hk : k < E.reqs.length := by
    rw [← length_slices]
    exact (List.getElem?_eq_some_iff.mp hsl).1
  have h₁ : Fresh E mem staging k (if d then t else markStaging k t) := by
    cases d with
    | true => exact h
    | false => exact fresh_markStaging h hk
  have hfailed : (if d then t else markStaging k t).failed = t.failed := by
    cases d with
    | true => rfl
    | false => simp only [Bool.false_eq_true, if_false, markStaging]; split <;> rfl
  have hmask : ∀ s, k ≤ s → s < 8 →
      (if d then t else markStaging k t).stagingMask.getLsbD s = (decide (s = k) && !d) := by
    intro s hks h8
    cases d with
    | true => simpa using clean s hks
    | false =>
      have h32 : ¬ 32 ≤ k := by omega
      simp only [Bool.false_eq_true, if_false, markStaging, if_neg h32, BitVec.getLsbD_or,
        getLsbD_sliceBit, clean s hks, Bool.false_or, Bool.not_false, Bool.and_true]
      simp [h8]
  intro t₁ t₂
  refine ⟨⟨h₁.mem_eq, h₁.staging_eq, hk, ?_, ?_, ?_, h₁.dir_eq, h₁.noShift, ?_⟩, ?_, hfailed⟩
  · intro s hs
    by_cases hsk : s = k
    · subst hsk
      exact ⟨sl, d, hsl, hd, by simp [t₂]⟩
    · obtain ⟨sl', d', h₂, h₃, h₄⟩ := h₁.submitted s (by omega)
      exact ⟨sl', d', h₂, h₃, by simpa [t₂, t₁, hsk] using h₄⟩
  · intro s hs
    have hsk : s ≠ k := by omega
    simpa [t₂, t₁, hsk] using h₁.idle s (by omega)
  · have hp : t₁.pending = k := h₁.pending_eq
    simp [t₂, hp]
  · intro s sl' d' hs h8 hsl' hd'
    by_cases hsk : s = k
    · subst hsk
      rw [hsl] at hsl'
      cases hsl'
      rw [hd] at hd'
      cases hd'
      have hm := hmask s (Nat.le_refl _) h8
      simpa [t₂, t₁] using hm
    · exact h₁.mask s sl' d' (by omega) h8 hsl' hd'
  · intro s hs
    by_cases h8 : s < 8
    · have hm := hmask s (by omega) h8
      have hsk : s ≠ k := by omega
      simpa [t₂, t₁, hsk] using hm
    · exact BitVec.getLsbD_of_ge _ _ (by omega)

/-- The loop of `start_async_load`: it submits a prefix of the slices, and all of them
when it does not fail; with every submission accepted and no column missing it does not fail. -/
theorem submitSlices_spec {E : LoadInput} {mem staging : ℕ → UInt8} (accept : ℕ → Bool)
    (rest : List TensorSliceRead) :
    ∀ {k : ℕ} {t : Load}, Fresh E mem staging k t → rest = E.plan.slices.drop k →
      (∀ s, k ≤ s → t.stagingMask.getLsbD s = false) → t.failed = false →
      ∃ k', Fresh E mem staging k' (submitSlices E accept k rest t) ∧
        ((submitSlices E accept k rest t).failed = false → k' = E.reqs.length) ∧
        ((∀ s, accept s = true) → (∀ s, ¬ Barred E s) → (submitSlices E accept k rest t).failed = false) := by
  induction rest with
  | nil =>
    intro k t h hrest hclean hfailed
    have hlen : E.reqs.length ≤ k := by
      have hnil : E.plan.slices.length - k = 0 := by
        rw [← List.length_drop, ← hrest, List.length_nil]
      rw [length_slices] at hnil
      omega
    exact ⟨k, h, fun _ => Nat.le_antisymm h.le hlen, fun _ _ => hfailed⟩
  | cons sl rest ih =>
    intro k t h hrest hclean hfailed
    have hsl : E.plan.slices[k]? = some sl := by
      have hget := congrArg List.head? hrest
      rw [List.head?_cons, List.head?_drop] at hget
      exact hget.symm
    obtain ⟨cur, r, hr, rfl⟩ := slice_eq hsl
    have hrest' : rest = E.plan.slices.drop (k + 1) := by
      have htail := congrArg List.tail hrest
      rwa [List.tail_cons, List.tail_drop] at htail
    cases hd : useDirect E (sliceOf cur r) with
    | none =>
      rw [submitSlices, hd]
      exact ⟨k, fresh_failed h, fun hf => absurd hf (by simp), fun _ hopen => absurd ⟨r, hr, hd⟩ (hopen k)⟩
    | some d =>
      rw [submitSlices, hd]
      simp only
      by_cases hacc : accept k = true
      · rw [if_pos hacc]
        obtain ⟨hfresh, hclean', hsame⟩ := fresh_submit h hclean hsl hd
        exact ih hfresh hrest' hclean' (hsame.trans hfailed)
      · rw [if_neg hacc]
        refine ⟨k, fresh_failed ?_, fun hf => absurd hf (by simp), fun hall => absurd (hall k) hacc⟩
        have hk : k < E.reqs.length := by
          rw [← length_slices]
          exact (List.getElem?_eq_some_iff.mp hsl).1
        cases d with
        | true => exact h
        | false => exact fresh_markStaging h hk

theorem startAsyncLoad_spec {E : LoadInput} {accept : ℕ → Bool} {mem staging : ℕ → UInt8}
    {t : Load} (h : startAsyncLoad E accept mem staging = some t) :
    ∃ k, Fresh E mem staging k t ∧ 0 < k ∧ (t.failed = false → k = E.reqs.length) := by
  obtain ⟨k, hfresh, hall, _⟩ := submitSlices_spec accept E.plan.slices
    (fresh_newLoad E mem staging) rfl (fun s _ => by simp [newLoad]) rfl
  simp only [startAsyncLoad] at h
  split at h
  · cases h
  · rename_i hp
    cases h
    refine ⟨k, hfresh, ?_, hall⟩
    have hpend := hfresh.pending_eq
    omega

/-- What a load that may still become READY has moved so far. -/
structure Inv (E : LoadInput) (files : ℕ → ℕ → UInt8) (t : Load) : Prop where
  noShift : t.shiftUndefined = false
  pending_eq : t.pending = (openReqs E t).card
  submitted : t.failed = false → ∀ s < E.reqs.length, t.reqs s ≠ .idle
  buf : ∀ (s : ℕ) (sl : TensorSliceRead) (b : Buf), E.plan.slices[s]? = some sl →
    t.reqs s = .inFlight b → ∃ d, useDirect E sl = some d ∧ b = alignedBuf E sl d
  mask : ∀ (s : ℕ) (sl : TensorSliceRead) (d : Bool), t.reqs s ≠ .idle → s < 8 →
    E.plan.slices[s]? = some sl → useDirect E sl = some d → t.stagingMask.getLsbD s = !d
  direct : ∀ (s : ℕ) (sl : TensorSliceRead), E.plan.slices[s]? = some sl →
    t.reqs s = .landed true → useDirect E sl = some true →
    Holds t.mem (dstAddr E sl) sl.copyByteLen (assigned files sl)
  staged : ∀ (s : ℕ) (sl : TensorSliceRead), E.plan.slices[s]? = some sl →
    t.reqs s = .landed true → useDirect E sl = some false →
    Holds t.staging sl.copySrcOffset sl.copyByteLen (assigned files sl)
  drained : ∀ (s : ℕ) (sl : TensorSliceRead), E.plan.slices[s]? = some sl →
    t.reqs s = .drained → t.failed = false →
    Holds t.mem (dstAddr E sl) sl.copyByteLen (assigned files sl)
  ready : t.dir = .ready → t.failed = false ∧ ∀ s < E.reqs.length, t.reqs s = .drained

theorem inv_of_fresh {E : LoadInput} {files : ℕ → ℕ → UInt8} {mem staging : ℕ → UInt8} {k : ℕ}
    {t : Load} (h : Fresh E mem staging k t) (hlen : E.reqs.length ≤ 32)
    (hall : t.failed = false → k = E.reqs.length) : Inv E files t := by
  have hcases : ∀ s, (s < k ∧ ∃ b, t.reqs s = .inFlight b) ∨ (k ≤ s ∧ t.reqs s = .idle) := by
    intro s
    rcases Nat.lt_or_ge s k with hs | hs
    · obtain ⟨_, _, _, _, h₁⟩ := h.submitted s hs
      exact .inl ⟨hs, _, h₁⟩
    · exact .inr ⟨hs, h.idle s hs⟩
  have hopen : openReqs E t = Finset.range k := by
    ext s
    simp only [openReqs, Finset.mem_filter, Finset.mem_range]
    have hle := h.le
    rcases hcases s with ⟨hs, b, hb⟩ | ⟨hs, hidle⟩
    · simp only [hb, isOpen_inFlight, and_true]
      omega
    · simp only [hidle, isOpen_idle, Bool.false_eq_true, and_false, false_iff]
      omega
  have hno : ∀ s ok, t.reqs s ≠ .landed ok ∧ t.reqs s ≠ .drained := by
    intro s ok
    rcases hcases s with ⟨_, b, hb⟩ | ⟨_, hidle⟩
    · simp [hb]
    · simp [hidle]
  refine ⟨h.noShift hlen, ?_, ?_, ?_, ?_, ?_, ?_, ?_, ?_⟩
  · rw [hopen, Finset.card_range, h.pending_eq]
  · intro hf s hs hidle
    obtain ⟨_, _, _, _, h₁⟩ := h.submitted s (hall hf ▸ hs)
    rw [h₁] at hidle
    cases hidle
  · intro s sl b hsl hb
    rcases hcases s with ⟨hs, _⟩ | ⟨_, hidle⟩
    · obtain ⟨sl', d, h₁, h₂, h₃⟩ := h.submitted s hs
      rw [hsl] at h₁
      cases h₁
      rw [hb] at h₃
      cases h₃
      exact ⟨d, h₂, rfl⟩
    · rw [hb] at hidle
      cases hidle
  · intro s sl d hidle h8 hsl hd
    rcases hcases s with ⟨hs, _⟩ | ⟨_, hidle'⟩
    · exact h.mask s sl d hs h8 hsl hd
    · exact absurd hidle' hidle
  · intro s sl _ hl
    exact absurd hl (hno s true).1
  · intro s sl _ hl
    exact absurd hl (hno s true).1
  · intro s sl _ hd
    exact absurd hd (hno s true).2
  · intro hr
    rw [h.dir_eq] at hr
    cases hr

theorem slice_lt {E : LoadInput} {s : ℕ} {sl : TensorSliceRead}
    (h : E.plan.slices[s]? = some sl) : s < E.reqs.length := by
  rw [← length_slices]
  exact (List.getElem?_eq_some_iff.mp h).1

theorem payload_le {E : LoadInput} (hE : Loadable E) {s : ℕ} {sl : TensorSliceRead}
    (h : E.plan.slices[s]? = some sl) (hlen : 0 < sl.copyByteLen) :
    sl.stagingOffset ≤ sl.copySrcOffset ∧
      sl.copySrcOffset + sl.copyByteLen ≤ sl.stagingOffset + sl.fileReadLen ∧
      (useDirect E sl = some true → sl.copySrcOffset = sl.stagingOffset ∧
        sl.fileReadLen ≤ sl.copyByteLen) := by
  obtain ⟨cur, r, hr, rfl⟩ := slice_eq h
  have hspan := ((hE.2 s r hr).2 hlen).2.1
  have hwin := payload_le_alignedLen hspan
  refine ⟨Nat.le_add_right _ _, ?_, ?_⟩
  · simp only [sliceOf]
    omega
  · intro hd
    obtain ⟨h₁, h₂⟩ := direct_window (direct_of_useDirect hd)
    refine ⟨?_, h₂⟩
    simp only [sliceOf]
    omega

/-- Two slices in their columns have no byte in common. -/
theorem slices_apart {E : LoadInput} {i j : ℕ} {a b : TensorSliceRead} (hij : i ≠ j)
    (ha : E.plan.slices[i]? = some a) (hb : E.plan.slices[j]? = some b) (hina : InColumn E a) (hinb : InColumn E b) :
    Apart (dstAddr E a) a.copyByteLen (dstAddr E b) b.copyByteLen := by
  obtain ⟨ca, ra, hra, rfl⟩ := slice_eq ha
  obtain ⟨cb, rb, hrb, rfl⟩ := slice_eq hb
  exact dst_apart hij hra hrb hina hinb

/-- Other slices keep their bytes when a slice's destination is written. -/
theorem holds_write_other {E : LoadInput} (hE : Loadable E) {files : ℕ → ℕ → UInt8} {mem : ℕ → UInt8}
    {src : ℕ → UInt8} {i j n : ℕ} {a b : TensorSliceRead} (hij : i ≠ j)
    (ha : E.plan.slices[i]? = some a) (hb : E.plan.slices[j]? = some b) (hn : n ≤ b.copyByteLen)
    (h : Holds mem (dstAddr E a) a.copyByteLen (assigned files a)) :
    Holds (blit mem (dstAddr E b) n src) (dstAddr E a) a.copyByteLen (assigned files a) := by
  intro k hk
  rcases Nat.eq_zero_or_pos n with rfl | hpos
  · rw [blit_outside _ _ (by omega)]
    exact h k hk
  · have hapart := slices_apart hij ha hb (hE.inColumn ha (by omega)) (hE.inColumn hb (by omega))
    exact h.blit (hapart.mono (Nat.le_refl _) (Nat.le_refl _) (Nat.le_refl _) (Nat.add_le_add_left hn _)) k hk

theorem holds_staging_other {E : LoadInput} (hE : Loadable E) {files : ℕ → ℕ → UInt8}
    {staging src : ℕ → UInt8} {i j : ℕ} {a b : TensorSliceRead} (hij : i ≠ j)
    (ha : E.plan.slices[i]? = some a) (hb : E.plan.slices[j]? = some b)
    (h : Holds staging a.copySrcOffset a.copyByteLen (assigned files a)) :
    Holds (blit staging b.stagingOffset b.fileReadLen src) a.copySrcOffset a.copyByteLen
      (assigned files a) := by
  intro k hk
  obtain ⟨h₁, h₂, _⟩ := payload_le hE ha (Nat.lt_of_le_of_lt (Nat.zero_le k) hk)
  exact h.blit ((staging_slices_apart hij ha hb).mono h₁ h₂ (Nat.le_refl _) (Nat.le_refl _)) k hk

theorem direct_len_le {E : LoadInput} {s : ℕ} {sl : TensorSliceRead}
    (h : E.plan.slices[s]? = some sl) (hd : useDirect E sl = some true) :
    sl.fileReadLen ≤ sl.copyByteLen := by
  obtain ⟨cur, r, _, rfl⟩ := slice_eq h
  exact (direct_window (direct_of_useDirect hd)).2

theorem landSlice_direct_mem (E : LoadInput) (files : ℕ → ℕ → UInt8) (sl : TensorSliceRead)
    (t : Load) : (landSlice files sl (alignedBuf E sl true) t).mem =
      blit t.mem (dstAddr E sl) sl.fileReadLen
        fun i => files sl.shardIdx (sl.fileReadStart + i) := rfl

theorem landSlice_staged_staging (E : LoadInput) (files : ℕ → ℕ → UInt8) (sl : TensorSliceRead)
    (t : Load) : (landSlice files sl (alignedBuf E sl false) t).staging =
      blit t.staging sl.stagingOffset sl.fileReadLen
        fun i => files sl.shardIdx (sl.fileReadStart + i) := rfl

theorem holds_land_direct {E : LoadInput} (hE : Loadable E) (files : ℕ → ℕ → UInt8)
    (mem : ℕ → UInt8) {s : ℕ} {sl : TensorSliceRead} (h : E.plan.slices[s]? = some sl)
    (hd : useDirect E sl = some true) :
    Holds (blit mem (dstAddr E sl) sl.fileReadLen fun i => files sl.shardIdx (sl.fileReadStart + i))
      (dstAddr E sl) sl.copyByteLen (assigned files sl) := by
  intro i hi
  obtain ⟨_, h₂, h₃⟩ := payload_le hE h (Nat.lt_of_le_of_lt (Nat.zero_le i) hi)
  obtain ⟨hsrc, _⟩ := h₃ hd
  have hin : i < sl.fileReadLen := by omega
  rw [blit_inside _ _ hin, assigned, hsrc, Nat.sub_self, Nat.add_zero]

theorem holds_land_staged {E : LoadInput} (hE : Loadable E) (files : ℕ → ℕ → UInt8)
    (staging : ℕ → UInt8) {s : ℕ} {sl : TensorSliceRead} (h : E.plan.slices[s]? = some sl) :
    Holds (blit staging sl.stagingOffset sl.fileReadLen
        fun i => files sl.shardIdx (sl.fileReadStart + i))
      sl.copySrcOffset sl.copyByteLen (assigned files sl) := by
  intro i hi
  obtain ⟨h₁, h₂, _⟩ := payload_le hE h (Nat.lt_of_le_of_lt (Nat.zero_le i) hi)
  have haddr : sl.copySrcOffset + i = sl.stagingOffset + (sl.copySrcOffset - sl.stagingOffset + i) := by
    omega
  have hin : sl.copySrcOffset - sl.stagingOffset + i < sl.fileReadLen := by omega
  rw [haddr, blit_inside _ _ hin, assigned, Nat.add_assoc]

/-- The step of a landing: requests other than `s` keep their state, and `s` is landed. -/
theorem inv_land {E : LoadInput} (hE : Loadable E) {files : ℕ → ℕ → UInt8} {t : Load} {s : ℕ}
    {sl : TensorSliceRead} {b : Buf} (ok : Bool) (h : Inv E files t)
    (hsl : E.plan.slices[s]? = some sl) (hb : t.reqs s = .inFlight b) :
    Inv E files
      { (if ok then landSlice files sl b t else t) with
        reqs := Function.update (if ok then landSlice files sl b t else t).reqs s (.landed ok) } := by
  obtain ⟨d, hd, rfl⟩ := h.buf s sl b hsl hb
  have hother : ∀ k, k ≠ s → Function.update t.reqs s (.landed ok) k = t.reqs k :=
    fun k hk => Function.update_of_ne hk _ _
  have hself : Function.update t.reqs s (.landed ok) s = .landed ok := Function.update_self _ _ _
  -- what the landing does to the two memories
  have hmem : ∀ k sl', k ≠ s → E.plan.slices[k]? = some sl' →
      Holds t.mem (dstAddr E sl') sl'.copyByteLen (assigned files sl') →
      Holds (if ok then landSlice files sl (alignedBuf E sl d) t else t).mem (dstAddr E sl')
        sl'.copyByteLen (assigned files sl') := by
    intro k sl' hk hsl' hold
    cases ok with
    | false => exact hold
    | true =>
      cases d with
      | false => exact hold
      | true =>
        rw [if_pos rfl, landSlice_direct_mem]
        exact holds_write_other hE hk hsl' hsl (direct_len_le hsl hd) hold
  have hstaging : ∀ k sl', k ≠ s → E.plan.slices[k]? = some sl' →
      Holds t.staging sl'.copySrcOffset sl'.copyByteLen (assigned files sl') →
      Holds (if ok then landSlice files sl (alignedBuf E sl d) t else t).staging sl'.copySrcOffset
        sl'.copyByteLen (assigned files sl') := by
    intro k sl' hk hsl' hold
    cases ok with
    | false => exact hold
    | true =>
      cases d with
      | true => exact hold
      | false =>
        rw [if_pos rfl, landSlice_staged_staging]
        exact holds_staging_other hE hk hsl' hsl hold
  have hreqs : (if ok then landSlice files sl (alignedBuf E sl d) t else t).reqs = t.reqs := by
    cases ok <;> cases d <;> rfl
  have hframe : (if ok then landSlice files sl (alignedBuf E sl d) t else t).shiftUndefined =
      t.shiftUndefined ∧ (if ok then landSlice files sl (alignedBuf E sl d) t else t).pending =
      t.pending ∧ (if ok then landSlice files sl (alignedBuf E sl d) t else t).failed = t.failed ∧
      (if ok then landSlice files sl (alignedBuf E sl d) t else t).stagingMask = t.stagingMask ∧
      (if ok then landSlice files sl (alignedBuf E sl d) t else t).dir = t.dir := by
    cases ok <;> cases d <;> exact ⟨rfl, rfl, rfl, rfl, rfl⟩
  obtain ⟨hshift, hpending, hfailed, hmask, hdir⟩ := hframe
  rw [hreqs]
  refine ⟨hshift.trans h.noShift, ?_, ?_, ?_, ?_, ?_, ?_, ?_, ?_⟩
  · have hopen : openReqs E t = (Finset.range E.reqs.length).filter fun k =>
        ReqState.isOpen (Function.update t.reqs s (.landed ok) k) = true := by
      apply Finset.filter_congr
      intro k _
      by_cases hk : k = s
      · subst hk
        rw [hself, hb]
        simp
      · rw [hother k hk]
    exact hpending.trans (h.pending_eq.trans (by rw [hopen]; rfl))
  · intro hf k hk
    by_cases hks : k = s
    · subst hks
      simp
    · simp only [hother k hks]
      exact h.submitted (hfailed ▸ hf) k hk
  · intro k sl' b' hsl' hb'
    by_cases hks : k = s
    · subst hks
      simp at hb'
    · exact h.buf k sl' b' hsl' ((hother k hks).symm.trans hb')
  · intro k sl' d' hidle h8 hsl' hd'
    have hidle' : t.reqs k ≠ .idle := by
      by_cases hks : k = s
      · subst hks
        simp [hb]
      · exact fun e => hidle ((hother k hks).trans e)
    exact (congrArg (fun m => m.getLsbD k) hmask).trans (h.mask k sl' d' hidle' h8 hsl' hd')
  · intro k sl' hsl' hl hd'
    by_cases hks : k = s
    · subst hks
      rw [hsl] at hsl'
      cases hsl'
      rw [hd] at hd'
      cases hd'
      have hok : ok = true := by simpa using hl
      subst hok
      exact holds_land_direct hE files t.mem hsl hd
    · exact hmem k sl' hks hsl' (h.direct k sl' hsl' ((hother k hks).symm.trans hl) hd')
  · intro k sl' hsl' hl hd'
    by_cases hks : k = s
    · subst hks
      rw [hsl] at hsl'
      cases hsl'
      rw [hd] at hd'
      cases hd'
      have hok : ok = true := by simpa using hl
      subst hok
      exact holds_land_staged hE files t.staging hsl
    · exact hstaging k sl' hks hsl' (h.staged k sl' hsl' ((hother k hks).symm.trans hl) hd')
  · intro k sl' hsl' hdr hf
    by_cases hks : k = s
    · subst hks
      simp at hdr
    · exact hmem k sl' hks hsl'
        (h.drained k sl' hsl' ((hother k hks).symm.trans hdr) (hfailed ▸ hf))
  · intro hr
    have hr' := (h.ready (hdir ▸ hr)).2 s (slice_lt hsl)
    rw [hb] at hr'
    cases hr'

/-- `drain_completions` on one completed slice, up to the count-down: it touches only the
memory of that slice and the failure flag, and leaves the slice in its column. -/
structure DrainEffect (E : LoadInput) (files : ℕ → ℕ → UInt8) (s : ℕ) (sl : TensorSliceRead)
    (ok : Bool) (t t' : Load) : Prop where
  reqs : t'.reqs = t.reqs
  staging : t'.staging = t.staging
  pending : t'.pending = t.pending
  mask : t'.stagingMask = t.stagingMask
  dir : t'.dir = t.dir
  noShift : t'.shiftUndefined = false
  failed : t'.failed = (t.failed || !ok)
  other : ∀ (k : ℕ) (sl' : TensorSliceRead), k ≠ s → E.plan.slices[k]? = some sl' →
    Holds t.mem (dstAddr E sl') sl'.copyByteLen (assigned files sl') →
    Holds t'.mem (dstAddr E sl') sl'.copyByteLen (assigned files sl')
  own : t'.failed = false → Holds t'.mem (dstAddr E sl) sl.copyByteLen (assigned files sl)

theorem copySlice_eq {E : LoadInput} (hE : Loadable E) {s : ℕ} {sl : TensorSliceRead} (t : Load)
    (h : E.plan.slices[s]? = some sl) :
    copySlice E sl t = { t with
      mem := blit t.mem (dstAddr E sl) sl.copyByteLen fun i => t.staging (sl.copySrcOffset + i) } := by
  rcases Nat.eq_zero_or_pos sl.copyByteLen with hzero | hpos
  · have hblit : blit t.mem (dstAddr E sl) sl.copyByteLen (fun i => t.staging (sl.copySrcOffset + i)) = t.mem := by
      funext a
      exact blit_outside _ _ (by omega)
    rw [hblit]
    unfold copySlice
    split
    · rfl
    · rw [hblit]
  · obtain ⟨c, _, _, hcol⟩ := (hE.inColumn h hpos).slotColMem
    simp only [copySlice, hcol]

theorem drainSlice_effect {E : LoadInput} (hE : Loadable E) {files : ℕ → ℕ → UInt8} {t : Load}
    {s : ℕ} {sl : TensorSliceRead} {ok : Bool} (h : Inv E files t)
    (hsl : E.plan.slices[s]? = some sl) (hl : t.reqs s = .landed ok) :
    DrainEffect E files s sl ok t (drainSlice E s sl ok t) := by
  have hs32 : ¬ 32 ≤ s := by
    have hlt := slice_lt hsl
    have hlen := hE.1
    omega
  cases ok with
  | false =>
    rw [drainSlice, if_pos rfl]
    exact ⟨rfl, rfl, rfl, rfl, rfl, h.noShift, by simp, fun _ _ _ _ hold => hold,
      fun hf => absurd hf (by simp)⟩
  | true =>
    by_cases hf : t.failed = true
    · have hsame : drainSlice E s sl true t = t := by simp [drainSlice, hf]
      rw [hsame]
      exact ⟨rfl, rfl, rfl, rfl, rfl, h.noShift, by simp [hf], fun _ _ _ _ hold => hold,
        fun hf' => by rw [hf] at hf'; cases hf'⟩
    · have hf' : t.failed = false := by simpa using hf
      obtain ⟨cur, r, hr, hslr⟩ := slice_eq hsl
      obtain ⟨d, hd⟩ := Option.ne_none_iff_exists'.mp (hE.2 s r hr).1
      have hd' : useDirect E sl = some d := by rw [hslr, useDirect_sliceOf]; exact hd
      have hbit : s < 8 → t.stagingMask.getLsbD s = !d := fun h8 =>
        h.mask s sl d (by rw [hl]; simp) h8 hsl hd'
      by_cases hcopy : t.stagingMask &&& sliceBit s ≠ 0#8
      · obtain ⟨h8, hset⟩ := (and_sliceBit_ne_zero _ _).mp hcopy
        rw [hbit h8] at hset
        have hdf : d = false := by simpa using hset
        subst hdf
        have hsame : drainSlice E s sl true t = copySlice E sl t := by
          simp only [drainSlice, hf', if_neg hs32, if_pos hcopy, Bool.true_eq_false,
            Bool.false_eq_true, if_false]
        rw [hsame, copySlice_eq hE t hsl]
        refine ⟨rfl, rfl, rfl, rfl, rfl, h.noShift, by simp, ?_, ?_⟩
        · intro k sl' hk hsl' hold
          dsimp only
          exact holds_write_other hE hk hsl' hsl (Nat.le_refl _) hold
        · intro _ i hi
          dsimp only
          rw [blit_inside _ _ hi]
          exact h.staged s sl hsl hl hd' i hi
      · have hsame : drainSlice E s sl true t = t := by
          simp only [drainSlice, hf', if_neg hs32, if_neg hcopy, Bool.true_eq_false,
            Bool.false_eq_true, if_false]
        rw [hsame]
        refine ⟨rfl, rfl, rfl, rfl, rfl, h.noShift, by simp, fun _ _ _ _ hold => hold, ?_⟩
        intro _
        cases d with
        | true => exact h.direct s sl hsl hl hd'
        | false =>
          -- a staged slice without its mask bit is empty
          intro i hi
          have hbyte : 0 < r.byteSize := by
            rw [hslr] at hi
            exact Nat.lt_of_le_of_lt (Nat.zero_le i) hi
          have h8 := ((hE.2 s r hr).2 hbyte).2.2 hd
          exact absurd ((and_sliceBit_ne_zero _ _).mpr ⟨h8, hbit h8⟩) hcopy

theorem inv_drain {E : LoadInput} {files : ℕ → ℕ → UInt8} {t t' : Load} {s : ℕ}
    {sl : TensorSliceRead} {ok : Bool} (h : Inv E files t) (hsl : E.plan.slices[s]? = some sl)
    (hl : t.reqs s = .landed ok) (he : DrainEffect E files s sl ok t t') :
    Inv E files (settle
      { t' with reqs := Function.update t'.reqs s .drained, pending := t'.pending - 1 }) := by
  rw [he.reqs, he.pending]
  have hother : ∀ k, k ≠ s → Function.update t.reqs s .drained k = t.reqs k :=
    fun k hk => Function.update_of_ne hk _ _
  have hfailed : t'.failed = false → t.failed = false := by
    intro hf
    rw [he.failed] at hf
    simpa using (Bool.or_eq_false_iff.mp hf).1
  have hmem : s ∈ openReqs E t := by
    simp only [openReqs, Finset.mem_filter, Finset.mem_range]
    exact ⟨slice_lt hsl, by rw [hl]; rfl⟩
  have hopen : (Finset.range E.reqs.length).filter (fun k =>
      ReqState.isOpen (Function.update t.reqs s .drained k) = true) = (openReqs E t).erase s := by
    ext k
    simp only [openReqs, Finset.mem_erase, Finset.mem_filter, Finset.mem_range]
    by_cases hk : k = s
    · subst hk
      simp
    · simp only [hother k hk, ne_eq, hk, not_false_eq_true, true_and]
  have hcard := Finset.card_erase_add_one hmem
  have hpending := h.pending_eq
  -- everything but the directory entry
  have hbase : Inv E files
      { t' with
        reqs := Function.update t.reqs s .drained
        pending := t.pending - 1
        dir := t.dir } := by
    refine ⟨he.noShift, ?_, ?_, ?_, ?_, ?_, ?_, ?_, ?_⟩
    · have hopen' : openReqs E { t' with
          reqs := Function.update t.reqs s .drained
          pending := t.pending - 1
          dir := t.dir } = (openReqs E t).erase s := hopen
      rw [hopen']
      show t.pending - 1 = _
      omega
    · intro hf k hk
      by_cases hks : k = s
      · subst hks
        simp
      · simp only [hother k hks]
        exact h.submitted (hfailed hf) k hk
    · intro k sl' b hsl' hb
      by_cases hks : k = s
      · subst hks
        simp at hb
      · exact h.buf k sl' b hsl' ((hother k hks).symm.trans hb)
    · intro k sl' d hidle h8 hsl' hd
      have hidle' : t.reqs k ≠ .idle := by
        by_cases hks : k = s
        · subst hks
          simp [hl]
        · exact fun e => hidle ((hother k hks).trans e)
      exact (congrArg (fun m => m.getLsbD k) he.mask).trans (h.mask k sl' d hidle' h8 hsl' hd)
    · intro k sl' hsl' hk hd
      by_cases hks : k = s
      · subst hks
        simp at hk
      · exact he.other k sl' hks hsl' (h.direct k sl' hsl' ((hother k hks).symm.trans hk) hd)
    · intro k sl' hsl' hk hd
      by_cases hks : k = s
      · subst hks
        simp at hk
      · have hst := h.staged k sl' hsl' ((hother k hks).symm.trans hk) hd
        exact he.staging ▸ hst
    · intro k sl' hsl' hk hf
      by_cases hks : k = s
      · subst hks
        rw [hsl] at hsl'
        cases hsl'
        exact he.own hf
      · exact he.other k sl' hks hsl'
          (h.drained k sl' hsl' ((hother k hks).symm.trans hk) (hfailed hf))
    · intro hr
      have hr' := (h.ready hr).2 s (slice_lt hsl)
      rw [hl] at hr'
      cases hr'
  unfold settle
  split
  · rename_i hzero
    have hzero' : t.pending - 1 = 0 := hzero
    refine ⟨hbase.noShift, hbase.pending_eq, hbase.submitted, hbase.buf, hbase.mask, hbase.direct,
      hbase.staged, hbase.drained, ?_⟩
    intro hr
    have hf : t'.failed = false := by
      by_contra hf
      have hf' : t'.failed = true := by simpa using hf
      simp [hf'] at hr
    refine ⟨hf, ?_⟩
    -- the count-down reached zero: no request is open any more
    have hempty : (openReqs E t).erase s = ∅ := by
      rw [← Finset.card_eq_zero]
      omega
    intro k hk
    have hnot : k ∉ (openReqs E t).erase s := by simp [hempty]
    rw [← hopen] at hnot
    have hidle := hbase.submitted hf k hk
    simp only [Finset.mem_filter, Finset.mem_range, hk, true_and] at hnot
    change Function.update t.reqs s .drained k ≠ .idle at hidle
    change Function.update t.reqs s .drained k = .drained
    cases hstate : Function.update t.reqs s .drained k with
    | idle => exact absurd hstate hidle
    | inFlight b => rw [hstate] at hnot; simp at hnot
    | landed ok => rw [hstate] at hnot; simp at hnot
    | drained => rfl
  · have hdir := he.dir
    refine ⟨hbase.noShift, hbase.pending_eq, hbase.submitted, hbase.buf, hbase.mask, hbase.direct,
      hbase.staged, hbase.drained, ?_⟩
    intro hr
    exact hbase.ready (hdir ▸ hr)

theorem inv_step {E : LoadInput} (hE : Loadable E) {files : ℕ → ℕ → UInt8} {t t' : Load}
    {a : Action} (h : Inv E files t) (hstep : step E files t a = some t') : Inv E files t' := by
  cases a with
  | land s ok =>
    simp only [step] at hstep
    split at hstep
    · rename_i sl b hsl hb
      cases hstep
      exact inv_land hE ok h hsl hb
    · cases hstep
  | drain s =>
    simp only [step] at hstep
    split at hstep
    · rename_i sl ok hsl hl
      cases hstep
      exact inv_drain h hsl hl (drainSlice_effect hE h hsl hl)
    · cases hstep

theorem inv_reach {E : LoadInput} (hE : Loadable E) {files : ℕ → ℕ → UInt8} {t : Load}
    (h : Reach (machine E files) anyStep t) : Inv E files t := by
  refine h.invariant ?_ ?_
  · rintro t ⟨accept, mem, staging, hstart⟩
    obtain ⟨k, hfresh, _, hall⟩ := startAsyncLoad_spec hstart
    exact inv_of_fresh hfresh hE.1 hall
  · intro t a t' ht _ hstep
    exact inv_step hE ht hstep

theorem contentCorrect_of_loadable {E : LoadInput} (hE : Loadable E) : ContentCorrect E := by
  intro files t ht
  have hinv := inv_reach hE ht
  refine ⟨hinv.noShift, fun hr s sl hsl hlen => ⟨hE.inColumn hsl hlen, ?_⟩⟩
  obtain ⟨hf, hall⟩ := hinv.ready hr
  exact hinv.drained s sl hsl (hall s (slice_lt hsl)) hf

/-- One slice landing and then draining, in a load that has not failed. -/
def settleSlice (E : LoadInput) (files : ℕ → ℕ → UInt8) (s : ℕ) (sl : TensorSliceRead) (b : Buf)
    (t : Load) : Load :=
  let t₁ := landSlice files sl b t
  let t₂ := drainSlice E s sl true { t₁ with reqs := Function.update t₁.reqs s (.landed true) }
  settle { t₂ with reqs := Function.update t₂.reqs s .drained, pending := t₂.pending - 1 }

theorem run_settleSlice {E : LoadInput} (files : ℕ → ℕ → UInt8) {t : Load} {s : ℕ}
    {sl : TensorSliceRead} {b : Buf} (hsl : E.plan.slices[s]? = some sl)
    (hb : t.reqs s = .inFlight b) :
    run (machine E files) [.land s true, .drain s] t = some (settleSlice E files s sl b t) := by
  simp only [run_cons, run_nil, machine, step, hsl, hb, Option.bind_some, ↓reduceIte,
    Function.update_self, settleSlice]

theorem landSlice_frame (files : ℕ → ℕ → UInt8) (sl : TensorSliceRead) (b : Buf) (t : Load) :
    (landSlice files sl b t).reqs = t.reqs ∧ (landSlice files sl b t).pending = t.pending ∧
      (landSlice files sl b t).failed = t.failed ∧ (landSlice files sl b t).dir = t.dir ∧
      (landSlice files sl b t).stagingMask = t.stagingMask := by
  cases b <;> exact ⟨rfl, rfl, rfl, rfl, rfl⟩

theorem drainSlice_frame (E : LoadInput) (s : ℕ) (sl : TensorSliceRead) {t : Load}
    (hf : t.failed = false) :
    (drainSlice E s sl true t).reqs = t.reqs ∧ (drainSlice E s sl true t).pending = t.pending ∧
      (drainSlice E s sl true t).failed = false ∧ (drainSlice E s sl true t).dir = t.dir := by
  unfold drainSlice copySlice
  rw [if_neg (by simp), if_neg (by simp [hf])]
  split
  · exact ⟨rfl, rfl, hf, rfl⟩
  · split
    · split
      · exact ⟨rfl, rfl, hf, rfl⟩
      · exact ⟨rfl, rfl, hf, rfl⟩
    · exact ⟨rfl, rfl, hf, rfl⟩

theorem settle_frame (t : Load) :
    (settle t).mem = t.mem ∧ (settle t).failed = t.failed ∧ (settle t).pending = t.pending ∧
      (settle t).reqs = t.reqs ∧ (settle t).shiftUndefined = t.shiftUndefined ∧
      (t.pending = 0 → t.failed = false → (settle t).dir = .ready) := by
  unfold settle
  split
  · exact ⟨rfl, rfl, rfl, rfl, rfl, fun _ hf => by simp [hf]⟩
  · rename_i hne
    exact ⟨rfl, rfl, rfl, rfl, rfl, fun h => absurd h hne⟩

theorem settleSlice_frame {E : LoadInput} (files : ℕ → ℕ → UInt8) {t : Load} {s : ℕ}
    (sl : TensorSliceRead) (b : Buf) (hf : t.failed = false) :
    (settleSlice E files s sl b t).failed = false ∧
      (settleSlice E files s sl b t).pending = t.pending - 1 ∧
      (∀ k, (settleSlice E files s sl b t).reqs k = if k = s then .drained else t.reqs k) ∧
      (t.pending - 1 = 0 → (settleSlice E files s sl b t).dir = .ready) := by
  obtain ⟨h₁, h₂, h₃, h₄, _⟩ := landSlice_frame files sl b t
  obtain ⟨g₁, g₂, g₃, g₄⟩ := drainSlice_frame E s sl
    (t := { landSlice files sl b t with
      reqs := Function.update (landSlice files sl b t).reqs s (.landed true) }) (h₃.trans hf)
  obtain ⟨_, e₂, e₃, e₄, _, e₆⟩ := settle_frame
    { drainSlice E s sl true { landSlice files sl b t with
        reqs := Function.update (landSlice files sl b t).reqs s (.landed true) } with
      reqs := Function.update (drainSlice E s sl true { landSlice files sl b t with
        reqs := Function.update (landSlice files sl b t).reqs s (.landed true) }).reqs s .drained
      pending := (drainSlice E s sl true { landSlice files sl b t with
        reqs := Function.update (landSlice files sl b t).reqs s (.landed true) }).pending - 1 }
  have hpending := g₂.trans h₂
  refine ⟨e₂.trans g₃, e₃.trans (congrArg (· - 1) hpending), fun k => ?_, fun hzero => ?_⟩
  · rw [settleSlice, e₄, g₁, h₁]
    by_cases hk : k = s
    · simp [hk]
    · simp [hk]
  · exact e₆ ((congrArg (· - 1) hpending).trans hzero) g₃

theorem drainSlice_mem (E : LoadInput) (s : ℕ) (sl : TensorSliceRead) {t : Load}
    (hf : t.failed = false) :
    (drainSlice E s sl true t).mem = t.mem ∨
      (s < 8 ∧ t.stagingMask.getLsbD s = true ∧ (drainSlice E s sl true t).mem =
        blit t.mem (dstAddr E sl) sl.copyByteLen fun i => t.staging (sl.copySrcOffset + i)) := by
  unfold drainSlice copySlice
  rw [if_neg (by simp), if_neg (by simp [hf])]
  split
  · exact .inl rfl
  · split
    · rename_i hcopy
      obtain ⟨h8, hset⟩ := (and_sliceBit_ne_zero _ _).mp hcopy
      split
      · exact .inl rfl
      · exact .inr ⟨h8, hset, rfl⟩
    · exact .inl rfl

theorem settleSlice_mem {E : LoadInput} (files : ℕ → ℕ → UInt8) {t : Load} {s : ℕ}
    (sl : TensorSliceRead) (b : Buf) (hf : t.failed = false) :
    (settleSlice E files s sl b t).mem = (landSlice files sl b t).mem ∨
      (s < 8 ∧ t.stagingMask.getLsbD s = true ∧ (settleSlice E files s sl b t).mem =
        blit (landSlice files sl b t).mem (dstAddr E sl) sl.copyByteLen
          fun i => (landSlice files sl b t).staging (sl.copySrcOffset + i)) := by
  obtain ⟨_, _, h₃, _, h₅⟩ := landSlice_frame files sl b t
  have hmem := drainSlice_mem E s sl
    (t := { landSlice files sl b t with
      reqs := Function.update (landSlice files sl b t).reqs s (.landed true) }) (h₃.trans hf)
  simp only [settleSlice, (settle_frame _).1]
  rcases hmem with h | ⟨h8, hset, h⟩
  · exact .inl h
  · exact .inr ⟨h8, h₅ ▸ hset, h⟩

theorem settleSlice_outside {E : LoadInput} (files : ℕ → ℕ → UInt8) {t : Load} {s a : ℕ}
    {sl : TensorSliceRead} {d : Bool} (hf : t.failed = false)
    (hsl : E.plan.slices[s]? = some sl) (hd : useDirect E sl = some d)
    (ha : a < dstAddr E sl ∨ dstAddr E sl + sl.copyByteLen ≤ a) :
    (settleSlice E files s sl (alignedBuf E sl d) t).mem a = t.mem a := by
  have hland : (landSlice files sl (alignedBuf E sl d) t).mem a = t.mem a := by
    cases d with
    | false => rfl
    | true =>
      have hle := direct_len_le hsl hd
      rw [landSlice_direct_mem, blit_outside _ _ (by omega)]
  rcases settleSlice_mem files sl (alignedBuf E sl d) hf with h | ⟨_, _, h⟩
  · rw [h, hland]
  · rw [h, blit_outside _ _ ha, hland]

/-- All files hold 1, all memories 0: a payload byte that was not delivered shows. -/
def onesFile : ℕ → ℕ → UInt8 := fun _ _ => 1

def zeroMem : ℕ → UInt8 := fun _ => 0

/-- A load with one undelivered byte, the requests of `open'` still in flight. -/
structure Spoiled (E : LoadInput) (bad : ℕ) (open' : Finset ℕ) (t : Load) : Prop where
  reach : Reach (machine E onesFile) anyStep t
  failed : t.failed = false
  pending : t.pending = open'.card
  inFlight : ∀ k ∈ open', ∃ sl d, E.plan.slices[k]? = some sl ∧ useDirect E sl = some d ∧
    t.reqs k = .inFlight (alignedBuf E sl d) ∧ (bad < dstAddr E sl ∨
      dstAddr E sl + sl.copyByteLen ≤ bad)
  ready : open' = ∅ → t.dir = .ready
  zero : t.mem bad = 0

theorem spoiled_settle {E : LoadInput} {bad k : ℕ} {open' : Finset ℕ} {t : Load}
    (h : Spoiled E bad open' t) (hk : k ∈ open') :
    ∃ t', Spoiled E bad (open'.erase k) t' := by
  obtain ⟨sl, d, hsl, hd, hreq, hbad⟩ := h.inFlight k hk
  obtain ⟨g₁, g₂, g₃, g₄⟩ := settleSlice_frame (E := E) onesFile (s := k) sl (alignedBuf E sl d)
    h.failed
  have hcard := Finset.card_erase_add_one hk
  have hpending := h.pending
  refine ⟨settleSlice E onesFile k sl (alignedBuf E sl d) t, ?_, g₁, ?_, ?_, ?_, ?_⟩
  · exact h.reach.run_of_guard (fun _ _ => trivial) _ (run_settleSlice onesFile hsl hreq)
  · rw [g₂]
    omega
  · intro j hj
    obtain ⟨hne, hmem⟩ := Finset.mem_erase.mp hj
    obtain ⟨sl', d', h₁, h₂, h₃, h₄⟩ := h.inFlight j hmem
    exact ⟨sl', d', h₁, h₂, by rw [g₃ j, if_neg hne, h₃], h₄⟩
  · intro hempty
    apply g₄
    rw [hempty, Finset.card_empty] at hcard
    omega
  · rw [settleSlice_outside onesFile h.failed hsl hd hbad, h.zero]

/-- The remaining requests land and drain one after the other. -/
theorem spoiled_ready {E : LoadInput} {bad : ℕ} (n : ℕ) :
    ∀ {open' : Finset ℕ} {t : Load}, open'.card = n → Spoiled E bad open' t →
      ∃ t', Reach (machine E onesFile) anyStep t' ∧ t'.dir = .ready ∧ t'.mem bad = 0 := by
  induction n with
  | zero =>
    intro open' t hcard h
    exact ⟨t, h.reach, h.ready (Finset.card_eq_zero.mp hcard), h.zero⟩
  | succ n ih =>
    intro open' t hcard h
    obtain ⟨k, hk⟩ := Finset.card_pos.mp (by omega : 0 < open'.card)
    obtain ⟨t', h'⟩ := spoiled_settle h hk
    exact ih (by rw [Finset.card_erase_of_mem hk, hcard]; rfl) h'

/-- The state after a submission loop that accepted everything. -/
theorem exists_fresh {E : LoadInput} (hopen : ∀ s, ¬ Barred E s) (hlen : 0 < E.reqs.length) :
    ∃ t, Reach (machine E onesFile) anyStep t ∧ Fresh E zeroMem zeroMem E.reqs.length t ∧
      t.failed = false := by
  obtain ⟨k, hfresh, hall, hok⟩ := submitSlices_spec (fun _ => true) E.plan.slices
    (fresh_newLoad E zeroMem zeroMem) rfl (fun s _ => by simp [newLoad]) rfl
  have hf := hok (fun _ => rfl) hopen
  have hk := hall hf
  subst hk
  have hpending := hfresh.pending_eq
  refine ⟨_, .init ⟨fun _ => true, zeroMem, zeroMem, ?_⟩, hfresh, hf⟩
  simp only [startAsyncLoad]
  rw [if_neg]
  omega

theorem exists_ready {E : LoadInput} (hopen : ∀ s, ¬ Barred E s) (hlen : 0 < E.reqs.length) :
    ∃ t, Reach (machine E onesFile) anyStep t ∧ t.dir = .ready := by
  obtain ⟨t, hreach, hfresh, hf⟩ := exists_fresh hopen hlen
  have hspoiled : Spoiled E (E.plan.slices.map fun sl => dstAddr E sl + sl.copyByteLen).sum
      (Finset.range E.reqs.length) t := by
    refine ⟨hreach, hf, ?_, fun k hk => ?_, fun hempty => ?_, ?_⟩
    · rw [hfresh.pending_eq, Finset.card_range]
    · obtain ⟨sl, d, hsl, hd, hreq⟩ := hfresh.submitted k (Finset.mem_range.mp hk)
      exact ⟨sl, d, hsl, hd, hreq, .inr (List.le_sum_of_mem (List.mem_map_of_mem (List.mem_of_getElem? hsl)))⟩
    · rw [Finset.range_eq_empty_iff] at hempty
      omega
    · rw [hfresh.mem_eq]
      rfl
  obtain ⟨t', hreach', hready, _⟩ := spoiled_ready _ rfl hspoiled
  exact ⟨t', hreach', hready⟩

/-- With more than 32 slices a shift by 32 or more is evaluated. -/
theorem not_contentCorrect_of_many {E : LoadInput} (hopen : ∀ s, ¬ Barred E s) (h : 32 < E.reqs.length) :
    ¬ ContentCorrect E := by
  intro hE
  obtain ⟨t, hreach, hfresh, hf⟩ := exists_fresh hopen (by omega)
  obtain ⟨sl, d, hsl, hd, hreq⟩ := hfresh.submitted 32 h
  have hreach' := hreach.run_of_guard (fun _ _ => trivial) _ (run_settleSlice onesFile hsl hreq)
  have hshift := (hE onesFile _ hreach').1
  obtain ⟨_, _, h₃, _⟩ := landSlice_frame onesFile sl (alignedBuf E sl d) t
  have hf' := h₃.trans hf
  rw [settleSlice, (settle_frame _).2.2.2.2.1] at hshift
  simp [drainSlice, hf'] at hshift

/-- The first payload byte a slice loses: it is not in its column after the slice drained. -/
theorem spoiled_of_fresh {E : LoadInput} {t : Load} {s : ℕ} {r : SubTensorReq}
    (hreach : Reach (machine E onesFile) anyStep t)
    (hfresh : Fresh E zeroMem zeroMem E.reqs.length t) (hf : t.failed = false)
    (hin : ∀ (k : ℕ) (sl : TensorSliceRead), E.plan.slices[k]? = some sl → 0 < sl.copyByteLen → InColumn E sl)
    (hr : E.reqs[s]? = some r) (hlen : 0 < r.byteSize)
    (hbad : 2 ^ 32 ≤ span r ∨ (useDirect E (sliceOf 0 r) = some false ∧ 8 ≤ s)) :
    ∃ t', Spoiled E (dstAddr E (sliceOf 0 r) + (r.byteSize - 1))
      ((Finset.range E.reqs.length).erase s) t' := by
  have hs : s < E.reqs.length := (List.getElem?_eq_some_iff.mp hr).1
  obtain ⟨sl, d, hsl, hd, hreq⟩ := hfresh.submitted s hs
  obtain ⟨cur, hsl'⟩ := slice_of_req hr
  rw [hsl] at hsl'
  obtain rfl : sl = sliceOf cur r := Option.some.inj hsl'
  obtain ⟨g₁, g₂, g₃, g₄⟩ := settleSlice_frame (E := E) onesFile (s := s) (sliceOf cur r)
    (alignedBuf E (sliceOf cur r) d) hf
  have hmem : s ∈ Finset.range E.reqs.length := Finset.mem_range.mpr hs
  have hcard := Finset.card_erase_add_one hmem
  rw [Finset.card_range] at hcard
  have hpending := hfresh.pending_eq
  refine ⟨settleSlice E onesFile s (sliceOf cur r) (alignedBuf E (sliceOf cur r) d) t, ?_, g₁, ?_,
    ?_, ?_, ?_⟩
  · exact hreach.run_of_guard (fun _ _ => trivial) _ (run_settleSlice onesFile hsl hreq)
  · rw [g₂]
    omega
  · intro j hj
    obtain ⟨hne, hj'⟩ := Finset.mem_erase.mp hj
    obtain ⟨sl', d', h₁, h₂, h₃⟩ := hfresh.submitted j (Finset.mem_range.mp hj')
    refine ⟨sl', d', h₁, h₂, by rw [g₃ j, if_neg hne, h₃], ?_⟩
    rcases Nat.eq_zero_or_pos sl'.copyByteLen with hzero | hpos
    · omega
    · have hapart := slices_apart hne h₁ hsl (hin j sl' h₁ hpos) (hin s _ hsl hlen)
      have hdst : dstAddr E (sliceOf cur r) = dstAddr E (sliceOf 0 r) := rfl
      have hsize : (sliceOf cur r).copyByteLen = r.byteSize := rfl
      rw [hdst, hsize] at hapart
      rcases hapart with h | h
      · exact .inr (by omega)
      · exact .inl (by omega)
  · intro hempty
    apply g₄
    rw [hempty, Finset.card_empty] at hcard
    omega
  · have hzero : t.mem (dstAddr E (sliceOf 0 r) + (r.byteSize - 1)) = 0 := by
      rw [hfresh.mem_eq]
      rfl
    have hlanded : (landSlice onesFile (sliceOf cur r) (alignedBuf E (sliceOf cur r) d) t).mem
        (dstAddr E (sliceOf 0 r) + (r.byteSize - 1)) = 0 := by
      cases d with
      | false => exact hzero
      | true =>
        rcases hbad with hspan | ⟨hstaged, _⟩
        · obtain ⟨hstart, _⟩ := direct_window (direct_of_useDirect hd)
          have htrunc := alignedLen_lt_payload hspan
          have hout : dstAddr E (sliceOf cur r) + (sliceOf cur r).fileReadLen ≤
              dstAddr E (sliceOf 0 r) + (r.byteSize - 1) := by
            show dstAddr E (sliceOf 0 r) + alignedLen r ≤ _
            omega
          rw [landSlice_direct_mem, blit_outside _ _ (.inr hout), hzero]
        · rw [useDirect_sliceOf, hstaged] at hd
          cases hd
    rcases settleSlice_mem onesFile (sliceOf cur r) (alignedBuf E (sliceOf cur r) d) hf with
      h | ⟨h8, hset, h⟩
    · rw [h, hlanded]
    · have hd' : d = false := by
        have hmask := hfresh.mask s _ d hs h8 hsl hd
        rw [hset] at hmask
        simpa using hmask
      subst hd'
      rcases hbad with hspan | ⟨_, h8'⟩
      · have htrunc := alignedLen_lt_payload hspan
        have hin : r.byteSize - 1 < (sliceOf cur r).copyByteLen := by
          show r.byteSize - 1 < r.byteSize
          omega
        have hdst : dstAddr E (sliceOf 0 r) = dstAddr E (sliceOf cur r) := rfl
        rw [h, hdst, blit_inside _ _ hin]
        have hst : t.staging ((sliceOf cur r).copySrcOffset + (r.byteSize - 1)) = 0 := by
          rw [hfresh.staging_eq]
          rfl
        have hout : (sliceOf cur r).stagingOffset + (sliceOf cur r).fileReadLen ≤
            (sliceOf cur r).copySrcOffset + (r.byteSize - 1) := by
          show cur + alignedLen r ≤ cur + (r.fileOffset - alignedStart r) + (r.byteSize - 1)
          omega
        rw [landSlice_staged_staging, blit_outside _ _ (.inr hout), hst]
      · omega

/-- Once a load can settle READY, its payloads lie in their columns. -/
theorem inColumn_of_contentCorrect {E : LoadInput} (hopen : ∀ s, ¬ Barred E s) (hE : ContentCorrect E) {s : ℕ}
    {sl : TensorSliceRead} (hsl : E.plan.slices[s]? = some sl) (hlen : 0 < sl.copyByteLen) : InColumn E sl := by
  have hs := slice_lt hsl
  obtain ⟨t, hreach, hready⟩ := exists_ready hopen (by omega)
  exact ((hE onesFile t hreach).2 hready s sl hsl hlen).1

theorem not_contentCorrect_of_slice {E : LoadInput} {s : ℕ} {r : SubTensorReq} (hopen : ∀ s, ¬ Barred E s)
    (hr : E.reqs[s]? = some r) (hlen : 0 < r.byteSize)
    (hbad : 2 ^ 32 ≤ span r ∨ (useDirect E (sliceOf 0 r) = some false ∧ 8 ≤ s)) :
    ¬ ContentCorrect E := by
  intro hE
  have hs : s < E.reqs.length := (List.getElem?_eq_some_iff.mp hr).1
  obtain ⟨t, hreach, hfresh, hf⟩ := exists_fresh hopen (by omega)
  obtain ⟨t₁, h₁⟩ := spoiled_of_fresh hreach hfresh hf
    (fun _ _ hsl hpos => inColumn_of_contentCorrect hopen hE hsl hpos) hr hlen hbad
  obtain ⟨t₂, hreach₂, hready, hzero⟩ := spoiled_ready _ rfl h₁
  obtain ⟨cur, hsl⟩ := slice_of_req hr
  have hholds := ((hE onesFile t₂ hreach₂).2 hready s _ hsl hlen).2
  have hbyte := hholds (r.byteSize - 1) (by show r.byteSize - 1 < r.byteSize; omega)
  rw [assigned_sliceOf, dstAddr_sliceOf, hzero, onesFile] at hbyte
  exact absurd hbyte (by decide)

section early

/-- What a failed submission leaves: it can never settle READY. -/
structure Failing (t : Load) : Prop where
  noShift : t.shiftUndefined = false
  failed : t.failed = true
  notReady : t.dir ≠ .ready

theorem submitSlices_barred {E : LoadInput} (accept : ℕ → Bool) {k : ℕ} (hk : Barred E k)
    (hbefore : ∀ s < k, ∀ r, E.reqs[s]? = some r →
      useDirect E (sliceOf 0 r) ≠ none ∧ (32 ≤ s → useDirect E (sliceOf 0 r) = some true))
    (rest : List TensorSliceRead) : ∀ {n : ℕ} {t : Load}, rest = E.plan.slices.drop n → n ≤ k →
      t.shiftUndefined = false → t.dir = .loading → Failing (submitSlices E accept n rest t) := by
  induction rest with
  | nil =>
    intro n t hrest hn _ _
    obtain ⟨r, hr, _⟩ := hk
    have hlt := (List.getElem?_eq_some_iff.mp hr).1
    have hnil := List.drop_eq_nil_iff.mp hrest.symm
    rw [length_slices] at hnil
    omega
  | cons sl rest ih =>
    intro n t hrest hn hshift hdir
    have hsl : E.plan.slices[n]? = some sl := by
      have hget := congrArg List.head? hrest
      rw [List.head?_cons, List.head?_drop] at hget
      exact hget.symm
    have hrest' : rest = E.plan.slices.drop (n + 1) := by
      have htail := congrArg List.tail hrest
      rwa [List.tail_cons, List.tail_drop] at htail
    obtain ⟨cur, r, hr, rfl⟩ := slice_eq hsl
    rcases Nat.eq_or_lt_of_le hn with rfl | hlt
    · obtain ⟨r', hr', hnone⟩ := hk
      rw [hr] at hr'
      cases hr'
      rw [submitSlices, useDirect_sliceOf, hnone]
      exact ⟨hshift, rfl, by simp [hdir]⟩
    · obtain ⟨hsome, hlate⟩ := hbefore n hlt r hr
      obtain ⟨d, hd⟩ := Option.ne_none_iff_exists'.mp hsome
      have hmark : (if d then t else markStaging n t).shiftUndefined = false ∧
          (if d then t else markStaging n t).dir = .loading := by
        cases d with
        | true => exact ⟨hshift, hdir⟩
        | false =>
          have h32 : ¬ 32 ≤ n := fun h => by
            rw [hlate h] at hd
            cases hd
          rw [if_neg Bool.false_ne_true, markStaging, if_neg h32]
          exact ⟨hshift, hdir⟩
      rw [submitSlices, useDirect_sliceOf, hd]
      simp only
      split
      · exact ih hrest' hlt hmark.1 hmark.2
      · exact ⟨hmark.1, rfl, by simp [hmark.2]⟩

theorem Failing.step {E : LoadInput} {files : ℕ → ℕ → UInt8} {t t' : Load} {a : Action} (h : Failing t)
    (hstep : step E files t a = some t') : Failing t' := by
  cases a with
  | land s ok =>
    simp only [ExpertLoad.step] at hstep
    split at hstep
    · rename_i sl b _ _
      cases hstep
      cases ok <;> cases b <;> exact ⟨h.noShift, h.failed, h.notReady⟩
    · cases hstep
  | drain s =>
    simp only [ExpertLoad.step] at hstep
    split at hstep
    · rename_i sl ok _ _
      cases hstep
      have hdrain : Failing (drainSlice E s sl ok t) := by
        cases ok with
        | false => exact ⟨h.noShift, rfl, h.notReady⟩
        | true =>
          rw [drainSlice, if_neg (by simp), if_pos h.failed]
          exact h
      unfold settle
      split
      · exact ⟨hdrain.noShift, hdrain.failed, by simp [hdrain.failed]⟩
      · exact ⟨hdrain.noShift, hdrain.failed, hdrain.notReady⟩
    · cases hstep

theorem contentCorrect_of_failsEarly {E : LoadInput} (hE : FailsEarly E) : ContentCorrect E := by
  obtain ⟨k, hk, hbefore⟩ := hE
  intro files t ht
  have hfailing : Failing t := by
    refine ht.invariant ?_ fun t a t' ht _ hstep => ht.step hstep
    rintro t ⟨accept, mem, staging, hstart⟩
    simp only [startAsyncLoad] at hstart
    split at hstart
    · cases hstart
    · cases hstart
      exact submitSlices_barred accept hk hbefore _ rfl (Nat.zero_le k) rfl rfl
  exact ⟨hfailing.noShift, fun hready => absurd hready hfailing.notReady⟩

theorem submitSlices_mono (E : LoadInput) (accept : ℕ → Bool) (rest : List TensorSliceRead) :
    ∀ (n : ℕ) (t : Load), t.pending ≤ (submitSlices E accept n rest t).pending ∧
      (t.shiftUndefined = true → (submitSlices E accept n rest t).shiftUndefined = true) := by
  induction rest with
  | nil => exact fun _ _ => ⟨le_refl _, id⟩
  | cons sl rest ih =>
    intro n t
    rw [submitSlices]
    split
    · exact ⟨le_refl _, id⟩
    · rename_i d _
      have hmark : (if d then t else markStaging n t).pending = t.pending ∧
          (t.shiftUndefined = true → (if d then t else markStaging n t).shiftUndefined = true) := by
        cases d with
        | true => exact ⟨rfl, id⟩
        | false =>
          rw [if_neg Bool.false_ne_true, markStaging]
          split
          · exact ⟨rfl, fun _ => rfl⟩
          · exact ⟨rfl, id⟩
      dsimp only
      split
      · have hrest := ih (n + 1)
          { (if d then t else markStaging n t) with
            reqs := Function.update (if d then t else markStaging n t).reqs n (.inFlight (alignedBuf E sl d))
            pending := (if d then t else markStaging n t).pending + 1 }
        refine ⟨le_trans ?_ hrest.1, fun h => hrest.2 (hmark.2 h)⟩
        dsimp only
        rw [hmark.1]
        omega
      · exact ⟨hmark.1.ge, hmark.2⟩

/-- A slice from index 32 on that goes through staging evaluates the shift. -/
theorem submitSlices_shift {E : LoadInput} {k : ℕ} (hk : 32 ≤ k) {r : SubTensorReq} (hr : E.reqs[k]? = some r)
    (hd : useDirect E (sliceOf 0 r) = some false) (hopen : ∀ s < k, ¬ Barred E s) (rest : List TensorSliceRead) :
    ∀ {n : ℕ} {t : Load}, rest = E.plan.slices.drop n → n ≤ k →
      (submitSlices E (fun _ => true) n rest t).shiftUndefined = true ∧
        t.pending + (k - n) ≤ (submitSlices E (fun _ => true) n rest t).pending := by
  induction rest with
  | nil =>
    intro n t hrest hn
    have hlt := (List.getElem?_eq_some_iff.mp hr).1
    have hnil := List.drop_eq_nil_iff.mp hrest.symm
    rw [length_slices] at hnil
    omega
  | cons sl rest ih =>
    intro n t hrest hn
    have hsl : E.plan.slices[n]? = some sl := by
      have hget := congrArg List.head? hrest
      rw [List.head?_cons, List.head?_drop] at hget
      exact hget.symm
    have hrest' : rest = E.plan.slices.drop (n + 1) := by
      have htail := congrArg List.tail hrest
      rwa [List.tail_cons, List.tail_drop] at htail
    obtain ⟨cur, r', hr', rfl⟩ := slice_eq hsl
    rcases Nat.eq_or_lt_of_le hn with rfl | hlt
    · rw [hr] at hr'
      cases hr'
      rw [submitSlices, useDirect_sliceOf, hd]
      simp only [Bool.false_eq_true, if_false, markStaging, if_pos hk, if_true]
      obtain ⟨hpending, hshift⟩ := submitSlices_mono E (fun _ => true) rest (n + 1)
        { t with
          shiftUndefined := true
          reqs := Function.update t.reqs n (.inFlight (alignedBuf E (sliceOf cur r) false))
          pending := t.pending + 1 }
      refine ⟨hshift rfl, le_trans ?_ hpending⟩
      dsimp only
      omega
    · obtain ⟨d, hd'⟩ := Option.ne_none_iff_exists'.mp fun hnone => hopen n hlt ⟨r', hr', hnone⟩
      rw [submitSlices, useDirect_sliceOf, hd']
      simp only [if_true]
      have hmark : (if d then t else markStaging n t).pending = t.pending := by
        cases d with
        | true => rfl
        | false =>
          rw [if_neg Bool.false_ne_true, markStaging]
          split <;> rfl
      obtain ⟨hshift, hpending⟩ := @ih (n + 1)
        { (if d then t else markStaging n t) with
          reqs := Function.update (if d then t else markStaging n t).reqs n (.inFlight (alignedBuf E (sliceOf cur r') d))
          pending := (if d then t else markStaging n t).pending + 1 } hrest' hlt
      refine ⟨hshift, le_trans ?_ hpending⟩
      dsimp only
      rw [hmark]
      omega

/-- Where the submission meets a slice without a column, no late slice has been staged before. -/
theorem failsEarly_of_contentCorrect {E : LoadInput} (hE : ContentCorrect E) {k : ℕ} (hk : Barred E k)
    (hfirst : ∀ s < k, ¬ Barred E s) : FailsEarly E := by
  refine ⟨k, hk, fun s hs r hr => ⟨fun hnone => hfirst s hs ⟨r, hr, hnone⟩, fun hlate => ?_⟩⟩
  cases hd : useDirect E (sliceOf 0 r) with
  | none => exact absurd ⟨r, hr, hd⟩ (hfirst s hs)
  | some d =>
    cases d with
    | true => rfl
    | false =>
      obtain ⟨hshift, hpending⟩ := @submitSlices_shift E s hlate r hr hd
        (fun i hi => hfirst i (Nat.lt_trans hi hs)) E.plan.slices 0 (newLoad zeroMem zeroMem) rfl (Nat.zero_le s)
      have hstart : startAsyncLoad E (fun _ => true) zeroMem zeroMem =
          some (submitSlices E (fun _ => true) 0 E.plan.slices (newLoad zeroMem zeroMem)) := by
        simp only [startAsyncLoad]
        rw [if_neg]
        have hzero : (newLoad zeroMem zeroMem).pending = 0 := rfl
        omega
      have hno := (hE onesFile _ (.init ⟨fun _ => true, zeroMem, zeroMem, hstart⟩)).1
      rw [hshift] at hno
      cases hno

end early

/-- Three branches, each cut into three strips of 100 bytes in three chunk files. -/
def stripBranches : List (List Segment) :=
  List.replicate 3 ((List.range 3).map fun f => { file := f, off := 4096, len := 100 })

def stripPool : Subpool :=
  { pool := 0, group := 0, slotBegin := 0, nSlots := 2, expertSize := 900, base := 8192,
    cols := fillCols 2 0 0 (stripBranches.map perExpert) }

def nineSlices : LoadInput where
  geometry := { subpools := [stripPool], numSlots := 2 }
  slot := 1
  subpool := stripPool
  strides := stripBranches.map perExpert
  branches := stripBranches
  owner := by decide
  columns := rfl
  count_le := by decide

/-- The ninth slice goes through staging and its mask bit does not exist. -/
theorem not_contentCorrect_nineSlices : ¬ ContentCorrect nineSlices := by
  have hopen : ∀ s, ¬ Barred nineSlices s := by
    rintro s ⟨r, hr, hnone⟩
    have hall : ∀ r ∈ nineSlices.reqs, useDirect nineSlices (sliceOf 0 r) ≠ none := by decide
    exact hall r (mem_reqs_of_getElem? hr) hnone
  exact not_contentCorrect_of_slice (s := 8)
    (r := { shardIdx := 2, fileOffset := 4096, byteSize := 100, column := 2, colOff := 200 })
    hopen (by decide) (by decide) (.inr ⟨by decide, by decide⟩)

/-- Exactly the loadable experts are loaded with the right content in every run, and those whose load fails
before it can do harm. -/
theorem contentCorrect_iff_loadable (E : LoadInput) : ContentCorrect E ↔ Loadable E ∨ FailsEarly E := by
  constructor
  · intro hE
    by_cases hbarred : ∃ k, Barred E k
    · classical
      exact .inr (failsEarly_of_contentCorrect hE (Nat.find_spec hbarred) fun s hs => Nat.find_min hbarred hs)
    · have hopen : ∀ s, ¬ Barred E s := fun s hs => hbarred ⟨s, hs⟩
      refine .inl ⟨?_, fun s r hr => ⟨fun hnone => hopen s ⟨r, hr, hnone⟩, fun hlen => ⟨?_, ?_, fun hstaged => ?_⟩⟩⟩
      · by_contra h
        exact not_contentCorrect_of_many hopen (by omega) hE
      · obtain ⟨cur, hsl⟩ := slice_of_req hr
        have hin : InColumn E (sliceOf cur r) := inColumn_of_contentCorrect hopen hE hsl hlen
        exact hin
      · by_contra h
        exact not_contentCorrect_of_slice hopen hr hlen (.inl (by omega)) hE
      · by_contra h
        exact not_contentCorrect_of_slice hopen hr hlen (.inr ⟨hstaged, by omega⟩) hE
  · rintro (hE | hE)
    · exact contentCorrect_of_loadable hE
    · exact contentCorrect_of_failsEarly hE

end LoadContent
end StreamMoE
