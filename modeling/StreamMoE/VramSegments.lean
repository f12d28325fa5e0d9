import StreamMoE.DevicePools

/-! `vram_alloc_group` against a device that answers as it likes: the segments it leaves in the pool.
`DevicePools` keeps of a run what the device answered (`vramAllocGroup_answers`). -/
namespace StreamMoE
namespace VramSegments

open DevicePools

/-- `vram_seg_t`, with the bytes of its buffer. -/
structure Segment where
  group : ℕ
  bytes : ℕ
  slotSize : ℕ
  nSlots : ℕ
  deriving DecidableEq, Repr

structure Loop (δ : Type*) where
  device : δ
  segs : List Segment
  got : ℕ
  chunk : ℕ

section loop

variable {δ : Type*} (alloc : δ → ℕ → Bool × δ) (group slot want : ℕ)

def Loop.ask (l : Loop δ) : ℕ := if l.chunk < want - l.got then l.chunk else want - l.got

/-- `ggml_backend_buft_alloc_buffer`: whether there is a buffer, and the device behind. -/
def Loop.answer (l : Loop δ) : Bool × δ := alloc l.device (l.ask want)

/-- Half of the bytes refused, in whole slots. -/
def Loop.half (l : Loop δ) : ℕ := l.ask want / 2 / slot * slot

/-- The variables after a turn that does not leave the loop. -/
def Loop.next (l : Loop δ) : Loop δ :=
  if (l.answer alloc want).1 then
    { device := (l.answer alloc want).2
      segs := l.segs ++ [⟨group, l.ask want, slot, l.ask want / slot⟩]
      got := l.got + l.ask want
      chunk := l.chunk }
  else { l with device := (l.answer alloc want).2, chunk := l.half slot want }

/-- A single slot failed too. -/
def Loop.breaks (l : Loop δ) : Bool := !(l.answer alloc want).1 && decide (l.half slot want < slot)

/-- The loop with at most `fuel` tests of its condition; none where they do not suffice. -/
def runLoop : ℕ → Loop δ → Option (Loop δ)
  | 0, _ => none
  | fuel + 1, l =>
      if l.got < want then
        if l.breaks alloc slot want then some { l with device := (l.answer alloc want).2 }
        else runLoop fuel (l.next alloc group slot want)
      else some l

/-- `vram_alloc_group`; no number in it exceeds `want`, a `size_t`. -/
def vramAllocGroup (fuel : ℕ) (device : δ) (segs : List Segment) : Option (Loop δ) :=
  runLoop alloc group slot want fuel { device, segs, got := 0, chunk := want }

end loop

section honest

variable {δ : Type*} {alloc : δ → ℕ → Bool × δ} {group slot n : ℕ}

structure Segment.Whole (group slot : ℕ) (s : Segment) : Prop where
  group_eq : s.group = group
  slotSize_eq : s.slotSize = slot
  pos : 0 < s.nSlots
  bytes_eq : s.bytes = s.nSlots * slot

/-- Whole blocks behind the segments there were, and their bytes counted. -/
structure Brings (group slot : ℕ) (l r : Loop δ) (added : List Segment) : Prop where
  segs : r.segs = l.segs ++ added
  whole : ∀ s ∈ added, s.Whole group slot
  got : r.got = l.got + (added.map Segment.nSlots).sum * slot

theorem Brings.nil {l r : Loop δ} (hsegs : r.segs = l.segs) (hgot : r.got = l.got) :
    Brings group slot l r [] where
  segs := by rw [hsegs, List.append_nil]
  whole := by simp
  got := by simp [hgot]

/-- A block before those of the rest of the loop. -/
theorem Brings.cons {l m r : Loop δ} {added : List Segment} {k : ℕ} (hk : 0 < k)
    (hsegs : m.segs = l.segs ++ [⟨group, k * slot, slot, k⟩]) (hgot : m.got = l.got + k * slot)
    (h : Brings group slot m r added) :
    Brings group slot l r (⟨group, k * slot, slot, k⟩ :: added) where
  segs := by rw [h.segs, hsegs, List.append_assoc, List.singleton_append]
  whole := List.forall_mem_cons.mpr ⟨⟨rfl, rfl, hk, rfl⟩, h.whole⟩
  got := by
    rw [h.got, hgot, List.map_cons, List.sum_cons, Nat.add_mul, Nat.add_assoc]

/-- Requested bytes and half of them in whole slots. -/
theorem ask_slots (hslot : 0 < slot) {l : Loop δ} {g c : ℕ} (hgot : l.got = g * slot)
    (hchunk : l.chunk = c * slot) :
    l.ask (n * slot) = min c (n - g) * slot ∧ l.half slot (n * slot) = min c (n - g) / 2 * slot := by
  have hask : l.ask (n * slot) = min c (n - g) * slot := by
    rw [Loop.ask, hgot, hchunk, ← Nat.sub_mul]
    by_cases h : c < n - g
    · rw [if_pos (Nat.mul_lt_mul_of_pos_right h hslot), Nat.min_eq_left h.le]
    · have hle := not_lt.mp h
      rw [if_neg (not_lt.mpr (Nat.mul_le_mul_right slot hle)), Nat.min_eq_right hle]
  refine ⟨hask, ?_⟩
  rw [Loop.half, hask, Nat.div_right_comm, Nat.mul_div_cancel _ hslot]

variable {l : Loop δ} {want : ℕ}

theorem next_of_buffer (hok : (l.answer alloc want).1 = true) :
    l.next alloc group slot want =
      { device := (l.answer alloc want).2
        segs := l.segs ++ [⟨group, l.ask want, slot, l.ask want / slot⟩]
        got := l.got + l.ask want
        chunk := l.chunk } := if_pos hok

theorem next_of_refusal (hok : (l.answer alloc want).1 = false) :
    l.next alloc group slot want =
      { l with device := (l.answer alloc want).2, chunk := l.half slot want } :=
  if_neg (by rw [hok]; exact Bool.false_ne_true)

theorem not_breaks_of_buffer (hok : (l.answer alloc want).1 = true) :
    l.breaks alloc slot want = false := by
  rw [Loop.breaks, hok]
  rfl

theorem breaks_of_refusal (hok : (l.answer alloc want).1 = false) :
    l.breaks alloc slot want = decide (l.half slot want < slot) := by
  rw [Loop.breaks, hok]
  rfl

/-- One turn, and the rest of the loop with the fuel that is left. -/
theorem runLoop_succ (hlt : l.got < want) {m m' : ℕ} {r : Loop δ} (hm : m' < m)
    (hbreaks : l.breaks alloc slot want = false)
    (h : ∀ fuel, m' < fuel → runLoop alloc group slot want fuel (l.next alloc group slot want) = some r) :
    ∀ fuel, m < fuel → runLoop alloc group slot want fuel l = some r := by
  intro fuel hfuel
  obtain ⟨fuel, rfl⟩ := Nat.exists_eq_add_one_of_ne_zero (Nat.ne_zero_of_lt hfuel)
  rw [runLoop, if_pos hlt, hbreaks]
  exact h fuel (by omega)

/-- The loop from a state in whole slots: `n - g + c` falls with every turn, as a block brings `g` nearer to
`n` and a refusal halves `c`. -/
theorem runLoop_whole (hslot : 0 < slot) {l : Loop δ} {g c : ℕ} (hgot : l.got = g * slot)
    (hchunk : l.chunk = c * slot) (hle : g ≤ n) (hpos : g < n → 0 < c) :
    ∃ r added, (∀ fuel, n - g + c < fuel → runLoop alloc group slot (n * slot) fuel l = some r) ∧
      Brings group slot l r added ∧ r.got ≤ n * slot := by
  induction hm : n - g + c using Nat.strong_induction_on generalizing l g c with
  | _ m ih =>
    by_cases hmore : g < n
    · obtain ⟨hask, hhalf⟩ := @ask_slots δ slot n hslot l g c hgot hchunk
      have hc := hpos hmore
      have hlt : l.got < n * slot := by rw [hgot]; exact Nat.mul_lt_mul_of_pos_right hmore hslot
      generalize hk : min c (n - g) = k at hask hhalf
      cases hok : (l.answer alloc (n * slot)).1 with
      | true =>
        have hnext := @next_of_buffer δ alloc group slot l _ hok
        rw [hask, Nat.mul_div_cancel _ hslot] at hnext
        obtain ⟨r, added, hrun, hbrings, hmost⟩ :=
          ih (n - (g + k) + c) (by omega) (l := l.next alloc group slot (n * slot))
            (by rw [hnext, hgot, Nat.add_mul]) (by rw [hnext, hchunk]) (by omega) (fun _ => hc) rfl
        refine ⟨r, ⟨group, k * slot, slot, k⟩ :: added,
          runLoop_succ hlt (by omega) (not_breaks_of_buffer hok) hrun, ?_, hmost⟩
        exact hbrings.cons (by omega) (by rw [hnext]) (by rw [hnext])
      | false =>
        have hbreaks := @breaks_of_refusal δ alloc slot l _ hok
        have hnext := @next_of_refusal δ alloc group slot l _ hok
        rw [hhalf] at hbreaks hnext
        by_cases hlast : k / 2 = 0
        · -- half of a single slot is none
          rw [hlast, Nat.zero_mul, decide_eq_true hslot] at hbreaks
          refine ⟨{ l with device := (l.answer alloc (n * slot)).2 }, [], ?_, .nil rfl rfl, hlt.le⟩
          intro fuel hfuel
          obtain ⟨fuel, rfl⟩ := Nat.exists_eq_add_one_of_ne_zero (Nat.ne_zero_of_lt hfuel)
          rw [runLoop, if_pos hlt, if_pos hbreaks]
        · have hone := Nat.le_mul_of_pos_left slot (Nat.pos_of_ne_zero hlast)
          rw [decide_eq_false (not_lt.mpr hone)] at hbreaks
          obtain ⟨r, added, hrun, hbrings, hmost⟩ :=
            ih (n - g + k / 2) (by omega) (l := l.next alloc group slot (n * slot))
              (by rw [hnext, hgot]) (by rw [hnext]) hle (fun _ => Nat.pos_of_ne_zero hlast) rfl
          refine ⟨r, added, runLoop_succ hlt (by omega) hbreaks hrun, ?_, hmost⟩
          exact ⟨by rw [hbrings.segs, hnext], hbrings.whole, by rw [hbrings.got, hnext]⟩
    · obtain rfl : g = n := by omega
      refine ⟨l, [], ?_, .nil rfl rfl, hgot.le⟩
      intro fuel hfuel
      obtain ⟨fuel, rfl⟩ := Nat.exists_eq_add_one_of_ne_zero (Nat.ne_zero_of_lt hfuel)
      rw [runLoop, if_neg (by rw [hgot]; exact lt_irrefl _)]

/-- Whatever the device answers, the loop for `n` slots ends, with no more than the bytes wanted, in blocks of
whole slots that add up to the bytes it returns. -/
theorem vramAllocGroup_honest {δ : Type*} (alloc : δ → ℕ → Bool × δ) (group slot n : ℕ) (device : δ)
    (segs : List Segment) :
    ∃ r added, (∀ fuel, 2 * n < fuel →
        vramAllocGroup alloc group slot (n * slot) fuel device segs = some r) ∧
      r.segs = segs ++ added ∧ r.got ≤ n * slot ∧
      (∀ s ∈ added, s.group = group ∧ s.slotSize = slot ∧ 0 < s.nSlots ∧ s.bytes = s.nSlots * slot) ∧
      (added.map Segment.bytes).sum = r.got ∧ (added.map Segment.nSlots).sum = r.got / slot := by
  rcases Nat.eq_zero_or_pos slot with rfl | hslot
  · refine ⟨⟨device, segs, 0, n * 0⟩, [], ?_, by simp, Nat.zero_le _, by simp, rfl,
      (Nat.div_zero _).symm⟩
    intro fuel hfuel
    obtain ⟨fuel, rfl⟩ := Nat.exists_eq_add_one_of_ne_zero (Nat.ne_zero_of_lt hfuel)
    rfl
  · obtain ⟨r, added, hrun, hbrings, hmost⟩ :=
      @runLoop_whole δ alloc group slot n hslot ⟨device, segs, 0, n * slot⟩ 0 n (Nat.zero_mul _).symm rfl
        (Nat.zero_le n) id
    have hgot : r.got = (added.map Segment.nSlots).sum * slot := by rw [hbrings.got, Nat.zero_add]
    refine ⟨r, added, fun fuel hfuel => hrun fuel (by omega), hbrings.segs, hmost, ?_, ?_, ?_⟩
    · intro s hs
      obtain ⟨hgroup, hsize, hpos, hbytes⟩ := hbrings.whole s hs
      exact ⟨hgroup, hsize, hpos, hbytes⟩
    · rw [hgot, ← List.sum_map_mul_right]
      exact congrArg List.sum (List.map_congr_left fun s hs => (hbrings.whole s hs).bytes_eq)
    · rw [hgot, Nat.mul_div_cancel _ hslot]

end honest

section answers

variable {δ : Type*} {alloc : δ → ℕ → Bool × δ} {group slot want : ℕ}

/-- The loop over numbered outcomes, with those of the device in their order. -/
theorem runLoop_answers {fuel call : ℕ} {l r : Loop δ} {ok : ℕ → Bool}
    (hok : ∀ i, ok (call + i) = (((Loop.next alloc group slot want)^[i] l).answer alloc want).1)
    (h : runLoop alloc group slot want fuel l = some r) :
    ∃ added, r.segs = l.segs ++ added ∧
      allocLoop ok slot want fuel call l.got l.chunk = some (added.map Segment.nSlots, r.got) := by
  induction fuel generalizing call l with
  | zero => cases h
  | succ fuel ih =>
    rw [runLoop] at h
    rw [allocLoop]
    by_cases hlt : l.got < want
    · rw [if_pos hlt] at h ⊢
      have hfirst : ok call = (l.answer alloc want).1 := hok 0
      have hlater : ∀ i, ok (call + 1 + i) =
          (((Loop.next alloc group slot want)^[i] (l.next alloc group slot want)).answer alloc want).1 := by
        intro i
        rw [Nat.add_assoc, Nat.add_comm 1, hok, Function.iterate_succ_apply]
      dsimp only
      cases hanswer : (l.answer alloc want).1 with
      | true =>
        rw [not_breaks_of_buffer hanswer, if_neg Bool.false_ne_true] at h
        obtain ⟨added, hsegs, hloop⟩ := ih hlater h
        rw [next_of_buffer hanswer] at hsegs hloop
        refine ⟨⟨group, l.ask want, slot, l.ask want / slot⟩ :: added, ?_, ?_⟩
        · rw [hsegs, List.append_assoc, List.singleton_append]
        · rw [hfirst, hanswer, if_pos rfl]
          change Option.map _ (allocLoop ok slot want fuel (call + 1) (l.got + l.ask want) l.chunk) = _
          rw [hloop]
          rfl
      | false =>
        rw [breaks_of_refusal hanswer] at h
        rw [hfirst, hanswer, if_neg Bool.false_ne_true]
        by_cases hhalf : l.half slot want < slot
        · rw [if_pos (decide_eq_true hhalf)] at h
          cases h
          exact ⟨[], (List.append_nil _).symm, if_pos hhalf⟩
        · rw [decide_eq_false hhalf, if_neg Bool.false_ne_true] at h
          obtain ⟨added, hsegs, hloop⟩ := ih hlater h
          rw [next_of_refusal hanswer] at hsegs hloop
          exact ⟨added, hsegs, (if_neg hhalf).trans hloop⟩
    · rw [if_neg hlt] at h ⊢
      cases h
      exact ⟨[], (List.append_nil _).symm, rfl⟩

/-- The slots and bytes that the accounting of the device pools counts are those of the segments. -/
theorem vramAllocGroup_answers {δ : Type*} {alloc : δ → ℕ → Bool × δ} {group slot want : ℕ} {device : δ}
    {segs : List Segment} {r : Loop δ}
    (h : vramAllocGroup alloc group slot want (2 * want + 1) device segs = some r) :
    ∃ added, r.segs = segs ++ added ∧
      DevicePools.vramAllocGroup
        (fun i => (((Loop.next alloc group slot want)^[i] ⟨device, segs, 0, want⟩).answer alloc want).1)
        want slot = some (added.map Segment.nSlots, r.got) :=
  runLoop_answers (fun i => by rw [Nat.zero_add]) h

end answers

end VramSegments
end StreamMoE
