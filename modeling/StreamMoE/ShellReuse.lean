import StreamMoE.ArenaRegions
import StreamMoE.StopTurns

/-! Whether the copies of one layer stay intact until their last reader although every layer places
its copies in the same two slots. -/
namespace StreamMoE
namespace ShellReuse

open ByteMemory ComputeGraph LayerPlan LayerPlan.Capture Packing ArenaLayout LayerOrder OfferSchedule
  RelayRun RelaySteps RelayVisits RelayOrder StopTurns

variable {Dev : Type*} [DecidableEq Dev] (c : Capture) (m : Placement Dev)

section bytes

def inTailSlot (s : Shell Dev) : Bool := decide (s.stage = .tail)

/-- `xfer_off[dst]` from the start of the slot. -/
def slotOff (s : Shell Dev) : ℕ :=
  (((xferOffsets c m s.dev (inTailSlot s)).find? fun x => decide (x.1 = s)).map Prod.snd).getD 0

/-- Where the copy starts in the buffer of its device. -/
def shellStart (s : Shell Dev) : ℕ :=
  Region.start c m s.dev (.xfer (inTailSlot s)) + slotOff c m s

/-- The copy has the byte of its device's buffer. -/
def Covers (s : Shell Dev) (byte : ℕ) : Prop :=
  shellStart c m s ≤ byte ∧ byte < shellStart c m s + shellBytes c s

/-- Two copies on one device with a byte in common. -/
def Overlaps (s s' : Shell Dev) : Prop :=
  s.dev = s'.dev ∧ ∃ byte, Covers c m s byte ∧ Covers c m s' byte

variable {c m}

theorem mem_shells {s : Shell Dev} : s ∈ shells c m ↔ s ∈ relays c m := by
  unfold shells
  have hfold : ∀ (l acc : List (Shell Dev)),
      s ∈ l.foldl (fun acc x => if x ∈ acc then acc else acc ++ [x]) acc ↔ s ∈ acc ∨ s ∈ l := by
    intro l
    induction l with
    | nil => simp
    | cons x l ih =>
      intro acc
      rw [List.foldl_cons, ih]
      split <;> simp <;> grind
  rw [hfold]
  simp

theorem mem_xferOffsets {s : Shell Dev} (h : s ∈ relays c m) :
    (s, slotOff c m s) ∈ xferOffsets c m s.dev (inTailSlot s) := by
  have hslot : s ∈ slotShells c m s.dev (inTailSlot s) := by
    simp [slotShells, inTailSlot, mem_shells, h]
  have hmap : (xferOffsets c m s.dev (inTailSlot s)).map Prod.fst =
      slotShells c m s.dev (inTailSlot s) := map_fst_bump _ _
  rw [← hmap] at hslot
  obtain ⟨x, hx, hxs⟩ := List.mem_map.mp hslot
  unfold slotOff
  cases hf : (xferOffsets c m s.dev (inTailSlot s)).find? fun x => decide (x.1 = s) with
  | none => exact absurd (decide_eq_true hxs) (List.find?_eq_none.mp hf x hx)
  | some y =>
    have hy : y.1 = s :=
      of_decide_eq_true (List.find?_some (p := fun x : Shell Dev × ℕ => decide (x.1 = s)) hf)
    have hmem := List.mem_of_find?_eq_some hf
    rw [Option.map_some, Option.getD_some]
    exact hy ▸ hmem

/-- Copies of one layer in one slot lie apart. -/
theorem not_overlaps_of_layer {s s' : Shell Dev} (hs : s ∈ relays c m) (hs' : s' ∈ relays c m)
    (hne : s ≠ s') (hslot : inTailSlot s = inTailSlot s') (hlayer : s.layer = s'.layer) :
    ¬ Overlaps c m s s' := by
  rintro ⟨hdev, byte, hbyte, hbyte'⟩
  have hmem := mem_xferOffsets hs
  have hmem' := mem_xferOffsets hs'
  rw [← hdev, ← hslot] at hmem'
  have hapart := ArenaRegions.regionOffsets_apart hmem hmem' hne hlayer
  simp only [Covers, shellStart, ← hdev, ← hslot] at hbyte hbyte'
  simp only [Apart] at hapart
  omega

theorem overlaps_of_slotOff {s s' : Shell Dev} (hdev : s.dev = s'.dev)
    (hslot : inTailSlot s = inTailSlot s') (hoff : slotOff c m s = slotOff c m s')
    (hbytes : 0 < shellBytes c s) (hbytes' : 0 < shellBytes c s') : Overlaps c m s s' := by
  refine ⟨hdev, shellStart c m s, ⟨Nat.le_refl _, by omega⟩, ?_⟩
  have hstart : shellStart c m s = shellStart c m s' := by
    rw [shellStart, shellStart, hdev, hslot, hoff]
  exact ⟨Nat.le_of_eq hstart.symm, by omega⟩

end bytes

section room

/-- What the copies for its layer that are laid into its slot ahead of it take, each rounded up. -/
def roomAhead (s : Shell Dev) : ℕ :=
  ((((slotShells c m s.dev (inTailSlot s)).takeWhile fun t => decide (t ≠ s)).filter fun t =>
    decide (t.layer = s.layer)).map fun t => roundUp 64 (shellBytes c t)).sum

/-- The largest byte sum of one layer's copies for its tail, rounded up. -/
def tailRoom (D : Dev) : ℕ :=
  roundUp 64 (((slotShells c m D true).map fun t =>
    (((slotShells c m D true).filter fun t' => decide (t'.layer = t.layer)).map (shellBytes c)).sum).foldr
      max 0)

/-- The place of a copy behind the start of the slots: those for heads lie behind those for tails. -/
def place (s : Shell Dev) : ℕ := (if s.stage = .tail then 0 else tailRoom c m s.dev) + roomAhead c m s

/-- The bytes of the two copies meet. -/
def Shares (s s' : Shell Dev) : Prop :=
  s.dev = s'.dev ∧ max (place c m s) (place c m s') <
    min (place c m s + shellBytes c s) (place c m s' + shellBytes c s')

instance (s s' : Shell Dev) : Decidable (Shares c m s s') := by
  unfold Shares
  infer_instance

variable {c m}

theorem nodup_shells : (shells c m).Nodup := by
  unfold shells
  have hfold : ∀ (l acc : List (Shell Dev)), acc.Nodup →
      (l.foldl (fun acc x => if x ∈ acc then acc else acc ++ [x]) acc).Nodup := by
    intro l
    induction l with
    | nil => exact fun acc hacc => hacc
    | cons x l ih =>
      intro acc hacc
      rw [List.foldl_cons]
      refine ih _ ?_
      split
      · exact hacc
      · rename_i hx
        rw [List.nodup_append]
        refine ⟨hacc, List.nodup_singleton x, fun a ha b hb => ?_⟩
        rw [List.mem_singleton.mp hb]
        rintro rfl
        exact hx ha
  exact hfold _ [] List.nodup_nil

theorem slotOff_eq {s : Shell Dev} (h : s ∈ relays c m) : slotOff c m s = roomAhead c m s := by
  have hoff := bump_offset (by decide) (nodup_shells.filter _) (mem_xferOffsets h)
  rw [hoff]
  show roundUp 64 0 + roomAhead c m s = roomAhead c m s
  rw [show roundUp 64 0 = 0 from rfl, Nat.zero_add]

theorem shellStart_eq {s : Shell Dev} (h : s ∈ relays c m) :
    shellStart c m s = offXfer c m s.dev + place c m s := by
  have hroom : xferStride c m s.dev true = tailRoom c m s.dev := rfl
  unfold shellStart place Region.start inTailSlot
  rw [slotOff_eq h, hroom]
  by_cases hstage : s.stage = .tail
  · simp [hstage]
  · simp [hstage, Nat.add_assoc]

theorem overlaps_iff {s s' : Shell Dev} (hs : s ∈ relays c m) (hs' : s' ∈ relays c m) :
    Overlaps c m s s' ↔ Shares c m s s' := by
  unfold Overlaps Shares Covers
  refine and_congr_right fun hdev => ?_
  rw [shellStart_eq hs, shellStart_eq hs', hdev]
  constructor
  · rintro ⟨byte, ⟨hlo, hhi⟩, hlo', hhi'⟩
    omega
  · intro h
    exact ⟨offXfer c m s'.dev + max (place c m s) (place c m s'), by omega, by omega⟩

end room

section preserved

/-- No copy is written over, from the moment it is made until its last reader has run. -/
def Preserved (run : List (Call Dev)) : Prop :=
  ∀ i j : Fin (relays c m).length, (relays c m).get i ≠ (relays c m).get j →
    Overlaps c m ((relays c m).get i) ((relays c m).get j) →
    KeptFrom (runEvents c m run) i j (Reads c m ((relays c m).get i))

/-- A call for the head of the copy's layer has a stop for it. -/
def Served (s : Shell Dev) : Call Dev → Prop
  | .head L =>
      s.layer = L ∧ ∃ k, SegOn c m (c.head L) k (srcDev c m s) ∨ SegOn c m (c.head L) k s.dev
  | .tailHead L K =>
      s.layer = K ∧
        ∃ k, ComesIn c m s (c.tail L ++ c.head K) (c.head K) k ∨ Leaves c m s L K k
  | .deviceGraph L next D =>
      next = some s.layer ∧ (s.dev = D ∧ s.producer ∉ c.tail L ++ c.head s.layer ∨ srcDev c m s = D)
  | _ => False

/-- Where a call takes the tail of a layer and the next head, a tail node that reads a copy made for its
layer's head, and a copy for the next head that takes its bytes. In a list: the tail makes no original of
it on a device visited before that node, and if the node's segment has nodes of the head, the original's
device has been visited. In a graph on the copy's device: the graph computes the original. -/
def KeepsFront (run : List (Call Dev)) : Call Dev → Prop
  | .tailHead L K =>
      ∀ s ∈ relays c m, ∀ s' ∈ relays c m, s.stage ≠ .tail → s'.stage ≠ .tail → s.layer = L → s'.layer = K →
        Shares c m s s' → (∃ call ∈ run, Served c m s call) → ∀ n ∈ c.tail L, Reads c m s n →
        ∀ j, SegHas c m (c.tail L ++ c.head K) j n →
          (s'.producer ∈ c.tail L → ∀ k < j, ¬ SegOn c m (c.tail L ++ c.head K) k (srcDev c m s')) ∧
            (PartAt c m (c.tail L ++ c.head K) (c.head K) j →
              ∃ k < j, SegOn c m (c.tail L ++ c.head K) k (srcDev c m s'))
  | .deviceGraph L (some K) D =>
      ∀ s ∈ relays c m, ∀ s' ∈ relays c m, s.stage ≠ .tail → s'.stage ≠ .tail → s.layer = L → s'.layer = K →
        Shares c m s s' → (∃ call ∈ run, Served c m s call) →
        ∀ n ∈ callNodes c (.deviceGraph L (some K) D), n ∈ c.tail L → Reads c m s n →
          s'.dev = D → s'.producer ∈ c.tail L ++ c.head K
  | _ => True

/-- The copy can be made at `2 * k`, ahead of the `k`-th stop, or at `2 * k + 1`, behind it. -/
def StopsAt (vs : List (Visit Dev)) (t : ℕ) (s : Shell Dev) : Prop :=
  ∃ (k : ℕ) (v : Visit Dev), vs[k]? = some v ∧
    (t = 2 * k ∧ v.Before c m s ∨ t = 2 * k + 1 ∧ v.After c m s)

/-- No stop for `s'` is ahead of the node, unless one is ahead of every stop for `s`. -/
def KeepsFor (run : List (Call Dev)) (s s' : Shell Dev) (n : ℕ) : Prop :=
  ∀ (y : ℕ) (v : Visit Dev), (visits c m run)[y]? = some v → n ∈ v.nodes c →
    ∀ t ≤ 2 * y, StopsAt c m (visits c m run) t s' →
      ∃ t', StopsAt c m (visits c m run) t' s' ∧ ∀ u, StopsAt c m (visits c m run) u s → t' < u

/-- Copies of the two slots that share bytes, and readers inside a closure. -/
def OddKept (run : List (Call Dev)) : Prop :=
  ∀ s ∈ relays c m, ∀ s' ∈ relays c m, s ≠ s' → Shares c m s s' → ∀ n, Reads c m s n →
    (inTailSlot s ≠ inTailSlot s' ∨ ∃ L, n ∈ c.compute L) → KeepsFor c m run s s' n

/-- The copies for a layer's tail, each rounded up, end in the bytes reserved for them. -/
def TailsFit : Prop := ∀ s ∈ relays c m, s.stage = .tail → roomAhead c m s + shellBytes c s ≤ tailRoom c m s.dev

/-- No node that reads a copy is in a closure. -/
def ReadersOpen : Prop := ∀ s ∈ relays c m, ∀ n, Reads c m s n → ∀ L, n ∉ c.compute L

variable {c m}

theorem getElem?_legs {run : List (Call Dev)} {k : ℕ} {l : Leg (Fin (relays c m).length) ℕ} :
    ((legs c m run).map (Leg.comap (relays c m).get))[k]? = some l ↔
      ∃ v, (visits c m run)[k]? = some v ∧ l = (v.leg c m).comap (relays c m).get := by
  rw [legs_eq, List.map_map, List.getElem?_map, Option.map_eq_some_iff]
  exact ⟨fun ⟨v, hv, h⟩ => ⟨v, hv, h.symm⟩, fun ⟨v, hv, h⟩ => ⟨v, hv, h.symm⟩⟩

theorem offeredAt_runEvents {run : List (Call Dev)} {t : ℕ} {r : Fin (relays c m).length} :
    OfferedAt (beatsOf ((legs c m run).map (Leg.comap (relays c m).get))) t r ↔
      ∃ t', StopsAt c m (visits c m run) t' ((relays c m).get r) ∧ t = 3 * (t' / 2) + 2 * (t' % 2) := by
  rw [offeredAt_beatsOf]
  constructor
  · rintro ⟨k, l, hl, hside⟩
    obtain ⟨v, hv, rfl⟩ := getElem?_legs.mp hl
    rcases hside with ⟨rfl, h⟩ | ⟨rfl, h⟩
    · exact ⟨2 * k, ⟨k, v, hv, Or.inl ⟨rfl, of_decide_eq_true h⟩⟩, by omega⟩
    · exact ⟨2 * k + 1, ⟨k, v, hv, Or.inr ⟨rfl, of_decide_eq_true h⟩⟩, by omega⟩
  · rintro ⟨t', ⟨k, v, hv, hside⟩, rfl⟩
    refine ⟨k, _, getElem?_legs.mpr ⟨v, hv, rfl⟩, ?_⟩
    rcases hside with ⟨rfl, h⟩ | ⟨rfl, h⟩
    · exact Or.inl ⟨by omega, decide_eq_true h⟩
    · exact Or.inr ⟨by omega, decide_eq_true h⟩

theorem execAt_runEvents {run : List (Call Dev)} {k n : ℕ} :
    ExecAt (beatsOf ((legs c m run).map (Leg.comap (relays c m).get))) k n ↔
      ∃ (y : ℕ) (v : Visit Dev), (visits c m run)[y]? = some v ∧ n ∈ v.nodes c ∧ k = 3 * y + 1 := by
  rw [execAt_beatsOf]
  constructor
  · rintro ⟨y, rfl, l, hl, hn⟩
    obtain ⟨v, hv, rfl⟩ := getElem?_legs.mp hl
    exact ⟨y, v, hv, hn, rfl⟩
  · rintro ⟨y, v, hv, hn, rfl⟩
    exact ⟨y, rfl, _, getElem?_legs.mpr ⟨v, hv, rfl⟩, hn⟩

theorem keptFrom_runEvents {run : List (Call Dev)} {i j : Fin (relays c m).length} :
    KeptFrom (runEvents c m run) i j (Reads c m ((relays c m).get i)) ↔
      ∀ n, Reads c m ((relays c m).get i) n → KeepsFor c m run ((relays c m).get i) ((relays c m).get j) n := by
  rw [runEvents, keptFrom_iff (List.mem_finRange i) (List.mem_finRange j)]
  refine forall_congr' fun n => forall_congr' fun _ => ⟨fun h y v hv hn t ht hstop => ?_, ?_⟩
  · obtain ⟨t', ht', hall⟩ := h (3 * y + 1) (execAt_runEvents.mpr ⟨y, v, hv, hn, rfl⟩)
      (3 * (t / 2) + 2 * (t % 2)) (by omega) (offeredAt_runEvents.mpr ⟨t, hstop, rfl⟩)
    obtain ⟨t₁, hstop₁, rfl⟩ := offeredAt_runEvents.mp ht'
    refine ⟨t₁, hstop₁, fun u hu => ?_⟩
    have := hall _ (offeredAt_runEvents.mpr ⟨u, hu, rfl⟩)
    omega
  · intro h k hk t ht hoffer
    obtain ⟨y, v, hv, hn, rfl⟩ := execAt_runEvents.mp hk
    obtain ⟨t', hstop, rfl⟩ := offeredAt_runEvents.mp hoffer
    obtain ⟨t₁, hstop₁, hall⟩ := h y v hv hn t' (by omega) hstop
    refine ⟨_, offeredAt_runEvents.mpr ⟨t₁, hstop₁, rfl⟩, fun u hu => ?_⟩
    obtain ⟨u', hu', rfl⟩ := offeredAt_runEvents.mp hu
    have := hall u' hu'
    omega

theorem getElem?_fused {L K j : ℕ} {v : Visit Dev} :
    (callVisits c m (.tailHead L K))[j + 1]? = some v ↔
      ∃ seg, (segments c m (c.tail L ++ c.head K))[j]? = some seg ∧
        v = .stretch (stretchAt c m (c.tail L ++ c.head K)
          (fun seg => if hasTail (c.tail L).length seg then some L else none)
          (fun seg => if hasHead (c.tail L).length seg then some K else none) (some K) (c.tail L) j seg) :=
  getElem?_stretches

theorem ahead_fused {s : Shell Dev} (hs : s ∈ relays c m) {L K : ℕ} (hLK : L ≠ K) (hstage : s.stage ≠ .tail)
    (hlayer : s.layer = K) (j : ℕ) :
    Ahead c m (callVisits c m (.tailHead L K)) s (j + 1) ↔
      ∃ k, k ≤ j ∧ ComesIn c m s (c.tail L ++ c.head K) (c.head K) k ∨ k < j ∧ Leaves c m s L K k := by
  have hstops := front_stops hs hLK hstage hlayer rfl rfl
  constructor
  · rintro ⟨k, v, hv, hside⟩
    cases k with
    | zero =>
      cases hv
      rcases hside with ⟨_, _, h, _⟩ | ⟨_, h⟩
      · exact absurd h hstage
      · exact h.elim
    | succ k =>
      obtain ⟨seg, hseg, rfl⟩ := getElem?_fused.mp hv
      refine ⟨k, hside.imp ?_ ?_⟩
      · exact fun ⟨hk, h⟩ => ⟨by omega, (hstops k).1.mp ⟨seg, hseg, h⟩⟩
      · exact fun ⟨hk, h⟩ => ⟨by omega, (hstops k).2.mp ⟨seg, hseg, h⟩⟩
  · rintro ⟨k, ⟨hk, h⟩ | ⟨hk, h⟩⟩
    · obtain ⟨seg, hseg, h⟩ := (hstops k).1.mpr h
      exact ⟨k + 1, _, getElem?_fused.mpr ⟨seg, hseg, rfl⟩, Or.inl ⟨by omega, h⟩⟩
    · obtain ⟨seg, hseg, h⟩ := (hstops k).2.mpr h
      exact ⟨k + 1, _, getElem?_fused.mpr ⟨seg, hseg, rfl⟩, Or.inr ⟨by omega, h⟩⟩

/-- For a tail node on the copy's device the stops ahead of it are told by the originals' device. -/
theorem not_ahead_iff {s : Shell Dev} {L K : ℕ} (hLK : L ≠ K) {n j : ℕ} (hn : n ∈ c.tail L)
    (hj : SegHas c m (c.tail L ++ c.head K) j n) (hdev : nodeDev c m n = s.dev) :
    (¬ ∃ k, k ≤ j ∧ ComesIn c m s (c.tail L ++ c.head K) (c.head K) k ∨ k < j ∧ Leaves c m s L K k) ↔
      (s.producer ∈ c.tail L → ∀ k < j, ¬ SegOn c m (c.tail L ++ c.head K) k (srcDev c m s)) ∧
        (PartAt c m (c.tail L ++ c.head K) (c.head K) j →
          ∃ k < j, SegOn c m (c.tail L ++ c.head K) k (srcDev c m s)) := by
  have hfront : ∀ k, PartAt c m (c.tail L ++ c.head K) (c.head K) k → j ≤ k := by
    rintro k ⟨n', hn', hk⟩
    exact seg_le_front (parts_apart hLK) hn hn' hj hk
  constructor
  · intro hno
    refine ⟨fun hmade k hk hon => hno ⟨k, Or.inr ⟨hk, hon, ?_⟩⟩, fun hpart => ?_⟩
    · rw [if_pos hmade]
      exact partAt_tail (parts_apart hLK) hn hj hk hon
    · by_contra hnot
      push Not at hnot
      exact hno ⟨j, Or.inl ⟨Nat.le_refl j, hpart, hdev ▸ hj.segOn, hnot⟩⟩
  · rintro ⟨hmade, hflushed⟩ ⟨k, ⟨hk, hpart, _, hnot⟩ | ⟨hk, hon, hpart⟩⟩
    · obtain rfl := Nat.le_antisymm hk (hfront k hpart)
      obtain ⟨i, hi, hon⟩ := hflushed hpart
      exact hnot i hi hon
    · split at hpart
      · rename_i htail
        exact hmade htail k hk hon
      · have := hfront k hpart
        omega

theorem ahead_graph {s : Shell Dev} (hs : s ∈ relays c m) {L K : ℕ} (hLK : L ≠ K) (hstage : s.stage ≠ .tail)
    (hlayer : s.layer = K) (D : Dev) :
    Ahead c m (callVisits c m (.deviceGraph L (some K) D)) s 0 ↔
      s.dev = D ∧ s.producer ∉ c.tail L ++ c.head K := by
  have harrives : (graphStretch c L (some K) D).Arrives c m s ↔
      s.dev = D ∧ (some K = none ∨ s.producer ∉ c.tail L ++ c.head K) :=
    (graphStretch_arrives hs (Or.inr ⟨hstage, by rw [hlayer], hlayer ▸ hLK.symm⟩)).1
  rw [or_iff_right (by simp)] at harrives
  constructor
  · rintro ⟨k, v, hv, ⟨hk, h⟩ | ⟨hk, _⟩⟩
    · obtain rfl := Nat.le_zero.mp hk
      cases hv
      exact harrives.mp h
    · omega
  · exact fun h => ⟨0, _, rfl, Or.inl ⟨Nat.le_refl 0, harrives.mpr h⟩⟩

theorem mem_callNodes {call : Call Dev} {v : Visit Dev} (hv : v ∈ callVisits c m call) {n : ℕ}
    (hn : n ∈ v.nodes c) : n ∈ callNodes c call := by
  rw [← legs_callNodes (m := m), call_legs_eq]
  exact List.mem_flatMap.mpr ⟨v.leg c m, List.mem_map.mpr ⟨v, hv, rfl⟩, hn⟩

/-- A call has a stop for a copy of the front exactly if it serves it. -/
theorem served_iff {s : Shell Dev} (hs : s ∈ relays c m) (hstage : s.stage ≠ .tail) {call : Call Dev}
    (hparts : ∀ L K, Step.tail L ∈ call.steps → Step.head K ∈ call.steps → L ≠ K) :
    (∃ v ∈ callVisits c m call, v.Before c m s ∨ v.After c m s) ↔ Served c m s call := by
  have hserved : (∃ v ∈ callVisits c m call, v.Before c m s ∨ v.After c m s) →
      Step.head s.layer ∈ call.steps := by
    rintro ⟨v, hv, h⟩
    exact servedStep_head hstage ▸ servedStep_of_visit hv h
  cases call with
  | closure L =>
    refine ⟨fun h => ?_, False.elim⟩
    simpa [Call.steps] using hserved h
  | tail L =>
    refine ⟨fun h => ?_, False.elim⟩
    simpa [Call.steps] using hserved h
  | head L =>
    rw [← and_iff_right_of_imp hserved, Served]
    simp only [Call.steps, List.mem_singleton, Step.head.injEq]
    refine and_congr_right fun hlayer => ?_
    rw [callVisits, stretches_take]
    simp only [(head_stops hs hstage hlayer rfl _).1, (head_stops hs hstage hlayer rfl _).2]
    constructor
    · rintro ⟨k, h | h⟩
      · exact ⟨k, Or.inr h.1⟩
      · exact ⟨k, Or.inl h⟩
    · rintro ⟨k, h | h⟩
      · exact ⟨k, Or.inr h⟩
      · by_cases hsrc : ∃ j < k, SegOn c m (c.head L) j (srcDev c m s)
        · obtain ⟨j, _, hj⟩ := hsrc
          exact ⟨j, Or.inr hj⟩
        · push Not at hsrc
          exact ⟨k, Or.inl ⟨h, hsrc⟩⟩
  | tailHead L K =>
    have hLK : L ≠ K := hparts L K (by simp [Call.steps]) (by simp [Call.steps])
    rw [← and_iff_right_of_imp hserved, Served]
    simp only [Call.steps, List.mem_cons, List.not_mem_nil, or_false, reduceCtorEq, false_or,
      Step.head.injEq]
    refine and_congr_right fun hlayer => ?_
    have hpre : ¬ ((Visit.preTail L : Visit Dev).Before c m s ∨ (Visit.preTail L : Visit Dev).After c m s) := by
      simp [Visit.Before, Visit.After, hstage]
    rw [callVisits, List.exists_mem_cons_iff, or_iff_right hpre, stretches_take]
    simp only [(front_stops hs hLK hstage hlayer rfl rfl _).1,
      (front_stops hs hLK hstage hlayer rfl rfl _).2]
  | deviceGraph L next D =>
    have hnext : Step.head s.layer ∈ (Call.deviceGraph L next D).steps ↔ next = some s.layer := by
      cases next <;> simp [Call.steps, eq_comm]
    rw [← and_iff_right_of_imp hserved, Served, hnext]
    refine and_congr_right fun hlayer => ?_
    subst hlayer
    have hL : s.layer ≠ L := (hparts L s.layer (by simp [Call.steps]) (hnext.mpr rfl)).symm
    obtain ⟨harrives, hleaves⟩ := graphStretch_arrives (D := D) hs (Or.inr ⟨hstage, rfl, hL⟩)
    have hone : (∃ v ∈ callVisits c m (.deviceGraph L (some s.layer) D), v.Before c m s ∨ v.After c m s) ↔
        (graphStretch c L (some s.layer) D).Arrives c m s ∨
          (graphStretch c L (some s.layer) D).Leaves c m s := by
      simp [callVisits, Visit.Before, Visit.After]
    rw [hone, harrives, hleaves]
    simp [nextNodes]

omit [DecidableEq Dev] in
theorem one_head {call : Call Dev} {L L' : ℕ} (h : Step.head L ∈ call.steps)
    (h' : Step.head L' ∈ call.steps) : L = L' := by
  cases call with
  | deviceGraph K next D => cases next <;> simp_all [Call.steps]
  | _ => simp_all [Call.steps]

omit [DecidableEq Dev] in
theorem one_tail {call : Call Dev} {L L' : ℕ} (h : Step.tail L ∈ call.steps)
    (h' : Step.tail L' ∈ call.steps) : L = L' := by
  cases call with
  | deviceGraph K next D => cases next <;> simp_all [Call.steps]
  | _ => simp_all [Call.steps]

omit [DecidableEq Dev] in
/-- A call with the tail of one layer and the head of another. -/
theorem call_of_parts {call : Call Dev} {L K : ℕ} (htail : Step.tail L ∈ call.steps)
    (hhead : Step.head K ∈ call.steps) :
    call = .tailHead L K ∨ ∃ D, call = .deviceGraph L (some K) D := by
  cases call with
  | deviceGraph L' next D => cases next <;> simp_all [Call.steps]
  | _ => simp_all [Call.steps]

/-- A reader of a copy outside the closures runs with the tail or with the head of its layer. -/
theorem reader_step {s : Shell Dev} {n : ℕ} (h : Reads c m s n) (hopen : ∀ L, n ∉ c.compute L)
    {call : Call Dev} (hn : n ∈ callNodes c call) :
    n ∈ c.tail s.layer ∧ Step.tail s.layer ∈ call.steps ∨
      n ∈ c.head s.layer ∧ s.stage ≠ .tail ∧ Step.head s.layer ∈ call.steps := by
  have hreader := reader_of_reads h
  rw [← legs_callNodes (m := m)] at hn
  obtain ⟨step, hstep, hpart⟩ := List.mem_flatMap.mp ((Call.legs_nodes call).1.subset hn)
  cases step with
  | head L =>
    obtain rfl := layer_of_mem_head hpart hreader.layer
    refine Or.inr ⟨hpart, fun hstage => ?_, hstep⟩
    exact not_mem_tail_of_mem_head hpart (hreader.tail hstage).1
  | closure L => exact absurd hpart (hopen L)
  | tail L =>
    obtain rfl := layer_of_mem_tail hpart hreader.layer
    exact Or.inl ⟨hpart, hstep⟩

variable {layers : List ℕ} {run : List (Call Dev)}

/-- Of two copies in one slot the bytes of the first can be taken ahead of a reader in the call of a
tail alone. -/
theorem turn_in_reader_call (hlayers : layers.Nodup) (hsteps : run.flatMap Call.steps = layerSteps layers)
    {s s' : Shell Dev} (hs : s ∈ relays c m) (hs' : s' ∈ relays c m) (hne : s ≠ s')
    (hslot : inTailSlot s = inTailSlot s') (hshares : Shares c m s s') {w x y : ℕ}
    {first mid last : Call Dev} (hw : run[w]? = some first) (hx : run[x]? = some mid)
    (hy : run[y]? = some last) (hwx : w ≤ x) (hxy : x ≤ y) (hfirst : servedStep s ∈ first.steps)
    (hmid : servedStep s' ∈ mid.steps) {n : ℕ} (hreads : Reads c m s n) (hopen : ∀ L, n ∉ c.compute L)
    (hn : n ∈ callNodes c last) :
    x = y ∧ n ∈ c.tail s.layer ∧ Step.tail s.layer ∈ last.steps ∧ s.stage ≠ .tail ∧ s'.stage ≠ .tail := by
  have hlayer : s'.layer ≠ s.layer := fun heq =>
    not_overlaps_of_layer hs hs' hne hslot heq.symm ((overlaps_iff hs hs').mpr hshares)
  by_cases hstage : s.stage = .tail
  · have hstage' : s'.stage = .tail := by simpa [inTailSlot, hstage, eq_comm] using hslot
    rw [servedStep_tail hstage] at hfirst
    rw [servedStep_tail hstage'] at hmid
    rcases reader_step hreads hopen hn with ⟨_, hlast⟩ | ⟨_, hnot, _⟩
    · obtain rfl := step_index hlayers hsteps hw hy hfirst hlast
      obtain rfl : x = w := by omega
      rw [hw] at hx
      obtain rfl := Option.some.inj hx
      exact absurd (one_tail hmid hfirst) hlayer
    · exact absurd hstage hnot
  · have hstage' : s'.stage ≠ .tail := by simpa [inTailSlot, hstage, eq_comm] using hslot
    rw [servedStep_head hstage] at hfirst
    rw [servedStep_head hstage'] at hmid
    rcases reader_step hreads hopen hn with ⟨htail, hlast⟩ | ⟨_, _, hlast⟩
    · exact ⟨head_between hlayers hsteps hw hx hy hfirst hmid hlast hwx hxy hlayer, htail, hlast, hstage,
        hstage'⟩
    · obtain rfl := step_index hlayers hsteps hw hy hfirst hlast
      obtain rfl : x = w := by omega
      rw [hw] at hx
      obtain rfl := Option.some.inj hx
      exact absurd (one_head hmid hfirst) hlayer

theorem getElem?_visits {y : ℕ} {v : Visit Dev} :
    (visits c m run)[y]? = some v ↔ ∃ (i : ℕ) (call : Call Dev) (j : ℕ), run[i]? = some call ∧
      (callVisits c m call)[j]? = some v ∧ y = offset (callVisits c m) run i + j :=
  getElem?_flatMap

/-- A call in a run that copies ahead of one of its own nodes does so in the run. -/
theorem stopsAt_of_ahead {i j : ℕ} {call : Call Dev} {s : Shell Dev} (hi : run[i]? = some call)
    (h : Ahead c m (callVisits c m call) s j) :
    ∃ t ≤ 2 * (offset (callVisits c m) run i + j), StopsAt c m (visits c m run) t s := by
  obtain ⟨k, v, hv, hside⟩ := h
  have hget := getElem?_visits.mpr ⟨i, call, k, hi, hv, rfl⟩
  rcases hside with ⟨hk, h⟩ | ⟨hk, h⟩
  · exact ⟨_, by omega, _, v, hget, Or.inl ⟨rfl, h⟩⟩
  · exact ⟨2 * (offset (callVisits c m) run i + k) + 1, by omega, _, v, hget, Or.inr ⟨rfl, h⟩⟩

theorem stopsAt_call {t : ℕ} {s : Shell Dev} (h : StopsAt c m (visits c m run) t s) :
    ∃ (i : ℕ) (call : Call Dev) (j : ℕ) (v : Visit Dev), run[i]? = some call ∧
      (callVisits c m call)[j]? = some v ∧ servedStep s ∈ call.steps ∧
      (t = 2 * (offset (callVisits c m) run i + j) ∧ v.Before c m s ∨
        t = 2 * (offset (callVisits c m) run i + j) + 1 ∧ v.After c m s) := by
  obtain ⟨y, v, hv, hside⟩ := h
  obtain ⟨i, call, j, hi, hj, rfl⟩ := getElem?_visits.mp hv
  exact ⟨i, call, j, v, hi, hj,
    servedStep_of_visit (List.mem_of_getElem? hj) (hside.imp And.right And.right), hside⟩

theorem preserved_iff_keepsFor :
    Preserved c m run ↔ ∀ s ∈ relays c m, ∀ s' ∈ relays c m, s ≠ s' → Shares c m s s' →
      ∀ n, Reads c m s n → KeepsFor c m run s s' n := by
  constructor
  · intro h s hs s' hs' hne hshares
    obtain ⟨i, rfl⟩ := List.mem_iff_get.mp hs
    obtain ⟨j, rfl⟩ := List.mem_iff_get.mp hs'
    exact keptFrom_runEvents.mp (h i j hne ((overlaps_iff hs hs').mpr hshares))
  · intro h i j hne hoverlap
    have hi := List.get_mem (relays c m) i
    have hj := List.get_mem (relays c m) j
    exact keptFrom_runEvents.mpr (h _ hi _ hj hne ((overlaps_iff hi hj).mp hoverlap))

/-- What a copy keeps over the run it keeps in the call of its layer's tail. -/
theorem not_ahead_of_keepsFor (hlayers : layers.Nodup)
    (hsteps : run.flatMap Call.steps = layerSteps layers) {s s' : Shell Dev} (hstage : s.stage ≠ .tail)
    (hserved : ∃ call ∈ run, ∃ v ∈ callVisits c m call, v.Before c m s ∨ v.After c m s) {x : ℕ}
    {call : Call Dev} (hx : run[x]? = some call) (htail : Step.tail s.layer ∈ call.steps)
    (hhead : servedStep s' ∈ call.steps) {n j : ℕ} {v : Visit Dev} (hj : (callVisits c m call)[j]? = some v)
    (hn : n ∈ v.nodes c) (hkept : KeepsFor c m run s s' n) : ¬ Ahead c m (callVisits c m call) s' j := by
  intro hahead
  obtain ⟨t, ht, hstop⟩ := stopsAt_of_ahead hx hahead
  obtain ⟨t', hstop', hall⟩ := hkept _ v (getElem?_visits.mpr ⟨x, call, j, hx, hj, rfl⟩) hn t ht hstop
  obtain ⟨first, hfirst, u, hu, hside⟩ := hserved
  obtain ⟨w, hw⟩ := List.mem_iff_getElem?.mp hfirst
  obtain ⟨k, hk⟩ := List.mem_iff_getElem?.mp hu
  have hsu : StopsAt c m (visits c m run) (2 * (offset (callVisits c m) run w + k)) s ∨
      StopsAt c m (visits c m run) (2 * (offset (callVisits c m) run w + k) + 1) s := by
    have hget := getElem?_visits.mpr ⟨w, first, k, hw, hk, rfl⟩
    exact hside.imp (fun h => ⟨_, u, hget, Or.inl ⟨rfl, h⟩⟩) fun h => ⟨_, u, hget, Or.inr ⟨rfl, h⟩⟩
  have hbefore : t' < 2 * (offset (callVisits c m) run w + k) + 1 := by
    rcases hsu with h | h
    · have := hall _ h
      omega
    · exact hall _ h
  -- the head of the copy's layer runs in an earlier call than its tail
  have hwx : w < x := head_before_tail hlayers hsteps hw hx (servedStep_head hstage ▸ servedStep_of_visit hu hside) htail
  obtain ⟨x', call', j', v', hx', hj', hserved', hside'⟩ := stopsAt_call hstop'
  obtain rfl := step_index hlayers hsteps hx hx' hhead hserved'
  have hlt := offset_add_lt hw hk hwx
  omega

theorem keepsFront_of_keepsFor (hlayers : layers.Nodup)
    (hsteps : run.flatMap Call.steps = layerSteps layers)
    (hkept : ∀ s ∈ relays c m, ∀ s' ∈ relays c m, s ≠ s' → Shares c m s s' →
      ∀ n, Reads c m s n → KeepsFor c m run s s' n) {call : Call Dev} (hcall : call ∈ run) :
    KeepsFront c m run call := by
  obtain ⟨x, hx⟩ := List.mem_iff_getElem?.mp hcall
  have hserves : ∀ s ∈ relays c m, s.stage ≠ .tail → (∃ call ∈ run, Served c m s call) →
      ∃ call ∈ run, ∃ v ∈ callVisits c m call, v.Before c m s ∨ v.After c m s := by
    rintro s hs hstage ⟨first, hfirst, h⟩
    obtain ⟨w, hw⟩ := List.mem_iff_getElem?.mp hfirst
    exact ⟨first, hfirst, (served_iff hs hstage fun L K => parts_ne hlayers hsteps hw).mpr h⟩
  cases call with
  | head L => trivial
  | closure L => trivial
  | tail L => trivial
  | tailHead L K =>
    intro s hs s' hs' hstage hstage' hlayer hlayer' hshares hserved n hn hreads j hj
    have hLK : L ≠ K := parts_ne hlayers hsteps hx (by simp [Call.steps]) (by simp [Call.steps])
    have hne : s ≠ s' := fun h => hLK (by rw [← hlayer, ← hlayer', h])
    obtain ⟨seg, hseg, hmem⟩ := id hj
    refine (not_ahead_iff hLK hn hj ((reader_of_reads hreads).dev.trans hshares.1)).mp fun h => ?_
    refine not_ahead_of_keepsFor hlayers hsteps hstage (hserves s hs hstage hserved) hx
      (by simp [Call.steps, hlayer]) (by simp [Call.steps, servedStep_head hstage', hlayer'])
      (getElem?_fused.mpr ⟨seg, hseg, rfl⟩) hmem (hkept s hs s' hs' hne hshares n hreads) ?_
    exact (ahead_fused hs' hLK hstage' hlayer' j).mpr h
  | deviceGraph L next D =>
    cases next with
    | none => trivial
    | some K =>
      intro s hs s' hs' hstage hstage' hlayer hlayer' hshares hserved n hmem hn hreads hdev
      have hLK : L ≠ K := parts_ne hlayers hsteps hx (by simp [Call.steps]) (by simp [Call.steps])
      have hne : s ≠ s' := fun h => hLK (by rw [← hlayer, ← hlayer', h])
      by_contra hproducer
      refine not_ahead_of_keepsFor hlayers hsteps hstage (hserves s hs hstage hserved) hx
        (by simp [Call.steps, hlayer]) (by simp [Call.steps, servedStep_head hstage', hlayer'])
        (j := 0) (v := .stretch (graphStretch c L (some K) D)) rfl hmem
        (hkept s hs s' hs' hne hshares n hreads) ?_
      exact (ahead_graph hs' hLK hstage' hlayer' D).mpr ⟨hdev, hproducer⟩

/-- A copy keeps its bytes from one of its slot for a reader outside the closures. -/
theorem keepsFor_of_keepsFront (hlayers : layers.Nodup)
    (hsteps : run.flatMap Call.steps = layerSteps layers)
    (hkeeps : ∀ call ∈ run, KeepsFront c m run call) {s s' : Shell Dev} (hs : s ∈ relays c m)
    (hs' : s' ∈ relays c m) (hne : s ≠ s') (hslot : inTailSlot s = inTailSlot s') (hshares : Shares c m s s')
    {n : ℕ} (hreads : Reads c m s n) (hopen : ∀ L, n ∉ c.compute L) : KeepsFor c m run s s' n := by
  intro y v hv hn t ht hstop
  by_contra hno
  push Not at hno
  obtain ⟨i, last, j, hi, hj, rfl⟩ := getElem?_visits.mp hv
  obtain ⟨x, mid, k, v', hx, hk, hmid, hside⟩ := stopsAt_call hstop
  obtain ⟨u, hu, hle⟩ := hno t hstop
  obtain ⟨w, first, k₀, v₀, hw, hk₀, hfirst, hside₀⟩ := stopsAt_call hu
  have hwx : w ≤ x := by
    by_contra hlt
    have := offset_add_lt hx hk (Nat.lt_of_not_le hlt)
    omega
  have hxi : x ≤ i := by
    by_contra hlt
    have := offset_add_lt hi hj (Nat.lt_of_not_le hlt)
    omega
  have hnode := mem_callNodes (List.mem_of_getElem? hj) hn
  obtain ⟨rfl, htail, hlast, hstage, hstage'⟩ := turn_in_reader_call hlayers hsteps hs hs' hne hslot hshares
    hw hx hi hwx hxi hfirst hmid hreads hopen hnode
  rw [hi] at hx
  obtain rfl := Option.some.inj hx
  have hserved : ∃ call ∈ run, Served c m s call :=
    ⟨first, List.mem_of_getElem? hw, (served_iff hs hstage fun L K => parts_ne hlayers hsteps hw).mp
      ⟨v₀, List.mem_of_getElem? hk₀, hside₀.imp And.right And.right⟩⟩
  have hahead : Ahead c m (callVisits c m last) s' j :=
    ⟨k, v', hk, hside.imp (fun h => ⟨by omega, h.2⟩) fun h => ⟨by omega, h.2⟩⟩
  have hkeep := hkeeps last (List.mem_of_getElem? hi)
  have hLK := parts_ne hlayers hsteps hi hlast (servedStep_head hstage' ▸ hmid)
  obtain rfl | ⟨D, rfl⟩ := call_of_parts hlast (servedStep_head hstage' ▸ hmid)
  · cases j with
    | zero =>
      cases hj
      exact absurd hn List.not_mem_nil
    | succ j =>
      obtain ⟨seg, hseg, rfl⟩ := getElem?_fused.mp hj
      have hat : SegHas c m (c.tail s.layer ++ c.head s'.layer) j n := ⟨seg, hseg, hn⟩
      have hcond := hkeep s hs s' hs' hstage hstage' rfl rfl hshares hserved n htail hreads j hat
      exact (not_ahead_iff hLK htail hat ((reader_of_reads hreads).dev.trans hshares.1)).mpr hcond
        ((ahead_fused hs' hLK hstage' rfl j).mp hahead)
  · have hzero : j = 0 := by
      have hlen := (List.getElem?_eq_some_iff.mp hj).1
      simpa [callVisits] using hlen
    subst hzero
    obtain ⟨hdev, hnot⟩ := (ahead_graph hs' hLK hstage' rfl D).mp hahead
    exact hnot (hkeep s hs s' hs' hstage hstage' rfl rfl hshares hserved n hnode htail hreads hdev)

/-- Over a run that goes through the layers part by part the copies are preserved exactly if every call
that takes a tail with the next head keeps the copies that tail reads, and the odd pairs are kept, of which
there are none if the copies for tails fit and no reader is in a closure. -/
theorem preserved_iff_keepsFront (c : Capture) (m : Placement Dev) (layers : List ℕ)
    (hlayers : layers.Nodup) (run : List (Call Dev)) (hsteps : run.flatMap Call.steps = layerSteps layers) :
    (Preserved c m run ↔ (∀ call ∈ run, KeepsFront c m run call) ∧ OddKept c m run) ∧
      (TailsFit c m → ReadersOpen c m → OddKept c m run) := by
  refine ⟨preserved_iff_keepsFor.trans ⟨fun h => ⟨fun call hcall => ?_, ?_⟩, ?_⟩, ?_⟩
  · exact keepsFront_of_keepsFor hlayers hsteps h hcall
  · exact fun s hs s' hs' hne hshares n hn _ => h s hs s' hs' hne hshares n hn
  · rintro ⟨hkeeps, hodd⟩ s hs s' hs' hne hshares n hn
    by_cases hpair : inTailSlot s ≠ inTailSlot s' ∨ ∃ L, n ∈ c.compute L
    · exact hodd s hs s' hs' hne hshares n hn hpair
    · push Not at hpair
      exact keepsFor_of_keepsFront hlayers hsteps hkeeps hs hs' hne hpair.1 hshares hn hpair.2
  · intro hfit hopen s hs s' hs' _ hshares n hn hpair
    rcases hpair with hslot | ⟨L, hL⟩
    · refine absurd hshares fun hshares => ?_
      obtain ⟨hdev, hmeets⟩ := hshares
      unfold place at hmeets
      by_cases hstage : s.stage = .tail
      · have hstage' : s'.stage ≠ .tail := by
          intro h
          exact hslot (by simp [inTailSlot, hstage, h])
        have hle := hfit s hs hstage
        rw [hdev] at hle
        simp only [hstage, hstage', if_true, if_false] at hmeets
        omega
      · have hstage' : s'.stage = .tail := by
          by_contra h
          exact hslot (by simp [inTailSlot, hstage, h])
        have hle := hfit s' hs' hstage'
        rw [← hdev] at hle
        simp only [hstage, hstage', if_true, if_false] at hmeets
        omega
    · exact absurd hL (hopen s hs n hn L)

end preserved

section scaled

/-- A layer with a closure whose tail reads an input its head has read too, and the head of the
next layer, which reads the other input. -/
def scaledGraph : Graph :=
  Graph.ofList
    [{ nbytes := 64, name := "inp_embd" },
      { nbytes := 64, name := "inp_scale" },
      { op := .other 1, src := [some 1, some 0], nbytes := 64, name := "attn_norm-0" },
      { op := .mulMatId, src := [none, some 2], nbytes := 64, name := "ffn_moe_down-0" },
      { op := .add, src := [some 3], nbytes := 64, name := "ffn_moe_out-0" },
      { op := .add, src := [some 4, some 1], nbytes := 64, name := "l_out-0" },
      { op := .add, src := [some 5, some 0], nbytes := 64, name := "attn_norm-1" }]
    [2, 3, 4, 5, 6] (by decide) (by decide)

theorem exec_sorted_scaled : ([(0, [3, 4])] : List (ℕ × List ℕ)).Pairwise fun a b => a.1 < b.1 :=
  List.pairwise_singleton _ _

def scaledCapture : Capture where
  graph := scaledGraph
  official _ := none
  exec := [(0, [3, 4])]
  exec_sorted := exec_sorted_scaled
  exec_nodes := by decide

/-- Every node on device 1, the inputs on the host but for those in `resident`. -/
def scaledPlacement (resident : List ℕ) : Placement ℕ where
  physical _ := 1
  leafDev p := if p ∈ resident then some 1 else none
  host := 0
  closureDev := 1
  exportRetained := []
  compactPack := true

def scaledRun : List (Call ℕ) := layerCalls (fun _ => .nothing) (fun _ => 1) [0, 1]

/-- Closures that hold nodes of their own layers. -/
theorem readersOpen_of_nlayer {c : Capture} {m : Placement Dev}
    (h : ∀ e ∈ c.exec, ∀ n ∈ e.2, c.nlayer n = some e.1) : ReadersOpen c m := by
  intro s _ n hreads L hmem
  have hreader := reader_of_reads hreads
  unfold compute at hmem
  cases hexec : c.layerExec L with
  | none =>
    rw [hexec] at hmem
    cases hmem
  | some l =>
    rw [hexec] at hmem
    have hlayer := h _ (mem_exec hexec) n hmem
    rw [nlayer_eq_some.mpr hreader.layer] at hlayer
    cases hlayer
    refine hreader.outside ?_
    rw [compute, hexec]
    exact hmem

/-- The same with the head of layer 1 on device 2. -/
def apartPlacement : Placement ℕ := { scaledPlacement [] with physical := fun p => if p = 6 then 2 else 1 }

/-- On another device the copies of layer 1 leave the scale alone, which the tail of layer 0 reads. -/
theorem preserved_apart :
    [0, 1].Nodup ∧ scaledRun.flatMap Call.steps = layerSteps [0, 1] ∧ 5 ∈ scaledCapture.tail 0 ∧
      Reads scaledCapture apartPlacement ⟨1, 1, .layerFront, 0⟩ 5 ∧
      Preserved scaledCapture apartPlacement scaledRun := by
  obtain ⟨hiff, hodd⟩ := preserved_iff_keepsFront scaledCapture apartPlacement [0, 1] (by decide) scaledRun
    (layerCalls_steps _ _ [0, 1])
  have hfit : TailsFit scaledCapture apartPlacement := by
    have htail : ∀ s ∈ relays scaledCapture apartPlacement, s.stage ≠ .tail := by decide
    exact fun s hs hstage => absurd hstage (htail s hs)
  have hapart : ∀ s ∈ relays scaledCapture apartPlacement, ∀ s' ∈ relays scaledCapture apartPlacement,
      s.layer = 0 → s'.layer = 1 → s.dev ≠ s'.dev := by decide
  refine ⟨by decide, layerCalls_steps _ _ [0, 1], by decide, by decide, hiff.mpr ⟨fun call hcall => ?_, ?_⟩⟩
  · have hrun : call ∈ ([.head 0, .closure 0, .tailHead 0 1, .closure 1, .tail 1] : List (Call ℕ)) := hcall
    simp only [List.mem_cons, List.not_mem_nil, or_false] at hrun
    rcases hrun with rfl | rfl | rfl | rfl | rfl
    · trivial
    · trivial
    · intro s hs s' hs' _ _ hlayer hlayer' hshares
      exact absurd hshares.1 (hapart s hs s' hs' hlayer hlayer')
    · trivial
    · trivial
  · exact hodd hfit (readersOpen_of_nlayer (by decide))

/-- The copies of the scale for layer 0 and of the embedding for layer 1. -/
def scaleCopy : Fin (relays scaledCapture (scaledPlacement [])).length := ⟨0, by decide⟩

def embdCopy : Fin (relays scaledCapture (scaledPlacement [])).length := ⟨3, by decide⟩

/-- With both inputs on the host the copy of the embedding for layer 1 is made over the copy of the
scale before the tail of layer 0 reads that. -/
theorem scale_overwritten :
    ¬ Preserved scaledCapture (scaledPlacement []) scaledRun := by
  intro hpreserved
  have hscale : (relays scaledCapture (scaledPlacement [])).get scaleCopy = ⟨1, 1, .layerFront, 0⟩ := by
    decide
  have hembd : (relays scaledCapture (scaledPlacement [])).get embdCopy = ⟨0, 1, .layerFront, 1⟩ := by
    decide
  have hoff : slotOff scaledCapture (scaledPlacement []) ⟨1, 1, .layerFront, 0⟩ =
      slotOff scaledCapture (scaledPlacement []) ⟨0, 1, .layerFront, 1⟩ := by
    decide +kernel
  have hoverlap : Overlaps scaledCapture (scaledPlacement [])
      ((relays scaledCapture (scaledPlacement [])).get scaleCopy)
      ((relays scaledCapture (scaledPlacement [])).get embdCopy) := by
    rw [hscale, hembd]
    exact overlaps_of_slotOff rfl rfl hoff (by decide) (by decide)
  have hfirst : CopiedAt (runEvents scaledCapture (scaledPlacement []) scaledRun) 0 scaleCopy := by
    decide
  have hsecond : CopiedAt (runEvents scaledCapture (scaledPlacement []) scaledRun) 9 embdCopy := by
    decide
  have hran : RanAt (runEvents scaledCapture (scaledPlacement []) scaledRun) 10 5 := by decide
  have hlt := hpreserved scaleCopy embdCopy (by decide) hoverlap 0 9 hfirst hsecond (by decide) 5
    (by decide) 10 hran
  omega

end scaled

end ShellReuse
end StreamMoE
