import StreamMoE.ArenaRegions
import StreamMoE.LayoutRewrite
import StreamMoE.UnitOrder

/-! Where `layout_arena` puts a captured tensor in the buffer of its device: the first region that
has an offset for it. -/
namespace StreamMoE
namespace ArenaPlaces

open ByteMemory ComputeGraph LayerPlan LayerPlan.Capture Packing ArenaLayout ArenaRegions UnitOrder

section model

variable {Dev : Type*} [DecidableEq Dev] (c : Capture) (m : Placement Dev) (D : Dev)

/-- The offset recorded for `p`; a later one replaces an earlier. -/
def offsetIn (offs : List (ℕ × ℕ)) (p : ℕ) : Option ℕ :=
  (offs.reverse.find? fun x => decide (x.1 = p)).map Prod.snd

def place (p : ℕ) : Option ℕ :=
  (offsetIn (carry1Offsets c m D) p).or
    (((offsetIn (carryNOffsets c m D) p).map (offCarryN c m D + ·)).or
      (((offsetIn (syncOffsets c m D) p).map (offSync c m D + ·)).or
        ((offsetIn (scratchOffsets c m D) p).map (offScratch c m D + ·))))

/-- The tensors of a layer's half and of a unit's part of the sync region fit when each is rounded up. -/
structure Fits : Prop where
  carry1 : ∀ p ∈ onDevice c m D (carry1 c m),
    paddedBytes (layerOf c) c.graph.nbytes (onDevice c m D (carry1 c m)) (layerOf c p) ≤ carryHalf c m D
  sync : ∀ p ∈ onDevice c m D (sync c m),
    paddedBytes (unitOf c) c.graph.nbytes (onDevice c m D (sync c m)) (unitOf c p) ≤ syncSize c m D

/-- The region of a place, with the entry it comes from. -/
inductive PlacedIn (p : ℕ) : Region → ℕ → Prop
  | carry1 {off : ℕ} (h : (p, off) ∈ carry1Offsets c m D) :
      PlacedIn p (.carry1 (decide (layerOf c p % 2 ≠ 0))) off
  | carryN {off : ℕ} (h : (p, off) ∈ carryNOffsets c m D) : PlacedIn p .carryN (offCarryN c m D + off)
  | sync {off : ℕ} (h : (p, off) ∈ syncOffsets c m D) : PlacedIn p .sync (offSync c m D + off)
  | scratch {off : ℕ} (i : ℕ) (u : SubmissionUnit) (hu : c.units[i]? = some u)
      (h : (p, off) ∈ (window c m D u).1) : PlacedIn p .scratch (offScratch c m D + off)

end model

variable {Dev : Type*} {c : Capture} {m : Placement Dev} {D : Dev} {p off l : ℕ}

section entries

theorem offsetIn_some {offs : List (ℕ × ℕ)} (h : offsetIn offs p = some off) : (p, off) ∈ offs := by
  obtain ⟨⟨q, off'⟩, hf, rfl⟩ := Option.map_eq_some_iff.mp h
  have hq : q = p := of_decide_eq_true (List.find?_some (p := fun x : ℕ × ℕ => decide (x.1 = p)) hf)
  rw [← hq]
  exact List.mem_reverse.mp (List.mem_of_find?_eq_some hf)

theorem offsetIn_isSome {offs : List (ℕ × ℕ)} (h : p ∈ offs.map Prod.fst) : (offsetIn offs p).isSome := by
  obtain ⟨x, hx, rfl⟩ := List.mem_map.mp h
  unfold offsetIn
  rw [Option.isSome_map, List.find?_isSome]
  exact ⟨x, List.mem_reverse.mpr hx, decide_eq_true rfl⟩

theorem mem_byAddr {ps : List ℕ} : p ∈ byAddr c ps ↔ p ∈ ps := (List.perm_insertionSort _ _).mem_iff

theorem mem_carry1 : p ∈ carry1 c m ↔ (p ∈ c.graph.nodes ∧ crossesLayer c p = true ∧
    c.graph.viewSrc p = none) ∧ isPipelined c p = true ∧ p ∉ retained c m := by
  simp [carry1, ownCarry, mem_byAddr]

theorem mem_carryN : p ∈ carryN c m ↔ p ∈ retained c m ∨ (p ∈ c.graph.nodes ∧ crossesLayer c p = true ∧
    c.graph.viewSrc p = none) ∧ isPipelined c p = false := by
  have hfold : ∀ ts cN : List ℕ, p ∈ ts.foldl (fun cN t => if t ∈ cN then cN else cN ++ [t]) cN ↔
      p ∈ ts ∨ p ∈ cN := by
    intro ts
    induction ts with
    | nil => simp
    | cons t ts ih =>
      intro cN
      rw [List.foldl_cons, ih, List.mem_cons]
      split
      · rename_i hin
        constructor
        · rintro (h | h)
          · exact .inl (.inr h)
          · exact .inr h
        · rintro ((rfl | h) | h)
          · exact .inr hin
          · exact .inl h
          · exact .inr h
      · rw [List.mem_append, List.mem_singleton]
        tauto
  rw [carryN, hfold]
  simp [ownCarry, mem_byAddr]

theorem mem_sync : p ∈ sync c m ↔ p ∈ c.graph.nodes ∧ isSync c m p = true := by
  simp [sync, mem_byAddr]

variable [DecidableEq Dev]

theorem mem_onDevice {ps : List ℕ} : p ∈ onDevice c m D ps ↔ p ∈ ps ∧ nodeDev c m p = D := by
  simp [onDevice]

theorem map_fst_carry1 : (carry1Offsets c m D).map Prod.fst = onDevice c m D (carry1 c m) := by
  rw [carry1Offsets, List.map_map]
  exact map_fst_bump _ _

theorem map_fst_carryN : (carryNOffsets c m D).map Prod.fst = onDevice c m D (carryN c m) := by
  rw [carryNOffsets, List.map_map]
  exact List.zipIdx_map_fst 0 _

theorem map_fst_sync : (syncOffsets c m D).map Prod.fst = onDevice c m D (sync c m) := map_fst_bump _ _

theorem carry1_entry (h : (p, off) ∈ carry1Offsets c m D) : p ∈ onDevice c m D (carry1 c m) := by
  rw [← map_fst_carry1]
  exact List.mem_map_of_mem h

theorem sync_entry (h : (p, off) ∈ syncOffsets c m D) : p ∈ onDevice c m D (sync c m) := by
  rw [← map_fst_sync]
  exact List.mem_map_of_mem h

theorem window_entry {u : SubmissionUnit} (h : (p, off) ∈ (window c m D u).1) :
    p ∈ windowNodes c m D u := by
  rw [← LayoutRewrite.map_fst_window]
  exact List.mem_map_of_mem h

theorem mem_windowNodes {u : SubmissionUnit} : p ∈ windowNodes c m D u ↔ p ∈ u.nodes ∧
    c.graph.viewSrc p = none ∧ isCarry c m p = false ∧ isSync c m p = false ∧ nodeDev c m p = D := by
  simp [windowNodes, and_assoc]

end entries

section places

variable [DecidableEq Dev]

theorem placedIn_of_place (h : place c m D p = some off) : ∃ r : Region, PlacedIn c m D p r off := by
  unfold place at h
  rcases Option.or_eq_some_iff.mp h with h | ⟨_, h⟩
  · exact ⟨_, .carry1 (offsetIn_some h)⟩
  · rcases Option.or_eq_some_iff.mp h with h | ⟨_, h⟩
    · obtain ⟨o, ho, rfl⟩ := Option.map_eq_some_iff.mp h
      exact ⟨_, .carryN (offsetIn_some ho)⟩
    · rcases Option.or_eq_some_iff.mp h with h | ⟨_, h⟩
      · obtain ⟨o, ho, rfl⟩ := Option.map_eq_some_iff.mp h
        exact ⟨_, .sync (offsetIn_some ho)⟩
      · obtain ⟨o, ho, rfl⟩ := Option.map_eq_some_iff.mp h
        obtain ⟨u, hu, hmem⟩ := List.mem_flatMap.mp (offsetIn_some ho)
        obtain ⟨i, hi, rfl⟩ := List.mem_iff_getElem.mp hu
        exact ⟨_, .scratch i _ (List.getElem?_eq_getElem hi) hmem⟩

theorem inside_of_placedIn (hfits : Fits c m D) {r : Region} (h : PlacedIn c m D p r off) :
    Region.Inside c m D r off (c.graph.nbytes p) := by
  have hlaid := laid c m D
  cases h with
  | carry1 h => exact hlaid.carry1_inside _ h (hfits.carry1 p (carry1_entry h))
  | carryN h => exact hlaid.carryN_inside _ h
  | sync h => exact hlaid.sync_inside _ h (hfits.sync p (sync_entry h))
  | scratch i u hu h =>
    exact hlaid.scratch_inside _ (List.mem_flatMap.mpr ⟨u, List.mem_of_getElem? hu, h⟩)

/-- Every captured tensor with storage of its own gets a place. -/
theorem place_isSome (h : Closures c) (hp : c.nlayer p = some l) (hown : c.graph.viewSrc p = none) :
    (place c m (nodeDev c m p) p).isSome := by
  have hnode : p ∈ c.graph.nodes := (List.mem_filter.mp (nlayer_eq_some.mp hp)).1
  simp only [place, Option.isSome_or, Option.isSome_map, Bool.or_eq_true]
  by_cases hret : p ∈ retained c m
  · refine .inr (.inl (offsetIn_isSome ?_))
    rw [map_fst_carryN, mem_onDevice, mem_carryN]
    exact ⟨.inl hret, rfl⟩
  · cases hcross : crossesLayer c p with
    | true =>
      cases hpipe : isPipelined c p with
      | true =>
        refine .inl (offsetIn_isSome ?_)
        rw [map_fst_carry1, mem_onDevice, mem_carry1]
        exact ⟨⟨⟨hnode, hcross, hown⟩, hpipe, hret⟩, rfl⟩
      | false =>
        refine .inr (.inl (offsetIn_isSome ?_))
        rw [map_fst_carryN, mem_onDevice, mem_carryN]
        exact ⟨.inr ⟨⟨hnode, hcross, hown⟩, hpipe⟩, rfl⟩
    | false =>
      have hcarry : isCarry c m p = false := by simp [isCarry, hcross, hret]
      cases hsync : isSync c m p with
      | true =>
        refine .inr (.inr (.inl (offsetIn_isSome ?_)))
        rw [map_fst_sync, mem_onDevice, mem_sync]
        exact ⟨⟨hnode, hsync⟩, rfl⟩
      | false =>
        obtain ⟨i, u, hu, hmem⟩ := exists_unit h hp
        refine .inr (.inr (.inr (offsetIn_isSome ?_)))
        have hwin : p ∈ (window c m (nodeDev c m p) u).1.map Prod.fst := by
          rw [LayoutRewrite.map_fst_window, mem_windowNodes]
          exact ⟨hmem, hown, hcarry, hsync, rfl⟩
        obtain ⟨x, hx, hxp⟩ := List.mem_map.mp hwin
        exact List.mem_map.mpr ⟨x, List.mem_flatMap.mpr ⟨u, List.mem_of_getElem? hu, hx⟩, hxp⟩

end places

end ArenaPlaces
end StreamMoE
