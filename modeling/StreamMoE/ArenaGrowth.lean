import Mathlib.Data.List.Dedup
import Mathlib.Data.List.Nodup
import StreamMoE.OperandLocality

/-! The arena buffers over a sequence of graph builds: which are live, and which a plan holds. -/
namespace StreamMoE
namespace ArenaGrowth

open ComputeGraph LayerPlan LayerPlan.Capture ArenaLayout

section model

variable {Dev : Type*} [DecidableEq Dev]

structure RegionPlan where
  buf : Option ℕ := none
  cap : ℕ := 0
  deriving DecidableEq, Repr

structure Buffer (Dev : Type*) where
  id : ℕ
  dev : Dev
  size : ℕ
  deriving DecidableEq, Repr

/-- The plans by device, the live buffers, and the number of the next one. -/
structure Arena (Dev : Type*) where
  plans : Dev → RegionPlan
  live : List (Buffer Dev)
  next : ℕ

/-- No plans and no buffers. -/
def Arena.empty : Arena Dev := { plans := fun _ => {}, live := [], next := 0 }

/-- The input of a build: the captured graph, its placement, and the devices whose buffer type is there
and grants the memory. -/
structure Build (Dev : Type*) where
  capture : Capture
  placement : Placement Dev
  granted : Dev → Bool

/-- The keys of `plans` -/
def Build.devices (b : Build Dev) : List Dev :=
  if b.capture.layers = [] then []
  else (b.capture.graph.nodes.filterMap (devOf b.capture b.placement)).dedup

def Build.need (b : Build Dev) (D : Dev) : ℕ := ArenaLayout.need b.capture b.placement D

/-- The buffer of one device: `if (plan.need > plan.cap)` -/
def growBuffer (b : Build Dev) (s : Arena Dev) (D : Dev) : Arena Dev :=
  let plan := s.plans D
  if b.need D > plan.cap then
    let live := match plan.buf with
      | some i => s.live.filter fun x => decide (x.id ≠ i)
      | none => s.live
    if b.granted D then
      { plans := Function.update s.plans D { buf := some s.next, cap := b.need D }
        live := live ++ [{ id := s.next, dev := D, size := b.need D }]
        next := s.next + 1 }
    else { s with plans := Function.update s.plans D {}, live }
  else s

/-- `layout_arena`: the plans of a build begin as new ones and replace the old plans at the end. -/
def layoutArena (s : Arena Dev) (b : Build Dev) : Arena Dev :=
  if b.capture.layers = [] then s
  else b.devices.foldl (growBuffer b) { s with plans := fun _ => {} }

/-- One build keeps the buffers: one live buffer for each device, and a buffer that the build finds for a
device it plans stays or, too small for it, is freed; the capacity does not go down. -/
structure Kept (b : Build Dev) (s s' : Arena Dev) : Prop where
  one : (s'.live.map Buffer.dev).Nodup
  replaced : ∀ x ∈ s.live, x.dev ∈ b.devices →
    (s'.plans x.dev).buf = some x.id ∨ x.size < b.need x.dev ∧ x ∉ s'.live
  capacity : ∀ x ∈ s.live, x.dev ∈ b.devices → x.size ≤ (s'.plans x.dev).cap

/-- Every build of a run keeps the buffers that it finds. -/
def KeptAll : Arena Dev → List (Build Dev) → Prop
  | _, [] => True
  | s, b :: bs => Kept b s (layoutArena s b) ∧ KeptAll (layoutArena s b) bs

/-- The devices that a build gives a buffer. -/
def Build.given (b : Build Dev) : List Dev := b.devices.filter b.granted

end model

section grow

variable {Dev : Type*} [DecidableEq Dev] {b : Build Dev} {s : Arena Dev}

theorem need_pos (b : Build Dev) (D : Dev) : 0 < b.need D := by
  unfold Build.need ArenaLayout.need
  omega

theorem devices_nodup (b : Build Dev) : b.devices.Nodup := by
  unfold Build.devices
  split
  · exact List.nodup_nil
  · exact List.nodup_dedup _

/-- A plan without a buffer takes a new one if it is granted. -/
theorem growBuffer_fresh {D : Dev} (h : s.plans D = {}) :
    growBuffer b s D =
      if b.granted D then
        { plans := Function.update s.plans D { buf := some s.next, cap := b.need D }
          live := s.live ++ [{ id := s.next, dev := D, size := b.need D }]
          next := s.next + 1 }
      else { s with plans := Function.update s.plans D {} } := by
  unfold growBuffer
  simp only [h, if_pos (need_pos b D)]

/-- What new plans do for some devices: live buffers stay, each device that is granted one gets a buffer
of its own, and no plan holds an older one. -/
structure Grown (b : Build Dev) (ds : List Dev) (s s' : Arena Dev) (new : List (Buffer Dev)) : Prop where
  live : s'.live = s.live ++ new
  devs : new.map Buffer.dev = ds.filter b.granted
  next : s.next ≤ s'.next
  ids : ∀ x ∈ new, s.next ≤ x.id ∧ x.id < s'.next
  plans : ∀ D ∈ ds, ∀ i, (s'.plans D).buf = some i → s.next ≤ i
  others : ∀ D ∉ ds, s'.plans D = s.plans D

theorem exists_grown (ds : List Dev) (hnodup : ds.Nodup) (s : Arena Dev) (hfresh : ∀ D ∈ ds, s.plans D = {}) :
    ∃ new, Grown b ds s (ds.foldl (growBuffer b) s) new := by
  induction ds generalizing s with
  | nil => exact ⟨[], by simp, rfl, le_refl _, by simp, by simp, fun _ _ => rfl⟩
  | cons D ds ih =>
    obtain ⟨hD, hnodup⟩ := List.nodup_cons.mp hnodup
    obtain ⟨hfirst, hfresh⟩ := List.forall_mem_cons.mp hfresh
    rw [List.foldl_cons, growBuffer_fresh hfirst]
    have hother : ∀ E ∈ ds, E ≠ D := fun E hE heq => hD (heq ▸ hE)
    split
    case isTrue hgrant =>
      obtain ⟨new, h⟩ := ih hnodup
        { plans := Function.update s.plans D { buf := some s.next, cap := b.need D }
          live := s.live ++ [{ id := s.next, dev := D, size := b.need D }], next := s.next + 1 }
        (fun E hE => by simp only [Function.update_of_ne (hother E hE), hfresh E hE])
      refine ⟨{ id := s.next, dev := D, size := b.need D } :: new, ?_, ?_, ?_, ?_, ?_, ?_⟩
      · simp [h.live]
      · rw [List.map_cons, h.devs, List.filter_cons_of_pos hgrant]
      · have hnext := h.next
        simp only at hnext
        omega
      · have hnext := h.next
        simp only at hnext
        refine List.forall_mem_cons.mpr ⟨⟨le_refl _, by simp only; omega⟩, fun x hx => ?_⟩
        have hids := h.ids x hx
        simp only at hids
        omega
      · intro E hE i hi
        rcases List.mem_cons.mp hE with rfl | hmem
        · rw [h.others E hD] at hi
          simp only [Function.update_self, Option.some.injEq] at hi
          omega
        · have hplan := h.plans E hmem i hi
          simp only at hplan
          omega
      · intro E hE
        obtain ⟨hne, hnot⟩ := not_or.mp (mt List.mem_cons.mpr hE)
        rw [h.others E hnot]
        exact Function.update_of_ne hne ..
    case isFalse hgrant =>
      obtain ⟨new, h⟩ := ih hnodup { s with plans := Function.update s.plans D {} }
        (fun E hE => by simp only [Function.update_of_ne (hother E hE), hfresh E hE])
      refine ⟨new, h.live, ?_, h.next, h.ids, ?_, ?_⟩
      · rw [h.devs, List.filter_cons_of_neg hgrant]
      · intro E hE i hi
        rcases List.mem_cons.mp hE with rfl | hmem
        · rw [h.others E hD] at hi
          simp at hi
        · exact h.plans E hmem i hi
      · intro E hE
        obtain ⟨hne, hnot⟩ := not_or.mp (mt List.mem_cons.mpr hE)
        rw [h.others E hnot]
        exact Function.update_of_ne hne ..

/-- A build frees no buffer; the plans of its devices hold new ones. -/
theorem layoutArena_grown (s : Arena Dev) (b : Build Dev) : ∃ new, (layoutArena s b).live = s.live ++ new ∧
    new.map Buffer.dev = b.given ∧ s.next ≤ (layoutArena s b).next ∧
    (∀ x ∈ new, x.id < (layoutArena s b).next) ∧
    ∀ D ∈ b.devices, ∀ i, ((layoutArena s b).plans D).buf = some i → s.next ≤ i := by
  unfold layoutArena
  split
  case isTrue hnone =>
    refine ⟨[], by simp, ?_, le_refl _, by simp, ?_⟩
    · simp [Build.given, Build.devices, hnone]
    · simp [Build.devices, hnone]
  case isFalse =>
    obtain ⟨new, h⟩ := exists_grown b.devices (devices_nodup b) { s with plans := fun _ => {} } (b := b)
      fun _ _ => rfl
    exact ⟨new, h.live, h.devs, h.next, fun x hx => (h.ids x hx).2, h.plans⟩

end grow

section runs

variable {Dev : Type*} [DecidableEq Dev] {b : Build Dev} {s : Arena Dev}

/-- The live buffers belong to different devices and have numbers that were given out. -/
structure Owned (s : Arena Dev) : Prop where
  one : (s.live.map Buffer.dev).Nodup
  ids : ∀ x ∈ s.live, x.id < s.next

theorem given_subset (b : Build Dev) : b.given ⊆ b.devices := List.filter_subset_self _

/-- A build keeps the buffers exactly if it plans no device that has one. -/
theorem kept_iff (h : Owned s) : Kept b s (layoutArena s b) ↔ ∀ x ∈ s.live, x.dev ∉ b.devices := by
  obtain ⟨new, hlive, hdevs, hnext, hids, hplans⟩ := layoutArena_grown s b
  constructor
  · intro hkept x hx hdev
    rcases hkept.replaced x hx hdev with hbuf | ⟨-, hfreed⟩
    · have hlow := hplans x.dev hdev x.id hbuf
      have hhigh := h.ids x hx
      omega
    · exact hfreed (hlive ▸ List.mem_append_left _ hx)
  · intro hnone
    refine ⟨?_, fun x hx hdev => absurd hdev (hnone x hx), fun x hx hdev => absurd hdev (hnone x hx)⟩
    rw [hlive, List.map_append, hdevs]
    refine h.one.append ((devices_nodup b).filter _) fun D hD hgiven => ?_
    obtain ⟨x, hx, rfl⟩ := List.mem_map.mp hD
    exact hnone x hx (given_subset b hgiven)

theorem owned_step (h : Owned s) (hkept : Kept b s (layoutArena s b)) : Owned (layoutArena s b) := by
  obtain ⟨new, hlive, -, hnext, hids, -⟩ := layoutArena_grown s b
  refine ⟨hkept.one, fun x hx => ?_⟩
  rw [hlive] at hx
  rcases List.mem_append.mp hx with hold | hnew
  · have hlt := h.ids x hold
    omega
  · exact hids x hnew

theorem live_devs (s : Arena Dev) (b : Build Dev) (D : Dev) :
    D ∈ (layoutArena s b).live.map Buffer.dev ↔ D ∈ s.live.map Buffer.dev ∨ D ∈ b.given := by
  obtain ⟨new, hlive, hdevs, -⟩ := layoutArena_grown s b
  rw [hlive, List.map_append, hdevs, List.mem_append]

theorem keptAll_from (h : Owned s) (bs : List (Build Dev)) :
    KeptAll s bs ↔ (∀ b ∈ bs, ∀ D ∈ s.live.map Buffer.dev, D ∉ b.devices) ∧
      bs.Pairwise fun b c => ∀ D ∈ b.given, D ∉ c.devices := by
  induction bs generalizing s with
  | nil => simp [KeptAll]
  | cons b bs ih =>
    have hstep : Kept b s (layoutArena s b) ↔ ∀ D ∈ s.live.map Buffer.dev, D ∉ b.devices := by
      rw [kept_iff h, List.forall_mem_map]
    rw [KeptAll, hstep, List.pairwise_cons, List.forall_mem_cons]
    constructor
    · rintro ⟨hhead, hrest⟩
      obtain ⟨hlive, hpairs⟩ := (ih (owned_step h (hstep.mpr hhead))).mp hrest
      refine ⟨⟨hhead, fun c hc D hD => ?_⟩, fun c hc D hD => ?_, hpairs⟩
      · exact hlive c hc D ((live_devs s b D).mpr (.inl hD))
      · exact hlive c hc D ((live_devs s b D).mpr (.inr hD))
    · rintro ⟨⟨hhead, hold⟩, hgiven, hpairs⟩
      refine ⟨hhead, (ih (owned_step h (hstep.mpr hhead))).mpr ⟨fun c hc D hD => ?_, hpairs⟩⟩
      rcases (live_devs s b D).mp hD with hlive | hnew
      · exact hold c hc D hlive
      · exact hgiven c hc D hnew

omit [DecidableEq Dev] in
theorem owned_empty : Owned (Arena.empty : Arena Dev) := ⟨List.nodup_nil, by simp [Arena.empty]⟩

/-- The builds of a run keep the arena buffers exactly if no build plans a device that an earlier one has
given a buffer. -/
theorem layoutArena_kept_iff (bs : List (Build Dev)) :
    KeptAll Arena.empty bs ↔ bs.Pairwise fun b c => ∀ D ∈ b.given, D ∉ c.devices := by
  rw [keptAll_from owned_empty]
  simp [Arena.empty]

/-- Two builds of the same graph on one device. -/
def sameBuild : Build ℕ where
  capture := OperandLocality.splitCapture
  placement := OperandLocality.splitPlacement 1
  granted _ := true

theorem not_layoutArena_kept :
    ([sameBuild, sameBuild].foldl layoutArena Arena.empty).live =
        [{ id := 0, dev := 1, size := sameBuild.need 1 }, { id := 1, dev := 1, size := sameBuild.need 1 }] ∧
      ¬ KeptAll Arena.empty [sameBuild, sameBuild] := by
  have hdevices : sameBuild.devices = [1] := by decide
  have hlayers : ¬ sameBuild.capture.layers = [] := by decide
  have hgranted : sameBuild.granted 1 = true := rfl
  constructor
  · simp only [List.foldl_cons, List.foldl_nil, layoutArena, if_neg hlayers, hdevices]
    rw [growBuffer_fresh rfl, if_pos hgranted, growBuffer_fresh rfl, if_pos hgranted]
    rfl
  · intro hkept
    have htwo := ((keptAll_from owned_empty _).mp hkept).2
    refine (List.pairwise_cons.mp htwo).1 sameBuild List.mem_cons_self 1 ?_ ?_
    · rw [Build.given, hdevices]
      exact List.mem_singleton_self 1
    · rw [hdevices]
      exact List.mem_singleton_self 1

end runs

end ArenaGrowth
end StreamMoE
