import StreamMoE.ConvertModel

/-! The plan of the writer under the names of the tensors, and the layout that `parse_model` takes from the
header of a converted file. -/
namespace StreamMoE
namespace ConvertModel

open BlockSplit (Failure)
open BlockMetadata (BlockFile Tensor branchOf triples takeBranches buildLayerBranches exactOffs)
open ChunkSet (Layout)
open DenseFill (SrcSeg)
open StripRange (ChunkFile)
open WriterPlan (Category Target alignUp Block)

section placement

def Entry.shape : Entry → TensorShape
  | .dense d => d.shape
  | .expert e => e.shape

def Entry.plain : Entry → WriterPlan.Item
  | .dense d => .dense d.plain
  | .expert e => .expert e.plain

@[simp] theorem Entry.size_plain (x : Entry) : x.plain.size = x.shape.size := by cases x <;> rfl

def placeEntries : ℕ → List Entry → List (Entry × ℕ)
  | _, [] => []
  | cur, x :: xs => (x, cur) :: placeEntries (alignUp (cur + x.shape.size)) xs

def Model.entries (m : Model) (target : Target) : List Entry :=
  (m.order target).map .dense ++ m.expert.map .expert

def Model.placed (m : Model) (target : Target) : List (Entry × ℕ) := placeEntries 0 (m.entries target)

variable {m : Model} {target : Target}

@[simp] theorem placeEntries_fst (cur : ℕ) (xs : List Entry) : (placeEntries cur xs).map Prod.fst = xs := by
  induction xs generalizing cur with
  | nil => rfl
  | cons x xs ih => rw [placeEntries, List.map_cons, ih]

theorem placed_fst : (m.placed target).map Prod.fst = m.entries target := placeEntries_fst 0 _

theorem placeItems_plain (cur : ℕ) (xs : List Entry) : WriterPlan.placeItems cur (xs.map Entry.plain) =
    (placeEntries cur xs).map fun x => (x.1.plain, x.2) := by
  induction xs generalizing cur with
  | nil => rfl
  | cons x xs ih => rw [List.map_cons, WriterPlan.placeItems, placeEntries, List.map_cons, ih, Entry.size_plain]

theorem placeShapes_eq (cur : ℕ) (xs : List Entry) : placeShapes cur (xs.map Entry.shape) =
    (placeEntries cur xs).map fun x => ⟨x.1.shape, UInt64.ofNat x.2⟩ := by
  induction xs generalizing cur with
  | nil => rfl
  | cons x xs ih => rw [List.map_cons, placeShapes, placeEntries, List.map_cons, ih]

theorem orderItems_plain : WriterPlan.orderItems m.plain target = (m.entries target).map Entry.plain := by
  unfold WriterPlan.orderItems Model.entries Model.order
  rw [List.map_append, List.map_map, List.map_map]
  split
  · simp [Model.plain, Entry.plain, Function.comp_def]
  · rw [Model.plain, ← List.map_insertionSort _ _ DenseTensor.plain _ fun a _ b _ => Iff.rfl, List.map_map,
      List.map_map]
    rfl

theorem items_plain : WriterPlan.items m.plain target = (m.placed target).map fun x => (x.1.plain, x.2) := by
  rw [WriterPlan.items, orderItems_plain, placeItems_plain]
  rfl

theorem tensors_eq (chunk : Option Chunk) : (makeHeader m target chunk).tensors =
    (m.placed target).map fun x => ⟨x.1.shape, UInt64.ofNat x.2⟩ := by
  have hshapes : (m.order target).map DenseTensor.shape ++ m.expert.map ExpertTensor.shape =
      (m.entries target).map Entry.shape := by
    rw [Model.entries, List.map_append, List.map_map, List.map_map]
    rfl
  simp only [makeHeader, hshapes, placeShapes_eq]
  rfl

theorem alignUp_mod (n : ℕ) : alignUp n % 4096 = 0 := by
  unfold alignUp
  omega

theorem alignUp_add {n : ℕ} (h : n % 4096 = 0) (k : ℕ) : alignUp (n + k) = n + alignUp k := by
  unfold alignUp
  omega

/-- Where an entry lies: at a multiple of the alignment and before the end of all. -/
theorem mem_placeEntries {xs : List Entry} {cur : ℕ} (hcur : cur % 4096 = 0) {x : Entry × ℕ}
    (h : x ∈ placeEntries cur xs) : x.1 ∈ xs ∧ x.2 % 4096 = 0 ∧
      x.2 + alignUp x.1.shape.size ≤ cur + (xs.map fun x => alignUp x.shape.size).sum := by
  induction xs generalizing cur with
  | nil => cases h
  | cons y ys ih =>
    rw [List.map_cons, List.sum_cons]
    rcases List.mem_cons.mp h with rfl | hmem
    · exact ⟨List.mem_cons_self, hcur, by dsimp only; omega⟩
    · obtain ⟨hin, hmod, hend⟩ := ih (alignUp_mod _) hmem
      rw [alignUp_add hcur] at hend
      exact ⟨List.mem_cons_of_mem _ hin, hmod, by omega⟩

theorem order_perm (m : Model) (target : Target) : (m.order target).Perm m.dense := by
  unfold Model.order
  split
  · exact .refl _
  · exact List.perm_insertionSort _ _

theorem mem_entries {x : Entry} (h : x ∈ m.entries target) :
    (∃ d ∈ m.dense, x = .dense d) ∨ ∃ e ∈ m.expert, x = .expert e := by
  rcases List.mem_append.mp h with h | h <;> obtain ⟨y, hy, rfl⟩ := List.mem_map.mp h
  · exact .inl ⟨y, (order_perm m target).mem_iff.mp hy, rfl⟩
  · exact .inr ⟨y, hy, rfl⟩

/-- The tensors of a file take up no more than the sum of their sizes. -/
theorem placed_end {x : Entry × ℕ} (h : x ∈ m.placed target) : x.2 % 4096 = 0 ∧
    x.2 + alignUp x.1.shape.size ≤
      (m.dense.map fun d => alignUp d.shape.size).sum + (m.expert.map fun e => alignUp e.shape.size).sum := by
  obtain ⟨_, hmod, hend⟩ := mem_placeEntries (Nat.zero_mod _) h
  have hperm := ((order_perm m target).map fun d => alignUp d.shape.size).sum_eq
  refine ⟨hmod, hend.trans (le_of_eq ?_)⟩
  rw [Model.entries, List.map_append, List.sum_append, List.map_map, List.map_map, ← hperm, Nat.zero_add]
  rfl

end placement

section blocks

variable {m : Model} {target : Target}

theorem blocksStart_le : WriterPlan.blocksStart (WriterPlan.items m.plain target) ≤
    (m.dense.map fun d => alignUp d.shape.size).sum + (m.expert.map fun e => alignUp e.shape.size).sum := by
  have hfold : ∀ (xs : List (WriterPlan.DenseTensor × ℕ)) (n bound : ℕ), n ≤ bound →
      (∀ x ∈ xs, x.2 + x.1.size ≤ bound) → xs.foldl (fun e x => max e (x.2 + x.1.size)) n ≤ bound := by
    intro xs
    induction xs with
    | nil => exact fun n bound h _ => h
    | cons x xs ih =>
      intro n bound hn hxs
      obtain ⟨hx, hxs⟩ := List.forall_mem_cons.mp hxs
      exact ih _ _ (max_le hn hx) hxs
  have hmod : ∀ {es : List ℕ}, (∀ e ∈ es, e % 4096 = 0) → es.sum % 4096 = 0 := by
    intro es
    induction es with
    | nil => exact fun _ => rfl
    | cons e es ih =>
      intro h
      obtain ⟨he, hes⟩ := List.forall_mem_cons.mp h
      have hsum := ih hes
      rw [List.sum_cons]
      omega
  have hdense : (m.dense.map fun d => alignUp d.shape.size).sum % 4096 = 0 :=
    hmod (List.forall_mem_map.mpr fun d _ => alignUp_mod _)
  have hexpert : (m.expert.map fun e => alignUp e.shape.size).sum % 4096 = 0 :=
    hmod (List.forall_mem_map.mpr fun e _ => alignUp_mod _)
  have hend := hfold (WriterPlan.denseItems (WriterPlan.items m.plain target) fun _ => true) 0
    ((m.dense.map fun d => alignUp d.shape.size).sum + (m.expert.map fun e => alignUp e.shape.size).sum)
    (Nat.zero_le _) (by
      intro x hx
      have hmem := WriterPlan.mem_denseItems hx
      rw [items_plain] at hmem
      obtain ⟨y, hy, hyx⟩ := List.mem_map.mp hmem
      obtain ⟨hplain, hoff⟩ := Prod.mk.inj hyx
      have hbound := (placed_end hy).2
      have hsize : y.1.shape.size = x.1.size := by rw [← Entry.size_plain, hplain]; rfl
      have hle := WriterPlan.le_alignUp y.1.shape.size
      omega)
  unfold WriterPlan.blocksStart alignUp at *
  omega

theorem branchEnd_mod {off : ℕ} (h : off % 4096 = 0) (es : List WriterPlan.ExpertTensor) :
    WriterPlan.branchEnd off es % 4096 = 0 := by
  induction es generalizing off with
  | nil => exact h
  | cons e es ih => exact ih (alignUp_mod _)

theorem placeBlocks_end {M : WriterPlan.Model} {les : List (ℕ × ℕ)} {cur : ℕ} {b : Block}
    (h : b ∈ WriterPlan.placeBlocks M cur les) : b.off + b.size ≤
      cur + (les.map fun le => WriterPlan.branchEnd 0 (WriterPlan.layerExperts M le.1)).sum := by
  induction les generalizing cur with
  | nil => cases h
  | cons le les ih =>
    rw [List.map_cons, List.sum_cons]
    rcases List.mem_cons.mp h with rfl | hmem
    · simp only
      omega
    · have hend := ih hmem
      omega

theorem placeBlocks_mod {M : WriterPlan.Model} {les : List (ℕ × ℕ)} {cur : ℕ} (hcur : cur % 4096 = 0) {b : Block}
    (h : b ∈ WriterPlan.placeBlocks M cur les) : b.off % 4096 = 0 := by
  induction les generalizing cur with
  | nil => cases h
  | cons le les ih =>
    have hsize := branchEnd_mod (Nat.zero_mod 4096) (WriterPlan.layerExperts M le.1)
    rcases List.mem_cons.mp h with rfl | hmem
    · exact hcur
    · exact ih (by omega) hmem

theorem placeBlocks_getElem? {M : WriterPlan.Model} (les : List (ℕ × ℕ)) (cur i : ℕ) :
    ((WriterPlan.placeBlocks M cur les)[i]?.map fun b => (b.layer, b.expert)) = les[i]? := by
  induction les generalizing cur i with
  | nil => rfl
  | cons le les ih =>
    cases i with
    | zero => rfl
    | succ i => exact ih _ i

theorem grid_getElem? {n k l e : ℕ} (hl : l < n) (he : e < k) :
    ((List.range n).flatMap fun l => (List.range k).map fun e => (l, e))[l * k + e]? = some (l, e) := by
  induction n with
  | zero => omega
  | succ n ih =>
    have hlen : ((List.range n).flatMap fun l => (List.range k).map fun e => (l, e)).length = n * k := by
      simp
    rw [List.range_succ, List.flatMap_append, List.flatMap_singleton]
    rcases Nat.lt_or_ge l n with hlt | hge
    · have hin : l * k + e < n * k := by
        have hmul := Nat.mul_le_mul_right k (Nat.succ_le_of_lt hlt)
        rw [Nat.succ_mul] at hmul
        omega
      rw [List.getElem?_append_left (by omega), ih hlt]
    · obtain rfl : l = n := by omega
      rw [List.getElem?_append_right (by omega), hlen, Nat.add_sub_cancel_left, List.getElem?_map,
        List.getElem?_range he]
      rfl

theorem exists_block {l e : ℕ} (hl : l < m.nLayer) (he : e < m.nExpert) :
    ∃ b, (WriterPlan.blocks m.plain target)[l * m.nExpert + e]? = some b ∧ b.layer = l ∧ b.expert = e := by
  have hgrid := placeBlocks_getElem? (M := m.plain)
    ((List.range m.nLayer).flatMap fun l => (List.range m.nExpert).map fun e => (l, e))
    (WriterPlan.blocksStart (WriterPlan.items m.plain target)) (l * m.nExpert + e)
  rw [grid_getElem? hl he] at hgrid
  obtain ⟨b, hb, hle⟩ := Option.map_eq_some_iff.mp hgrid
  obtain ⟨hlayer, hexpert⟩ := Prod.mk.inj hle
  exact ⟨b, hb, hlayer, hexpert⟩

theorem block_end {b : Block} (h : b ∈ WriterPlan.blocks m.plain target) :
    b.off % 4096 = 0 ∧ b.off + b.size ≤ m.extent := by
  have hend := placeBlocks_end h
  have hstart := @blocksStart_le m target
  have hsum : (((List.range m.nLayer).flatMap fun l => (List.range m.nExpert).map fun e => (l, e)).map
      fun le => WriterPlan.branchEnd 0 (WriterPlan.layerExperts m.plain le.1)).sum =
      ((List.range m.nLayer).map fun l =>
        m.nExpert * WriterPlan.branchEnd 0 (WriterPlan.layerExperts m.plain l)).sum := by
    rw [List.map_flatMap, List.flatMap, List.sum_flatten, List.map_map]
    congr 1
    refine List.map_congr_left fun l _ => ?_
    simp [Function.comp_def]
  have hgrid : (List.range m.plain.nLayer).flatMap (fun l => (List.range m.plain.nExpert).map fun e => (l, e)) =
      (List.range m.nLayer).flatMap fun l => (List.range m.nExpert).map fun e => (l, e) := rfl
  rw [hgrid, hsum] at hend
  refine ⟨placeBlocks_mod (alignUp_mod _) h, ?_⟩
  unfold Model.extent
  omega

theorem placed_extent {x : Entry × ℕ} (h : x ∈ m.placed target) : x.2 + alignUp x.1.shape.size ≤ m.extent := by
  have hend := (placed_end h).2
  unfold Model.extent
  omega

end blocks

end ConvertModel
end StreamMoE
