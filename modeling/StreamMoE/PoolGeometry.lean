import Mathlib.Data.Nat.Notation
import Mathlib.Data.List.Basic
import StreamMoE.ByteMemory

/-! Sub-pools of the scheduler as struct-of-array regions: one column per expert tensor,
one slice of every column per slot. -/
namespace StreamMoE
namespace PoolGeometry

open ByteMemory

structure Column where
  index : ℕ
  off : ℕ
  stride : ℕ
  deriving DecidableEq, Repr

structure Subpool where
  pool : ℕ
  group : ℕ
  slotBegin : ℕ
  nSlots : ℕ
  expertSize : ℕ
  base : ℕ
  cols : List Column
  deriving DecidableEq, Repr

/-- Column `c` of a region of `ns` slots occupies `ns * stride_c` bytes. -/
def fillCols (ns : ℕ) : ℕ → ℕ → List ℕ → List Column
  | _, _, [] => []
  | index, off, stride :: strides =>
      { index := index, off := off, stride := stride } ::
        fillCols ns (index + 1) (off + ns * stride) strides

def colSlice (sp : Subpool) (c : Column) (slot : ℕ) : ℕ :=
  sp.base + c.off + (slot - sp.slotBegin) * c.stride

def Subpool.owns (sp : Subpool) (slot : ℕ) : Bool :=
  decide (sp.slotBegin ≤ slot ∧ slot < sp.slotBegin + sp.nSlots)

/-- The region list of a scheduler and its `num_slots_`. -/
structure Geometry where
  subpools : List Subpool
  numSlots : ℕ
  deriving DecidableEq, Repr

def subpoolOfSlot (g : Geometry) (slot : ℕ) : Option Subpool :=
  if slot < g.numSlots then g.subpools.find? (·.owns slot) else none

def slotColMem (g : Geometry) (slot col : ℕ) : Option ℕ :=
  (subpoolOfSlot g slot).bind fun sp => sp.cols[col]?.map fun c => colSlice sp c slot

theorem owns_of_subpoolOfSlot {g : Geometry} {slot : ℕ} {sp : Subpool}
    (h : subpoolOfSlot g slot = some sp) : sp.owns slot = true := by
  unfold subpoolOfSlot at h
  split at h
  · exact List.find?_some (p := fun x : Subpool => x.owns slot) h
  · cases h

theorem slotColMem_eq {g : Geometry} {slot col : ℕ} {sp : Subpool}
    (h : subpoolOfSlot g slot = some sp) :
    slotColMem g slot col = sp.cols[col]?.map fun c => colSlice sp c slot := by
  rw [slotColMem, h, Option.bind_some]

@[simp] theorem length_fillCols (ns i off : ℕ) (strides : List ℕ) :
    (fillCols ns i off strides).length = strides.length := by
  induction strides generalizing i off with
  | nil => rfl
  | cons s ss ih => simp [fillCols, ih]

theorem stride_fillCols (ns i off : ℕ) (strides : List ℕ) :
    (fillCols ns i off strides).map Column.stride = strides := by
  induction strides generalizing i off with
  | nil => rfl
  | cons s ss ih => simp [fillCols, ih]

theorem le_off_of_mem_fillCols {ns i off : ℕ} {strides : List ℕ} {c : Column}
    (h : c ∈ fillCols ns i off strides) : off ≤ c.off := by
  induction strides generalizing i off with
  | nil => cases h
  | cons s ss ih =>
    rcases List.mem_cons.mp h with rfl | h
    · exact Nat.le_refl _
    · exact Nat.le_trans (Nat.le_add_right _ _) (ih h)

/-- Columns of one region follow one another. -/
theorem fillCols_pairwise (ns i off : ℕ) (strides : List ℕ) :
    (fillCols ns i off strides).Pairwise fun a b => a.off + ns * a.stride ≤ b.off := by
  induction strides generalizing i off with
  | nil => exact List.Pairwise.nil
  | cons s ss ih => exact List.Pairwise.cons (fun b hb => le_off_of_mem_fillCols hb) (ih _ _)

/-- Columns end within the bytes of all of them. -/
theorem end_le_of_mem_fillCols {ns i off : ℕ} {strides : List ℕ} {c : Column}
    (h : c ∈ fillCols ns i off strides) : c.off + ns * c.stride ≤ off + ns * strides.sum := by
  induction strides generalizing i off with
  | nil => cases h
  | cons s ss ih =>
    rw [List.sum_cons, Nat.mul_add]
    rcases List.mem_cons.mp h with rfl | h
    · dsimp only
      omega
    · have hrest := ih h
      omega

/-- Every slice of a column is within the column. -/
theorem colSlice_le {sp : Subpool} {slot : ℕ} (c : Column) (hown : sp.owns slot = true) :
    sp.base + c.off ≤ colSlice sp c slot ∧
      colSlice sp c slot + c.stride ≤ sp.base + c.off + sp.nSlots * c.stride := by
  simp only [Subpool.owns, decide_eq_true_eq] at hown
  have hlocal : slot - sp.slotBegin + 1 ≤ sp.nSlots := by omega
  have hmul := Nat.mul_le_mul_right c.stride hlocal
  rw [Nat.add_mul, Nat.one_mul] at hmul
  unfold colSlice
  omega

/-- The slices of one column follow one another. -/
theorem colSlice_succ_le (sp : Subpool) (c : Column) {slot slot' : ℕ} (hbegin : sp.slotBegin ≤ slot)
    (h : slot < slot') : colSlice sp c slot + c.stride ≤ colSlice sp c slot' := by
  have hlocal : slot - sp.slotBegin + 1 ≤ slot' - sp.slotBegin := by omega
  have hmul := Nat.mul_le_mul_right c.stride hlocal
  rw [Nat.add_mul, Nat.one_mul] at hmul
  unfold colSlice
  omega

/-- The slices of a column lie before those of a later one. -/
theorem colSlice_before {sp : Subpool} {strides : List ℕ} {slot slot' i j : ℕ}
    (hcols : sp.cols = fillCols sp.nSlots 0 0 strides) (hown : sp.owns slot = true)
    (hown' : sp.owns slot' = true) (hij : i < j) (hi : i < sp.cols.length) (hj : j < sp.cols.length) :
    colSlice sp sp.cols[i] slot + sp.cols[i].stride ≤ colSlice sp sp.cols[j] slot' := by
  have hpair := fillCols_pairwise sp.nSlots 0 0 strides
  rw [← hcols, List.pairwise_iff_getElem] at hpair
  have hoff := hpair i j hi hj hij
  have hend := (colSlice_le sp.cols[i] hown).2
  have hbegin := (colSlice_le sp.cols[j] hown').1
  omega

/-- The slices of two columns at one slot do not overlap. -/
theorem colSlice_apart {sp : Subpool} {strides : List ℕ} {slot i j : ℕ}
    (hcols : sp.cols = fillCols sp.nSlots 0 0 strides) (hown : sp.owns slot = true)
    (hij : i < j) (hi : i < sp.cols.length) (hj : j < sp.cols.length) :
    colSlice sp sp.cols[i] slot + sp.cols[i].stride ≤ colSlice sp sp.cols[j] slot :=
  colSlice_before hcols hown hown hij hi hj

end PoolGeometry
end StreamMoE
