import Mathlib.Data.List.GetD
import Mathlib.Data.List.Nodup
import Mathlib.Data.List.Perm.Basic
import Mathlib.Data.List.Range
import Mathlib.Data.List.Sort
import StreamMoE.Spans

/-! `build_scatter_plan`: the active tokens of a round cut into arithmetic runs of
destination columns, longest run first. -/
namespace StreamMoE
namespace Scatter

open Spans

structure ScatterSeg where
  src : ℕ
  dst : ℕ
  len : ℕ
  delta : ℕ
  deriving DecidableEq, Repr

/-- `n_order` and `n_segs` are the lengths. -/
structure ScatterPlan where
  order : List ℕ
  segs : List ScatterSeg
  nActive : ℕ
  nT : ℕ
  deriving DecidableEq, Repr

structure Run where
  len : ℕ
  delta : ℕ
  start : ℕ
  deriving DecidableEq, Repr

/-- `for (u = v; u < n_t && in_set[u]; u += delta) ++len`, with `uint32_t` additions. -/
def chainLen (inSet : ℕ → Bool) (nT delta : ℕ) : ℕ → ℕ → ℕ
  | 0, _ => 0
  | fuel + 1, u =>
      if u < nT ∧ inSet u = true then
        1 + chainLen inSet nT delta fuel ((u + delta) % 2 ^ 32)
      else 0

/-- One value of the sweep: a chain starts at `v` when `v - delta` is absent. -/
def sweepStep (inSet : ℕ → Bool) (nT delta : ℕ) (best : ℕ × ℕ) (v : ℕ) : ℕ × ℕ :=
  if delta ≤ v ∧ inSet (v - delta) = true then best
  else if best.1 < chainLen inSet nT delta nT v then (chainLen inSet nT delta nT v, v)
  else best

/-- The longest chain of one delta over the remaining values: its length and start. -/
def sweep (inSet : ℕ → Bool) (nT delta : ℕ) (rem : List ℕ) : ℕ × ℕ :=
  rem.foldl (sweepStep inSet nT delta) (0, 0)

def better (b : Run) (delta : ℕ) (d : ℕ × ℕ) : Run :=
  if b.len < d.1 ∨ (d.1 = b.len ∧ (delta < b.delta ∨ (delta = b.delta ∧ d.2 < b.start))) then
    { len := d.1, delta := delta, start := d.2 }
  else b

def deltaLoop (inSet : ℕ → Bool) (rem : List ℕ) (nT range m : ℕ) : ℕ → ℕ → Run → Run
  | 0, _, b => b
  | left + 1, delta, b =>
      if range / delta + 1 ≤ b.len then b
      else
        let d := sweep inSet nT delta rem
        if d.1 = 0 then deltaLoop inSet rem nT range m left (delta + 1) b
        else
          let b' := better b delta d
          if b'.len = m then b' else deltaLoop inSet rem nT range m left (delta + 1) b'

def bestRun (inSet : ℕ → Bool) (rem : List ℕ) (nT minv maxv m : ℕ) : Run :=
  deltaLoop inSet rem nT (maxv - minv) m (maxv - minv) 1 { len := 1, delta := 1, start := minv }

def runValues (r : Run) : List ℕ := (List.range r.len).map fun i => r.start + i * r.delta

/-- The state of the extraction loop; `order.length` is the running offset `tight`. -/
structure Tight where
  rem : List ℕ
  inSet : ℕ → Bool
  order : List ℕ
  segs : List ScatterSeg

/-- The next run: a singleton, or the best one of the remaining values. -/
def nextRun (nT : ℕ) (s : Tight) (minv maxv : ℕ) : Run :=
  if s.rem.length = 1 then { len := 1, delta := 1, start := minv }
  else bestRun s.inSet s.rem nT minv maxv s.rem.length

def extract (idxOf : ℕ → ℕ) (r : Run) (minv maxv : ℕ) (s : Tight) : Tight :=
  let inSet := fun v => s.inSet v && !(runValues r).contains v
  { rem := (List.range' minv (maxv + 1 - minv)).filter inSet
    inSet := inSet
    order := s.order ++ (runValues r).map idxOf
    segs := s.segs ++ [{ src := s.order.length, dst := r.start, len := r.len, delta := r.delta }] }

/-- `while (!rem.empty())`: every turn removes at least one value. -/
def extractLoop (idxOf : ℕ → ℕ) (nT : ℕ) : ℕ → Tight → Tight
  | 0, s => s
  | fuel + 1, s =>
      match s.rem with
      | [] => s
      | minv :: tail =>
          let maxv := tail.getLastD minv
          extractLoop idxOf nT fuel (extract idxOf (nextRun nT s minv maxv) minv maxv s)

/-- The validation loop: token ids in range and distinct. -/
def valid (nT : ℕ) : List ℕ → List ℕ → Bool
  | _, [] => true
  | seen, v :: vs => if nT ≤ v ∨ v ∈ seen then false else valid nT (v :: seen) vs

def initialTight (t : List ℕ) : Tight :=
  { rem := t.insertionSort (· ≤ ·), inSet := fun v => t.contains v, order := [], segs := [] }

def tightOf (t : List ℕ) (nT : ℕ) : Tight :=
  extractLoop (fun v => t.idxOf v) nT t.length (initialTight t)

/-- `t` is not null; `idx_of` is where a value stands in it. -/
def buildScatterPlan (t : List ℕ) (nT : ℕ) : ScatterPlan :=
  if t.length = 0 ∨ nT = 0 ∨ valid nT [] t = false then
    { order := [], segs := [], nActive := t.length, nT := nT }
  else
    { order := (tightOf t nT).order, segs := (tightOf t nT).segs, nActive := t.length, nT := nT }

/-- Source and destination columns of a segment, in the order they are accumulated. -/
def segPairs (seg : ScatterSeg) : List (ℕ × ℕ) :=
  (List.range seg.len).map fun i => (seg.src + i, seg.dst + i * seg.delta)

example : (buildScatterPlan [3, 0, 7, 5, 1] 8).segs =
    [⟨0, 1, 4, 2⟩, ⟨4, 0, 1, 1⟩] := by decide

theorem valid_iff {nT : ℕ} {t seen : List ℕ} :
    valid nT seen t = true ↔ (∀ v ∈ t, v < nT ∧ v ∉ seen) ∧ t.Nodup := by
  induction t generalizing seen with
  | nil => simp [valid]
  | cons v vs ih =>
    simp only [valid]
    split
    · rename_i hbad
      simp only [Bool.false_eq_true, false_iff, not_and]
      intro h
      have hv := h v List.mem_cons_self
      rcases hbad with hge | hseen
      · omega
      · exact absurd hseen hv.2
    · rename_i hok
      rw [ih, List.nodup_cons]
      constructor
      · rintro ⟨h, hnd⟩
        refine ⟨?_, ?_, hnd⟩
        · intro x hx
          rcases List.mem_cons.mp hx with rfl | hx
          · exact ⟨by omega, fun hs => hok (.inr hs)⟩
          · exact ⟨(h x hx).1, fun hs => (h x hx).2 (List.mem_cons_of_mem _ hs)⟩
        · intro hv
          exact (h v hv).2 List.mem_cons_self
      · rintro ⟨h, hv, hnd⟩
        refine ⟨?_, hnd⟩
        intro x hx
        refine ⟨(h x (List.mem_cons_of_mem _ hx)).1, ?_⟩
        intro hs
        rcases List.mem_cons.mp hs with rfl | hs
        · exact hv hx
        · exact (h x (List.mem_cons_of_mem _ hx)).2 hs

/-- The arithmetic run starts in the set and stays in it. -/
structure InSet (inSet : ℕ → Bool) (r : Run) : Prop where
  pos : 0 < r.len
  delta : 0 < r.delta
  mem : ∀ i < r.len, inSet (r.start + i * r.delta) = true

theorem chainLen_mem {inSet : ℕ → Bool} {nT delta : ℕ} (hnT : nT + delta ≤ 2 ^ 32)
    (fuel u : ℕ) : ∀ i < chainLen inSet nT delta fuel u, inSet (u + i * delta) = true := by
  induction fuel generalizing u with
  | zero => intro i hi; simp [chainLen] at hi
  | succ fuel ih =>
    intro i hi
    rw [chainLen] at hi
    split at hi
    · rename_i hu
      cases i with
      | zero => simpa using hu.2
      | succ i =>
        have hmod : (u + delta) % 2 ^ 32 = u + delta := Nat.mod_eq_of_lt (by omega)
        rw [hmod] at hi
        have h := ih (u + delta) i (by omega)
        rw [Nat.succ_mul]
        rw [Nat.add_assoc, Nat.add_comm delta] at h
        exact h
    · omega

theorem foldl_sweepStep_mem {inSet : ℕ → Bool} {nT delta : ℕ} (hnT : nT + delta ≤ 2 ^ 32)
    (rem : List ℕ) : ∀ best : ℕ × ℕ, (∀ i < best.1, inSet (best.2 + i * delta) = true) →
      ∀ i < (rem.foldl (sweepStep inSet nT delta) best).1,
        inSet ((rem.foldl (sweepStep inSet nT delta) best).2 + i * delta) = true := by
  induction rem with
  | nil => exact fun best hbest => hbest
  | cons v vs ih =>
    intro best hbest
    refine ih _ ?_
    unfold sweepStep
    split
    · exact hbest
    · split
      · exact chainLen_mem hnT nT v
      · exact hbest

theorem sweep_mem {inSet : ℕ → Bool} {nT delta : ℕ} (hnT : nT + delta ≤ 2 ^ 32)
    (rem : List ℕ) : ∀ i < (sweep inSet nT delta rem).1,
      inSet ((sweep inSet nT delta rem).2 + i * delta) = true :=
  foldl_sweepStep_mem hnT rem (0, 0) (fun i hi => absurd hi (Nat.not_lt_zero i))

theorem inSet_better {inSet : ℕ → Bool} {b : Run} {delta : ℕ} {d : ℕ × ℕ} (hb : InSet inSet b)
    (hdelta : 0 < delta) (hd : ∀ i < d.1, inSet (d.2 + i * delta) = true) (hpos : d.1 ≠ 0) :
    InSet inSet (better b delta d) := by
  unfold better
  split
  · exact ⟨Nat.pos_of_ne_zero hpos, hdelta, hd⟩
  · exact hb

theorem inSet_deltaLoop {inSet : ℕ → Bool} {rem : List ℕ} {nT range m : ℕ} (left : ℕ) :
    ∀ {delta : ℕ} {b : Run}, InSet inSet b → 0 < delta → nT + (delta + left) ≤ 2 ^ 32 + 1 →
      InSet inSet (deltaLoop inSet rem nT range m left delta b) := by
  induction left with
  | zero => exact fun hb _ _ => hb
  | succ left ih =>
    intro delta b hb hdelta hle
    rw [deltaLoop]
    split
    · exact hb
    · dsimp only
      split
      · exact ih hb (by omega) (by omega)
      · rename_i hd
        have hb' := inSet_better hb hdelta (sweep_mem (by omega) rem) hd
        split
        · exact hb'
        · exact ih hb' (by omega) (by omega)

theorem runValues_nodup {r : Run} (h : 0 < r.delta) : (runValues r).Nodup := by
  refine List.nodup_range.map ?_
  intro i j hij
  have hmul : i * r.delta = j * r.delta := Nat.add_left_cancel hij
  exact Nat.eq_of_mul_eq_mul_right h hmul

@[simp] theorem length_runValues (r : Run) : (runValues r).length = r.len := by
  simp [runValues]

theorem mem_runValues {r : Run} {v : ℕ} :
    v ∈ runValues r ↔ ∃ i < r.len, r.start + i * r.delta = v := by
  simp [runValues]

/-- What holds between two turns of the extraction loop over the tokens `t`: the values
taken so far, in tight order, and the remaining ones are `t`. -/
structure LoopInv (t : List ℕ) (nT : ℕ) (vals : List ℕ) (s : Tight) : Prop where
  lt : ∀ v ∈ t, v < nT
  mem_rem : ∀ v, v ∈ s.rem ↔ s.inSet v = true
  sorted : s.rem.Pairwise (· < ·)
  order : s.order = vals.map (fun v => t.idxOf v)
  perm : (vals ++ s.rem).Perm t
  segs : s.segs.flatMap segPairs = (List.range vals.length).map fun j => (j, vals.getD j 0)
  tiles : Tiles ScatterSeg.src ScatterSeg.len 0 s.segs vals.length

theorem le_getLastD {tail : List ℕ} {minv v : ℕ} (h : (minv :: tail).Pairwise (· < ·))
    (hv : v ∈ minv :: tail) : minv ≤ v ∧ v ≤ tail.getLastD minv := by
  induction tail generalizing minv v with
  | nil =>
    have hvm : v = minv := by simpa using hv
    simp [hvm]
  | cons a tail ih =>
    have hlt : minv < a := (List.pairwise_cons.mp h).1 a List.mem_cons_self
    have htail := (List.pairwise_cons.mp h).2
    rw [List.getLastD_cons]
    rcases List.mem_cons.mp hv with rfl | hv
    · have ha := (ih htail List.mem_cons_self).2
      omega
    · have ha := ih htail hv
      omega

theorem inSet_nextRun {t vals : List ℕ} {nT minv : ℕ} {tail : List ℕ} {s : Tight}
    (h : LoopInv t nT vals s) (hnT : nT ≤ 2 ^ 31) (hrem : s.rem = minv :: tail) :
    InSet s.inSet (nextRun nT s minv (tail.getLastD minv)) := by
  have hmem : minv ∈ s.rem := by
    rw [hrem]
    exact List.mem_cons_self
  have hsingle : InSet s.inSet { len := 1, delta := 1, start := minv } := by
    refine ⟨Nat.one_pos, Nat.one_pos, ?_⟩
    intro i hi
    have hi0 : i = 0 := Nat.lt_one_iff.mp hi
    simpa [hi0] using (h.mem_rem minv).mp hmem
  have hlast : tail.getLastD minv < nT := by
    have hin : tail.getLastD minv ∈ s.rem := by
      rw [hrem]
      exact List.getLastD_mem_cons
    exact h.lt _ (h.perm.mem_iff.mp (List.mem_append_right _ hin))
  unfold nextRun
  split
  · exact hsingle
  · exact inSet_deltaLoop _ hsingle (by decide) (by omega)

theorem getD_append_left' {l₁ l₂ : List ℕ} {j : ℕ} (h : j < l₁.length) :
    (l₁ ++ l₂).getD j 0 = l₁.getD j 0 := List.getD_append _ _ _ _ h

theorem inv_extract {t vals : List ℕ} {nT minv : ℕ} {tail : List ℕ} {s : Tight} {r : Run}
    (h : LoopInv t nT vals s) (hrem : s.rem = minv :: tail) (hr : InSet s.inSet r) :
    LoopInv t nT (vals ++ runValues r)
        (extract (fun v => t.idxOf v) r minv (tail.getLastD minv) s) ∧
      (extract (fun v => t.idxOf v) r minv (tail.getLastD minv) s).rem.length < s.rem.length := by
  have hsorted := h.sorted
  rw [hrem] at hsorted
  have hmem' : ∀ v, v ∈ (extract (fun v => t.idxOf v) r minv (tail.getLastD minv) s).rem ↔
      (s.inSet v && !(runValues r).contains v) = true := by
    intro v
    simp only [extract, List.mem_filter, List.mem_range'_1, and_iff_right_iff_imp]
    intro hv
    have hin : v ∈ minv :: tail := by
      rw [← hrem]
      exact (h.mem_rem v).mpr (Bool.and_eq_true_iff.mp hv).1
    have hb := le_getLastD hsorted hin
    omega
  have hsorted' : (extract (fun v => t.idxOf v) r minv (tail.getLastD minv) s).rem.Pairwise
      (· < ·) := List.Pairwise.filter _ (List.pairwise_lt_range' 1)
  -- the run and the new remaining values are the old remaining values
  have hsplit : (runValues r ++
      (extract (fun v => t.idxOf v) r minv (tail.getLastD minv) s).rem).Perm s.rem := by
    rw [List.perm_ext_iff_of_nodup]
    · intro v
      rw [List.mem_append, hmem' v, h.mem_rem v]
      simp only [Bool.and_eq_true, Bool.not_eq_true', List.contains_eq_mem, decide_eq_false_iff_not]
      constructor
      · rintro (hv | hv)
        · obtain ⟨i, hi, rfl⟩ := mem_runValues.mp hv
          exact hr.mem i hi
        · exact hv.1
      · intro hv
        by_cases hrun : v ∈ runValues r
        · exact .inl hrun
        · exact .inr ⟨hv, hrun⟩
    · rw [List.nodup_append]
      refine ⟨runValues_nodup hr.delta, hsorted'.imp Nat.ne_of_lt, ?_⟩
      intro a ha b hb hab
      have hb' := (hmem' b).mp hb
      simp only [Bool.and_eq_true, Bool.not_eq_true', List.contains_eq_mem,
        decide_eq_false_iff_not] at hb'
      exact hb'.2 (hab ▸ ha)
    · exact h.sorted.imp Nat.ne_of_lt
  have hlen : s.order.length = vals.length := by rw [h.order, List.length_map]
  refine ⟨⟨h.lt, hmem', hsorted', ?_, ?_, ?_, ?_⟩, ?_⟩
  · simp only [extract, h.order, List.map_append]
  · rw [List.append_assoc]
    exact (List.Perm.append_left vals hsplit).trans h.perm
  · simp only [extract, List.flatMap_append, h.segs, List.flatMap_singleton, segPairs,
      List.length_append, length_runValues, List.range_add, List.map_append, List.map_map, hlen]
    congr 1
    · apply List.map_congr_left
      intro j hj
      rw [getD_append_left' (List.mem_range.mp hj)]
    · apply List.map_congr_left
      intro i hi
      have hi' : i < (runValues r).length := by simpa using hi
      simp only [Function.comp_apply, Prod.mk.injEq, true_and]
      rw [List.getD_append_right _ _ _ _ (Nat.le_add_right _ _), Nat.add_sub_cancel_left,
        List.getD_eq_getElem _ _ hi']
      simp [runValues]
  · rw [List.length_append, length_runValues]
    exact h.tiles.append (.cons hlen hr.pos (.nil _))
  · have hless := hsplit.length_eq
    have hpos := hr.pos
    rw [List.length_append, length_runValues] at hless
    omega

theorem extractLoop_spec {t : List ℕ} {nT : ℕ} (hnT : nT ≤ 2 ^ 31) (fuel : ℕ) :
    ∀ {vals : List ℕ} {s : Tight}, LoopInv t nT vals s → s.rem.length ≤ fuel →
      ∃ vals', LoopInv t nT vals' (extractLoop (fun v => t.idxOf v) nT fuel s) ∧
        (extractLoop (fun v => t.idxOf v) nT fuel s).rem = [] := by
  induction fuel with
  | zero =>
    intro vals s h hlen
    exact ⟨vals, h, List.eq_nil_of_length_eq_zero (Nat.le_zero.mp hlen)⟩
  | succ fuel ih =>
    intro vals s h hlen
    rw [extractLoop]
    split
    · rename_i hnil
      exact ⟨vals, h, hnil⟩
    · rename_i minv tail hrem
      obtain ⟨h', hlt⟩ := inv_extract h hrem (inSet_nextRun h hnT hrem)
      exact ih h' (by omega)

theorem inv_initial {t : List ℕ} {nT : ℕ} (hlt : ∀ v ∈ t, v < nT) (ht : t.Nodup) :
    LoopInv t nT [] (initialTight t) := by
  have hperm := List.perm_insertionSort (· ≤ ·) t
  refine ⟨hlt, ?_, ?_, rfl, hperm, rfl, .nil 0⟩
  · intro v
    simp [initialTight, hperm.mem_iff]
  · have hle : (t.insertionSort (· ≤ ·)).Pairwise (· ≤ ·) := List.pairwise_insertionSort _ t
    have hnd : (t.insertionSort (· ≤ ·)).Nodup := hperm.nodup_iff.mpr ht
    exact hle.imp₂ (fun _ _ h₁ h₂ => Nat.lt_of_le_of_ne h₁ h₂) hnd

theorem map_idxOf_self {t : List ℕ} (ht : t.Nodup) :
    t.map (fun v => t.idxOf v) = List.range t.length := by
  apply List.ext_getElem
  · simp
  · intro i h₁ h₂
    simp [ht.idxOf_getElem]

/-- The extraction takes all tokens. -/
theorem exists_tight {t : List ℕ} {nT : ℕ} (hlt : ∀ v ∈ t, v < nT) (ht : t.Nodup)
    (hnT : nT ≤ 2 ^ 31) : ∃ vals, LoopInv t nT vals (tightOf t nT) ∧ (tightOf t nT).rem = [] :=
  extractLoop_spec hnT t.length (inv_initial hlt ht)
    (by rw [initialTight, (List.perm_insertionSort (· ≤ ·) t).length_eq])

/-- Tokens that pass the checks are extracted. -/
theorem buildScatterPlan_of_valid {t : List ℕ} {nT : ℕ} (hlt : ∀ v ∈ t, v < nT) (ht : t.Nodup)
    (hne : t ≠ []) : buildScatterPlan t nT =
      { order := (tightOf t nT).order, segs := (tightOf t nT).segs, nActive := t.length, nT := nT } := by
  have hvalid : valid nT [] t = true := valid_iff.mpr ⟨fun v hv => ⟨hlt v hv, by simp⟩, ht⟩
  have hpos : t.length ≠ 0 := fun h => hne (List.eq_nil_of_length_eq_zero h)
  have hnT0 : nT ≠ 0 := by
    obtain ⟨v, hv⟩ := List.exists_mem_of_ne_nil t hne
    have := hlt v hv
    omega
  exact if_neg (by simp [hpos, hnT0, hvalid])

/-- An accepted plan: the order permutes the active entries, and the segments send tight
column `j` to the token of the entry the order puts there. -/
theorem buildScatterPlan_spec {t : List ℕ} {nT : ℕ} (hlt : ∀ v ∈ t, v < nT) (ht : t.Nodup)
    (hnT : nT ≤ 2 ^ 31) (hne : t ≠ []) :
    (buildScatterPlan t nT).order.Perm (List.range t.length) ∧
      (buildScatterPlan t nT).segs.flatMap segPairs =
        (List.range t.length).map fun j =>
          (j, t.getD ((buildScatterPlan t nT).order.getD j 0) 0) := by
  obtain ⟨vals, hinv, hnil⟩ := exists_tight hlt ht hnT
  have hperm := hinv.perm
  rw [hnil, List.append_nil] at hperm
  have horder : (tightOf t nT).order = vals.map (fun v => t.idxOf v) := hinv.order
  have hsegs : (tightOf t nT).segs.flatMap segPairs = _ := hinv.segs
  rw [buildScatterPlan_of_valid hlt ht hne]
  refine ⟨?_, ?_⟩
  · rw [horder, ← map_idxOf_self ht]
    exact hperm.map _
  · rw [hsegs, hperm.length_eq]
    apply List.map_congr_left
    intro j hj
    have hj' : j < vals.length := by
      rw [hperm.length_eq]
      exact List.mem_range.mp hj
    have hmem : vals[j] ∈ t := hperm.mem_iff.mp (List.getElem_mem hj')
    have hidx : t.idxOf vals[j] < t.length := List.idxOf_lt_length_iff.mpr hmem
    rw [horder]
    simp [List.getD_eq_getElem?_getD, List.getElem?_eq_getElem hj', hidx]

end Scatter
end StreamMoE
