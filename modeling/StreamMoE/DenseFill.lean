import Mathlib.Data.List.Nodup
import Mathlib.Data.List.Pairwise
import StreamMoE.ExpertLoad
import StreamMoE.Spans

/-! `route_b_fill_dense`: a dense tensor is read from the segments that the first registered pool
with an entry of its name keeps for it. -/
namespace StreamMoE
namespace DenseFill

open ByteMemory ReadPlan ExpertLoad Spans

structure SrcSeg extends Segment where
  inOff : ℕ
  deriving DecidableEq, Repr

/-- `dense_tensor_t`: the segments that are not empty cut the tensor, and each is in a strip file of
its own, as `strip_range_to_segs` makes them (`StripLimits.denseTensor`); a model that is not stripped
has one segment. -/
structure DenseTensor where
  name : String
  size : ℕ
  srcs : List SrcSeg
  tiles : Tiles SrcSeg.inOff (fun s => s.len) 0 (srcs.filter fun s => decide (0 < s.len)) size
  files : (srcs.map fun s => s.file).Nodup

/-- The parsed model with its number of files; `opened` if setup gets through to the end. -/
structure Model where
  path : String
  nExpert : ℕ
  nFiles : ℕ
  dense : List DenseTensor
  opened : Bool
  file_lt : ∀ d ∈ dense, ∀ s ∈ d.srcs, s.file < nFiles

/-- `dense_srcs[d.name] = d.srcs` for every dense tensor. -/
def Model.denseSrcs (m : Model) : String → Option DenseTensor :=
  m.dense.foldl (fun srcs d => Function.update srcs d.name (some d)) fun _ => none

/-- `route_b_setup`: one pool for each path; a model without experts and one that cannot be opened
get none. -/
def routeBSetup (pools : List Model) (m : Model) : List Model :=
  if pools.any fun p => p.path == m.path then pools
  else if m.nExpert = 0 ∨ m.opened = false then pools
  else pools ++ [m]

def gPools (ms : List Model) : List Model := ms.foldl routeBSetup []

def request (s : SrcSeg) : SubTensorReq :=
  { shardIdx := s.file, fileOffset := s.off, byteSize := s.len, column := 0, colOff := s.inOff }

def requests (d : DenseTensor) : List SubTensorReq := d.srcs.map request

/-- The files of every model by path and index, what lies in and behind the staging area and behind
the host buffer, and whether memory and reads are granted. -/
structure Env where
  disk : String → ℕ → ℕ → UInt8
  staging : ℕ → UInt8
  heap : ℕ → UInt8
  granted : Bool

def readWindows (p : Model) (env : Env) (slices : List TensorSliceRead) : ℕ → UInt8 :=
  blits TensorSliceRead.stagingOffset TensorSliceRead.fileReadLen
    (fun sl i => env.disk p.path (if sl.shardIdx < p.nFiles then sl.shardIdx else 0)
      (sl.fileReadStart + i)) env.staging slices

/-- The payloads are copied into the zeroed host buffer. -/
def copyPayloads (p : Model) (env : Env) (nbytes : ℕ) (slices : List TensorSliceRead) : ℕ → UInt8 :=
  blits TensorSliceRead.copyDstOffset TensorSliceRead.copyByteLen
    (fun sl i => readWindows p env slices (sl.copySrcOffset + i))
    (fun a => if a < nbytes then 0 else env.heap a) slices

/-- What `ggml_backend_tensor_set` gets, the pool it is from, and the ranges of the host buffer that
were written. -/
structure Filled where
  path : String
  count : ℕ
  bytes : ℕ → UInt8
  writes : List (ℕ × ℕ)

/-- The first pool with an entry of this name. -/
def firstEntry (pools : List Model) (name : String) : Option (Model × DenseTensor) :=
  pools.findSome? fun p => (p.denseSrcs name).map fun d => (p, d)

/-- Nothing is filled without an entry, without slices to read, or if memory or reads fail. -/
def routeBFillDense (pools : List Model) (name : String) (nbytes : ℕ) (env : Env) : Option Filled :=
  (firstEntry pools name).bind fun (p, d) =>
    let plan := buildExpertReadPlan (requests d)
    if env.granted = false ∨ p.nFiles = 0 ∨ plan.slices = [] then none
    else some
      { path := p.path, count := nbytes, bytes := copyPayloads p env nbytes plan.slices
        writes := plan.slices.map fun sl => (sl.copyDstOffset, sl.copyByteLen) }

/-- The tensor has the bytes of its model's entry, and nothing else was written. -/
structure Right (own : Model) (name : String) (nbytes : ℕ) (env : Env) (r : Filled) : Prop where
  model : r.path = own.path
  count : r.count = nbytes
  inside : ∀ w ∈ r.writes, w.2 = 0 ∨ w.1 + w.2 ≤ nbytes
  bytes : ∃ d, own.denseSrcs name = some d ∧ ∀ i < nbytes, ∃ s ∈ d.srcs,
    (s.inOff ≤ i ∧ i < s.inOff + s.len) ∧
      r.bytes i = env.disk own.path s.file (s.off + (i - s.inOff))

/-- A plan can be made of the entry. -/
def Readable (p : Model) (d : DenseTensor) : Prop :=
  p.nFiles ≠ 0 ∧ d.srcs ≠ [] ∧ d.srcs.length ≤ maxSubTensorsPerExpert

/-- The first entry of the name, if a plan can be made of it, is the tensor's own and of its size,
and the windows of its segments can be told. -/
def OwnFirst (pools : List Model) (own : Model) (name : String) (nbytes : ℕ) : Prop :=
  ∀ earlier p later d, pools = earlier ++ p :: later → (∀ q ∈ earlier, q.denseSrcs name = none) →
    p.denseSrcs name = some d → Readable p d →
      p.path = own.path ∧ d.size = nbytes ∧ ∀ s ∈ d.srcs, 0 < s.len → span (request s) < 2 ^ 32

section pools

theorem paths_nodup (ms : List Model) : ((gPools ms).map Model.path).Nodup := by
  have h : ∀ pools : List Model, (pools.map Model.path).Nodup →
      ((ms.foldl routeBSetup pools).map Model.path).Nodup := by
    induction ms with
    | nil => exact fun _ h => h
    | cons m ms ih =>
      intro pools h
      refine ih _ ?_
      unfold routeBSetup
      split
      · exact h
      · rename_i hnew
        split
        · exact h
        · have hpath : m.path ∉ pools.map Model.path := by
            simpa using hnew
          simpa [List.nodup_append] using ⟨h, by simpa using hpath⟩
  exact h [] (by simp)

/-- Two registered pools of one path are the same. -/
theorem eq_of_path {ms : List Model} {p q : Model} (hp : p ∈ gPools ms) (hq : q ∈ gPools ms)
    (h : p.path = q.path) : p = q :=
  List.inj_on_of_nodup_map (paths_nodup ms) hp hq h

theorem firstEntry_iff {pools : List Model} {name : String} {p : Model} {d : DenseTensor} :
    firstEntry pools name = some (p, d) ↔ ∃ earlier later, pools = earlier ++ p :: later ∧
      (∀ q ∈ earlier, q.denseSrcs name = none) ∧ p.denseSrcs name = some d := by
  rw [firstEntry, List.findSome?_eq_some_iff]
  constructor
  · rintro ⟨earlier, q, later, rfl, hq, hnone⟩
    rw [Option.map_eq_some_iff] at hq
    obtain ⟨d', hd', heq⟩ := hq
    obtain ⟨rfl, rfl⟩ := Prod.mk.inj heq
    exact ⟨earlier, later, rfl, by simpa using hnone, hd'⟩
  · rintro ⟨earlier, later, rfl, hnone, hd⟩
    exact ⟨earlier, p, later, rfl, by simp [hd], by simpa using hnone⟩

end pools

section entry

variable {d : DenseTensor}

/-- A byte is in one segment. -/
theorem seg_unique {s s' : SrcSeg} (hs : s ∈ d.srcs) (hs' : s' ∈ d.srcs) {i : ℕ}
    (h : s.inOff ≤ i ∧ i < s.inOff + s.len) (h' : s'.inOff ≤ i ∧ i < s'.inOff + s'.len) : s = s' := by
  have hmem : s ∈ d.srcs.filter fun s => decide (0 < s.len) :=
    List.mem_filter.mpr ⟨hs, decide_eq_true (by omega)⟩
  have hmem' : s' ∈ d.srcs.filter fun s => decide (0 < s.len) :=
    List.mem_filter.mpr ⟨hs', decide_eq_true (by omega)⟩
  obtain ⟨a, ha, rfl⟩ := List.mem_iff_getElem.mp hmem
  obtain ⟨b, hb, rfl⟩ := List.mem_iff_getElem.mp hmem'
  congr 1
  exact d.tiles.index_unique ha hb h h'

theorem seg_le {s : SrcSeg} (hs : s ∈ d.srcs) (hpos : 0 < s.len) : s.inOff + s.len ≤ d.size :=
  (d.tiles.bounds (List.mem_filter.mpr ⟨hs, decide_eq_true hpos⟩)).2.1

theorem exists_seg {i : ℕ} (h : i < d.size) :
    ∃ s ∈ d.srcs, s.inOff ≤ i ∧ i < s.inOff + s.len := by
  obtain ⟨s, hs, hin⟩ := d.tiles.covers (Nat.zero_le i) h
  exact ⟨s, (List.mem_filter.mp hs).1, hin⟩

theorem length_requests : (requests d).length = d.srcs.length := List.length_map _

theorem plan_slices_of_readable {p : Model} (h : Readable p d) :
    (buildExpertReadPlan (requests d)).slices = planSlices 0 (requests d) := by
  have hok : ¬ ((requests d).length = 0 ∨ maxSubTensorsPerExpert < (requests d).length) := by
    have hlen := List.length_pos_of_ne_nil h.2.1
    have hle := h.2.2
    rw [length_requests]
    omega
  rw [buildExpertReadPlan, if_neg hok]

theorem plan_slices_eq_nil (p : Model) (hp : p.nFiles ≠ 0) :
    (buildExpertReadPlan (requests d)).slices = [] ↔ ¬ Readable p d := by
  constructor
  · intro hnil h
    rw [plan_slices_of_readable h] at hnil
    have hlen := congrArg List.length hnil
    rw [length_planSlices, length_requests] at hlen
    exact h.2.1 (List.eq_nil_of_length_eq_zero hlen)
  · intro h
    have hbad : (requests d).length = 0 ∨ maxSubTensorsPerExpert < (requests d).length := by
      by_contra hok
      rw [length_requests, not_or] at hok
      exact h ⟨hp, fun hnil => hok.1 (by simp [hnil]), by omega⟩
    rw [buildExpertReadPlan, if_pos hbad]

end entry

section slices

variable {d : DenseTensor} {x y : TensorSliceRead}

/-- A slice of the plan is made of a segment, the one with its index. -/
theorem slice_eq {j : ℕ} (h : j < (planSlices 0 (requests d)).length) (h' : j < d.srcs.length) :
    ∃ cur, (planSlices 0 (requests d))[j] = sliceOf cur (request d.srcs[j]) := by
  have hreq : j < (requests d).length := by simpa [length_requests] using h'
  refine ⟨((requests d).take j).foldl stagingStep 0, ?_⟩
  rw [getElem_planSlices 0 _ j h hreq]
  simp [requests]

theorem exists_seg_of_slice (hx : x ∈ planSlices 0 (requests d)) :
    ∃ s ∈ d.srcs, ∃ cur, x = sliceOf cur (request s) := by
  obtain ⟨j, hj, rfl⟩ := List.mem_iff_getElem.mp hx
  have hj' : j < d.srcs.length := by simpa [length_planSlices, length_requests] using hj
  obtain ⟨cur, hcur⟩ := slice_eq hj hj'
  exact ⟨_, List.getElem_mem hj', cur, hcur⟩

theorem exists_slice_of_seg {s : SrcSeg} (hs : s ∈ d.srcs) :
    ∃ cur, sliceOf cur (request s) ∈ planSlices 0 (requests d) := by
  obtain ⟨j, hj', rfl⟩ := List.mem_iff_getElem.mp hs
  have hj : j < (planSlices 0 (requests d)).length := by
    simpa [length_planSlices, length_requests] using hj'
  obtain ⟨cur, hcur⟩ := slice_eq hj hj'
  exact ⟨cur, hcur ▸ List.getElem_mem hj⟩

theorem slice_unique (hx : x ∈ planSlices 0 (requests d)) (hy : y ∈ planSlices 0 (requests d))
    (h : x.shardIdx = y.shardIdx) : x = y := by
  obtain ⟨a, ha, rfl⟩ := List.mem_iff_getElem.mp hx
  obtain ⟨b, hb, rfl⟩ := List.mem_iff_getElem.mp hy
  have ha' : a < d.srcs.length := by simpa [length_planSlices, length_requests] using ha
  have hb' : b < d.srcs.length := by simpa [length_planSlices, length_requests] using hb
  obtain ⟨cur, hcur⟩ := slice_eq ha ha'
  obtain ⟨cur', hcur'⟩ := slice_eq hb hb'
  have hfile : d.srcs[a].file = d.srcs[b].file := by
    rw [hcur, hcur'] at h
    exact h
  have hidx : a = b := by
    have hnodup := List.nodup_iff_injective_get.mp d.files
    have hget := @hnodup ⟨a, by simpa using ha'⟩ ⟨b, by simpa using hb'⟩ (by simpa using hfile)
    exact congrArg Fin.val hget
  subst hidx
  rfl

/-- A byte of the staging area is in one window. -/
theorem window_unique {reqs : List SubTensorReq} {a : ℕ} (hx : x ∈ planSlices 0 reqs)
    (hy : y ∈ planSlices 0 reqs) (h : x.stagingOffset ≤ a ∧ a < x.stagingOffset + x.fileReadLen)
    (h' : y.stagingOffset ≤ a ∧ a < y.stagingOffset + y.fileReadLen) : x = y := by
  obtain ⟨i, hi, rfl⟩ := List.mem_iff_getElem.mp hx
  obtain ⟨j, hj, rfl⟩ := List.mem_iff_getElem.mp hy
  have hpair := List.pairwise_iff_getElem.mp (staging_apart 0 reqs)
  rcases Nat.lt_trichotomy i j with hlt | heq | hgt
  · have hle := hpair i j hi hj hlt
    omega
  · subst heq
    rfl
  · have hle := hpair j i hj hi hgt
    omega

end slices

section bytes

variable {p : Model} {d : DenseTensor} {env : Env} {i : ℕ} {s : SrcSeg}

/-- A copied byte comes from the payload of its segment in the staging area. -/
theorem copyPayloads_eq (p : Model) (env : Env) (nbytes : ℕ) (hs : s ∈ d.srcs) (hi : s.inOff ≤ i ∧ i < s.inOff + s.len) :
    ∃ cur, sliceOf cur (request s) ∈ planSlices 0 (requests d) ∧
      copyPayloads p env nbytes (planSlices 0 (requests d)) i =
        readWindows p env (planSlices 0 (requests d))
          ((sliceOf cur (request s)).copySrcOffset + (i - s.inOff)) := by
  obtain ⟨cur₀, hmem₀⟩ := exists_slice_of_seg hs
  have hcovered : ∃ y ∈ planSlices 0 (requests d),
      y.copyDstOffset ≤ i ∧ i < y.copyDstOffset + y.copyByteLen := ⟨_, hmem₀, hi⟩
  have hcopied : ∃ y ∈ planSlices 0 (requests d),
      (y.copyDstOffset ≤ i ∧ i < y.copyDstOffset + y.copyByteLen) ∧
        copyPayloads p env nbytes (planSlices 0 (requests d)) i =
          readWindows p env (planSlices 0 (requests d)) (y.copySrcOffset + (i - y.copyDstOffset)) :=
    blits_covered hcovered
  obtain ⟨y, hy, hin, hval⟩ := hcopied
  obtain ⟨s', hs', cur, rfl⟩ := exists_seg_of_slice hy
  obtain rfl := seg_unique hs' hs hin hi
  exact ⟨cur, hy, hval⟩

/-- A payload in a window that was not truncated has the bytes of the file. -/
theorem readWindows_eq {cur : ℕ} (hmem : sliceOf cur (request s) ∈ planSlices 0 (requests d))
    (hfile : s.file < p.nFiles) (hspan : span (request s) < 2 ^ 32) {k : ℕ} (hk : k < s.len) :
    readWindows p env (planSlices 0 (requests d)) ((sliceOf cur (request s)).copySrcOffset + k) =
      env.disk p.path s.file (s.off + k) := by
  have hstart := alignedStart_le (request s)
  have hpayload := payload_le_alignedLen hspan
  have hoff : (sliceOf cur (request s)).copySrcOffset = cur + (s.off - alignedStart (request s)) := rfl
  have hlen : (request s).byteSize = s.len := rfl
  have hfo : (request s).fileOffset = s.off := rfl
  have hin : (sliceOf cur (request s)).stagingOffset ≤
        (sliceOf cur (request s)).copySrcOffset + k ∧
      (sliceOf cur (request s)).copySrcOffset + k <
        (sliceOf cur (request s)).stagingOffset + (sliceOf cur (request s)).fileReadLen := by
    simp only [sliceOf]
    omega
  have hcovered : ∃ y ∈ planSlices 0 (requests d), y.stagingOffset ≤
        (sliceOf cur (request s)).copySrcOffset + k ∧
      (sliceOf cur (request s)).copySrcOffset + k < y.stagingOffset + y.fileReadLen := ⟨_, hmem, hin⟩
  obtain ⟨y, hy, hin', hval⟩ := blits_covered hcovered
  obtain rfl := window_unique hy hmem hin' hin
  rw [readWindows, hval]
  have hpos : (sliceOf cur (request s)).fileReadStart + ((sliceOf cur (request s)).copySrcOffset + k -
      (sliceOf cur (request s)).stagingOffset) = s.off + k := by
    simp only [sliceOf]
    omega
  have hshard : (sliceOf cur (request s)).shardIdx = s.file := rfl
  rw [hpos, hshard, if_pos hfile]

/-- Behind a truncated window lies the staging area's own content or a window of another file. -/
theorem readWindows_behind (env : Env) {cur a f : ℕ} {v : UInt8}
    (hmem : sliceOf cur (request s) ∈ planSlices 0 (requests d))
    (hfile : ∀ s ∈ d.srcs, s.file < p.nFiles) (hf : s.file = f)
    (ha : ¬ (cur ≤ a ∧ a < cur + alignedLen (request s)))
    (hdisk : ∀ g, g ≠ f → ∀ k, env.disk p.path g k = v) (hstaging : env.staging a = v) :
    readWindows p env (planSlices 0 (requests d)) a = v := by
  by_cases hcovered : ∃ y ∈ planSlices 0 (requests d),
      y.stagingOffset ≤ a ∧ a < y.stagingOffset + y.fileReadLen
  · obtain ⟨y, hy, hin, hval⟩ := blits_covered hcovered
    rw [readWindows, hval]
    obtain ⟨s', hs', cur', rfl⟩ := exists_seg_of_slice hy
    have hne : s'.file ≠ f := by
      intro heq
      have hsame := slice_unique hy hmem (heq.trans hf.symm)
      rw [hsame] at hin
      exact ha hin
    have hshard : (sliceOf cur' (request s')).shardIdx = s'.file := rfl
    rw [hshard, if_pos (hfile s' hs')]
    exact hdisk _ hne _
  · rw [readWindows, blits_outside fun y hy hin => hcovered ⟨y, hy, hin⟩, hstaging]

end bytes

section fill

variable {ms : List Model} {own p : Model} {d : DenseTensor} {name : String} {nbytes : ℕ}

theorem mem_of_denseSrcs {m : Model} (h : m.denseSrcs name = some d) : d ∈ m.dense := by
  have hfold : ∀ (l : List DenseTensor) (srcs : String → Option DenseTensor),
      (l.foldl (fun (srcs : String → Option DenseTensor) d =>
        Function.update srcs d.name (some d)) srcs) name = some d → srcs name = some d ∨ d ∈ l := by
    intro l
    induction l with
    | nil => exact fun _ h => .inl h
    | cons e l ih =>
      intro srcs h
      rcases ih _ h with h | h
      · by_cases hname : name = e.name
        · subst hname
          simp only [Function.update_self, Option.some.injEq] at h
          exact .inr (h ▸ List.mem_cons_self)
        · simp only [Function.update_of_ne hname] at h
          exact .inl h
      · exact .inr (List.mem_cons_of_mem _ h)
  exact (hfold m.dense _ h).resolve_left (by simp)

def fillOf (p : Model) (d : DenseTensor) (nbytes : ℕ) (env : Env) : Filled where
  path := p.path
  count := nbytes
  bytes := copyPayloads p env nbytes (planSlices 0 (requests d))
  writes := (planSlices 0 (requests d)).map fun sl => (sl.copyDstOffset, sl.copyByteLen)

@[simp] theorem fillOf_bytes (env : Env) : (fillOf p d nbytes env).bytes =
    copyPayloads p env nbytes (planSlices 0 (requests d)) := rfl

/-- Something is filled exactly if the first entry is readable and all is granted. -/
theorem routeBFillDense_eq_some {pools : List Model} {env : Env} {r : Filled} :
    routeBFillDense pools name nbytes env = some r ↔ ∃ p d, firstEntry pools name = some (p, d) ∧
      Readable p d ∧ env.granted = true ∧ r = fillOf p d nbytes env := by
  simp only [routeBFillDense, Option.bind_eq_some_iff, Prod.exists]
  refine exists_congr fun p => exists_congr fun d => and_congr_right fun _ => ?_
  by_cases hfiles : p.nFiles = 0
  · simp [hfiles, Readable]
  · by_cases h : Readable p d
    · have hslices := plan_slices_of_readable h
      have hne : planSlices 0 (requests d) ≠ [] := fun hnil =>
        (plan_slices_eq_nil p hfiles).mp (hslices.trans hnil) h
      cases hgranted : env.granted
      · simp
      · simp [h, hfiles, hne, hslices, fillOf, eq_comm (a := r)]
    · have hnil := (plan_slices_eq_nil (d := d) p hfiles).mpr h
      simp [h, hnil]

theorem mem_writes_fillOf {env : Env} {s : SrcSeg} (hs : s ∈ d.srcs) :
    (s.inOff, s.len) ∈ (fillOf p d nbytes env).writes := by
  obtain ⟨cur, hmem⟩ := exists_slice_of_seg hs
  exact List.mem_map.mpr ⟨_, hmem, rfl⟩

theorem right_fillOf {env : Env} (hentry : own.denseSrcs name = some d) (hsize : d.size = nbytes)
    (hspan : ∀ s ∈ d.srcs, 0 < s.len → span (request s) < 2 ^ 32) :
    Right own name nbytes env (fillOf own d nbytes env) where
  model := rfl
  count := rfl
  inside := by
    intro w hw
    obtain ⟨sl, hsl, rfl⟩ := List.mem_map.mp hw
    obtain ⟨s, hs, cur, rfl⟩ := exists_seg_of_slice hsl
    rcases Nat.eq_zero_or_pos s.len with hzero | hpos
    · exact .inl hzero
    · exact .inr (hsize ▸ seg_le hs hpos)
  bytes := by
    refine ⟨d, hentry, fun i hi => ?_⟩
    obtain ⟨s, hs, hin⟩ := exists_seg (hsize ▸ hi)
    refine ⟨s, hs, hin, ?_⟩
    obtain ⟨cur, hmem, hval⟩ := copyPayloads_eq own env nbytes hs hin
    have hfile := own.file_lt d (mem_of_denseSrcs hentry) s hs
    rw [fillOf_bytes, hval]
    exact readWindows_eq hmem hfile (hspan s hs (by omega)) (by omega)

/-- A tensor that gets the bytes of its entry whatever the files hold has the entry's size, and no
window is truncated. -/
theorem entry_of_right (hentry : own.denseSrcs name = some d)
    (h : ∀ env : Env, env.granted = true → Right own name nbytes env (fillOf own d nbytes env)) :
    d.size = nbytes ∧ ∀ s ∈ d.srcs, 0 < s.len → span (request s) < 2 ^ 32 := by
  have hinside : ∀ s ∈ d.srcs, 0 < s.len → s.inOff + s.len ≤ nbytes := by
    intro s hs hpos
    have hw := (h ⟨fun _ _ _ => 0, fun _ => 0, fun _ => 0, true⟩ rfl).inside _ (mem_writes_fillOf hs)
    exact hw.resolve_left (by simp only; omega)
  constructor
  · apply Nat.le_antisymm
    · by_contra hlt
      obtain ⟨s, hs, hin⟩ := exists_seg (d := d) (i := nbytes) (by omega)
      have hle := hinside s hs (by omega)
      omega
    · by_contra hlt
      obtain ⟨d', hd', hall⟩ := (h ⟨fun _ _ _ => 0, fun _ => 0, fun _ => 0, true⟩ rfl).bytes
      rw [hentry, Option.some.injEq] at hd'
      subst hd'
      obtain ⟨s, hs, hin, _⟩ := hall d.size (by omega)
      have hle := seg_le hs (by omega)
      omega
  · intro s hs hpos
    by_contra hspan
    -- the file of the segment holds zeros, everything else ones
    have hright := h ⟨fun _ f _ => if f = s.file then 0 else 1, fun _ => 1, fun _ => 0, true⟩ rfl
    obtain ⟨d', hd', hall⟩ := hright.bytes
    rw [hentry, Option.some.injEq] at hd'
    subst hd'
    have hlast := hinside s hs hpos
    have hin : s.inOff ≤ s.inOff + s.len - 1 ∧ s.inOff + s.len - 1 < s.inOff + s.len := by omega
    obtain ⟨s', hs', hin', hbyte⟩ := hall (s.inOff + s.len - 1) (by omega)
    obtain rfl := seg_unique hs' hs hin' hin
    obtain ⟨cur, hmem, hval⟩ := copyPayloads_eq own
      ⟨fun _ f _ => if f = s'.file then 0 else 1, fun _ => 1, fun _ => 0, true⟩ nbytes hs hin
    have hshort := alignedLen_lt_payload (Nat.le_of_not_lt hspan)
    have hbehind : ¬ (cur ≤ (sliceOf cur (request s')).copySrcOffset + (s'.inOff + s'.len - 1 - s'.inOff) ∧
        (sliceOf cur (request s')).copySrcOffset + (s'.inOff + s'.len - 1 - s'.inOff) <
          cur + alignedLen (request s')) := by
      simp only [sliceOf, request] at hshort ⊢
      omega
    have hone := readWindows_behind (p := own) (v := 1)
      ⟨fun _ f _ => if f = s'.file then 0 else 1, fun _ => 1, fun _ => 0, true⟩ hmem
      (own.file_lt d (mem_of_denseSrcs hentry)) rfl hbehind (fun g hg k => if_neg hg) rfl
    simp only [fillOf_bytes, hval, hone, if_true] at hbyte
    exact absurd hbyte (by decide)

/-- Whatever the files hold, a tensor of a registered model is filled right or not at all exactly if
the first entry of its name is its own, of its size, with windows below `2 ^ 32` bytes. -/
theorem fillDense_right_iff (hown : own ∈ gPools ms) (name : String) (nbytes : ℕ) :
    (∀ env r, routeBFillDense (gPools ms) name nbytes env = some r → Right own name nbytes env r) ↔
      OwnFirst (gPools ms) own name nbytes := by
  constructor
  · intro h earlier p later d hpools hnone hentry hread
    have hfirst := firstEntry_iff.mpr ⟨earlier, later, hpools, hnone, hentry⟩
    have hfill : ∀ env : Env, env.granted = true → Right own name nbytes env (fillOf p d nbytes env) :=
      fun env hgranted =>
        h env _ (routeBFillDense_eq_some.mpr ⟨p, d, hfirst, hread, hgranted, rfl⟩)
    have hpath : p.path = own.path := (hfill ⟨fun _ _ _ => 0, fun _ => 0, fun _ => 0, true⟩ rfl).model
    have hp : p ∈ gPools ms := hpools ▸ by simp
    obtain rfl := eq_of_path hp hown hpath
    exact ⟨rfl, entry_of_right hentry hfill⟩
  · intro h env r hr
    obtain ⟨p, d, hfirst, hread, _, rfl⟩ := routeBFillDense_eq_some.mp hr
    obtain ⟨earlier, later, hpools, hnone, hentry⟩ := firstEntry_iff.mp hfirst
    obtain ⟨hpath, hsize, hspan⟩ := h earlier p later d hpools hnone hentry hread
    have hp : p ∈ gPools ms := hpools ▸ by simp
    obtain rfl := eq_of_path hp hown hpath
    exact right_fillOf hentry hsize hspan

end fill

section draft

def tokenEmbd (off : ℕ) : DenseTensor where
  name := "token_embd.weight"
  size := 8
  srcs := [{ file := 0, off := off, len := 8, inOff := 0 }]
  tiles := .cons rfl (Nat.succ_pos 7) (.nil 8)
  files := by simp

def embdModel (path : String) (off : ℕ) : Model where
  path := path
  nExpert := 4
  nFiles := 1
  dense := [tokenEmbd off]
  opened := true
  file_lt := by simp [tokenEmbd]

def draftTensor : DenseTensor where
  name := "d2t.weight"
  size := 8
  srcs := [{ file := 0, off := 12288, len := 8, inOff := 0 }]
  tiles := .cons rfl (Nat.succ_pos 7) (.nil 8)
  files := by simp

def draftModel : Model where
  path := "draft.gguf"
  nExpert := 4
  nFiles := 1
  dense := [tokenEmbd 8192, draftTensor]
  opened := true
  file_lt := by simp [tokenEmbd, draftTensor]

/-- A tensor that the main model, which was registered first, does not have is filled right. -/
theorem fillDense_right_iff_behindMain : draftModel ∈ gPools [embdModel "main.gguf" 4096, draftModel] ∧
    ∀ env r, routeBFillDense (gPools [embdModel "main.gguf" 4096, draftModel]) "d2t.weight" 8 env = some r →
      Right draftModel "d2t.weight" 8 env r := by
  have hpools : gPools [embdModel "main.gguf" 4096, draftModel] = [embdModel "main.gguf" 4096, draftModel] := rfl
  have hown : draftModel ∈ gPools [embdModel "main.gguf" 4096, draftModel] := by simp [hpools]
  refine ⟨hown, (fillDense_right_iff hown "d2t.weight" 8).mpr ?_⟩
  rintro earlier p later d hsplit _ hentry _
  have hmem : p = embdModel "main.gguf" 4096 ∨ p = draftModel := by
    have hmem : p ∈ gPools [embdModel "main.gguf" 4096, draftModel] := hsplit ▸ by simp
    simpa [hpools] using hmem
  rcases hmem with rfl | rfl
  · have hnone : (embdModel "main.gguf" 4096).denseSrcs "d2t.weight" = none := rfl
    rw [hnone] at hentry
    cases hentry
  · have hd : draftModel.denseSrcs "d2t.weight" = some draftTensor := rfl
    rw [hd] at hentry
    cases hentry
    exact ⟨rfl, rfl, by decide⟩

/-- The embedding of a draft model is filled from the main model, which was registered first. -/
theorem not_fillDense_right_draft :
    embdModel "draft.gguf" 8192 ∈ gPools [embdModel "main.gguf" 4096, embdModel "draft.gguf" 8192] ∧
    ¬ ∀ env r, routeBFillDense (gPools [embdModel "main.gguf" 4096, embdModel "draft.gguf" 8192])
        "token_embd.weight" 8 env = some r →
      Right (embdModel "draft.gguf" 8192) "token_embd.weight" 8 env r := by
  have hpools : gPools [embdModel "main.gguf" 4096, embdModel "draft.gguf" 8192] =
      [embdModel "main.gguf" 4096, embdModel "draft.gguf" 8192] := rfl
  refine ⟨by simp [hpools], fun h => ?_⟩
  have hfirst : firstEntry (gPools [embdModel "main.gguf" 4096, embdModel "draft.gguf" 8192])
      "token_embd.weight" = some (embdModel "main.gguf" 4096, tokenEmbd 4096) := rfl
  have hread : Readable (embdModel "main.gguf" 4096) (tokenEmbd 4096) := by
    simp [Readable, embdModel, tokenEmbd, maxSubTensorsPerExpert]
  have hright := h ⟨fun _ _ _ => 0, fun _ => 0, fun _ => 0, true⟩ _
    (routeBFillDense_eq_some.mpr ⟨_, _, hfirst, hread, rfl, rfl⟩)
  exact absurd hright.model (by decide)

end draft

end DenseFill
end StreamMoE
