import StreamMoE.ChunkSet

/-! The order of an explicit list of chunk files: which lists are mapped as the whole set in order is. -/
namespace StreamMoE
namespace ChunkSet

open BlockSplit (Failure)
open DenseFill (SrcSeg)
open Spans (Tiles)
open StripRange StripPartition

section build

variable {α β γ δ ε σ τ ω : Type}

theorem map_ok_iff {x : Except ε α} {φ : α → β} {b : β} : x.map φ = .ok b ↔ ∃ a, x = .ok a ∧ φ a = b := by
  cases x <;> simp [Except.map]

theorem map_error_iff {x : Except ε α} {φ : α → β} {e : ε} : x.map φ = .error e ↔ x = .error e := by
  cases x <;> simp [Except.map]

theorem bind_ok_iff {x : Except ε α} {k : α → Except ε β} {b : β} :
    (x >>= k) = .ok b ↔ ∃ a, x = .ok a ∧ k a = .ok b := by
  cases x <;> simp [bind, Except.bind]

theorem bind_error_iff {x : Except ε α} {k : α → Except ε β} {e : ε} :
    (x >>= k) = .error e ↔ x = .error e ∨ ∃ a, x = .ok a ∧ k a = .error e := by
  cases x <;> simp [bind, Except.bind]

theorem mapM_congr {f g : α → Except ε β} {xs : List α} (h : ∀ x ∈ xs, f x = g x) : xs.mapM f = xs.mapM g := by
  induction xs with
  | nil => rfl
  | cons x xs ih =>
    obtain ⟨hx, hxs⟩ := List.forall_mem_cons.mp h
    rw [List.mapM_cons, List.mapM_cons, hx, ih hxs]

theorem map_map (x : Except ε α) (φ : α → β) (ψ : β → γ) : (x.map φ).map ψ = x.map (ψ ∘ φ) := by
  cases x <;> rfl

theorem map_bind (x : Except ε α) (k : α → Except ε β) (φ : β → γ) :
    (x >>= k).map φ = x >>= fun a => (k a).map φ := by
  cases x <;> rfl

theorem bind_map (x : Except ε α) (φ : α → β) (k : β → Except ε γ) :
    x.map φ >>= k = x >>= fun a => k (φ a) := by
  cases x <;> rfl

theorem map_mapM (f : α → Except ε β) (φ : β → γ) (xs : List α) :
    (xs.mapM f).map (List.map φ) = xs.mapM fun x => (f x).map φ := by
  induction xs with
  | nil => rfl
  | cons x xs ih =>
    rw [List.mapM_cons, List.mapM_cons, map_bind, bind_map]
    congr 1
    funext y
    rw [← ih, map_bind, bind_map]
    rfl

theorem map_of_mapM {f : α → Except ε β} {xs : List α} {ys : List β} (h : xs.mapM f = .ok ys) :
    xs.map f = ys.map .ok := by
  induction xs generalizing ys with
  | nil =>
    cases h
    rfl
  | cons x xs ih =>
    rw [List.mapM_cons] at h
    cases hf : f x with
    | error e => simp [hf, bind, Except.bind] at h
    | ok y =>
      cases hfs : xs.mapM f with
      | error e => simp [hf, hfs, bind, Except.bind] at h
      | ok ys' =>
        simp only [hf, hfs, bind, Except.bind, pure, Except.pure, Except.ok.injEq] at h
        rw [← h, List.map_cons, List.map_cons, hf, ih hfs]

theorem exists_of_mapM {f : α → Except ε β} {xs : List α} {ys : List β} (h : xs.mapM f = .ok ys) {x : α}
    (hx : x ∈ xs) : ∃ y ∈ ys, f x = .ok y := by
  have hmem : f x ∈ xs.map f := List.mem_map_of_mem hx
  rw [map_of_mapM h] at hmem
  obtain ⟨y, hy, heq⟩ := List.mem_map.mp hmem
  exact ⟨y, hy, heq.symm⟩

theorem getElem?_of_mapM {f : α → Except ε β} {xs : List α} {ys : List β} (h : xs.mapM f = .ok ys) (i : ℕ) :
    xs[i]?.map f = ys[i]?.map .ok := by
  rw [← List.getElem?_map, ← List.getElem?_map, map_of_mapM h]

theorem source_of_mapM {f : α → Except ε β} {xs : List α} {ys : List β} (h : xs.mapM f = .ok ys) {y : β}
    (hy : y ∈ ys) : ∃ x ∈ xs, f x = .ok y := by
  have hmem : (.ok y : Except ε β) ∈ ys.map .ok := List.mem_map_of_mem hy
  rw [← map_of_mapM h] at hmem
  exact List.mem_map.mp hmem

def ExpertTensor.map (φ : σ → τ) (e : ExpertTensor σ) : ExpertTensor τ :=
  { e with perExpertSrcs := e.perExpertSrcs.map (List.map φ) }

def DenseTensor.map (φ : σ → τ) (d : DenseTensor σ) : DenseTensor τ := { d with srcs := d.srcs.map φ }

def Entry.map (φ : σ → τ) : Entry σ → Entry τ
  | .expert e => .expert (e.map φ)
  | .dense d => .dense (d.map φ)

def Body.map (φ : σ → τ) (b : Body σ) : Body τ where
  blockSrcs := b.blockSrcs.map (List.map φ)
  dense := b.dense.map (DenseTensor.map φ)
  expert := b.expert.map (ExpertTensor.map φ)

theorem asDense_map (φ : σ → τ) (xs : List (Entry σ)) :
    (xs.filterMap Entry.asDense).map (DenseTensor.map φ) =
      (xs.map (Entry.map φ)).filterMap Entry.asDense := by
  rw [List.map_filterMap, List.filterMap_map]
  congr 1
  funext x
  cases x <;> rfl

theorem asExpert_map (φ : σ → τ) (xs : List (Entry σ)) :
    ((xs.filterMap Entry.asExpert).insertionSort ExpertTensor.Before).map (ExpertTensor.map φ) =
      ((xs.map (Entry.map φ)).filterMap Entry.asExpert).insertionSort ExpertTensor.Before := by
  have hsort := List.map_insertionSort ExpertTensor.Before ExpertTensor.Before (ExpertTensor.map φ)
    (xs.filterMap Entry.asExpert) fun a _ b _ => Iff.rfl
  rw [hsort, List.map_filterMap, List.filterMap_map]
  congr 2
  funext x
  cases x <;> rfl

variable {L : Layout} {f : Query → Except Failure (List σ)} {g : Query → Except Failure (List τ)}
  {φ : σ → ω} {ψ : τ → ω}

theorem mapTensor_map (t : TensorInfo) :
    (mapTensor f L t).map (Entry.map φ) = mapTensor (fun q => (f q).map (List.map φ)) L t := by
  unfold mapTensor
  split
  · rw [← map_mapM, map_map, map_map]
    rfl
  · rw [map_bind]
    congr 1
    funext q
    rw [map_bind, bind_map]
    rfl

theorem mapTensor_congr {f g : Query → Except Failure (List σ)} {t : TensorInfo}
    (h : ∀ q ∈ L.tensorQueries t, f q = g q) : mapTensor f L t = mapTensor g L t := by
  unfold mapTensor
  unfold Layout.tensorQueries at h
  split
  case isTrue hexpert =>
    rw [if_pos hexpert] at h
    rw [mapM_congr h]
  case isFalse hdense =>
    rw [if_neg hdense] at h
    cases hq : L.denseQuery t with
    | error e => rfl
    | ok q =>
      rw [hq] at h
      have hone := h q List.mem_cons_self
      simp only [bind, Except.bind, hone]

theorem buildModel_map :
    (buildModel f L).map (Body.map φ) = buildModel (fun q => (f q).map (List.map φ)) L := by
  have htensors : L.tensors.mapM (mapTensor (fun q => (f q).map (List.map φ)) L) =
      (L.tensors.mapM (mapTensor f L)).map (List.map (Entry.map φ)) := by
    rw [map_mapM]
    exact mapM_congr fun t _ => (mapTensor_map t).symm
  unfold buildModel
  rw [htensors, ← map_mapM, map_bind, bind_map]
  congr 1
  funext bs
  rw [map_bind, bind_map]
  congr 1
  funext ts
  rw [← asDense_map, ← asExpert_map]
  rfl

theorem buildModel_congr {f g : Query → Except Failure (List σ)} (h : ∀ q ∈ L.queries, f q = g q) :
    buildModel f L = buildModel g L := by
  obtain ⟨hblocks, htensors⟩ := List.forall_mem_append.mp h
  have hentries : L.tensors.mapM (mapTensor f L) = L.tensors.mapM (mapTensor g L) :=
    mapM_congr fun t ht => mapTensor_congr fun q hq => htensors q (List.mem_flatMap.mpr ⟨t, ht, hq⟩)
  unfold buildModel
  rw [mapM_congr hblocks, hentries]

theorem segs_of_mapTensor {t : TensorInfo} {x : Entry σ} (h : mapTensor f L t = .ok x) {q : Query}
    (hq : q ∈ L.tensorQueries t) : ∃ segs, f q = .ok segs := by
  unfold mapTensor at h
  unfold Layout.tensorQueries at hq
  split at h
  case isTrue hexpert =>
    rw [if_pos hexpert] at hq
    obtain ⟨srcs, hsrcs, -⟩ := map_ok_iff.mp h
    obtain ⟨segs, -, hsegs⟩ := exists_of_mapM hsrcs hq
    exact ⟨segs, hsegs⟩
  case isFalse hdense =>
    rw [if_neg hdense] at hq
    obtain ⟨q', hd, h⟩ := bind_ok_iff.mp h
    obtain ⟨segs, hsegs, -⟩ := bind_ok_iff.mp h
    simp only [hd, List.mem_singleton] at hq
    exact ⟨segs, hq ▸ hsegs⟩

theorem segs_of_buildModel {b : Body σ} (h : buildModel f L = .ok b) {q : Query} (hq : q ∈ L.queries) :
    ∃ segs, f q = .ok segs := by
  obtain ⟨bs, hb, h⟩ := bind_ok_iff.mp h
  obtain ⟨ts, ht, -⟩ := bind_ok_iff.mp h
  rcases List.mem_append.mp hq with hmem | hmem
  · obtain ⟨segs, -, hsegs⟩ := exists_of_mapM hb hmem
    exact ⟨segs, hsegs⟩
  · obtain ⟨t, htmem, hqt⟩ := List.mem_flatMap.mp hmem
    obtain ⟨x, -, hx⟩ := exists_of_mapM ht htmem
    exact segs_of_mapTensor hx hqt

/-- The first element that fails. -/
theorem split_of_mapM {f : α → Except ε β} {xs : List α} {e : ε} (h : xs.mapM f = .error e) :
    ∃ front x rest, xs = front ++ x :: rest ∧ (∀ y ∈ front, ∃ z, f y = .ok z) ∧ f x = .error e := by
  induction xs with
  | nil => simp [pure, Except.pure] at h
  | cons x xs ih =>
    rw [List.mapM_cons] at h
    cases hf : f x with
    | error e' =>
      simp only [hf, bind, Except.bind, Except.error.injEq] at h
      exact ⟨[], x, xs, rfl, by simp, h ▸ hf⟩
    | ok y =>
      cases hfs : xs.mapM f with
      | error e' =>
        simp only [hf, hfs, bind, Except.bind, Except.error.injEq] at h
        obtain ⟨front, x', rest, rfl, hfront, herr⟩ := ih (h ▸ hfs)
        exact ⟨x :: front, x', rest, rfl, List.forall_mem_cons.mpr ⟨⟨y, hf⟩, hfront⟩, herr⟩
      | ok ys => simp [hf, hfs, bind, Except.bind, pure, Except.pure] at h

theorem error_of_mapM {f : α → Except ε β} {xs : List α} {e : ε} (h : xs.mapM f = .error e) :
    ∃ x ∈ xs, f x = .error e := by
  obtain ⟨front, x, rest, rfl, -, herr⟩ := split_of_mapM h
  exact ⟨x, by simp, herr⟩

theorem denseQuery_thrown {t : TensorInfo} {e : Failure} (h : L.denseQuery t = .error e) :
    ∃ what, e = .thrown what := by
  unfold Layout.denseQuery at h
  split at h
  · cases h
  · split at h <;> cases h
    exact ⟨_, rfl⟩
  · split at h <;> cases h
    exact ⟨_, rfl⟩

/-- A tensor fails for a section that is missing or with one of its intervals. -/
theorem mapTensor_error {t : TensorInfo} {e : Failure} (h : mapTensor f L t = .error e) :
    L.denseQuery t = .error e ∨ ∃ q, f q = .error e := by
  unfold mapTensor at h
  split at h
  case isTrue hexpert =>
    obtain ⟨q, -, hq⟩ := error_of_mapM (map_error_iff.mp h)
    exact .inr ⟨q, hq⟩
  case isFalse hdense =>
    rcases bind_error_iff.mp h with hd | ⟨q, -, h⟩
    · exact .inl hd
    · rcases bind_error_iff.mp h with hq | ⟨segs, -, h⟩
      · exact .inr ⟨q, hq⟩
      · cases h

/-- A model is refused by an interval or for a section that is missing. -/
theorem buildModel_thrown (hf : ∀ q, f q ≠ .error .undefined) {e : Failure} (h : buildModel f L = .error e) :
    ∃ what, e = .thrown what := by
  have hthrown : ∀ {q e}, f q = .error e → ∃ what, e = .thrown what := by
    intro q e hq
    cases e with
    | thrown what => exact ⟨what, rfl⟩
    | undefined => exact absurd hq (hf q)
  rcases bind_error_iff.mp h with hb | ⟨bs, -, h⟩
  · obtain ⟨q, -, hq⟩ := error_of_mapM hb
    exact hthrown hq
  · rcases bind_error_iff.mp h with ht | ⟨ts, -, h⟩
    · obtain ⟨t, -, hx⟩ := error_of_mapM ht
      rcases mapTensor_error hx with hd | ⟨q, hq⟩
      · exact denseQuery_thrown hd
      · exact hthrown hq
    · cases h

theorem map_append_map (xs : List σ) (r : Except ε (List σ)) (φ : σ → ω) :
    (r.map (xs ++ ·)).map (List.map φ) = (r.map (List.map φ)).map (xs.map φ ++ ·) := by
  rw [map_map, map_map]
  congr 1
  funext ys
  exact List.map_append

end build

section strips

variable {ι : Type} (count : ι → ℕ)

/-- The member that holds block `b` when each holds its count, and the place of the block in it. -/
def holder : List ι → ℕ → Option (ι × ℕ)
  | [], _ => none
  | k :: ks, b => if b < count k then some (k, b) else holder ks (b - count k)

variable {count} {ks ls : List ι}

/-- Members that hold nothing do not matter. -/
theorem holder_filter (ks : List ι) (b : ℕ) : holder count (ks.filter fun k => count k ≠ 0) b = holder count ks b := by
  induction ks generalizing b with
  | nil => rfl
  | cons k ks ih =>
    by_cases hk : count k = 0
    · rw [List.filter_cons_of_neg (by simpa using hk), ih, holder, if_neg (by omega), hk, Nat.sub_zero]
    · rw [List.filter_cons_of_pos (by simpa using hk), holder, holder, ih]

theorem sum_filter (ks : List ι) : ((ks.filter fun k => count k ≠ 0).map count).sum = (ks.map count).sum := by
  induction ks with
  | nil => rfl
  | cons k ks ih =>
    by_cases hk : count k = 0
    · rw [List.filter_cons_of_neg (by simpa using hk), ih, List.map_cons, List.sum_cons, hk, Nat.zero_add]
    · rw [List.filter_cons_of_pos (by simpa using hk), List.map_cons, List.map_cons, List.sum_cons,
        List.sum_cons, ih]

/-- A list in the order of another one has the same members that hold blocks, or fewer blocks. -/
theorem filter_eq_or_sum_lt (h : ks.Sublist ls) :
    (ks.filter fun k => count k ≠ 0) = (ls.filter fun k => count k ≠ 0) ∨ (ks.map count).sum < (ls.map count).sum := by
  induction h with
  | slnil => exact .inl rfl
  | cons l _ ih =>
    rw [List.map_cons, List.sum_cons]
    by_cases hl : count l = 0
    · rw [List.filter_cons_of_neg (by simpa using hl)]
      exact ih.imp_right fun hlt => by omega
    · rcases ih with heq | hlt
      · have hsum := congrArg (fun xs => (xs.map count).sum) heq
        rw [sum_filter, sum_filter] at hsum
        exact .inr (by omega)
      · exact .inr (by omega)
  | cons_cons l _ ih =>
    rw [List.map_cons, List.map_cons, List.sum_cons, List.sum_cons, List.filter_cons, List.filter_cons]
    rcases ih with heq | hlt
    · exact .inl (by rw [heq])
    · exact .inr (by omega)

variable (file : ι → ChunkFile) (unit : ℕ)

def blockCount (k : ι) : ℕ := ((file k).count unit).toNat

theorem before_length (ks : List ι) :
    before (ks.map file) unit (ks.map file).length = (ks.map (blockCount file unit)).sum := by
  rw [before, List.take_length, List.map_map]
  rfl

variable {file unit}

theorem holder_of_strip {i b : ℕ} (hi : i < ks.length) (hlow : before (ks.map file) unit i ≤ b)
    (hhigh : b < before (ks.map file) unit (i + 1)) :
    holder (blockCount file unit) ks b = some (ks[i], b - before (ks.map file) unit i) := by
  induction ks generalizing i b with
  | nil => simp at hi
  | cons k ks ih =>
    cases i with
    | zero =>
      rw [List.map_cons, before_cons, before_zero] at hhigh
      rw [holder, if_pos (by simpa [blockCount] using hhigh)]
      simp
    | succ i =>
      rw [List.map_cons, before_cons] at hlow hhigh
      have hnot : ¬ b < blockCount file unit k := by
        unfold blockCount
        omega
      have hblock : blockCount file unit k = ((file k).count unit).toNat := rfl
      rw [holder, if_neg hnot, ih (by simpa using hi) (by omega) (by omega)]
      simp only [List.map_cons, before_cons, List.getElem_cons_succ, hblock, Nat.sub_sub]

end strips

section loops

variable {ι : Type} {file : ι → ChunkFile} {unit : ℕ} {rel len cur : UInt64} {ks ls : List ι} {t t' : Turn}

theorem file_of_strip {i : ℕ} (h : OnStrip (ks.map file) unit rel len cur t i) :
    ∃ hi : i < ks.length, file ks[i] = t.found.file := by
  have hi : i < ks.length := by simpa using h.lt
  refine ⟨hi, ?_⟩
  have hfile := h.file
  rw [List.getElem?_map, List.getElem?_eq_getElem hi] at hfile
  simpa using hfile

/-- Passes at one page with the same holder read the same bytes and end at the same page. -/
theorem turn_agree (path : ι → Path) {i i' : ℕ} (h : OnStrip (ks.map file) unit rel len cur t i)
    (h' : OnStrip (ls.map file) unit rel len cur t' i')
    (hsame : ∀ b, holder (blockCount file unit) ks b = holder (blockCount file unit) ls b) :
    (t.segs unit rel cur).map (locate (ks.map path)) = (t'.segs unit rel cur).map (locate (ls.map path)) ∧
      cur + t.avail = cur + t'.avail := by
  obtain ⟨hi, hfile⟩ := file_of_strip h
  obtain ⟨hi', hfile'⟩ := file_of_strip h'
  have hholder := hsame cur.toNat
  rw [holder_of_strip hi h.low h.high, holder_of_strip hi' h'.low h'.high] at hholder
  simp only [Option.some.injEq, Prod.mk.injEq] at hholder
  obtain ⟨hk, hplace⟩ := hholder
  have hlow := h.low
  have hlow' := h'.low
  have hsucc := before_succ unit h.file
  have hsucc' := before_succ unit h'.file
  have hfound : t.found.file = t'.found.file := by rw [← hfile, ← hfile', hk]
  have hloc : t.loc = t'.loc := UInt64.toNat_inj.mp (by rw [h.loc, h'.loc, hplace])
  have hend : before (ks.map file) unit (i + 1) = before (ls.map file) unit (i' + 1) := by
    rw [hsucc, hsucc', hfound]
    omega
  have hstart : t.segStart = t'.segStart := UInt64.toNat_inj.mp (by rw [h.segStart, h'.segStart])
  have hstop : t.segEnd = t'.segEnd := UInt64.toNat_inj.mp (by rw [h.segEnd, h'.segEnd, hend])
  refine ⟨?_, UInt64.toNat_inj.mp (by rw [h.next, h'.next, hend])⟩
  unfold Turn.segs
  rw [hstart, hstop, hfound, hloc]
  split
  · simp [locate, h.index, h'.index, hi, hi', hk]
  · rfl

theorem loop_end (hlt : cur < endPage rel len) (hne : ks ≠ [])
    (hcur : cur.toNat = before (ks.map file) unit (ks.map file).length) :
    loop unit (ks.map file) rel len cur =
      .error (.thrown "strip_range_to_segs: interval past strip coverage") := by
  obtain ⟨t, hturn, hzero, _⟩ := turn_end unit (by simpa using hne) hlt hcur
  rw [loop, dif_pos hlt]
  split
  · rename_i hnone
    cases hturn.symm.trans hnone
  · rename_i u hu
    cases hturn.symm.trans hu
    exact dif_pos hzero

/-- Two lists with the same holders: the loop maps an interval that begins inside to the same bytes. -/
theorem loop_agree (path : ι → Path) (hks : ks ≠ []) (hls : ls ≠ [])
    (hsame : ∀ b, holder (blockCount file unit) ks b = holder (blockCount file unit) ls b)
    (htotal : before (ks.map file) unit (ks.map file).length = before (ls.map file) unit (ls.map file).length)
    (hsmall : before (ks.map file) unit (ks.map file).length < 2 ^ 64)
    (hfront : Front (ks.map file) unit rel len cur.toNat) (hfront' : Front (ls.map file) unit rel len cur.toNat)
    (hcur : cur.toNat ≤ before (ks.map file) unit (ks.map file).length) :
    (loop unit (ks.map file) rel len cur).map (List.map (locate (ks.map path))) =
      (loop unit (ls.map file) rel len cur).map (List.map (locate (ls.map path))) := by
  obtain ⟨n, hn⟩ : ∃ n, n = (endPage rel len).toNat - cur.toNat := ⟨_, rfl⟩
  induction n using Nat.strong_induction_on generalizing cur with
  | _ n ih =>
    by_cases hlt : cur < endPage rel len
    · have hlt' := UInt64.lt_iff_toNat_lt.mp hlt
      rcases Nat.lt_or_ge cur.toNat (before (ks.map file) unit (ks.map file).length) with hin | hout
      · obtain ⟨t, i, h⟩ := onStrip (clear_of_lt hsmall) hfront hlt hin
        obtain ⟨t', i', h'⟩ := onStrip (clear_of_lt (htotal ▸ hsmall)) hfront' hlt (htotal ▸ hin)
        obtain ⟨hsegs, hpage⟩ := turn_agree path h h' hsame
        have hnext := h.next
        have hhigh := h.high
        have hmono : before (ks.map file) unit (i + 1) ≤ _ := before_mono h.lt
        have hrest := ih _ (by omega) (h.front hfront) (hpage ▸ h'.front hfront') (by omega) rfl
        rw [loop_turn hlt h.turn h.pos, loop_turn hlt h'.turn h'.pos, ← hpage]
        rw [map_append_map, map_append_map, hsegs, hrest]
      · rw [loop_end hlt hks (by omega), loop_end hlt hls (by omega)]
        rfl
    · rw [loop_done hlt, loop_done hlt]
      rfl

end loops

/-- A set of chunk files as the converter writes them: the mapped intervals lie in their units and leave
no block of a unit out, and the sizes of units and files are numbers of 64 bits. -/
structure FileSet where
  layout : Layout
  strips : List ChunkFile
  inside : ∀ q ∈ layout.queries, q.rel.toNat + q.len.toNat ≤ coverage strips q.unit
  filled : ∀ q ∈ layout.queries, ∀ b < before strips q.unit strips.length, ∃ r ∈ layout.queries,
    r.unit = q.unit ∧ r.rel.toNat / 4096 ≤ b ∧ 4096 * b < r.rel.toNat + r.len.toNat
  small : ∀ q ∈ layout.queries, coverage strips q.unit + 4095 < 2 ^ 64
  sized : ∀ f ∈ strips, f.dataOff.toNat + 4096 * (f.slices.map UInt64.toNat).sum < 2 ^ 64

section sets

variable (S : FileSet)

def FileSet.file (k : ℕ) : ChunkFile := S.strips.getD k ⟨[], 0⟩

def FileSet.numbers : List ℕ := List.range S.strips.length

/-- Every file carries its number, the size of the set and the metadata. -/
def FileSet.header (k : ℕ) : Header where
  chunkNo := k
  chunkTotal := S.strips.length
  file := S.file k
  layout := S.layout

/-- The files are on the disk, under any names. -/
def FileSet.Stored (path : ℕ → Path) (disk : Path → Option Header) : Prop :=
  ∀ k < S.strips.length, disk (path k) = some (S.header k)

/-- A single path of a larger set is not a list but the start of a search. -/
def FileSet.Explicit (ks : List ℕ) : Prop := ks.length = 1 → S.strips.length ≤ 1

/-- The listed files that hold blocks of a unit are those of the set, in its order. -/
def FileSet.SameStrips (unit : ℕ) (ks : List ℕ) : Prop :=
  (ks.filter fun k => blockCount S.file unit k ≠ 0) = S.numbers.filter fun k => blockCount S.file unit k ≠ 0

def Parsed.located (p : Parsed) : Body Located := p.body.map (locate p.files)

/-- The same headers with other numbers. -/
def renumber (nos totals : Path → ℕ) (disk : Path → Option Header) (p : Path) : Option Header :=
  (disk p).map fun h => { h with chunkNo := nos p, chunkTotal := totals p }

variable {S} {path : ℕ → Path} {disk : Path → Option Header} {entries : String → List String} {ks : List ℕ}

@[simp] theorem FileSet.map_numbers : S.numbers.map S.file = S.strips := by
  refine List.ext_getElem (by simp [numbers]) fun i h h' => ?_
  simp [numbers, file, h']

theorem mapM_openFile (hdisk : S.Stored path disk) (hks : ∀ k ∈ ks, k < S.strips.length) :
    (ks.map path).mapM (openFile disk) = .ok (ks.map S.header) := by
  induction ks with
  | nil => rfl
  | cons k ks ih =>
    obtain ⟨hk, hks⟩ := List.forall_mem_cons.mp hks
    rw [List.map_cons, List.mapM_cons, ih hks, openFile, hdisk k hk]
    rfl

theorem parseModel_list (hdisk : S.Stored path disk) (hks : ∀ k ∈ ks, k < S.strips.length) (hne : ks ≠ [])
    (hexplicit : S.Explicit ks) :
    parseModel entries disk (ks.map path) =
      (buildModel (mapQuery (ks.map S.file)) S.layout).map fun body =>
        { files := ks.map path, strips := ks.map S.file, body } := by
  obtain ⟨k, ks', rfl⟩ := List.exists_cons_of_ne_nil hne
  have hopen := mapM_openFile hdisk hks
  have hk := hdisk k (hks k List.mem_cons_self)
  have hsearch : ¬ (ks'.map path = [] ∧ (S.header k).chunkTotal > 1) := by
    rintro ⟨hnil, htotal⟩
    have hle := hexplicit (by simpa using hnil)
    exact absurd htotal (by simpa [FileSet.header] using hle)
  have hmain : openFile disk (path k) = .ok (S.header k) := by rw [openFile, hk]
  rw [List.map_cons] at hopen ⊢
  have hfiles : (List.map S.header (k :: ks')).map Header.file = (k :: ks').map S.file := by
    rw [List.map_map]
    rfl
  simp only [parseModel, hmain, bind, Except.bind, if_neg hsearch, hopen, hfiles]
  rfl

/-- No header's number is read, unless a single path starts a search. -/
theorem parseModel_renumber (nos totals : Path → ℕ) {paths : List Path} (hlen : paths.length ≠ 1) :
    parseModel entries (renumber nos totals disk) paths = parseModel entries disk paths := by
  cases paths with
  | nil => rfl
  | cons p ps =>
    have hps : ps ≠ [] := by
      rintro rfl
      exact hlen rfl
    have hone : ∀ r : Path, (openFile (renumber nos totals disk) r).map (fun h => (h.file, h.layout)) =
        (openFile disk r).map fun h => (h.file, h.layout) := by
      intro r
      unfold openFile renumber
      cases disk r <;> rfl
    have hread : ∀ d : Path → Option Header, parseModel entries d (p :: ps) =
        (openFile d p).map (fun h => (h.file, h.layout)) >>= fun main =>
          ((p :: ps).mapM fun r => (openFile d r).map fun h => (h.file, h.layout)) >>= fun hs =>
            (buildModel (mapQuery (hs.map Prod.fst))
              { main.2 with tensors := (hs.map fun h => h.2.tensors).headD [] }).map
                fun body => ⟨p :: ps, hs.map Prod.fst, body⟩ := by
      intro d
      rw [bind_map, parseModel]
      congr 1
      funext main
      rw [← map_mapM, bind_map, if_neg (by simp [hps])]
      simp only [List.map_map]
      rfl
    rw [hread, hread, hone p, mapM_congr fun r _ => hone r]

variable {q : Query}

theorem total_eq (hsame : S.SameStrips q.unit ks) :
    before (ks.map S.file) q.unit (ks.map S.file).length = before S.strips q.unit S.strips.length := by
  have hnumbers := before_length S.file q.unit S.numbers
  rw [FileSet.map_numbers] at hnumbers
  rw [before_length, hnumbers, ← sum_filter ks, ← sum_filter S.numbers, hsame]

theorem blocks_lt (hq : q ∈ S.layout.queries) : before S.strips q.unit S.strips.length < 2 ^ 64 := by
  have hsmall := S.small q hq
  unfold coverage at hsmall
  omega

theorem mapQuery_agree (path : ℕ → Path) (hq : q ∈ S.layout.queries) (hne : ks ≠ []) (hset : S.numbers ≠ [])
    (hsame : S.SameStrips q.unit ks) :
    (mapQuery (ks.map S.file) q).map (List.map (locate (ks.map path))) =
      (mapQuery (S.numbers.map S.file) q).map (List.map (locate (S.numbers.map path))) := by
  have hblocks := blocks_lt hq
  have htotal := total_eq hsame
  have hinside := S.inside q hq
  unfold coverage at hinside
  refine loop_agree path hne hset (fun b => ?_) ?_ (by omega) front_start front_start ?_
  · rw [← holder_filter ks, ← holder_filter S.numbers, hsame]
  · rw [htotal, FileSet.map_numbers]
  · rw [startPage_toNat, htotal]
    omega

/-- A list with fewer blocks of a unit than the set has is refused. -/
theorem mapQuery_refused (hq : q ∈ S.layout.queries) (hne : ks ≠ [])
    (hlt : before (ks.map S.file) q.unit (ks.map S.file).length < before S.strips q.unit S.strips.length) :
    ∃ r ∈ S.layout.queries, ∃ what, mapQuery (ks.map S.file) r = .error (.thrown what) := by
  obtain ⟨r, hr, hunit, hstart, hend⟩ := S.filled q hq _ hlt
  have hblocks := blocks_lt hq
  have hsmall := S.small r hr
  have hinside := S.inside r hr
  have hlast : (endPage r.rel r.len).toNat = _ := endPage_toNat
  rw [Nat.mod_eq_of_lt (by omega)] at hlast
  refine ⟨r, hr, loop_refused (clear_of_lt ?_) (by simpa using hne) ?_ front_start ?_⟩
  · rw [hunit]
    omega
  · rw [hlast, hunit]
    omega
  · rw [startPage_toNat, hunit]
    exact hstart

theorem located_agree (hdisk : S.Stored path disk) (hks : ∀ k ∈ ks, k < S.strips.length) (hne : ks ≠ [])
    (hexplicit : S.Explicit ks) (hsame : ∀ q ∈ S.layout.queries, S.SameStrips q.unit ks) :
    (parseModel entries disk (ks.map path)).map Parsed.located =
      (parseModel entries disk (S.numbers.map path)).map Parsed.located := by
  have hset : S.numbers ≠ [] := by
    obtain ⟨k, ks', rfl⟩ := List.exists_cons_of_ne_nil hne
    have hk := hks k List.mem_cons_self
    simp only [FileSet.numbers, ne_eq, List.range_eq_nil]
    omega
  have hnumbers : ∀ k ∈ S.numbers, k < S.strips.length := fun k hk => List.mem_range.mp hk
  have hall : S.Explicit S.numbers := by
    intro hlen
    simp only [FileSet.numbers, List.length_range] at hlen
    omega
  have hbody := buildModel_congr fun q hq => mapQuery_agree path hq hne hset (hsame q hq)
  rw [← buildModel_map, ← buildModel_map] at hbody
  rw [parseModel_list hdisk hks hne hexplicit, parseModel_list hdisk hnumbers hset hall]
  rw [map_map, map_map]
  exact hbody

theorem above_add_le (f : ChunkFile) (unit : ℕ) :
    f.above unit + (f.count unit).toNat ≤ (f.slices.map UInt64.toNat).sum := by
  unfold ChunkFile.above ChunkFile.count
  induction f.slices generalizing unit with
  | nil => simp
  | cons c cs ih =>
    cases unit with
    | zero => simp
    | succ unit =>
      have hrest := ih unit
      simp only [List.take_succ_cons, List.map_cons, List.sum_cons, List.getD_cons_succ] at hrest ⊢
      omega

/-- The whole set in order: every byte of an interval is mapped to its file and offset. -/
theorem mapQuery_right (hq : q ∈ S.layout.queries) (hlen : q.len ≠ 0) :
    ∃ segs, mapQuery S.strips q = .ok segs ∧ Tiles SrcSeg.inOff (fun s => s.len) 0 segs q.len.toNat ∧
      ∀ s ∈ segs, Placed S.strips q.unit q.rel.toNat s := by
  have hinside := S.inside q hq
  have hsmall := S.small q hq
  have hpos : q.len.toNat ≠ 0 := fun hzero => hlen (UInt64.toNat_inj.mp hzero)
  have hlast : (endPage q.rel q.len).toNat = _ := endPage_toNat
  rw [Nat.mod_eq_of_lt (by omega)] at hlast
  have haddr : Addressable S.strips q.unit q.rel q.len := by
    intro i f hf hsome hlow hhigh
    have hsucc := before_succ q.unit hf
    have hsized := S.sized f (List.mem_of_getElem? hf)
    have hsum := above_add_le f q.unit
    omega
  obtain ⟨segs, hok, htiles, hplaced, _⟩ :=
    loop_partition (clear_of_lt (blocks_lt hq)) hlen (by omega) haddr hinside front_start
      (by rw [startPage_toNat]; omega)
  refine ⟨segs, hok, ?_, hplaced⟩
  rw [startPage_toNat] at htiles
  convert htiles using 1
  omega

theorem mapQuery_defined {strips : List ChunkFile} (hne : strips ≠ []) (q : Query) :
    mapQuery strips q ≠ .error .undefined := by
  unfold mapQuery stripRangeToSegs
  refine @page_induction strips q.unit q.rel q.len
    (fun cur => loop q.unit strips q.rel q.len cur ≠ .error .undefined) ?_ ?_ ?_ _
  · intro cur hdone
    simp [loop_done hdone]
  · intro cur hlt hzero
    obtain ⟨x, hseek, -⟩ := seek_files q.unit cur hne
    obtain ⟨t, hturn⟩ : ∃ t, turn q.unit strips q.rel q.len cur = some t := by
      simp [turn, hseek]
    obtain ⟨what, hloop⟩ := loop_thrown hlt hturn (hzero t hturn)
    simp [hloop]
  · intro cur t hlt hturn hpos ih hloop
    rw [loop_turn hlt hturn hpos] at hloop
    cases hrest : loop q.unit strips q.rel q.len (cur + t.avail) with
    | error e =>
      rw [hrest] at hloop ih
      simp only [Except.map, Except.error.injEq] at hloop
      exact ih (by rw [hloop])
    | ok segs =>
      rw [hrest] at hloop
      cases hloop

/-- A list in the order of the set is mapped as the whole set is, or refused. -/
theorem sublist_agree (hdisk : S.Stored path disk) (hsub : ks.Sublist S.numbers) (hexplicit : S.Explicit ks) :
    (∃ what, parseModel entries disk (ks.map path) = .error (.thrown what)) ∨
      (parseModel entries disk (ks.map path)).map Parsed.located =
        (parseModel entries disk (S.numbers.map path)).map Parsed.located := by
  have hks : ∀ k ∈ ks, k < S.strips.length := fun k hk => List.mem_range.mp (hsub.subset hk)
  rcases List.eq_nil_or_concat ks with rfl | hne
  · exact .inl ⟨_, rfl⟩
  have hne : ks ≠ [] := by
    obtain ⟨init, last, rfl⟩ := hne
    simp
  by_cases hall : ∀ q ∈ S.layout.queries, S.SameStrips q.unit ks
  · exact .inr (located_agree hdisk hks hne hexplicit hall)
  · left
    simp only [not_forall] at hall
    obtain ⟨q, hq, hother⟩ := hall
    have hfewer : before (ks.map S.file) q.unit (ks.map S.file).length <
        before S.strips q.unit S.strips.length := by
      have hnumbers := before_length S.file q.unit S.numbers
      rw [FileSet.map_numbers] at hnumbers
      rw [before_length, hnumbers]
      exact (filter_eq_or_sum_lt hsub).resolve_left hother
    obtain ⟨r, hr, what, hrefused⟩ := mapQuery_refused hq hne hfewer
    rw [parseModel_list hdisk hks hne hexplicit]
    cases hbuild : buildModel (mapQuery (ks.map S.file)) S.layout with
    | ok body =>
      obtain ⟨segs, hsegs⟩ := segs_of_buildModel hbuild hr
      cases hsegs.symm.trans hrefused
    | error e =>
      obtain ⟨what, rfl⟩ := buildModel_thrown (mapQuery_defined (by simpa using hne)) hbuild
      exact ⟨what, rfl⟩

/-- An explicit list is used as given: the strips are taken in its order and the numbers of the files are
not read. The whole set in order is mapped right; a list with files missing is refused or gives the same
model, and so does every list with the blocks of each unit in order. -/
theorem parseModel_asGiven (hdisk : S.Stored path disk) (entries : String → List String) :
    (∀ nos totals paths, paths.length ≠ 1 →
      parseModel entries (renumber nos totals disk) paths = parseModel entries disk paths) ∧
    (∀ ks, (∀ k ∈ ks, k < S.strips.length) → ks ≠ [] → S.Explicit ks →
      parseModel entries disk (ks.map path) =
        (buildModel (mapQuery (ks.map S.file)) S.layout).map fun body =>
          { files := ks.map path, strips := ks.map S.file, body }) ∧
    (∀ q ∈ S.layout.queries, q.len ≠ 0 → ∃ segs, mapQuery S.strips q = .ok segs ∧
      Tiles SrcSeg.inOff (fun s => s.len) 0 segs q.len.toNat ∧
      ∀ s ∈ segs, Placed S.strips q.unit q.rel.toNat s) ∧
    (∀ ks, (∀ k ∈ ks, k < S.strips.length) → ks ≠ [] → S.Explicit ks →
      (∀ q ∈ S.layout.queries, S.SameStrips q.unit ks) →
      (parseModel entries disk (ks.map path)).map Parsed.located =
        (parseModel entries disk (S.numbers.map path)).map Parsed.located) ∧
    ∀ ks, ks.Sublist S.numbers → S.Explicit ks →
      (∃ what, parseModel entries disk (ks.map path) = .error (.thrown what)) ∨
        (parseModel entries disk (ks.map path)).map Parsed.located =
          (parseModel entries disk (S.numbers.map path)).map Parsed.located :=
  ⟨fun nos totals _ hlen => parseModel_renumber nos totals hlen,
    fun _ hks hne hexplicit => parseModel_list hdisk hks hne hexplicit,
    fun _ hq hlen => mapQuery_right hq hlen,
    fun _ hks hne hexplicit hsame => located_agree hdisk hks hne hexplicit hsame,
    fun _ hsub hexplicit => sublist_agree hdisk hsub hexplicit⟩

end sets

section pair

def pairTensor : TensorInfo where
  name := "blk.0.ffn_gate_exps.weight"
  offset := 0
  size := 8192
  category := .expert
  layer := 0
  branch := "gate"

/-- One expert of two blocks, the first in file 0 and the second in file 1. -/
def pairSet : FileSet where
  layout :=
    { nExpert := 1, blocks := [(0, 8192)], branches := [[("gate", 8192)]], branchAlign := true
      denseSection := [], denseLayerSections := [], expertMetaSections := [], tensors := [pairTensor] }
  strips := [⟨[0, 1], 4096⟩, ⟨[0, 1], 8192⟩]
  inside := by decide
  filled := by decide
  small := by decide
  sized := by decide

def pairPath (k : ℕ) : Path := if k = 0 then ⟨"", "c1.gguf"⟩ else ⟨"", "c2.gguf"⟩

def pairDisk (p : Path) : Option Header :=
  if p = pairPath 0 then some (pairSet.header 0)
  else if p = pairPath 1 then some (pairSet.header 1)
  else none

theorem pair_stored : pairSet.Stored pairPath pairDisk := by
  intro k hk
  have hcases : k = 0 ∨ k = 1 := by
    have hlen : pairSet.strips.length = 2 := rfl
    omega
  rcases hcases with rfl | rfl <;> rfl

/-- The same expert beside a third file without blocks of it. -/
def trioSet : FileSet where
  layout := pairSet.layout
  strips := pairSet.strips ++ [⟨[0, 0], 4096⟩]
  inside := by decide
  filled := by decide
  small := by decide
  sized := by decide

def trioPath (k : ℕ) : Path := ⟨"", ["c1.gguf", "c2.gguf", "c3.gguf"].getD k ""⟩

def trioDisk (p : Path) : Option Header :=
  (trioSet.numbers.find? fun k => trioPath k == p).map trioSet.header

theorem trio_stored : trioSet.Stored trioPath trioDisk := by
  intro k hk
  have hcases : k = 0 ∨ k = 1 ∨ k = 2 := by
    have hlen : trioSet.strips.length = 3 := rfl
    omega
  rcases hcases with rfl | rfl | rfl <;> rfl

/-- Renumbered files, the expert's segments, the file without blocks in front, and a file missing. -/
theorem parseModel_asGiven_trio : trioSet.Stored trioPath trioDisk ∧
    parseModel (fun _ => []) (renumber (fun _ => 0) (fun _ => 2) trioDisk) [trioPath 1, trioPath 0] =
      parseModel (fun _ => []) trioDisk [trioPath 1, trioPath 0] ∧
    (∃ segs, mapQuery trioSet.strips ⟨1, 0, 8192⟩ = .ok segs ∧
      Tiles SrcSeg.inOff (fun s => s.len) 0 segs 8192) ∧
    (parseModel (fun _ => []) trioDisk ([2, 0, 1].map trioPath)).map Parsed.located =
      (parseModel (fun _ => []) trioDisk (trioSet.numbers.map trioPath)).map Parsed.located ∧
    ((∃ what, parseModel (fun _ => []) trioDisk ([0, 2].map trioPath) = .error (.thrown what)) ∨
      (parseModel (fun _ => []) trioDisk ([0, 2].map trioPath)).map Parsed.located =
        (parseModel (fun _ => []) trioDisk (trioSet.numbers.map trioPath)).map Parsed.located) := by
  obtain ⟨hrenumber, _, hright, hsame, hsublist⟩ := parseModel_asGiven trio_stored fun _ => []
  obtain ⟨segs, hsegs, htiles, _⟩ := hright ⟨1, 0, 8192⟩ (by decide) (by decide)
  have hstrips : ∀ q ∈ trioSet.layout.queries, trioSet.SameStrips q.unit [2, 0, 1] := by
    unfold FileSet.SameStrips
    decide
  exact ⟨trio_stored, hrenumber _ _ _ (by decide), ⟨segs, hsegs, htiles⟩,
    hsame [2, 0, 1] (by decide) (by decide) (fun hone => absurd hone (by decide)) hstrips,
    hsublist [0, 2] (by decide) fun hone => absurd hone (by decide)⟩

theorem buildModel_pair {σ : Type} (f : Query → Except Failure (List σ)) :
    buildModel f pairSet.layout = (f ⟨1, 0, 8192⟩).map fun srcs =>
      { blockSrcs := [srcs], dense := []
        expert := [{ info := pairTensor, perExpert := 8192, branchOff := 0, perExpertSrcs := [srcs] }] } := by
  have hblocks : pairSet.layout.blockQueries = [⟨1, 0, 8192⟩] := by decide
  have hexperts : pairSet.layout.expertQueries pairTensor = [⟨1, 0, 8192⟩] := by decide
  have htensors : pairSet.layout.tensors = [pairTensor] := rfl
  have hexpert : pairTensor.category = .expert := rfl
  unfold buildModel
  rw [hblocks, htensors]
  cases hf : f ⟨1, 0, 8192⟩ with
  | error e => simp [hf, bind, Except.bind, Except.map]
  | ok srcs =>
    simp only [List.mapM_cons, List.mapM_nil, mapTensor, hexpert, if_true, hexperts, hf]
    rfl

/-- Where the files of a list have the bytes of the expert. -/
def pairSlices (ks : List ℕ) : Except Failure (List (List (List Located))) :=
  ((parseModel (fun _ => []) pairDisk (ks.map pairPath)).map Parsed.located).map fun b =>
    b.expert.map ExpertTensor.perExpertSrcs

theorem pairSlices_eq {ks : List ℕ} (hks : ∀ k ∈ ks, k < 2) (hlen : ks.length = 2) :
    pairSlices ks = (mapQuery (ks.map pairSet.file) ⟨1, 0, 8192⟩).map fun srcs =>
      [[srcs.map (locate (ks.map pairPath))]] := by
  have hne : ks ≠ [] := by
    rintro rfl
    simp at hlen
  rw [pairSlices, parseModel_list pair_stored hks hne fun hone => absurd hone (by omega), buildModel_pair]
  cases mapQuery (ks.map pairSet.file) ⟨1, 0, 8192⟩ <;> rfl

theorem mapQuery_two {strips : List ChunkFile} {q : Query} {t u : Turn}
    (ht : turn q.unit strips q.rel q.len (q.rel / 4096) = some t)
    (hu : turn q.unit strips q.rel q.len (q.rel / 4096 + t.avail) = some u)
    (hfirst : q.rel / 4096 < endPage q.rel q.len) (hpos : t.avail ≠ 0)
    (hsecond : q.rel / 4096 + t.avail < endPage q.rel q.len) (hpos' : u.avail ≠ 0)
    (hdone : ¬ q.rel / 4096 + t.avail + u.avail < endPage q.rel q.len) :
    mapQuery strips q =
      .ok (t.segs q.unit q.rel (q.rel / 4096) ++ u.segs q.unit q.rel (q.rel / 4096 + t.avail)) := by
  rw [mapQuery, stripRangeToSegs, loop_turn hfirst ht hpos, loop_turn hsecond hu hpos', loop_done hdone]
  simp [Except.map]

/-- The two files in the wrong order, and the first one twice, are mapped to other bytes than in order. -/
theorem not_parseModel_orderFree :
    pairSlices [1, 0] = .ok [[[⟨some (pairPath 1), 8192, 4096, 0⟩, ⟨some (pairPath 0), 4096, 4096, 4096⟩]]] ∧
    pairSlices [0, 0] = .ok [[[⟨some (pairPath 0), 4096, 4096, 0⟩, ⟨some (pairPath 0), 4096, 4096, 4096⟩]]] ∧
    ¬ ∀ ks : List ℕ, (∀ k ∈ ks, k < pairSet.strips.length) → pairSet.Explicit ks →
      (∃ what, parseModel (fun _ => []) pairDisk (ks.map pairPath) = .error (.thrown what)) ∨
        (parseModel (fun _ => []) pairDisk (ks.map pairPath)).map Parsed.located =
          (parseModel (fun _ => []) pairDisk (pairSet.numbers.map pairPath)).map Parsed.located := by
  have hswapped : pairSlices [1, 0] =
      .ok [[[⟨some (pairPath 1), 8192, 4096, 0⟩, ⟨some (pairPath 0), 4096, 4096, 4096⟩]]] := by
    rw [pairSlices_eq (by decide) rfl, mapQuery_two rfl rfl (by decide) (by decide) (by decide) (by decide)
      (by decide)]
    decide
  have hdoubled : pairSlices [0, 0] =
      .ok [[[⟨some (pairPath 0), 4096, 4096, 0⟩, ⟨some (pairPath 0), 4096, 4096, 4096⟩]]] := by
    rw [pairSlices_eq (by decide) rfl, mapQuery_two rfl rfl (by decide) (by decide) (by decide) (by decide)
      (by decide)]
    decide
  have hordered : pairSlices [0, 1] =
      .ok [[[⟨some (pairPath 0), 4096, 4096, 0⟩, ⟨some (pairPath 1), 8192, 4096, 4096⟩]]] := by
    rw [pairSlices_eq (by decide) rfl, mapQuery_two rfl rfl (by decide) (by decide) (by decide) (by decide)
      (by decide)]
    decide
  refine ⟨hswapped, hdoubled, fun hall => ?_⟩
  rcases hall [1, 0] (by decide) (fun hone => absurd hone (by decide)) with ⟨what, herr⟩ | heq
  · rw [pairSlices, herr] at hswapped
    cases hswapped
  · have hslices : pairSlices [1, 0] = pairSlices [0, 1] := congrArg (Except.map fun b : Body Located =>
      b.expert.map ExpertTensor.perExpertSrcs) heq
    rw [hswapped, hordered] at hslices
    exact absurd hslices (by decide)

end pair

end ChunkSet
end StreamMoE
