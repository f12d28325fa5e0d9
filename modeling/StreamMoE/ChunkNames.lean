import StreamMoE.ConvertRead

/-! The file names of a chunk conversion and `discover_chunk_files`: from any file of the set the names of all files
are found again. -/
namespace StreamMoE
namespace ConvertModel

open BlockSplit (Failure)
open ChunkSet (Path splitName number stol middle byNum discoverChunkFiles)

section digits

variable {ds es : List Char}

theorem toNat_of_isDigit {c : Char} (h : c.isDigit = true) : 48 ≤ c.toNat ∧ c.toNat ≤ 57 := by
  simpa [Char.isDigit, UInt32.le_iff_toNat_le] using h

theorem number_inj (hds : ∀ c ∈ ds, c.isDigit = true) (hes : ∀ c ∈ es, c.isDigit = true)
    (hlen : ds.length = es.length) (h : number ds = number es) : ds = es := by
  induction ds using List.reverseRecOn generalizing es with
  | nil => exact (List.length_eq_zero_iff.mp hlen.symm).symm
  | append_singleton ds c ih =>
    obtain ⟨es, e, rfl⟩ : ∃ es' e, es = es' ++ [e] := by
      refine ⟨es.dropLast, es.getLast ?_, (List.dropLast_append_getLast _).symm⟩
      rintro rfl
      simp at hlen
    have hc := toNat_of_isDigit (hds c (by simp))
    have he := toNat_of_isDigit (hes e (by simp))
    have hvalue : ∀ (cs : List Char) (d : Char), number (cs ++ [d]) = 10 * number cs + (d.toNat - 48) := by
      intro cs d
      rw [number, List.foldl_append]
      rfl
    rw [hvalue, hvalue] at h
    have hlast : c = e := Char.toNat_inj.mp (by omega)
    have hrest := ih (fun c hc => hds c (List.mem_append_left _ hc)) (fun c hc => hes c (List.mem_append_left _ hc))
      (by simpa using hlen) (by omega)
    rw [hrest, hlast]

/-- The digits of the number of a file -/
def padded (i pad : ℕ) : List Char := (zeroPad (i + 1) pad).toList

theorem padded_eq (i pad : ℕ) : padded i pad =
    List.replicate (pad - (Nat.toDigits 10 (i + 1)).length) '0' ++ Nat.toDigits 10 (i + 1) := by
  rw [padded, zeroPad, String.toList_ofList, Nat.toList_repr]

theorem number_padded (i pad : ℕ) : number (padded i pad) = i + 1 := by
  change Nat.ofDigitChars 10 (padded i pad) 0 = i + 1
  rw [padded_eq, Nat.ofDigitChars_append, Nat.ofDigitChars_replicate_zero, Nat.mul_zero, Nat.ofDigitChars_ten_toDigits]

theorem isDigit_padded {i pad : ℕ} {c : Char} (hc : c ∈ padded i pad) : c.isDigit = true := by
  rw [padded_eq] at hc
  rcases List.mem_append.mp hc with hc | hc
  · rw [(List.mem_replicate.mp hc).2]
    rfl
  · exact Nat.isDigit_of_mem_toDigits (by decide) (by decide) hc

theorem padded_ne_nil (i pad : ℕ) : padded i pad ≠ [] := by
  rw [padded_eq]
  exact List.append_ne_nil_of_right_ne_nil _ Nat.toDigits_ne_nil

/-- Numbers that fit the width have it. -/
theorem length_padded {i pad : ℕ} (h : i + 1 < 10 ^ pad) : (padded i pad).length = pad := by
  have hpos : 0 < pad := by
    rcases Nat.eq_zero_or_pos pad with rfl | hpos
    · rw [pow_zero] at h
      omega
    · exact hpos
  have hle := (Nat.length_toDigits_le_iff (b := 10) (by decide) hpos).mpr h
  rw [padded_eq, List.length_append, List.length_replicate]
  omega

end digits

section names

variable {base : String} {pad i : ℕ}

theorem chunkPath_toList : (chunkPath base pad i).toList =
    base.toList ++ '-' :: padded i pad ++ ".gguf".toList := by
  rw [chunkPath, String.toList_append, String.toList_append, String.toList_append, padded]
  simp

theorem splitName_chunk : splitName (chunkPath base pad i).toList =
    (base.toList ++ '-' :: padded i pad, ".gguf".toList) := by
  have hext : ((chunkPath base pad i).toList.reverse.takeWhile (· ≠ '.')) = ['f', 'u', 'g', 'g'] := by
    rw [chunkPath_toList, List.reverse_append]
    rfl
  have hlen : (chunkPath base pad i).toList.length = (base.toList ++ '-' :: padded i pad).length + 5 := by
    rw [chunkPath_toList, List.length_append]
    rfl
  have hlong : (base.toList ++ '-' :: padded i pad).length ≠ 0 := by simp
  unfold splitName
  simp only [hext, List.length_cons, List.length_nil]
  rw [if_pos (by omega)]
  congr 1
  have htake : (chunkPath base pad i).toList.length - (0 + 1 + 1 + 1 + 1) - 1 =
      (base.toList ++ '-' :: padded i pad).length := by omega
  rw [htake, chunkPath_toList]
  exact List.take_left' rfl

theorem digits_chunk : ((base.toList ++ '-' :: padded i pad).reverse.takeWhile Char.isDigit).reverse =
    padded i pad := by
  have hall : ∀ c ∈ (padded i pad).reverse, c.isDigit = true := fun c hc => isDigit_padded (List.mem_reverse.mp hc)
  rw [List.reverse_append, List.reverse_cons, List.append_assoc, List.takeWhile_append_of_pos hall]
  have hnone : (['-'] ++ base.toList.reverse).takeWhile Char.isDigit = [] := rfl
  rw [hnone, List.append_nil, List.reverse_reverse]

theorem middle_eq_some {pre ext fn mid : List Char} : middle pre ext fn = some mid ↔
    fn = pre ++ mid ++ ext ∧ mid ≠ [] ∧ ∀ c ∈ mid, c.isDigit = true := by
  unfold middle
  constructor
  · intro h
    split at h
    · cases h
    rename_i hlong
    split at h
    · cases h
    rename_i hends
    obtain ⟨hpre, hext⟩ := not_or.mp hends
    rw [not_not] at hpre hext
    dsimp only at h
    split at h
    · rename_i hall
      obtain rfl := Option.some.inj h
      refine ⟨?_, ?_, fun c hc => List.all_eq_true.mp hall c hc⟩
      · have hsplit := List.take_append_drop pre.length fn
        have hrest := List.take_append_drop (fn.length - pre.length - ext.length) (fn.drop pre.length)
        rw [List.drop_drop] at hrest
        have hindex : pre.length + (fn.length - pre.length - ext.length) = fn.length - ext.length := by omega
        rw [hindex, hext] at hrest
        rw [List.append_assoc, hrest]
        calc fn = fn.take pre.length ++ fn.drop pre.length := hsplit.symm
          _ = pre ++ fn.drop pre.length := by rw [hpre]
      · intro hnil
        have hlen := congrArg List.length hnil
        rw [List.length_take, List.length_drop, List.length_nil] at hlen
        omega
    · cases h
  · rintro ⟨rfl, hne, hall⟩
    have hpos : 0 < mid.length := List.length_pos_iff.mpr hne
    have hlen : (pre ++ mid ++ ext).length = pre.length + mid.length + ext.length := by
      rw [List.length_append, List.length_append]
    have htake : (pre ++ mid ++ ext).take pre.length = pre := by
      rw [List.append_assoc]
      exact List.take_left' rfl
    have hdrop : (pre ++ mid ++ ext).drop ((pre ++ mid ++ ext).length - ext.length) = ext := by
      refine List.drop_left' ?_
      rw [hlen, List.length_append]
      omega
    have hmid : ((pre ++ mid ++ ext).drop pre.length).take ((pre ++ mid ++ ext).length - pre.length - ext.length) =
        mid := by
      rw [List.append_assoc, List.drop_left' rfl]
      refine List.take_left' ?_
      rw [← List.append_assoc, hlen]
      omega
    rw [if_neg (by omega), if_neg (by rw [htake, hdrop]; simp)]
    dsimp only
    rw [hmid, if_pos (List.all_eq_true.mpr hall)]

theorem middle_chunk : middle (base.toList ++ ['-']) ".gguf".toList (chunkPath base pad i).toList =
    some (padded i pad) := by
  refine middle_eq_some.mpr ⟨?_, padded_ne_nil i pad, fun c hc => isDigit_padded hc⟩
  rw [chunkPath_toList]
  simp

end names

section search

variable {pre ext : List Char} {width : ℕ}

/-- What the entries of a directory that were gone through leave in `by_num`: for every number a name with that
number, and one of the given width if there is one. -/
structure Listed (pre ext : List Char) (width : ℕ) (done : List String) (nums : List (ℤ × String)) : Prop where
  sound : ∀ n fn, nums.lookup n = some fn → fn ∈ done ∧ ∃ mid, middle pre ext fn.toList = some mid ∧ n = number mid
  complete : ∀ fn ∈ done, ∀ mid, middle pre ext fn.toList = some mid → (nums.lookup (number mid : ℤ)).isSome
  wide : ∀ fn ∈ done, ∀ mid, middle pre ext fn.toList = some mid → mid.length = width →
    ∃ fn' mid', nums.lookup (number mid : ℤ) = some fn' ∧ middle pre ext fn'.toList = some mid' ∧ mid'.length = width

theorem Listed.skip {done : List String} {nums : List (ℤ × String)} (h : Listed pre ext width done nums) {fn : String}
    (hfn : ∀ mid, middle pre ext fn.toList = some mid →
      (nums.lookup (number mid : ℤ)).isSome ∧ mid.length ≠ width) : Listed pre ext width (done ++ [fn]) nums where
  sound n fn' hn := (h.sound n fn' hn).imp_left (List.mem_append_left _)
  complete fn' hmem mid hmid := by
    rcases List.mem_append.mp hmem with hmem | hmem
    · exact h.complete fn' hmem mid hmid
    · rw [List.mem_singleton.mp hmem] at hmid
      exact (hfn mid hmid).1
  wide fn' hmem mid hmid hwide := by
    rcases List.mem_append.mp hmem with hmem | hmem
    · exact h.wide fn' hmem mid hmid hwide
    · rw [List.mem_singleton.mp hmem] at hmid
      exact absurd hwide (hfn mid hmid).2

theorem Listed.add {done : List String} {nums : List (ℤ × String)} (h : Listed pre ext width done nums) {fn : String}
    {mid : List Char} (hmid : middle pre ext fn.toList = some mid)
    (hnew : (nums.lookup (number mid : ℤ)).isNone ∨ mid.length = width) :
    Listed pre ext width (done ++ [fn]) ((number mid, fn) :: nums) := by
  have hlookup : ∀ n : ℤ, ((number mid, fn) :: nums : List (ℤ × String)).lookup n =
      if n = number mid then some fn else nums.lookup n := by
    intro n
    rw [List.lookup_cons]
    by_cases hn : n = number mid
    · rw [if_pos hn, beq_iff_eq.mpr hn]
    · rw [if_neg hn, beq_eq_false_iff_ne.mpr hn]
  refine ⟨fun n fn' hn => ?_, fun fn' hmem mid' hmid' => ?_, fun fn' hmem mid' hmid' hwide => ?_⟩
  · rw [hlookup] at hn
    split at hn
    · rename_i hsame
      obtain rfl := Option.some.inj hn
      exact ⟨by simp, mid, hmid, hsame⟩
    · exact (h.sound n fn' hn).imp_left (List.mem_append_left _)
  · rw [hlookup]
    split
    · rfl
    · rename_i hother
      rcases List.mem_append.mp hmem with hmem | hmem
      · exact h.complete fn' hmem mid' hmid'
      · rw [List.mem_singleton.mp hmem, hmid] at hmid'
        exact absurd (by rw [Option.some.inj hmid']) hother
  · rw [hlookup]
    split
    · rename_i hsame
      refine ⟨fn, mid, rfl, hmid, ?_⟩
      rcases hnew with hnone | hwidth
      · rcases List.mem_append.mp hmem with hmem | hmem
        · have hsome := h.complete fn' hmem mid' hmid'
          rw [hsame] at hsome
          rw [Option.isNone_iff_eq_none.mp hnone] at hsome
          cases hsome
        · rw [List.mem_singleton.mp hmem, hmid] at hmid'
          rw [Option.some.inj hmid']
          exact hwide
      · exact hwidth
    · rename_i hother
      rcases List.mem_append.mp hmem with hmem | hmem
      · exact h.wide fn' hmem mid' hmid' hwide
      · rw [List.mem_singleton.mp hmem, hmid] at hmid'
        exact absurd (by rw [Option.some.inj hmid']) hother

theorem byNum_listed {fns : List String}
    (hsmall : ∀ fn ∈ fns, ∀ mid, middle pre ext fn.toList = some mid → number mid < 2 ^ 63) :
    ∃ nums, byNum pre ext width fns = .ok nums ∧ Listed pre ext width fns nums := by
  obtain ⟨step, hfold, hnone, hsome⟩ : ∃ step : List (ℤ × String) → String → Except Failure (List (ℤ × String)),
      byNum pre ext width fns = fns.foldlM step [] ∧
        (∀ nums fn, middle pre ext fn.toList = none → step nums fn = .ok nums) ∧
          ∀ nums fn mid, middle pre ext fn.toList = some mid → step nums fn = (stol mid).map fun n =>
            if (nums.lookup n).isNone ∨ mid.length = width then (n, fn) :: nums else nums := by
    refine ⟨_, rfl, fun nums fn h => ?_, fun nums fn mid h => ?_⟩ <;> simp only [h]
  have hrun : ∀ (fns done : List String) (nums : List (ℤ × String)), Listed pre ext width done nums →
      (∀ fn ∈ fns, ∀ mid, middle pre ext fn.toList = some mid → number mid < 2 ^ 63) →
      ∃ nums', fns.foldlM step nums = .ok nums' ∧ Listed pre ext width (done ++ fns) nums' := by
    intro fns
    induction fns with
    | nil => exact fun done nums h _ => ⟨nums, rfl, by rwa [List.append_nil]⟩
    | cons fn fns ih =>
      intro done nums h hsmall
      obtain ⟨hfn, hrest⟩ := List.forall_mem_cons.mp hsmall
      rw [List.foldlM_cons, List.append_cons]
      cases hmid : middle pre ext fn.toList with
      | none =>
        rw [hnone nums fn hmid]
        exact ih _ _ (h.skip fun mid hmid' => by rw [hmid] at hmid'; cases hmid') hrest
      | some mid =>
        have hstol : stol mid = .ok (number mid : ℤ) := if_pos (hfn mid hmid)
        rw [hsome nums fn mid hmid, hstol]
        simp only [Except.map, bind, Except.bind]
        by_cases hnew : (nums.lookup (number mid : ℤ)).isNone ∨ mid.length = width
        · rw [if_pos hnew]
          exact ih _ _ (h.add hmid hnew) hrest
        · rw [if_neg hnew]
          obtain ⟨hlisted, hwidth⟩ := not_or.mp hnew
          refine ih _ _ (h.skip fun mid' hmid' => ?_) hrest
          rw [hmid] at hmid'
          obtain rfl := Option.some.inj hmid'
          exact ⟨by simpa [Option.isSome_iff_ne_none] using hlisted, hwidth⟩
  rw [hfold]
  exact hrun fns [] [] ⟨by simp, by simp, by simp⟩ hsmall

end search

section discover

variable {base dir : String} {pad N k : ℕ} {entries : String → List String}

/-- The files of a chunk conversion are found from any one of them, in their order, whatever else is in the
directory: every file whose number has another width than that of the given one must be the only one with its
number. -/
theorem discoverChunkFiles_chunkPath (hk : k < N) (hN : N < 2 ^ 31)
    (hfiles : ∀ i < N, chunkPath base pad i ∈ entries (if dir = "" then "." else dir))
    (hsmall : ∀ fn ∈ entries (if dir = "" then "." else dir), ∀ mid,
      middle (base.toList ++ ['-']) ".gguf".toList fn.toList = some mid → number mid < 2 ^ 63)
    (halone : ∀ i < N, (padded i pad).length ≠ (padded k pad).length →
      ∀ fn ∈ entries (if dir = "" then "." else dir), ∀ mid,
        middle (base.toList ++ ['-']) ".gguf".toList fn.toList = some mid → number mid = i + 1 →
          fn = chunkPath base pad i) :
    discoverChunkFiles entries ⟨dir, chunkPath base pad k⟩ k N =
      .ok ((List.range N).map fun i => ⟨if dir = "" then "." else dir, chunkPath base pad i⟩) := by
  have hpre : (base.toList ++ '-' :: padded k pad).take ((base.toList ++ '-' :: padded k pad).length -
      (padded k pad).length) = base.toList ++ ['-'] := by
    rw [List.append_cons]
    refine List.take_left' ?_
    have hlen : (base.toList ++ ['-'] ++ padded k pad).length = _ := List.length_append
    omega
  obtain ⟨nums, hnums, hlisted⟩ := @byNum_listed (base.toList ++ ['-']) ".gguf".toList (padded k pad).length _ hsmall
  have hfound : ∀ i < N, nums.lookup ((i : ℤ) + 1) = some (chunkPath base pad i) := by
    intro i hi
    have hmem := hfiles i hi
    have hcomplete := hlisted.complete _ hmem _ middle_chunk
    rw [number_padded, Nat.cast_add, Nat.cast_one] at hcomplete
    by_cases hwidth : (padded i pad).length = (padded k pad).length
    · obtain ⟨fn, mid, hlookup, hmid, hlen⟩ := hlisted.wide _ hmem _ middle_chunk hwidth
      rw [number_padded, Nat.cast_add, Nat.cast_one] at hlookup
      obtain ⟨_, mid', hmid', hnumber⟩ := hlisted.sound _ _ hlookup
      rw [hmid] at hmid'
      obtain rfl := Option.some.inj hmid'
      obtain ⟨hfn, _, hdigits⟩ := middle_eq_some.mp hmid
      have hsame : mid = padded i pad := by
        refine number_inj hdigits (fun c hc => isDigit_padded hc) (hlen.trans hwidth.symm) ?_
        rw [number_padded]
        omega
      rw [hlookup]
      refine congrArg some (String.toList_injective ?_)
      rw [hfn, hsame, chunkPath_toList]
      simp
    · obtain ⟨fn, hlookup⟩ := Option.isSome_iff_exists.mp hcomplete
      obtain ⟨hfn, mid, hmid, hnumber⟩ := hlisted.sound _ _ hlookup
      rw [hlookup, halone i hi hwidth fn hfn mid hmid (by omega)]
  have hstol : stol (padded k pad) = .ok ((k : ℤ) + 1) := by
    rw [stol, number_padded, if_pos (by omega), Nat.cast_add, Nat.cast_one]
  unfold discoverChunkFiles
  simp only [splitName_chunk, digits_chunk, hpre, if_neg (padded_ne_nil k pad), hstol, hnums, bind, Except.bind]
  refine mapM_ok fun i hi => ?_
  have hindex : (k : ℤ) + 1 - k + i = i + 1 := by omega
  rw [hindex, hfound i (List.mem_range.mp hi)]

/-- The second of two files is given; another file has its number without the zeros. -/
theorem discoverChunkFiles_chunkPath_two :
    discoverChunkFiles (fun _ => ["c-2.gguf", "c-00002.gguf", "notes.txt", "c-00001.gguf"])
      ⟨"", chunkPath "c" 5 1⟩ 1 2 = .ok ((List.range 2).map fun i => ⟨".", chunkPath "c" 5 i⟩) := by
  have hwidth : ∀ i < 2, (padded i 5).length = (padded 1 5).length := by
    intro i hi
    rw [length_padded (by omega), length_padded (by omega)]
  refine discoverChunkFiles_chunkPath (by decide) (by decide) (by decide +kernel) (fun fn hfn mid hmid => ?_)
    fun i hi hne => absurd (hwidth i hi) hne
  have hall : ∀ fn ∈ ["c-2.gguf", "c-00002.gguf", "notes.txt", "c-00001.gguf"],
      ∀ mid ∈ middle ("c".toList ++ ['-']) ".gguf".toList fn.toList, number mid < 2 ^ 63 := by decide +kernel
  exact hall fn hfn mid hmid

end discover

end ConvertModel
end StreamMoE
