import Mathlib.Logic.Function.Basic
import StreamMoE.LittleEndian
import StreamMoE.TransitionSystem

/-! `expert_stats_tracker`: the access counts of the experts and the EST1 file they are kept in. The
decaying scores are never stored and are left out. -/
namespace StreamMoE
namespace ExpertStats

open LittleEndian TransitionSystem

def est1Magic : ℕ := 0x31545345

structure Tracker where
  filePath : String
  nLayer : UInt32
  nExpert : UInt32
  syncThreshold : UInt32
  tokensSinceLastSync : UInt32
  totalTokens : UInt64
  dirty : Bool
  globalCounts : List UInt64
  deriving DecidableEq, Repr

def newTracker : Tracker :=
  { filePath := "", nLayer := 0, nExpert := 0, syncThreshold := 8192, tokensSinceLastSync := 0,
    totalTokens := 0, dirty := false, globalCounts := [] }

/-- The contents of the files that exist. -/
abbrev Disk := String → Option (List UInt8)

/-- Whether the streams of one call open. -/
structure Io where
  readable : Bool
  writable : Bool

section file

variable (nLayer nExpert : UInt32)

def total : ℕ := nLayer.toNat * nExpert.toNat

def header : List UInt8 := bytesOf 4 est1Magic ++ bytesOf 4 nLayer.toNat ++ bytesOf 4 nExpert.toNat

def zeroCounts : List UInt64 := List.replicate (total nLayer nExpert) 0

/-- The counts behind the header; the array was zero before the read. -/
def countsOf (bytes : List UInt8) : List UInt64 :=
  (words 8 (total nLayer nExpert) (bytes.drop 12)).map UInt64.ofNat

/-- The magic number and both dimensions, each read into a variable that is zero. -/
def Fields (bytes : List UInt8) : Prop :=
  value (bytes.take 4) = est1Magic ∧ value ((bytes.drop 4).take 4) = nLayer.toNat ∧
    value ((bytes.drop 8).take 4) = nExpert.toNat

instance (bytes : List UInt8) : Decidable (Fields nLayer nExpert bytes) := inferInstanceAs (Decidable (_ ∧ _))

/-- The array is read under a header that matches; the flag tells whether all of it was read. -/
def readStats (bytes : List UInt8) : List UInt64 × Bool :=
  if Fields nLayer nExpert bytes then
    (countsOf nLayer nExpert bytes, decide (8 * total nLayer nExpert ≤ (bytes.drop 12).length))
  else (zeroCounts nLayer nExpert, false)

end file

/-- What is written for a tracker. -/
def fileBytes (t : Tracker) : List UInt8 :=
  header t.nLayer t.nExpert ++ (t.globalCounts.map UInt64.toNat).flatMap (bytesOf 8)

/-- `std::ofstream` on the path and the writes, if it opens. -/
def save (io : Io) (t : Tracker) (disk : Disk) : Option Disk :=
  if t.filePath ≠ "" ∧ io.writable then some (Function.update disk t.filePath (some (fileBytes t)))
  else none

/-- The counts of the file, if it exists and opens. -/
def loadStats (io : Io) (path : String) (nLayer nExpert : UInt32) (disk : Disk) : List UInt64 × Bool :=
  match if path ≠ "" ∧ io.readable then disk path else none with
  | some bytes => readStats nLayer nExpert bytes
  | none => (zeroCounts nLayer nExpert, false)

def init (io : Io) (path : String) (nLayer nExpert syncThreshold : UInt32) (t : Tracker) (disk : Disk) :
    Bool × Tracker × Disk :=
  let t := { t with
    filePath := path, nLayer, nExpert, syncThreshold, tokensSinceLastSync := 0, dirty := false
    globalCounts := zeroCounts nLayer nExpert }
  if total nLayer nExpert = 0 then (false, t, disk)
  else
    let file := loadStats io path nLayer nExpert disk
    let t := { t with globalCounts := file.1 }
    if file.2 then (true, t, disk)
    else
      match save io t disk with
      | some disk => (true, t, disk)
      | none => (true, { t with dirty := true }, disk)

def recordAccess (layer expert : UInt32) (t : Tracker) : Tracker :=
  if layer ≥ t.nLayer ∨ expert ≥ t.nExpert then t
  else { t with
    globalCounts := t.globalCounts.modify (layer.toNat * t.nExpert.toNat + expert.toNat) (· + 1)
    dirty := true }

def notifyTokensGenerated (io : Io) (numTokens : UInt32) (t : Tracker) (disk : Disk) : Tracker × Disk :=
  let t := { t with
    tokensSinceLastSync := t.tokensSinceLastSync + numTokens
    totalTokens := t.totalTokens + numTokens.toUInt64 }
  if t.tokensSinceLastSync ≥ t.syncThreshold ∧ t.dirty then
    match save io t disk with
    | some disk => ({ t with dirty := false, tokensSinceLastSync := 0 }, disk)
    | none => (t, disk)
  else (t, disk)

def flush (io : Io) (t : Tracker) (disk : Disk) : Bool × Tracker × Disk :=
  if t.dirty = false ∨ t.filePath = "" ∨ t.globalCounts = [] then (true, t, disk)
  else
    match save io t disk with
    | some disk => (true, { t with dirty := false, tokensSinceLastSync := 0 }, disk)
    | none => (false, t, disk)

section runs

inductive Act
  | init (io : Io) (path : String) (nLayer nExpert syncThreshold : UInt32)
  | recordAccess (layer expert : UInt32)
  | notifyTokensGenerated (io : Io) (numTokens : UInt32)
  | flush (io : Io)

def Act.next (x : Tracker × Disk) : Act → Tracker × Disk
  | .init io path nLayer nExpert threshold => (ExpertStats.init io path nLayer nExpert threshold x.1 x.2).2
  | .recordAccess layer expert => (ExpertStats.recordAccess layer expert x.1, x.2)
  | .notifyTokensGenerated io n => ExpertStats.notifyTokensGenerated io n x.1 x.2
  | .flush io => (ExpertStats.flush io x.1 x.2).2

/-- A tracker that was just made, and any files. -/
def session : Machine (Tracker × Disk) Act where
  init x := x.1 = newTracker
  step x a := some (a.next x)

end runs

section spec

variable (nLayer nExpert : UInt32) (bytes : List UInt8)

/-- The file begins with the header of these dimensions and holds all counts. -/
def Complete : Prop :=
  12 ≤ bytes.length ∧ bytes.take 12 = header nLayer nExpert ∧ 12 + 8 * total nLayer nExpert ≤ bytes.length

instance : Decidable (Complete nLayer nExpert bytes) := inferInstanceAs (Decidable (_ ∧ _))

/-- Counts survive a flush and the next `init`, and a file gives all of its counts or none. -/
structure Persistent : Prop where
  roundTrip : ∀ t disk, Reach session anyStep (t, disk) → ∀ io t' disk', flush io t disk = (true, t', disk') →
    t.filePath ≠ "" → ∀ (io' : Io) (u : Tracker) (threshold : UInt32), io'.readable = true →
      (init io' t.filePath t.nLayer t.nExpert threshold u disk').2.1.globalCounts = t.globalCounts
  restored : ∀ (io : Io) (path : String) (threshold : UInt32) (t : Tracker) (disk : Disk),
    path ≠ "" → io.readable = true → disk path = some bytes →
      (init io path nLayer nExpert threshold t disk).2.1.globalCounts =
        if Complete nLayer nExpert bytes then countsOf nLayer nExpert bytes else zeroCounts nLayer nExpert

/-- The header matches, the counts end early, and not all that is there of them is zero. -/
def CutShort : Prop :=
  bytes.take 12 = header nLayer nExpert ∧ bytes.length < 12 + 8 * total nLayer nExpert ∧ ∃ b ∈ bytes.drop 12, b ≠ 0

end spec

section header

variable {nLayer nExpert : UInt32} {bytes : List UInt8}

@[simp] theorem length_header : (header nLayer nExpert).length = 12 := by simp [header]

theorem take_twelve (bytes : List UInt8) :
    bytes.take 12 = bytes.take 4 ++ (bytes.drop 4).take 4 ++ (bytes.drop 8).take 4 := by
  have hfirst : bytes.take (4 + 4) = bytes.take 4 ++ (bytes.drop 4).take 4 := List.take_add
  have hsecond : bytes.take (8 + 4) = bytes.take 8 ++ (bytes.drop 8).take 4 := List.take_add
  rw [hsecond, hfirst]

theorem value_bytesOf_four (v : UInt32) : value (bytesOf 4 v.toNat) = v.toNat := by
  have hlt := v.toNat_lt
  rw [value_bytesOf, Nat.mod_eq_of_lt (by omega)]

theorem fields_of_header (h : bytes.take 12 = header nLayer nExpert) : Fields nLayer nExpert bytes := by
  rw [take_twelve, header] at h
  have hlen := congrArg List.length h
  simp only [List.length_append, List.length_take, List.length_drop, length_bytesOf] at hlen
  obtain ⟨hfront, hthird⟩ := List.append_inj' h (by simp; omega)
  obtain ⟨hfirst, hsecond⟩ := List.append_inj' hfront (by simp; omega)
  rw [Fields, hfirst, hsecond, hthird, value_bytesOf_four, value_bytesOf_four]
  exact ⟨rfl, rfl, rfl⟩

theorem header_of_fields (h : Fields nLayer nExpert bytes) (hlen : 12 ≤ bytes.length) :
    bytes.take 12 = header nLayer nExpert := by
  have hwhole : ∀ part : List UInt8, part.length = 4 → part = bytesOf 4 (value part) := by
    intro part hpart
    rw [← hpart, bytesOf_value]
  obtain ⟨hfirst, hsecond, hthird⟩ := h
  rw [take_twelve, hwhole (bytes.take 4) (by simp; omega), hwhole ((bytes.drop 4).take 4) (by simp; omega),
    hwhole ((bytes.drop 8).take 4) (by simp; omega), hfirst, hsecond, hthird, header]

theorem countsOf_eq_zero_iff : countsOf nLayer nExpert bytes = zeroCounts nLayer nExpert ↔
    ∀ b ∈ (bytes.drop 12).take (8 * total nLayer nExpert), b = 0 := by
  have hlt := words_lt 8 (total nLayer nExpert) (bytes.drop 12)
  rw [← words_eq_zero_iff, zeroCounts, List.eq_replicate_iff, countsOf, List.length_map, length_words,
    List.forall_mem_map]
  refine ⟨fun h v hv => ?_, fun h => ⟨rfl, fun v hv => by rw [h v hv]; rfl⟩⟩
  have hzero := congrArg UInt64.toNat (h.2 v hv)
  rw [UInt64.toNat_ofNat_of_lt' (hlt v hv)] at hzero
  exact hzero

/-- What is read of a file, whether it is whole or not. -/
theorem readStats_counts : (readStats nLayer nExpert bytes).1 =
      (if Complete nLayer nExpert bytes then countsOf nLayer nExpert bytes else zeroCounts nLayer nExpert) ↔
    ¬ CutShort nLayer nExpert bytes := by
  by_cases hfields : Fields nLayer nExpert bytes
  · have hread : (readStats nLayer nExpert bytes).1 = countsOf nLayer nExpert bytes := by
      rw [readStats, if_pos hfields]
    rw [hread]
    by_cases hcomplete : Complete nLayer nExpert bytes
    · rw [if_pos hcomplete]
      exact iff_of_true rfl fun hcut => by have h₁ := hcut.2.1; have h₂ := hcomplete.2.2; omega
    · rw [if_neg hcomplete, countsOf_eq_zero_iff]
      rcases Nat.lt_or_ge bytes.length 12 with hshort | hlong
      · have hnil : bytes.drop 12 = [] := List.drop_eq_nil_of_le (by omega)
        rw [hnil]
        refine iff_of_true (by simp) fun hcut => ?_
        have hlen := congrArg List.length hcut.1
        rw [length_header, List.length_take] at hlen
        omega
      · have hheader := header_of_fields hfields hlong
        have hless : bytes.length < 12 + 8 * total nLayer nExpert := by
          by_contra hge
          exact hcomplete ⟨hlong, hheader, by omega⟩
        rw [List.take_of_length_le (by rw [List.length_drop]; omega)]
        refine ⟨fun hzero hcut => ?_, fun hcut b hb => ?_⟩
        · obtain ⟨b, hb, hne⟩ := hcut.2.2
          exact hne (hzero b hb)
        · by_contra hne
          exact hcut ⟨hheader, hless, b, hb, hne⟩
  · have hread : (readStats nLayer nExpert bytes).1 = zeroCounts nLayer nExpert := by
      rw [readStats, if_neg hfields]
    have hcomplete : ¬ Complete nLayer nExpert bytes := fun h => hfields (fields_of_header h.2.1)
    rw [hread, if_neg hcomplete]
    exact iff_of_true rfl fun hcut => hfields (fields_of_header hcut.1)

theorem readStats_fileBytes {t : Tracker} (hlen : t.globalCounts.length = total t.nLayer t.nExpert) :
    readStats t.nLayer t.nExpert (fileBytes t) = (t.globalCounts, true) := by
  have htake : (fileBytes t).take 12 = header t.nLayer t.nExpert := List.take_left' length_header
  have hdrop : (fileBytes t).drop 12 = (t.globalCounts.map UInt64.toNat).flatMap (bytesOf 8) :=
    List.drop_left' length_header
  have hlt : ∀ v ∈ t.globalCounts.map UInt64.toNat, v < 256 ^ 8 := by
    rw [List.forall_mem_map]
    exact fun v _ => v.toNat_lt
  have hwords := words_flatMap 8 hlt []
  rw [List.append_nil, List.length_map, hlen] at hwords
  rw [readStats, if_pos (fields_of_header htake), countsOf, hdrop, hwords, length_flatMap_bytesOf, List.length_map, hlen,
    List.map_map]
  simp [Function.comp_def]

end header

section kept

variable {io : Io} {path : String} {nLayer nExpert threshold : UInt32} {t : Tracker} {disk disk' : Disk}

theorem length_readStats (bytes : List UInt8) : (readStats nLayer nExpert bytes).1.length = total nLayer nExpert := by
  rw [readStats]
  split <;> simp [countsOf, zeroCounts]

theorem length_loadStats : (loadStats io path nLayer nExpert disk).1.length = total nLayer nExpert := by
  rw [loadStats]
  split
  · exact length_readStats _
  · simp [zeroCounts]

theorem readStats_of_loadStats (h : (loadStats io path nLayer nExpert disk).2 = true) : ∃ bytes,
    disk path = some bytes ∧ readStats nLayer nExpert bytes = ((loadStats io path nLayer nExpert disk).1, true) := by
  unfold loadStats at h ⊢
  by_cases hopen : path ≠ "" ∧ io.readable = true
  · rw [if_pos hopen] at h ⊢
    cases hfile : disk path with
    | none => simp [hfile] at h
    | some bytes =>
      simp only [hfile] at h ⊢
      exact ⟨bytes, rfl, Prod.ext rfl h⟩
  · simp [if_neg hopen] at h

/-- The counts have their dimensions, and those of a clean tracker are those of its file. -/
structure Kept (x : Tracker × Disk) : Prop where
  length : x.1.globalCounts.length = total x.1.nLayer x.1.nExpert
  saved : x.1.dirty = false → x.1.filePath ≠ "" → x.1.globalCounts ≠ [] → ∃ bytes,
    x.2 x.1.filePath = some bytes ∧ readStats x.1.nLayer x.1.nExpert bytes = (x.1.globalCounts, true)

theorem Kept.save {u : Tracker} (hlen : t.globalCounts.length = total t.nLayer t.nExpert)
    (hsave : save io t disk = some disk') (hpath : u.filePath = t.filePath) (hlayer : u.nLayer = t.nLayer)
    (hexpert : u.nExpert = t.nExpert) (hcounts : u.globalCounts = t.globalCounts) : Kept (u, disk') := by
  rw [ExpertStats.save] at hsave
  split at hsave
  · cases hsave
    refine ⟨by rw [hcounts, hlayer, hexpert, hlen], fun _ _ _ => ⟨fileBytes t, ?_, ?_⟩⟩
    · rw [hpath]
      exact Function.update_self ..
    · rw [hlayer, hexpert, hcounts, readStats_fileBytes hlen]
  · cases hsave

theorem kept_init (t : Tracker) : Kept (init io path nLayer nExpert threshold t disk).2 := by
  have hlen := @length_loadStats io path nLayer nExpert disk
  rw [init]
  split
  case isTrue hzero => exact ⟨by simp [zeroCounts], fun _ _ h => absurd (by simp [zeroCounts, hzero]) h⟩
  case isFalse hpos =>
    dsimp only
    split
    case isTrue hloaded =>
      refine ⟨hlen, fun _ _ _ => ?_⟩
      exact readStats_of_loadStats hloaded
    case isFalse hnew =>
      split
      case h_1 disk' hsave => exact Kept.save hlen hsave rfl rfl rfl rfl
      case h_2 hfail => exact ⟨hlen, fun h => by cases h⟩

theorem Kept.recordAccess (layer expert : UInt32) (h : Kept (t, disk)) :
    Kept (recordAccess layer expert t, disk) := by
  rw [ExpertStats.recordAccess]
  split
  · exact h
  · exact ⟨by rw [List.length_modify]; exact h.length, fun hclean => by cases hclean⟩

theorem Kept.notifyTokensGenerated (n : UInt32) (h : Kept (t, disk)) :
    Kept (notifyTokensGenerated io n t disk) := by
  rw [ExpertStats.notifyTokensGenerated]
  dsimp only
  split
  · split
    case h_1 disk' hsave => exact Kept.save h.length hsave rfl rfl rfl rfl
    case h_2 => exact ⟨h.length, h.saved⟩
  · exact ⟨h.length, h.saved⟩

/-- After a flush that reports success the file holds the counts. -/
theorem Kept.flush (h : Kept (t, disk)) : Kept (flush io t disk).2 ∧
    ((flush io t disk).1 = true → t.filePath ≠ "" → t.globalCounts ≠ [] → ∃ bytes,
      (flush io t disk).2.2 t.filePath = some bytes ∧
        readStats t.nLayer t.nExpert bytes = (t.globalCounts, true)) := by
  rw [ExpertStats.flush]
  split
  case isTrue hskip =>
    refine ⟨h, fun _ hpath hcounts => h.saved ?_ hpath hcounts⟩
    rcases hskip with hclean | hno | hnone
    · exact hclean
    · exact absurd hno hpath
    · exact absurd hnone hcounts
  case isFalse =>
    split
    case h_1 disk' hsave =>
      have hkept : Kept ({ t with dirty := false, tokensSinceLastSync := 0 }, disk') :=
        Kept.save h.length hsave rfl rfl rfl rfl
      exact ⟨hkept, fun _ => hkept.saved rfl⟩
    case h_2 => exact ⟨h, fun hfalse => by cases hfalse⟩

theorem kept_of_reach {x : Tracker × Disk} (h : Reach session anyStep x) : Kept x := by
  refine h.invariant ?_ ?_
  · rintro ⟨t, disk⟩ hnew
    have hnew : t = newTracker := hnew
    subst hnew
    exact ⟨rfl, fun _ hpath => absurd rfl hpath⟩
  · rintro ⟨t, disk⟩ a y hkept - hstep
    cases hstep
    cases a with
    | init io path nLayer nExpert threshold => exact kept_init t
    | recordAccess layer expert => exact hkept.recordAccess layer expert
    | notifyTokensGenerated io n => exact hkept.notifyTokensGenerated n
    | flush io => exact hkept.flush.1

end kept

/-- What `init` takes from a file that it opens. -/
theorem init_counts {io : Io} {path : String} {disk : Disk} {bytes : List UInt8} (nLayer nExpert threshold : UInt32)
    (t : Tracker) (hpath : path ≠ "") (hopen : io.readable = true) (hfile : disk path = some bytes) :
    (init io path nLayer nExpert threshold t disk).2.1.globalCounts = (readStats nLayer nExpert bytes).1 := by
  have hload : loadStats io path nLayer nExpert disk = readStats nLayer nExpert bytes := by
    rw [loadStats, if_pos ⟨hpath, hopen⟩, hfile]
  rw [init]
  split
  case isTrue hzero =>
    have hnil := @length_readStats nLayer nExpert bytes
    rw [hzero] at hnil
    rw [List.length_eq_zero_iff.mp hnil]
    simp [zeroCounts, hzero]
  case isFalse =>
    rw [hload]
    dsimp only
    split
    · rfl
    · split <;> rfl

/-- Counts are kept exactly unless a file with the right header ends amid them. -/
theorem stats_persistent_iff (nLayer nExpert : UInt32) (bytes : List UInt8) :
    Persistent nLayer nExpert bytes ↔ ¬ CutShort nLayer nExpert bytes := by
  constructor
  · intro h
    have hone : "stats" ≠ "" := by decide
    have hread := h.restored ⟨true, true⟩ "stats" 8192 newTracker (fun _ => some bytes) hone rfl rfl
    rw [init_counts nLayer nExpert 8192 newTracker hone rfl rfl] at hread
    exact readStats_counts.mp hread
  · intro hcut
    refine ⟨?_, ?_⟩
    · intro t disk hreach io t' disk' hflush hpath io' u threshold hopen
      have hkept := kept_of_reach hreach
      by_cases hcounts : t.globalCounts = []
      · have hlen := hkept.length
        rw [hcounts] at hlen
        have hzero : total t.nLayer t.nExpert = 0 := hlen.symm
        rw [init, if_pos hzero, hcounts]
        simp [zeroCounts, hzero]
      · obtain ⟨bytes', hfile, hread⟩ := hkept.flush.2 (congrArg Prod.fst hflush) hpath hcounts
        rw [hflush] at hfile
        rw [init_counts t.nLayer t.nExpert threshold u hpath hopen hfile, hread]
    · intro io path threshold t disk hpath hopen hfile
      rw [init_counts nLayer nExpert threshold t hpath hopen hfile]
      exact readStats_counts.mpr hcut

/-- The file of one layer of two experts with the counts 7 and 9, without its last byte. -/
def cutFile : List UInt8 :=
  header 1 2 ++ bytesOf 8 7 ++ [9, 0, 0, 0, 0, 0, 0]

theorem not_stats_persistent : ¬ ∀ nLayer nExpert : UInt32, ∀ bytes, Persistent nLayer nExpert bytes := by
  intro h
  have hread := (h 1 2 cutFile).restored ⟨true, true⟩ "stats" 8192 newTracker (fun _ => some cutFile)
    (by decide) rfl rfl
  revert hread
  decide

end ExpertStats
end StreamMoE
