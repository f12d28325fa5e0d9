import Mathlib.Tactic.Ring
import StreamMoE.ScratchNeeds

/-! Whether the scratch of a layer suffices for its rounds: the index scratch, and the staging buffers. -/
namespace StreamMoE
namespace RoundScratch

open ComputeGraph CompactTwins MixSplit MixExec MixCover RoundCells Strided KeyedRequests
open GraphCapacity (made twinNodes)

section bump

theorem le_start_handOut (ns : List ℕ) : ∀ {used : ℕ}, ∀ a ∈ handOut used ns, used ≤ a.1 := by
  induction ns with
  | nil => simp [handOut]
  | cons n ns ih =>
    intro used a ha
    rcases List.mem_cons.mp ha with rfl | ha
    · simp
    · have hle := ih a ha
      omega

/-- The ranges of a bump allocator lie one behind the other. -/
theorem pairwise_handOut (ns : List ℕ) : ∀ used : ℕ,
    (handOut used ns).Pairwise fun a b => a.1 + a.2 ≤ b.1 := by
  induction ns with
  | nil => simp [handOut]
  | cons n ns ih =>
    intro used
    exact List.pairwise_cons.mpr ⟨fun b hb => le_start_handOut ns b hb, ih _⟩

theorem handOut_inside_iff (ns : List ℕ) {size : ℕ} : ∀ {used : ℕ}, used ≤ size →
    ((∀ a ∈ handOut used ns, a.1 + a.2 ≤ size) ↔ used + ns.sum ≤ size) := by
  induction ns with
  | nil => simp [handOut]
  | cons n ns ih =>
    intro used hused
    simp only [handOut, List.forall_mem_cons, List.sum_cons]
    by_cases hn : used + n ≤ size
    · rw [ih hn]
      omega
    · exact iff_of_false (fun h => hn h.1) (by omega)

theorem le_align64 (x : ℕ) : x ≤ align64 x := by
  unfold align64
  omega

theorem le_foldl_stage (bytes : List ℕ) : ∀ used : ℕ,
    used ≤ bytes.foldl (fun used n => align64 used + n) used := by
  induction bytes with
  | nil => simp
  | cons n bytes ih =>
    intro used
    have hle := le_align64 used
    have hrest := ih (align64 used + n)
    simp only [List.foldl_cons]
    omega

/-- Uploads end in the order in which they are made. -/
theorem stageUsed_mono {as bs : List ℕ} (h : as <+: bs) : stageUsed as ≤ stageUsed bs := by
  obtain ⟨cs, rfl⟩ := h
  simp only [stageUsed, List.foldl_append]
  exact le_foldl_stage cs _

end bump

section uses

@[simp] theorem indexes_nil : indexes [] = [] := rfl

@[simp] theorem indexes_append (us vs : List Use) : indexes (us ++ vs) = indexes us ++ indexes vs :=
  List.filterMap_append

@[simp] theorem uploads_append (pool : ℕ) (us vs : List Use) :
    uploads pool (us ++ vs) = uploads pool us ++ uploads pool vs := List.filterMap_append

theorem sum_indexes_flatMap {α : Type*} (f : α → List Use) (l : List α) :
    (indexes (l.flatMap f)).sum = (l.map fun a => (indexes (f a)).sum).sum := by
  induction l with
  | nil => simp
  | cons a l ih => simp [ih]

theorem uploads_flatMap_congr {α : Type*} (pool : ℕ) {f g : α → List Use}
    (h : ∀ a, uploads pool (f a) = uploads pool (g a)) (l : List α) :
    uploads pool (l.flatMap f) = uploads pool (l.flatMap g) := by
  induction l with
  | nil => rfl
  | cons a l ih => simp [ih, h]

variable {L : Layer} {R : Routing} {H : Residence}

@[simp] theorem sum_indexes_roundUse (r : MixRound) (τ : Option ℕ) :
    (indexes (roundUse L R H r τ)).sum = r.nActive + 2 * cells r + (indexes (chainUse L R H r τ)).sum := by
  simp [roundUse, indexes]
  omega

@[simp] theorem uploads_roundUse (pool : ℕ) (r : MixRound) (τ : Option ℕ) :
    uploads pool (roundUse L R H r τ) = uploads pool (chainUse L R H r τ) := by
  simp [roundUse, uploads]

end uses

section limits

variable {L : Layer} {R : Routing} (H : Residence) (devs : Targets)

theorem indexKept_iff_sum : IndexKept L R H devs ↔ (indexes (layerUse L R H devs)).sum ≤ i32Size L R := by
  have hinside := handOut_inside_iff (indexes (layerUse L R H devs)) (Nat.zero_le (i32Size L R))
  rw [Nat.zero_add] at hinside
  exact ⟨fun h => hinside.mp h.inside, fun h => ⟨hinside.mpr h, pairwise_handOut _ 0⟩⟩

theorem stageFits_iff_used : StageFits L R H devs ↔
    ∀ pool ∈ devs.pools, stageUsed (uploads pool (layerUse L R H devs)) ≤ stageEst L R := by
  constructor
  · exact fun h pool hpool => h pool hpool _ List.prefix_rfl
  · exact fun h pool hpool bytes hpre => (stageUsed_mono hpre).trans (h pool hpool)

theorem i32Size_eq (L : Layer) (R : Routing) : i32Size L R =
    ((buildMixPlan R).rounds.map fun r => r.nActive + 2 * cells r).sum +
      ((buildMixPlan R).rounds.map fun r => r.nActive + nPerSlot L R * cells r).sum + 64 := by
  rw [i32Size, builtRounds_eq, ← List.sum_map_add]
  congr 2
  apply List.map_congr_left
  intro r _
  omega

theorem sum_take_le (f : MixRound → ℕ) (rs : List MixRound) (n : ℕ) :
    ((rs.take n).map f).sum ≤ (rs.map f).sum := by
  have hsplit := congrArg List.sum (congrArg (List.map f) (List.take_append_drop n rs))
  rw [List.map_append, List.sum_append] at hsplit
  omega

/-- The index scratch holds what a layer takes exactly when the index arrays of its copied leaves fit
into what is kept for them. -/
theorem indexKept_iff (C : Closure L R) : IndexKept L R H devs ↔
    ((buildMixPlan R).rounds.map fun r => (indexes (chainUse L R H r (targetOf devs r))).sum).sum ≤
      ((buildMixPlan R).rounds.map fun r => r.nActive + nPerSlot L R * cells r).sum + 64 := by
  rw [indexKept_iff_sum, layerUse_eq H devs C, sum_indexes_flatMap, i32Size_eq]
  simp only [sum_indexes_roundUse]
  by_cases hnil : twinNodes L = []
  · have hle := sum_take_le (fun r => r.nActive + 2 * cells r) (buildMixPlan R).rounds 1
    have hzero : ∀ r τ, (indexes (chainUse L R H r τ)).sum = 0 := by
      simp [chainUse_of_nil H hnil]
    have hnone : ((buildMixPlan R).rounds.map fun _ => 0).sum = 0 := by simp
    simp only [ranRounds, hnil, if_true, hzero, Nat.add_zero, hnone]
    omega
  · simp only [ranRounds, hnil, if_false, List.sum_map_add]
    omega

end limits

section staging

variable (L : Layer) (R : Routing) (H : Residence) (devs : Targets)

/-- The bytes that a read stages for the device of a pool, upload by upload. An activation goes whole, with an index
for every token where the round has not all of them; a leaf per slot goes flat, with an index for every cell, or as it
is; what the device holds already is not sent. -/
def Read.sizes (pool : ℕ) (r : MixRound) : Read → List ℕ
  | .ids => [4 * cells r]
  | .activation q =>
      (if H.sameDevice pool q then [] else [rowBytes (L.shape q).ne0 (L.shape q).ne2 (L.shape q).nb2]) ++
        if TokFull R r ∧ (L.shape q).nb2 = 4 * (L.shape q).ne0 then [] else [4 * r.nActive]
  | .perSlot q =>
      if Direct R r true (L.shape q) then if H.sameDevice pool q then [] else [L.graph.nbytes q]
      else (if H.sameDevice pool q then [] else [4 * span (L.shape q)]) ++ [4 * cells r]
  | .whole q =>
      if H.resident pool (producer L.graph q) ∨ H.sameDevice pool q then [] else [L.graph.nbytes q]

/-- The sizes of all uploads to the device of a pool, round by round -/
def stagedSizes (pool : ℕ) : List ℕ :=
  ((buildMixPlan R).rounds.filter fun r => decide (targetOf devs r = some pool)).flatMap fun r =>
    (firstReads L R).flatMap (Read.sizes L R H pool r)

/-- The sum of the sizes, all but the last rounded up to 64 bytes -/
def paddedSum (bytes : List ℕ) : ℕ := (bytes.dropLast.map align64).sum + bytes.getLast?.getD 0

/-- The most columns of an activation that no operation computes -/
def inputColumns : ℕ :=
  (L.compute.filterMap fun p =>
    if L.graph.op p = .mulMatId then
      (L.graph.tensor p).src[1]?.join.bind fun cur =>
        if L.graph.op cur = .none then some (L.shape cur).ne0 else none
    else none).foldl max 0

/-- The producers outside the closure that are read beside the products and the fold, once for every reference -/
def references : List ℕ :=
  (L.compute.filter fun p => !decide (L.graph.op p = .mulMatId ∨ L.replaced p = true)).flatMap fun p =>
    ((L.graph.tensor p).sources.map (producer L.graph)).filter fun q => !decide (q ∈ L.compute ∨ PerSlot L R q)

variable {L R H} {pool : ℕ} {r : MixRound}

theorem uploads_use (x : Read) : uploads pool (x.use L R H r (some pool)) = x.sizes L R H pool r := by
  have hsource : ∀ q n, uploads pool (sourceLeaf H (some pool) q n) = if H.sameDevice pool q then [] else [n] := by
    intro q n
    rw [sourceLeaf]
    cases H.sameDevice pool q <;> simp [uploads]
  cases x with
  | ids => simp [Read.use, Read.sizes, uploads, uploadLeaf]
  | activation q =>
    rw [Read.use, Read.sizes, gatherCur, uploads_append, hsource]
    simp only [reduceCtorEq, false_or]
    congr 1
    split <;> simp [uploads, uploadLeaf]
  | perSlot q =>
    rw [Read.use, Read.sizes, gatherPerSlot]
    simp only [Option.isSome_some]
    split
    · exact hsource q _
    · rw [uploads_append, hsource]
      simp [uploads, uploadLeaf]
  | whole q =>
    rw [Read.use, Read.sizes, wholeLeaf]
    simp only [Option.any_some]
    by_cases hres : H.resident pool (producer L.graph q) = true
    · simp [hres, uploads]
    · simp [hres, hsource]

theorem uploads_other (x : Read) {τ : Option ℕ} (h : τ ≠ some pool) : uploads pool (x.use L R H r τ) = [] := by
  have hupload : ∀ n, uploads pool (uploadLeaf τ n) = [] := by
    intro n
    cases τ with
    | none => rfl
    | some pool' =>
      have hne : pool' ≠ pool := fun heq => h (by rw [heq])
      simp [uploads, uploadLeaf, hne]
  have hsource : ∀ q n, uploads pool (sourceLeaf H τ q n) = [] := by
    intro q n
    cases τ with
    | none => rfl
    | some pool' =>
      rw [sourceLeaf]
      split
      · rfl
      · exact hupload n
  have hindex : ∀ n us, uploads pool (.index n :: us) = uploads pool us := fun _ _ => rfl
  cases x with
  | ids => exact hupload _
  | activation q =>
    rw [Read.use, gatherCur, uploads_append, hsource]
    split
    · rfl
    · rw [hindex, hupload, List.nil_append]
  | perSlot q =>
    rw [Read.use, gatherPerSlot]
    split
    · exact hsource _ _
    · rw [uploads_append, hsource, hindex, hupload, List.nil_append]
  | whole q =>
    rw [Read.use, wholeLeaf]
    split
    · rfl
    · exact hsource _ _

theorem uploads_rounds (rs : List MixRound) :
    uploads pool (rs.flatMap fun r => chainUse L R H r (targetOf devs r)) =
      (rs.filter fun r => decide (targetOf devs r = some pool)).flatMap fun r =>
        (firstReads L R).flatMap (Read.sizes L R H pool r) := by
  have hflat : ∀ f : Read → List Use, uploads pool ((firstReads L R).flatMap f) =
      (firstReads L R).flatMap fun x => uploads pool (f x) := by
    intro f
    generalize firstReads L R = xs
    induction xs with
    | nil => rfl
    | cons x xs ih => rw [List.flatMap_cons, uploads_append, ih, List.flatMap_cons]
  induction rs with
  | nil => rfl
  | cons r rs ih =>
    rw [List.flatMap_cons, uploads_append, ih, chainUse_reads, hflat]
    by_cases htarget : targetOf devs r = some pool
    · rw [List.filter_cons, if_pos (decide_eq_true htarget), List.flatMap_cons, htarget]
      congr 1
      exact List.flatMap_congr fun x _ => uploads_use x
    · rw [List.filter_cons, if_neg (by simpa using htarget)]
      simp [uploads_other _ htarget]

theorem sum_align64 (bytes : List ℕ) : (bytes.map align64).sum % 64 = 0 := by
  induction bytes with
  | nil => rfl
  | cons a bytes ih =>
    simp only [List.map_cons, List.sum_cons, align64] at ih ⊢
    omega

/-- Every upload begins where the sizes before it end, rounded up. -/
theorem stageUsed_eq (bytes : List ℕ) : stageUsed bytes = paddedSum bytes := by
  induction bytes using List.reverseRecOn with
  | nil => rfl
  | append_singleton bytes n ih =>
    have hlast : paddedSum (bytes ++ [n]) = (bytes.map align64).sum + n := by
      simp [paddedSum]
    have hround : align64 (paddedSum bytes) = (bytes.map align64).sum := by
      rcases List.eq_nil_or_concat bytes with rfl | ⟨init, m, rfl⟩
      · rfl
      · have hdvd := sum_align64 init
        simp only [List.concat_eq_append, paddedSum, List.dropLast_concat, List.getLast?_concat, Option.getD_some,
          List.map_append, List.sum_append, List.map_cons, List.map_nil, List.sum_cons, List.sum_nil]
        generalize (init.map align64).sum = total at hdvd
        unfold align64
        omega
    rw [hlast, stageUsed, List.foldl_append, List.foldl_cons, List.foldl_nil]
    rw [stageUsed] at ih
    rw [ih, hround]

theorem sum_ite_zero {α : Type*} (f : α → ℕ) (P : α → Prop) [DecidablePred P] (xs : List α) :
    (xs.map fun x => if P x then 0 else f x).sum = ((xs.filter fun x => !decide (P x)).map f).sum := by
  induction xs with
  | nil => rfl
  | cons x xs ih =>
    rw [List.map_cons, List.sum_cons, ih, List.filter_cons]
    by_cases hx : P x <;> simp [hx]

/-- The estimate in the sizes of the layer -/
theorem stageEst_eq (L : Layer) (R : Routing) (hne : (buildMixPlan R).rounds ≠ []) : stageEst L R =
    32 * 1024 * 1024 + ((buildMixPlan R).rounds.map fun r =>
      4 * R.nTokens * (inputColumns L + R.nExpertUsed) + 4 * R.nExpert + 16 * cells r + 4096).sum +
      (buildMixPlan R).rounds.length * ((references L R).map fun q => L.graph.nbytes q + 4096).sum := by
  have hcolumns : dIn L = inputColumns L := by
    have hmax : ∀ (f : ℕ → ℕ) (g : ℕ → Option ℕ) (ps : List ℕ) (a : ℕ), (∀ p, f p = (g p).getD 0) →
        (ps.map f).foldl max a = (ps.filterMap g).foldl max a := by
      intro f g ps a hfg
      induction ps generalizing a with
      | nil => rfl
      | cons p ps ih =>
        rw [List.map_cons, List.foldl_cons, ih, hfg p]
        cases hg : g p with
        | none => simp [hg]
        | some n => simp [hg]
    refine hmax _ _ _ _ fun p => ?_
    split
    · cases (L.graph.tensor p).src[1]?.join with
      | none => rfl
      | some cur =>
        simp only [Option.bind_some]
        split <;> rfl
    · rfl
  have hrefs : extRef L R = ((references L R).map fun q => L.graph.nbytes q + 4096).sum := by
    rw [extRef, sum_ite_zero, references, List.map_flatMap, List.flatMap, List.sum_flatten, List.map_map]
    congr 1
    refine List.map_congr_left fun p _ => ?_
    have hread := sum_ite_zero (fun q => L.graph.nbytes q + 4096) (fun q => q ∈ L.compute ∨ PerSlot L R q)
      ((L.graph.tensor p).sources.map (producer L.graph))
    rw [List.map_map] at hread
    exact hread
  have hround : ∀ r : MixRound, inputColumns L * R.nTokens * 4 + R.nExpertUsed * R.nTokens * 4 + R.nExpert * 4 +
      (cells r * 4 * 4 + 4096) =
        4 * R.nTokens * (inputColumns L + R.nExpertUsed) + 4 * R.nExpert + 16 * cells r + 4096 := fun r => by ring
  have hlength : max (buildMixPlan R).rounds.length 1 = (buildMixPlan R).rounds.length :=
    Nat.max_eq_left (List.length_pos_iff.mpr hne)
  rw [stageEst, builtRounds_eq, hcolumns, hrefs, hlength, Nat.mul_comm (buildMixPlan R).rounds.length]
  simp only [hround]

/-- The staging buffer of every device holds the uploads of its rounds exactly when their sizes fit into 32 MiB, a
token matrix of the widest leaf and one of the routing weights, a table of the experts, four id arrays and a page for
every round, and every reference to a leaf once a round. -/
theorem stageFits_iff (C : Closure L R) : StageFits L R H devs ↔ ∀ pool ∈ devs.pools,
    paddedSum (stagedSizes L R H devs pool) ≤
      32 * 1024 * 1024 + ((buildMixPlan R).rounds.map fun r =>
        4 * R.nTokens * (inputColumns L + R.nExpertUsed) + 4 * R.nExpert + 16 * cells r + 4096).sum +
        (buildMixPlan R).rounds.length * ((references L R).map fun q => L.graph.nbytes q + 4096).sum := by
  have hpool : ∀ pool, stageUsed (uploads pool (layerUse L R H devs)) = paddedSum (stagedSizes L R H devs pool) := by
    intro pool
    rw [layerUse_eq H devs C, uploads_flatMap_congr _ fun r => uploads_roundUse _ r _]
    by_cases hnil : twinNodes L = []
    · have hreads : firstReads L R = [] := by simp [firstReads, hnil, fresh]
      have hlist : ∀ rs : List MixRound, (rs.flatMap fun r => chainUse L R H r (targetOf devs r)) = [] := by
        simp [chainUse_of_nil H hnil]
      have hnone : stagedSizes L R H devs pool = [] := by simp [stagedSizes, hreads]
      rw [hlist, stageUsed_eq, hnone]
      rfl
    · rw [ranRounds, if_neg hnil, uploads_rounds, stageUsed_eq]
      rfl
  rw [stageFits_iff_used]
  refine forall₂_congr fun pool _ => ?_
  rw [hpool]
  by_cases hne : (buildMixPlan R).rounds = []
  · have hsizes : stagedSizes L R H devs pool = [] := by simp [stagedSizes, hne]
    rw [hsizes]
    exact iff_of_true (Nat.zero_le _) (Nat.zero_le _)
  · rw [stageEst_eq L R hne]

end staging

section batch

/-- 2048 tokens, all for the expert in pool 1. -/
def oneBatch : Routing where
  ids _ := 0
  nExpertUsed := 1
  nTokens := 2048
  expertPool _ := 1
  nExpert := 1
  nPools := 2
  cells_lt := by decide

theorem count_one {p t : ℕ} (ht : t < 2048) :
    (poolHits oneBatch).count p t = if p = 1 then 1 else 0 := by
  have hpool : cellPool oneBatch t 0 = some 1 := by simp [cellPool, idAt, oneBatch]
  rw [GraphCapacity.count_single rfl ht, hpool]
  simp [eq_comm]

theorem peelBounds_one (p : ℕ) :
    peelBounds oneBatch (poolHits oneBatch) p = if p = 1 then [1] else [] := by
  have hrange : List.range (oneBatch.nExpertUsed + 1) = [0, 1] := rfl
  have hcount : bucket oneBatch (poolHits oneBatch) p 1 = if p = 1 then 2048 else 0 := by
    have hsame : ∀ t ∈ List.range oneBatch.nTokens,
        (decide ((poolHits oneBatch).count p t = 1) = true) ↔ (decide (p = 1) = true) := by
      intro t ht
      rw [count_one (List.mem_range.mp ht)]
      split <;> simp [*]
    rw [bucket, List.countP_congr hsame]
    by_cases hp : p = 1 <;> simp [hp, oneBatch]
  by_cases hp : p = 1
  · subst hp
    simp [peelBounds, hrange, hcount]
  · simp [peelBounds, hrange, hcount, hp]

def oneRound (off : ℕ) : MixRound := { pool := 1, width := 1, nActive := 2048, off := off }

theorem rounds_one : ∃ off, (buildMixPlan oneBatch).rounds = [oneRound off] := by
  have hpeels : allPeels oneBatch = [⟨1, 0, 1⟩] := by
    have hrange : List.range oneBatch.nPools = [0, 1] := rfl
    simp [allPeels, hrange, peelBounds_one, peels]
  have hall : (activeToks oneBatch 1 1).length = 2048 := by
    rw [activeToks, List.filter_eq_self.mpr, List.length_range]
    · rfl
    · intro t ht
      simp [count_one (List.mem_range.mp ht)]
  have hcut := GraphCapacity.cutFrom_rounds oneBatch
  rw [hpeels] at hcut
  obtain ⟨r, rs, hr, hrs, hrounds⟩ := List.forall₂_cons_right_iff.mp hcut
  obtain rfl := List.forall₂_nil_right_iff.mp hrs
  have hactive := hr.active.trans hall
  have hwidth := hr.width
  have hpool := hr.pool
  refine ⟨r.off, hrounds.trans ?_⟩
  cases r
  simp_all [oneRound]

/-- What a chain takes does not depend on where the cells of the round lie. -/
theorem chainUse_oneRound (L : Layer) (H : Residence) (off : ℕ) (τ : Option ℕ) :
    chainUse L oneBatch H (oneRound off) τ = chainUse L oneBatch H (oneRound 0) τ := rfl

/-- Nothing is on the device. -/
def absent : Residence := ⟨fun _ _ => false, fun _ _ => false⟩

def onePool : Targets := ⟨[1], List.nodup_singleton 1⟩

end batch

section activations

def activationTensors : List Tensor :=
  [{ name := "blk.0.ffn_up_exps.weight" }, { name := "attn_q-0" }, { name := "attn_k-0" },
    { name := "attn_v-0" }, { name := "attn_g-0" }, { name := "ffn_moe_topk-0" },
    { op := .mulMatId, src := [some 0, some 1, some 5], name := "ffn_moe_up-0" },
    { op := .mulMatId, src := [some 0, some 2, some 5], name := "ffn_moe_up-0" },
    { op := .mulMatId, src := [some 0, some 3, some 5], name := "ffn_moe_up-0" },
    { op := .mulMatId, src := [some 0, some 4, some 5], name := "ffn_moe_up-0" },
    { op := .other 0, src := [some 6, some 7], name := "ffn_moe_mul-0" },
    { op := .other 0, src := [some 8, some 9], name := "ffn_moe_mul-0" },
    { op := .other 0, src := [some 10, some 11], name := "ffn_moe_weighted-0" },
    { op := .add, src := [some 12], name := "ffn_moe_out-0" }]

/-- Products of four activations, each in every second column of a wider tensor. -/
def fourActivations : Layer where
  graph := .ofList activationTensors [6, 7, 8, 9, 10, 11, 12, 13] (by decide) (by decide)
  shape q :=
    if q = 0 then .packed 2 2 1
    else if q < 5 then { ne0 := 2, ne1 := 1, ne2 := 2048, nb1 := 16, nb2 := 16 }
    else if q = 5 then .packed 1 2048 1
    else if q < 13 then .packed 2 1 2048
    else if q = 13 then .packed 2 2048 1
    else .packed 1 1 1
  repeats _ := false
  compute := [6, 7, 8, 9, 10, 11, 12, 13]
  fold q := decide (q = 13)
  foldSrc := 12

theorem activations_closure : Closure fourActivations oneBatch where
  nodup := by decide
  operands_first := by decide
  built := by
    have hbody : fourActivations.body = [6, 7, 8, 9, 10, 11, 12] := by decide
    have hproduct : ∀ p ∈ [6, 7, 8, 9], Built fourActivations oneBatch p := by
      intro p hp
      have hleaf : ∀ q ∈ [1, 2, 3, 4], Activation fourActivations oneBatch q := by
        intro q hq
        have hall : ∀ q ∈ [1, 2, 3, 4], (fourActivations.graph.root q ∉ fourActivations.compute ∧
            producer fourActivations.graph q ∉ fourActivations.compute) ∧
              (fourActivations.shape q).ne1 = 1 ∧ (fourActivations.shape q).ne2 = 2048 := by decide
        obtain ⟨hleaf, hne1, hne2⟩ := hall q hq
        exact ⟨hleaf, hne1, hne2⟩
      have hall : ∀ p ∈ [6, 7, 8, 9], fourActivations.graph.op p = .mulMatId ∧
          (fourActivations.graph.tensor p).src = [some 0, some (p - 5), some 5] ∧
            fourActivations.shape p = .packed 2 1 2048 ∧ (fourActivations.shape (p - 5)).ne0 = 2 ∧
              p - 5 ∈ [1, 2, 3, 4] := by decide
      obtain ⟨hop, hsrc, hshape, hcols, hcur⟩ := hall p hp
      exact .mulMatId 0 (p - 5) 5 hop hsrc rfl hshape hcols (.inl (hleaf _ hcur))
    have hslots : ∀ j, j ∈ [6, 7, 8, 9, 10, 11, 12] → ∃ i, Slots fourActivations i ∧ SliceOf fourActivations j i := by
      intro j hj
      have hall : ∀ j ∈ [6, 7, 8, 9, 10, 11, 12], producer fourActivations.graph j = j ∧
          fourActivations.graph.root j = j ∧ fourActivations.graph.viewOffs j = 0 := by decide
      obtain ⟨hprod, hroot, hoffs⟩ := hall j hj
      refine ⟨j, ⟨hbody ▸ hj, rfl⟩, hprod, hroot, rfl, rfl, rfl, rfl, ?_, ?_⟩
      · simp [hoffs]
      · simp [hoffs]
    have hrows : ∀ p ∈ [10, 11, 12], Built fourActivations oneBatch p := by
      intro p hp
      have hall : ∀ p ∈ [10, 11, 12], fourActivations.graph.op p = .other 0 ∧
          fourActivations.shape p = .packed 2 1 2048 ∧ (fourActivations.graph.tensor p).sources ≠ [] ∧
            ∀ q ∈ (fourActivations.graph.tensor p).sources, q ∈ [6, 7, 8, 9, 10, 11, 12] := by decide
      obtain ⟨hop, hshape, hne, hsrc⟩ := hall p hp
      exact .rows (by simp [hop]) (by simp [hop]) rfl hne (by rw [hshape]; rfl)
        fun q hq => .inr (hslots q (hsrc q hq))
    intro p hp
    rw [hbody] at hp
    rcases List.mem_append.mp (show p ∈ [6, 7, 8, 9] ++ [10, 11, 12] from hp) with hp | hp
    · exact hproduct p hp
    · exact hrows p hp
  computed := by decide
  own := by decide
  pos q := by
    simp only [fourActivations]
    repeat' split
    all_goals simp [Shape.packed]
  fold_replaced := by decide
  foldSrc_slots := ⟨by decide, by decide⟩
  read := by decide

/-- A round of more than 64 tokens needs more index arrays for four activations than are kept for it. -/
theorem not_indexKept : Closure fourActivations oneBatch ∧
    (twinNodes fourActivations).length ≤ 64 ∧ (GraphCapacity.copiedLeaves fourActivations oneBatch).length ≤ 16 ∧
      ¬ IndexKept fourActivations oneBatch absent onePool := by
  refine ⟨activations_closure, by decide, by decide, ?_⟩
  obtain ⟨off, hrounds⟩ := rounds_one
  rw [indexKept_iff_sum, layerUse_eq absent onePool activations_closure, sum_indexes_flatMap, i32Size_eq, hrounds]
  have hcopied : (indexes (chainUse fourActivations oneBatch absent (oneRound off) (some 1))).sum =
      8192 := by
    rw [chainUse_oneRound]
    decide +kernel
  have hper : nPerSlot fourActivations oneBatch = 2 := by decide
  have hran : ∀ rs, ranRounds fourActivations rs = rs := fun _ => rfl
  have htarget : targetOf onePool (oneRound off) = some 1 := rfl
  have hcells : cells (oneRound off) = 2048 := Nat.one_mul 2048
  have hactive : (oneRound off).nActive = 2048 := rfl
  simp [hran, htarget, hcopied, hper, hcells, hactive]

/-- On the CPU the round takes the activations as they are. -/
theorem indexKept_iff_activations : IndexKept fourActivations oneBatch absent ⟨[], List.nodup_nil⟩ := by
  refine (indexKept_iff absent ⟨[], List.nodup_nil⟩ activations_closure).mpr ?_
  obtain ⟨off, hrounds⟩ := rounds_one
  have hcopied : (indexes (chainUse fourActivations oneBatch absent (oneRound off) none)).sum = 0 := by
    rw [chainUse_oneRound]
    decide +kernel
  have htarget : targetOf ⟨[], List.nodup_nil⟩ (oneRound off) = none := rfl
  rw [hrounds, List.map_singleton, List.sum_singleton, htarget, hcopied]
  exact Nat.zero_le _

/-- The products, with ids, four wide activations and their indices, fit into the estimate. -/
theorem stageFits_iff_activations : StageFits fourActivations oneBatch absent onePool := by
  refine (stageFits_iff onePool activations_closure).mpr (List.forall_mem_singleton.mpr ?_)
  obtain ⟨off, hrounds⟩ := rounds_one
  have hsizes : stagedSizes fourActivations oneBatch absent onePool 1 =
      [8192, 32760, 8192, 8192, 32760, 8192, 8192, 32760, 8192, 8192, 32760, 8192] := by
    have htarget : targetOf onePool (oneRound off) = some 1 := rfl
    have hreads : ((firstReads fourActivations oneBatch).flatMap
        (Read.sizes fourActivations oneBatch absent 1 (oneRound off))) =
          [8192, 32760, 8192, 8192, 32760, 8192, 8192, 32760, 8192, 8192, 32760, 8192] := by
      change ((firstReads fourActivations oneBatch).flatMap
        (Read.sizes fourActivations oneBatch absent 1 (oneRound 0))) = _
      decide +kernel
    rw [stagedSizes, hrounds, List.filter_cons, if_pos (decide_eq_true htarget), List.filter_nil, List.flatMap_cons,
      hreads, List.flatMap_nil, List.append_nil]
  have hused : paddedSum (stagedSizes fourActivations oneBatch absent onePool 1) ≤ 32 * 1024 * 1024 := by
    rw [hsizes]
    decide
  omega

end activations

section reshaped

def reshapedTensors : List Tensor :=
  [{ name := "blk.0.ffn_down_exps.weight" },
    { op := .other 0, nbytes := 41943040, name := "ffn_norm-0" },
    { op := .reshape, src := [some 1], viewSrc := some 1, nbytes := 41943040, name := "ffn_norm-0 (reshaped)" },
    { name := "ffn_moe_topk-0" },
    { op := .mulMatId, src := [some 0, some 2, some 3], name := "ffn_moe_down-0" },
    { op := .add, src := [some 4], name := "ffn_moe_out-0" }]

/-- One product; its activation of 5120 floats for each of 2048 tokens is reshaped before. -/
def reshapedLayer : Layer where
  graph := .ofList reshapedTensors [1, 2, 4, 5] (by decide) (by decide)
  shape q := [.packed 5120 2 1, .packed 5120 2048 1, .packed 5120 1 2048, .packed 1 2048 1,
    .packed 2 1 2048, .packed 2 2048 1].getD q (.packed 1 1 1)
  repeats _ := false
  compute := [4, 5]
  fold q := decide (q = 5)
  foldSrc := 4

theorem reshaped_closure : Closure reshapedLayer oneBatch where
  nodup := by decide
  operands_first := by decide
  built := by
    have hbody : reshapedLayer.body = [4] := by decide
    have hleaf : ∀ {q : ℕ}, (reshapedLayer.graph.root q ∉ reshapedLayer.compute ∧
        producer reshapedLayer.graph q ∉ reshapedLayer.compute) → Leaf reshapedLayer q := id
    intro p hp
    rw [hbody] at hp
    obtain rfl := List.mem_singleton.mp hp
    exact .mulMatId 0 2 3 (by decide) (by decide) (by decide) (by decide) (by decide)
      (.inl ⟨hleaf (by decide), by decide, by decide⟩)
  computed := by decide
  own := by decide
  pos q := by
    by_cases hq : q < 6
    · have hall : ∀ q < 6, 0 < (reshapedLayer.shape q).ne0 := by decide
      exact hall q hq
    · have hdefault : reshapedLayer.shape q = .packed 1 1 1 := by
        simp only [reshapedLayer, List.getD_eq_getElem?_getD]
        rw [List.getElem?_eq_none (by simpa using hq), Option.getD_none]
      simp [hdefault, Shape.packed]
  fold_replaced := by decide
  foldSrc_slots := ⟨by decide, by decide⟩
  read := by decide

/-- The estimate does not see an activation that was reshaped: of 40 MiB it leaves out all. -/
theorem not_stageFits : Closure reshapedLayer oneBatch ∧
    ¬ StageFits reshapedLayer oneBatch absent onePool := by
  refine ⟨reshaped_closure, fun hfits => ?_⟩
  obtain ⟨off, hrounds⟩ := rounds_one
  rw [stageFits_iff_used, layerUse_eq absent onePool reshaped_closure] at hfits
  have hused := hfits 1 (by simp [onePool])
  rw [uploads_flatMap_congr _ fun r => uploads_roundUse _ r _] at hused
  have hran : ∀ rs, ranRounds reshapedLayer rs = rs := fun _ => rfl
  have hstaged : uploads 1 (chainUse reshapedLayer oneBatch absent (oneRound off) (some 1)) =
      [8192, 41943040] := by
    rw [chainUse_oneRound]
    decide +kernel
  have htarget : targetOf onePool (oneRound off) = some 1 := rfl
  have hest : stageEst reshapedLayer oneBatch = 33599492 := by
    have hin : dIn reshapedLayer = 0 := by decide
    have hext : extRef reshapedLayer oneBatch = 0 := by decide
    have hcells : cells (oneRound off) = 2048 := Nat.one_mul 2048
    rw [stageEst, builtRounds_eq, hrounds, hin, hext]
    simp only [List.map_cons, List.map_nil, List.sum_cons, List.sum_nil, hcells, List.length_cons,
      List.length_nil]
    decide +kernel
  simp [hran, hrounds, htarget, hstaged, hest, stageUsed, align64] at hused

end reshaped

end RoundScratch
end StreamMoE
