import StreamMoE.LayoutRewrite
import StreamMoE.RoundScratch

/-! The host block that the twins of a layer are written into: what a clone takes of it in a round, and
when the block moves. -/
namespace StreamMoE
namespace FullAlloc

open ByteMemory ComputeGraph CompactTwins MixSplit MixExec Strided LayerPlan LayoutRewrite
open GraphCapacity (made twinNodes twinShape)
open ReadPlan (foldl_max_le_iff)
open RoundCells (width_le nActive_le)
open RoundScratch (builtRounds)

section block

/-- `g_fullalloc_buf` and `g_fullalloc_cap`; buffers are numbered in the order they are asked for. -/
structure Block where
  buf : Option ℕ
  cap : ℕ
  asked : ℕ
  deriving DecidableEq, Repr

variable (grant : ℕ → ℕ → Bool)

/-- The old buffer is freed and a new one asked for. -/
def Block.realloc (s : Block) (size : ℕ) : Block :=
  if grant s.asked size then { buf := some s.asked, cap := size, asked := s.asked + 1 }
  else { buf := none, cap := 0, asked := s.asked + 1 }

def setFullAlloc (size : ℕ) (s : Block) : Block := if size > s.cap then s.realloc grant size else s

def fullallocBuffer (need : ℕ) (s : Block) : Block :=
  if need > s.cap then s.realloc grant (if s.cap = 0 then need else max need (s.cap * 2)) else s

/-- `twin_out` for some bytes at an offset; a pointer is an offset in a buffer. -/
def twinOut (x : ℕ × ℕ) (s : Block) : Block × Option (ℕ × ℕ) :=
  let s' := fullallocBuffer grant (x.1 + x.2) s
  (s', s'.buf.map fun b => (b, x.1))

/-- The block after some calls. -/
def after (xs : List (ℕ × ℕ)) (s : Block) : Block := xs.foldl (fun s x => (twinOut grant x s).1) s

variable {grant} {s : Block} {size b : ℕ}

/-- A buffer that is there after the sizing is large enough. -/
theorem le_cap_setFullAlloc (h : (setFullAlloc grant size s).buf = some b) :
    size ≤ (setFullAlloc grant size s).cap := by
  unfold setFullAlloc Block.realloc at h ⊢
  by_cases hlt : size > s.cap
  · rw [if_pos hlt] at h ⊢
    by_cases hgrant : grant s.asked size = true
    · rw [if_pos hgrant]
    · rw [if_neg hgrant] at h
      cases h
  · rw [if_neg hlt]
    omega

theorem twinOut_of_le {x : ℕ × ℕ} (hbuf : s.buf = some b) (h : x.1 + x.2 ≤ s.cap) :
    twinOut grant x s = (s, some (b, x.1)) := by
  have hsame : fullallocBuffer grant (x.1 + x.2) s = s := if_neg (by omega)
  simp [twinOut, hsame, hbuf]

/-- The block stays while the calls lie in it. -/
theorem after_eq (hbuf : s.buf = some b) (xs : List (ℕ × ℕ)) :
    (∀ x ∈ xs, x.1 + x.2 ≤ s.cap) → after grant xs s = s := by
  induction xs with
  | nil => exact fun _ => rfl
  | cons x xs ih =>
    intro h
    obtain ⟨hx, hxs⟩ := List.forall_mem_cons.mp h
    have hstep := @twinOut_of_le grant s b x hbuf hx
    simpa [after, hstep] using ih hxs

end block

section layer

variable (L : Layer) (R : Routing) (ne3 : ℕ → ℕ)

/-- The bytes of the twin of `p`; the fourth axis stays, and that of a product is 1. -/
def twinBytes (r : MixRound) (p : ℕ) : ℕ :=
  4 * ((twinShape L R r p).ne0 * (twinShape L R r p).ne1 * (twinShape L R r p).ne2 *
    if L.graph.op p = .mulMatId then 1 else ne3 p)

def maxOut (lay : Layout) : ℕ :=
  if lay.ok then
    (L.compute.zipIdx.filterMap fun x => (lay.off x.2).map fun off => off + L.graph.nbytes x.1).foldl max
      lay.bytes
  else 0

def lsum : ℕ :=
  ((L.compute.filter fun p => !hasText (L.graph.tensor p).name "ffn_moe_out").map L.graph.nbytes).sum

/-- What the block is sized for before a layer is built. -/
def fullAllocNeed (lay : Layout) : ℕ := max (maxOut L lay) (lsum L)

/-- The calls of `twin_out` in a round: the offsets of the nodes, the bytes of their twins. -/
def roundCalls (lay : Layout) (r : MixRound) : List (ℕ × ℕ) :=
  (L.compute.zipIdx.filter fun x => made L x.1).filterMap fun x =>
    if lay.ok then (lay.off x.2).map fun off => (off, twinBytes L R ne3 r x.1) else none

/-- The calls while a layer is built, those of the rounds of the CPU. -/
def twinCalls (devs : Targets) (lay : Layout) : List (ℕ × ℕ) :=
  ((builtRounds R).filter fun r => (targetOf devs r).isNone).flatMap (roundCalls L R ne3 lay)

/-- A closure of F32 results without gaps, its products shaped by the tensor library. -/
structure F32Closure : Prop where
  bytes : ∀ p ∈ twinNodes L, L.graph.nbytes p =
    4 * ((L.shape p).ne0 * (L.shape p).ne1 * (L.shape p).ne2 * ne3 p)
  product : ∀ p ∈ twinNodes L, ∀ w rest, L.graph.op p = .mulMatId →
    (L.graph.tensor p).src = some w :: rest →
      L.shape p = .packed (L.shape w).ne1 R.nExpertUsed R.nTokens ∧ ne3 p = 1

/-- A round is no wider than the slots of a token and has no more tokens than the batch. -/
def Narrow (r : MixRound) : Prop := r.width ≤ R.nExpertUsed ∧ r.nActive ≤ R.nTokens

variable {L R ne3}

theorem narrow_of_mem {r : MixRound} (h : r ∈ builtRounds R) : Narrow R r := by
  have hr := (List.mem_filter.mp h).1
  exact ⟨width_le hr, nActive_le hr⟩

theorem narrowed_le {r : MixRound} (hr : Narrow R r) (sh : Shape) :
    (narrowed R r sh).ne0 = sh.ne0 ∧ (narrowed R r sh).ne1 ≤ sh.ne1 ∧
      (narrowed R r sh).ne2 ≤ sh.ne2 := by
  refine ⟨rfl, ?_, ?_⟩
  · simp only [narrowed, Shape.packed]
    split
    · rename_i h
      exact hr.1.trans_eq h.1.symm
    · exact le_refl _
  · simp only [narrowed, Shape.packed]
    split
    · rename_i h
      exact hr.2.trans_eq h.symm
    · exact le_refl _

/-- A twin is no larger than its node, axis by axis. -/
theorem twinShape_le (F : F32Closure L R ne3) {r : MixRound} (hr : Narrow R r) {p : ℕ}
    (hp : p ∈ twinNodes L) :
    (twinShape L R r p).ne0 = (L.shape p).ne0 ∧ (twinShape L R r p).ne1 ≤ (L.shape p).ne1 ∧
      (twinShape L R r p).ne2 ≤ (L.shape p).ne2 := by
  unfold twinShape
  split
  · rename_i w rest hop hsrc
    rw [(F.product p hp w rest hop hsrc).1]
    exact ⟨rfl, hr.1, hr.2⟩
  · exact narrowed_le hr _

theorem exists_weight {p : ℕ} (hp : p ∈ twinNodes L) (hop : L.graph.op p = .mulMatId) :
    ∃ w rest, (L.graph.tensor p).src = some w :: rest := by
  have hmade := (List.mem_filter.mp hp).2
  simp only [made, hop, if_true, Bool.and_eq_true] at hmade
  have hsrc := hmade.2
  split at hsrc
  · rename_i w cur ids heq
    exact ⟨w, _, heq⟩
  · cases hsrc

theorem twinBytes_le (F : F32Closure L R ne3) {r : MixRound} (hr : Narrow R r) {p : ℕ}
    (hp : p ∈ twinNodes L) : twinBytes L R ne3 r p ≤ L.graph.nbytes p := by
  obtain ⟨hne0, hne1, hne2⟩ := twinShape_le F hr hp
  have hlast : (if L.graph.op p = .mulMatId then 1 else ne3 p) = ne3 p := by
    split
    · rename_i hop
      obtain ⟨w, rest, hsrc⟩ := exists_weight hp hop
      exact (F.product p hp w rest hop hsrc).2.symm
    · rfl
  rw [twinBytes, F.bytes p hp, hlast, hne0]
  gcongr

/-- Every call ends inside what the block is sized for. -/
theorem call_le (F : F32Closure L R ne3) {devs : Targets} {lay : Layout} {x : ℕ × ℕ}
    (hx : x ∈ twinCalls L R ne3 devs lay) : x.1 + x.2 ≤ fullAllocNeed L lay := by
  obtain ⟨r, hr, hx⟩ := List.mem_flatMap.mp hx
  obtain ⟨⟨p, i⟩, hp, hx⟩ := List.mem_filterMap.mp hx
  obtain ⟨hmem, hmade⟩ := List.mem_filter.mp hp
  by_cases hok : lay.ok = true
  · simp only [if_pos hok] at hx
    obtain ⟨off, hoff, rfl⟩ := Option.map_eq_some_iff.mp hx
    have htwin := twinBytes_le F (narrow_of_mem (List.mem_filter.mp hr).1)
      (List.mem_filter.mpr ⟨List.fst_mem_of_mem_zipIdx hmem, hmade⟩)
    have hend : off + L.graph.nbytes p ∈
        L.compute.zipIdx.filterMap fun x => (lay.off x.2).map fun off => off + L.graph.nbytes x.1 :=
      List.mem_filterMap.mpr ⟨(p, i), hmem, by simp [hoff]⟩
    have hmax : off + L.graph.nbytes p ≤ maxOut L lay := by
      rw [maxOut, if_pos hok]
      exact (foldl_max_le_iff.mp (le_refl _)).2 _ hend
    exact (Nat.add_le_add_left htwin off).trans (hmax.trans (Nat.le_max_left _ _))
  · simp [hok] at hx

/-- Twins take no more than their nodes, so they lie apart where their nodes do; and a block that the
sizing before the layer got is the one that every call of the build writes into. -/
theorem twins_fit (F : F32Closure L R ne3) :
    (∀ r, Narrow R r → ∀ p ∈ twinNodes L, twinBytes L R ne3 r p ≤ L.graph.nbytes p) ∧
      (∀ r r', Narrow R r → Narrow R r' → ∀ p ∈ twinNodes L, ∀ q ∈ twinNodes L, ∀ x y,
        Apart x (L.graph.nbytes p) y (L.graph.nbytes q) →
          Apart x (twinBytes L R ne3 r p) y (twinBytes L R ne3 r' q)) ∧
      ∀ (devs : Targets) (lay : Layout) (grant : ℕ → ℕ → Bool) (s : Block) (b : ℕ),
        (setFullAlloc grant (fullAllocNeed L lay) s).buf = some b →
          ∀ pre x, pre ++ [x] <+: twinCalls L R ne3 devs lay →
            x.1 + x.2 ≤ (setFullAlloc grant (fullAllocNeed L lay) s).cap ∧
              twinOut grant x (after grant pre (setFullAlloc grant (fullAllocNeed L lay) s)) =
                (setFullAlloc grant (fullAllocNeed L lay) s, some (b, x.1)) := by
  refine ⟨fun r hr p hp => twinBytes_le F hr hp, ?_, ?_⟩
  · intro r r' hr hr' p hp q hq x y hapart
    exact hapart.mono (le_refl x) (Nat.add_le_add_left (twinBytes_le F hr hp) x) (le_refl y)
      (Nat.add_le_add_left (twinBytes_le F hr' hq) y)
  · intro devs lay grant s b hbuf pre x hpre
    have hcap := le_cap_setFullAlloc hbuf
    have hcall : ∀ y ∈ pre ++ [x], y.1 + y.2 ≤ (setFullAlloc grant (fullAllocNeed L lay) s).cap :=
      fun y hy => (call_le F (hpre.subset hy)).trans hcap
    have hx := hcall x (by simp)
    refine ⟨hx, ?_⟩
    rw [after_eq hbuf pre fun y hy => hcall y (List.mem_append_left _ hy)]
    exact twinOut_of_le hbuf hx

end layer

section small

/-- A product and a clone of it, for two slots and three tokens. -/
def smallLayer : Layer where
  graph := .ofList
    [{ name := "blk.0.ffn_up_exps.weight" }, { name := "ffn_norm-0" }, { name := "ffn_moe_topk-0" },
      { op := .mulMatId, src := [some 0, some 1, some 2], nbytes := 96, name := "ffn_moe_up-0" },
      { op := .other 0, src := [some 3], nbytes := 96, name := "ffn_moe_weighted-0" },
      { op := .add, src := [some 4], nbytes := 48, name := "ffn_moe_out-0" }]
    [3, 4, 5] (by decide) (by decide)
  shape q := if q = 0 then .packed 8 4 2 else if q = 3 ∨ q = 4 then .packed 4 2 3 else .packed 4 3 1
  repeats _ := false
  compute := [3, 4, 5]
  fold q := decide (q = 5)
  foldSrc := 4

theorem smallBatch_cells_lt : 3 * 2 < 2 ^ 31 := by decide

def smallBatch : Routing where
  ids _ := 0
  nExpertUsed := 2
  nTokens := 3
  expertPool _ := 0
  nExpert := 1
  nPools := 1
  cells_lt := smallBatch_cells_lt

def smallLayout : Layout where
  off i := [some 0, some 96, some 0][i]?.join
  bytes := 192
  ok := true

theorem small_f32 : F32Closure smallLayer smallBatch fun _ => 1 where
  bytes := by decide
  product := by
    have hnodes : ∀ p ∈ twinNodes smallLayer, smallLayer.graph.op p = .mulMatId →
        (smallLayer.graph.tensor p).src = [some 0, some 1, some 2] ∧
          smallLayer.shape p = .packed (smallLayer.shape 0).ne1 2 3 := by decide
    intro p hp w rest hop hsrc
    obtain ⟨hsrc', hshape⟩ := hnodes p hp hop
    rw [hsrc'] at hsrc
    cases hsrc
    exact ⟨hshape, rfl⟩

def noTargets : Targets := ⟨[], List.nodup_nil⟩

def granted (_ _ : ℕ) : Bool := true

/-- One slot of two tokens, and the first buffer for all of a build. -/
theorem twins_fit_small :
    twinBytes smallLayer smallBatch (fun _ => 1) ⟨0, 1, 2, 0⟩ 3 ≤ smallLayer.graph.nbytes 3 ∧
      ∀ pre x, pre ++ [x] <+: twinCalls smallLayer smallBatch (fun _ => 1) noTargets smallLayout →
        (twinOut granted x (after granted pre ⟨some 0, 192, 1⟩)).2 = some (0, x.1) := by
  have hfit := twins_fit small_f32
  have hsized : setFullAlloc granted (fullAllocNeed smallLayer smallLayout) ⟨none, 0, 0⟩ =
      ⟨some 0, 192, 1⟩ := by decide
  refine ⟨hfit.1 ⟨0, 1, 2, 0⟩ ⟨by decide, by decide⟩ 3 (by decide), fun pre x hpre => ?_⟩
  have hcall := hfit.2.2 noTargets smallLayout granted ⟨none, 0, 0⟩ 0 (by rw [hsized]) pre x hpre
  rw [hsized] at hcall
  rw [hcall.2]

end small

end FullAlloc
end StreamMoE
