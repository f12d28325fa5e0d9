import Mathlib.Tactic.Common
import StreamMoE.WriterPlan

/-! Every byte of a strip or of an expert block is written by one copy or one fill. -/
namespace StreamMoE
namespace WriterPlan

open DenseFill (SrcSeg)
open Gaps

section copies

variable {srcs : List SrcSeg} {dst relStart relEnd : ℕ}

theorem copyPart_inside {s : SrcSeg} {o : CopyOp} (hle : relStart ≤ relEnd)
    (h : copyPart dst relStart relEnd s = some o) :
    dst ≤ o.dstRel ∧ o.dstRel + o.len ≤ dst + (relEnd - relStart) := by
  unfold copyPart at h
  split at h
  · simp at h
  · simp only [Option.some.injEq] at h
    subst h
    dsimp only
    omega

theorem copyPart_covers (hle : relStart ≤ relEnd) (s : SrcSeg) (p : ℕ) :
    ((copyPart dst relStart relEnd s).map fun o => decide (Covers CopyOp.dstRel CopyOp.len o p)).getD false =
      true ↔ (dst ≤ p ∧ p < dst + (relEnd - relStart)) ∧
        Covers SrcSeg.inOff (fun s => s.len) s (relStart + (p - dst)) := by
  unfold copyPart
  split
  · simp only [Option.map_none, Option.getD_none, Bool.false_eq_true, false_iff, Covers]
    omega
  · rw [Option.map_some, Option.getD_some, decide_eq_true_eq]
    simp only [Covers]
    omega

/-- The copies of an item write a byte as often as its segments have it. -/
theorem hits_copyParts (hle : relStart ≤ relEnd) (p : ℕ) :
    opHits (srcs.filterMap (copyPart dst relStart relEnd)) p =
      if dst ≤ p ∧ p < dst + (relEnd - relStart) then
        hits SrcSeg.inOff (fun s => s.len) srcs (relStart + (p - dst))
      else 0 := by
  rw [opHits, hits, List.countP_filterMap]
  split
  case isTrue hin =>
    refine List.countP_congr fun s _ => ?_
    rw [copyPart_covers hle, decide_eq_true_eq]
    simp [hin]
  case isFalse hout =>
    refine List.countP_eq_zero.mpr fun s _ h => ?_
    exact hout ((copyPart_covers hle s p).mp h).1

def itemOps (start len dstBase : ℕ) (item : ContentItem) : List CopyOp :=
  if item.logOff + item.len ≤ start ∨ item.logOff ≥ start + len then []
  else
    item.srcs.filterMap (copyPart (dstBase + (max start item.logOff - start))
      (max start item.logOff - item.logOff) (min (start + len) (item.logOff + item.len) - item.logOff))

theorem contentToOps_eq (content : List ContentItem) (start len dstBase : ℕ) :
    contentToOps content start len dstBase = content.flatMap (itemOps start len dstBase) := rfl

variable {start len base : ℕ} {item : ContentItem} {content : List ContentItem}

theorem hits_itemOps (hcuts : Cuts item.srcs item.len) (p : ℕ) :
    opHits (itemOps start len base item) p =
      if (base ≤ p ∧ p < base + len) ∧ Covers ContentItem.logOff ContentItem.len item (start + (p - base))
      then 1 else 0 := by
  rw [itemOps]
  split
  case isTrue hout =>
    rw [if_neg]
    · rfl
    · unfold Covers
      omega
  case isFalse hin =>
    rw [hits_copyParts (by omega)]
    by_cases hp : (base ≤ p ∧ p < base + len) ∧
        Covers ContentItem.logOff ContentItem.len item (start + (p - base))
    · rw [if_pos hp]
      unfold Covers at hp
      rw [if_pos (by omega)]
      exact hcuts.once _ (by omega)
    · rw [if_neg hp, if_neg]
      unfold Covers at hp
      omega

theorem mem_contentToOps {o : CopyOp} (ho : o ∈ contentToOps content start len base) :
    base ≤ o.dstRel ∧ o.dstRel + o.len ≤ base + len := by
  rw [contentToOps_eq] at ho
  obtain ⟨item, -, ho⟩ := List.mem_flatMap.mp ho
  rw [itemOps] at ho
  split at ho
  · simp at ho
  · obtain ⟨s, -, hs⟩ := List.mem_filterMap.mp ho
    have hinside := copyPart_inside (by omega) hs
    omega

/-- Items that follow one another and are cut by their segments. -/
structure Laid (content : List ContentItem) : Prop where
  ordered : content.Pairwise fun x y => x.logOff + x.len ≤ y.logOff
  cuts : ∀ x ∈ content, Cuts x.srcs x.len

theorem hits_contentToOps (h : Laid content) (p : ℕ) :
    opHits (contentToOps content start len base) p =
      if (base ≤ p ∧ p < base + len) ∧
        ∃ x ∈ content, Covers ContentItem.logOff ContentItem.len x (start + (p - base))
      then 1 else 0 := by
  have hsum : opHits (contentToOps content start len base) p =
      (content.map fun x => if (base ≤ p ∧ p < base + len) ∧
        Covers ContentItem.logOff ContentItem.len x (start + (p - base)) then 1 else 0).sum := by
    rw [contentToOps_eq, opHits, hits_flatMap]
    congr 1
    exact List.map_congr_left fun x hx => hits_itemOps (h.cuts x hx) p
  rw [hsum]
  by_cases hp : base ≤ p ∧ p < base + len
  · simp only [hp, and_self, true_and]
    rw [← hits_of_ordered h.ordered, sum_covers]
  · simp [hp]

end copies

section regions

/-- What the copies and the fills of a region write, byte by byte. -/
structure Region.Sound (r : Region) : Prop where
  ops : ∀ p, opHits r.ops p ≤ 1
  inside : ∀ o ∈ r.ops, ∀ p, Covers CopyOp.dstRel CopyOp.len o p → r.base ≤ p ∧ p < r.base + r.len
  fills : ∀ p, fillHits r.fills p =
    if (r.base ≤ p ∧ p < r.base + r.len) ∧ ∀ o ∈ r.ops, ¬ Covers CopyOp.dstRel CopyOp.len o p then 1 else 0

theorem Region.Sound.total {r : Region} (h : r.Sound) (p : ℕ) :
    opHits r.ops p + fillHits r.fills p = if Covers Region.base Region.len r p then 1 else 0 := by
  rw [h.fills]
  by_cases hex : ∃ o ∈ r.ops, Covers CopyOp.dstRel CopyOp.len o p
  · obtain ⟨o, ho, hop⟩ := hex
    have hpos : 0 < opHits r.ops p := hits_pos.mpr ⟨o, ho, hop⟩
    have hone := h.ops p
    have hin : Covers Region.base Region.len r p := h.inside o ho p hop
    rw [if_neg fun hall => hall.2 o ho hop, if_pos hin]
    omega
  · have hnone : ∀ o ∈ r.ops, ¬ Covers CopyOp.dstRel CopyOp.len o p := by simpa using hex
    rw [opHits, hits_eq_zero.mpr hnone, Nat.zero_add]
    exact if_congr (and_iff_left hnone) rfl rfl

theorem hits_shifted (base : ℕ) (fs : List (ℕ × ℕ)) (p : ℕ) :
    fillHits (fs.map fun f => (base + f.1, f.2)) p = if base ≤ p then fillHits fs (p - base) else 0 := by
  rw [fillHits, hits, List.countP_map]
  split
  · refine List.countP_congr fun f _ => ?_
    simp only [Function.comp_apply, decide_eq_true_eq]
    simp only [Covers]
    omega
  · refine List.countP_eq_zero.mpr fun f _ => ?_
    simp only [Function.comp_apply, decide_eq_true_eq]
    simp only [Covers]
    omega

theorem hits_shifted_gaps {base len : ℕ} {cs : List (ℕ × ℕ)} (hsorted : cs.Pairwise fun c d => c.1 ≤ d.1)
    (hcs : ∀ c ∈ cs, c.1 ≤ c.2 ∧ c.2 ≤ len) (p : ℕ) :
    fillHits ((gaps len 0 cs).map fun f => (base + f.1, f.2)) p =
      if (base ≤ p ∧ p < base + len) ∧ ∀ c ∈ cs, ¬ (base + c.1 ≤ p ∧ p < base + c.2) then 1 else 0 := by
  rw [hits_shifted]
  split
  case isTrue hle =>
    rw [fillHits, hits_gaps cs 0 hsorted hcs]
    refine if_congr ?_ rfl rfl
    have hshift : ∀ c : ℕ × ℕ, (c.1 ≤ p - base ∧ p - base < c.2) ↔ (base + c.1 ≤ p ∧ p < base + c.2) := by
      intro c
      omega
    simp only [hshift, ← and_assoc]
    refine and_congr_left fun _ => ?_
    omega
  case isFalse hlt =>
    rw [if_neg fun h => hlt h.1.1]

section strips

variable {unit : ChunkUnit} {start len base : ℕ}

theorem covered_sorted (ops : List CopyOp) : (covered base ops).Pairwise fun c d => c.1 ≤ d.1 := by
  let r : ℕ × ℕ → ℕ × ℕ → Prop := fun c d => c.1 < d.1 ∨ c.1 = d.1 ∧ c.2 ≤ d.2
  have htotal : Std.Total r := ⟨fun c d => by simp only [r]; omega⟩
  have htrans : IsTrans (ℕ × ℕ) r := ⟨fun c d e => by simp only [r]; omega⟩
  refine (List.pairwise_insertionSort r _).imp fun h => ?_
  simp only [r] at h
  omega

theorem strip_sound (h : Laid unit.content) : (strip unit start len base).Sound where
  ops p := by
    rw [strip, hits_contentToOps h]
    split <;> omega
  inside o ho p hp := by
    have hin := mem_contentToOps ho
    simp only [strip, Covers] at hp ⊢
    omega
  fills p := by
    have hops : ∀ o ∈ contentToOps unit.content start len base,
        base ≤ o.dstRel ∧ o.dstRel + o.len ≤ base + len := fun o ho => mem_contentToOps ho
    have hmem : ∀ c, c ∈ covered base (contentToOps unit.content start len base) ↔
        ∃ o ∈ contentToOps unit.content start len base, (o.dstRel - base, o.dstRel - base + o.len) = c := by
      intro c
      rw [covered, List.mem_insertionSort, List.mem_map]
    simp only [strip]
    rw [hits_shifted_gaps (covered_sorted _)]
    · refine if_congr (and_congr_right fun _ => ?_) rfl rfl
      constructor
      · intro hall o ho hop
        have hin := hops o ho
        have hnot := hall _ ((hmem _).mpr ⟨o, ho, rfl⟩)
        simp only [Covers] at hop hnot
        omega
      · intro hall c hc
        obtain ⟨o, ho, rfl⟩ := (hmem c).mp hc
        have hin := hops o ho
        have hnot := hall o ho
        simp only [Covers] at hnot
        omega
    · intro c hc
      obtain ⟨o, ho, rfl⟩ := (hmem c).mp hc
      have hin := hops o ho
      simp only
      omega

end strips

section expertBlocks

theorem le_alignUp (n : ℕ) : n ≤ alignUp n := by
  unfold alignUp
  omega

theorem le_branchEnd (boff : ℕ) (es : List ExpertTensor) : boff ≤ branchEnd boff es := by
  induction es generalizing boff with
  | nil => exact le_refl _
  | cons e es ih =>
    calc boff ≤ alignUp (boff + e.perExpert) := by
          have hle := le_alignUp (boff + e.perExpert)
          omega
      _ ≤ branchEnd boff (e :: es) := ih _

theorem branches_mem {es : List ExpertTensor} {boff : ℕ} {x : ExpertTensor × ℕ} (h : x ∈ branches boff es) :
    x.1 ∈ es ∧ boff ≤ x.2 ∧ x.2 + x.1.perExpert ≤ branchEnd boff es := by
  induction es generalizing boff with
  | nil => simp [branches] at h
  | cons e es ih =>
    have hle := le_alignUp (boff + e.perExpert)
    rcases List.mem_cons.mp h with rfl | hmem
    · have hend : alignUp (boff + e.perExpert) ≤ branchEnd boff (e :: es) := le_branchEnd _ _
      exact ⟨List.mem_cons_self, le_refl _, hle.trans hend⟩
    · obtain ⟨hin, hoff, hend⟩ := ih hmem
      exact ⟨List.mem_cons_of_mem _ hin, by omega, hend⟩

theorem branches_ordered (es : List ExpertTensor) (boff : ℕ) :
    (branches boff es).Pairwise fun x y => x.2 + x.1.perExpert ≤ y.2 := by
  induction es generalizing boff with
  | nil => exact .nil
  | cons e es ih =>
    refine List.pairwise_cons.mpr ⟨fun y hy => ?_, ih _⟩
    have hle := le_alignUp (boff + e.perExpert)
    have hoff := (branches_mem hy).2.1
    simp only
    omega

theorem hits_mapped {srcs : List SrcSeg} {size : ℕ} (hcuts : Cuts srcs size) (dst p : ℕ) :
    opHits (srcs.map fun s => { file := s.file, srcOff := s.off, len := s.len, dstRel := dst + s.inOff }) p =
      if dst ≤ p ∧ p < dst + size then 1 else 0 := by
  rw [opHits, hits, List.countP_map]
  split
  case isTrue hin =>
    rw [← hcuts.once (p - dst) (by omega)]
    refine List.countP_congr fun s _ => ?_
    simp only [Function.comp_apply, decide_eq_true_eq]
    simp only [Covers]
    omega
  case isFalse hout =>
    refine List.countP_eq_zero.mpr fun s hs => ?_
    have hle := hcuts.inside s hs
    simp only [Function.comp_apply, decide_eq_true_eq]
    simp only [Covers]
    omega

theorem blockFills_eq {off size : ℕ} {xs : List (ExpertTensor × ℕ)} {cursor : ℕ}
    (hordered : xs.Pairwise fun x y => x.2 + x.1.perExpert ≤ y.2) (hcursor : ∀ x ∈ xs, cursor ≤ x.2) :
    blockFills off size cursor xs =
      (gaps size cursor (xs.map fun x => (x.2, x.2 + x.1.perExpert))).map fun f => (off + f.1, f.2) := by
  induction xs generalizing cursor with
  | nil =>
    rw [blockFills, List.map_nil, gaps]
    split <;> rfl
  | cons x xs ih =>
    obtain ⟨hx, hxs⟩ := List.pairwise_cons.mp hordered
    have hle := hcursor x List.mem_cons_self
    rw [blockFills, ih hxs hx, List.map_cons, gaps, List.map_append,
      Nat.max_eq_right (by simp only; omega)]
    congr 1
    split <;> rfl

variable {m : Model} {target : Target} {b : Block}

theorem mem_placeBlocks {les : List (ℕ × ℕ)} {cur : ℕ} (h : b ∈ placeBlocks m cur les) :
    (b.layer, b.expert) ∈ les ∧ b.size = branchEnd 0 (layerExperts m b.layer) ∧ cur ≤ b.off := by
  induction les generalizing cur with
  | nil => simp [placeBlocks] at h
  | cons le les ih =>
    rcases List.mem_cons.mp h with rfl | hmem
    · exact ⟨List.mem_cons_self, rfl, le_refl _⟩
    · obtain ⟨hin, hsize, hoff⟩ := ih hmem
      exact ⟨List.mem_cons_of_mem _ hin, hsize, by omega⟩

theorem placeBlocks_ordered (les : List (ℕ × ℕ)) (cur : ℕ) :
    (placeBlocks m cur les).Pairwise fun b c => b.off + b.size ≤ c.off := by
  induction les generalizing cur with
  | nil => exact .nil
  | cons le les ih => exact List.pairwise_cons.mpr ⟨fun c hc => (mem_placeBlocks hc).2.2, ih _⟩

theorem mem_blocks (h : b ∈ blocks m target) :
    b.expert < m.nExpert ∧ b.size = branchEnd 0 (layerExperts m b.layer) ∧
      blocksStart (items m target) ≤ b.off := by
  obtain ⟨hin, hsize, hoff⟩ := mem_placeBlocks h
  simp only [List.mem_flatMap, List.mem_map, List.mem_range, Prod.mk.injEq] at hin
  obtain ⟨l, -, e, he, -, rfl⟩ := hin
  exact ⟨he, hsize, hoff⟩

theorem Model.Cut.branch (hm : m.Cut) {l e : ℕ} (he : e < m.nExpert) {x : ExpertTensor × ℕ}
    (hx : x ∈ branches 0 (layerExperts m l)) : Cuts (x.1.perExpertSrcs.getD e []) x.1.perExpert := by
  obtain ⟨hlen, hcuts⟩ := hm.expert x.1 (List.mem_of_mem_filter (branches_mem hx).1)
  rw [List.getD_eq_getElem _ _ (by omega)]
  exact hcuts _ (List.getElem_mem _)

theorem hits_blockOps (hm : m.Cut) (he : b.expert < m.nExpert) (p : ℕ) :
    opHits (blockOps m b) p =
      if ∃ x ∈ branches 0 (layerExperts m b.layer),
        Covers (fun x : ExpertTensor × ℕ => b.off + x.2) (fun x => x.1.perExpert) x p then 1 else 0 := by
  have hordered : (branches 0 (layerExperts m b.layer)).Pairwise fun x y =>
      b.off + x.2 + x.1.perExpert ≤ b.off + y.2 :=
    (branches_ordered _ _).imp fun h => by omega
  rw [← hits_of_ordered hordered, ← sum_covers, opHits, blockOps, hits_flatMap]
  congr 1
  exact List.map_congr_left fun x hx => hits_mapped (hm.branch he hx) _ p

theorem blockRegion_sound (hm : m.Cut) (hb : b ∈ blocks m target) : (blockRegion m b).Sound where
  ops p := by
    rw [blockRegion, hits_blockOps hm (mem_blocks hb).1]
    split <;> omega
  inside o ho p hp := by
    have hpos : 0 < opHits (blockOps m b) p := hits_pos.mpr ⟨o, ho, hp⟩
    rw [hits_blockOps hm (mem_blocks hb).1] at hpos
    split at hpos
    case isTrue hex =>
      obtain ⟨x, hx, hxp⟩ := hex
      have hend := (branches_mem hx).2.2
      have hsize := (mem_blocks hb).2.1
      simp only [blockRegion, Covers] at hxp ⊢
      omega
    case isFalse => simp at hpos
  fills p := by
    have hnone : (∀ o ∈ blockOps m b, ¬ Covers CopyOp.dstRel CopyOp.len o p) ↔
        ¬ ∃ x ∈ branches 0 (layerExperts m b.layer),
          Covers (fun x : ExpertTensor × ℕ => b.off + x.2) (fun x => x.1.perExpert) x p := by
      rw [← hits_eq_zero, ← opHits, hits_blockOps hm (mem_blocks hb).1]
      split <;> simp [*]
    simp only [blockRegion, hnone]
    rw [blockFills_eq (branches_ordered _ _) fun x _ => Nat.zero_le _, hits_shifted_gaps]
    · refine if_congr (and_congr_right fun _ => ?_) rfl rfl
      simp only [List.forall_mem_map, Covers, not_exists, not_and, Nat.add_assoc]
    · exact List.pairwise_map.mpr ((branches_ordered _ _).imp fun h => by simp only; omega)
    · intro c hc
      obtain ⟨x, hx, rfl⟩ := List.mem_map.mp hc
      have hend := (branches_mem hx).2.2
      have hsize := (mem_blocks hb).2.1
      simp only
      omega

end expertBlocks

/-- The regions of a file that follow one another. -/
theorem hits_regions {rs : List Region} (hrs : ∀ r ∈ rs, r.Sound) (p : ℕ) :
    opHits (rs.flatMap Region.ops) p + fillHits (rs.flatMap Region.fills) p =
      hits Region.base Region.len rs p := by
  induction rs with
  | nil => rfl
  | cons r rs ih =>
    obtain ⟨hr, hrs⟩ := List.forall_mem_cons.mp hrs
    have htotal := hr.total p
    have hrest := ih hrs
    simp only [opHits, fillHits, List.flatMap_cons, hits_append, hits_cons] at htotal hrest ⊢
    omega

theorem Region.Sound.written {r : Region} (h : r.Sound) {file : List CopyOp × List (ℕ × ℕ)}
    (halone : ∀ p, r.base ≤ p → p < r.base + r.len → opHits file.1 p + fillHits file.2 p = 1) :
    WrittenOnce r file where
  disjoint := pairwise_of_hits h.ops
  inside := h.inside
  complement p := by
    rw [← hits_pos, ← fillHits, h.fills]
    split <;> simp_all
  once p hle hlt := by
    rw [h.total]
    exact if_pos ⟨hle, hlt⟩
  alone := halone

theorem hits_eq_one {rs : List Region} (hordered : rs.Pairwise fun r s => r.base + r.len ≤ s.base) {r : Region}
    (hr : r ∈ rs) {p : ℕ} (hle : r.base ≤ p) (hlt : p < r.base + r.len) :
    hits Region.base Region.len rs p = 1 := by
  rw [hits_of_ordered hordered, if_pos]
  exact ⟨r, hr, hle, hlt⟩

end regions

section laid

variable {m : Model} {target : Target}

theorem mem_orderItems {d : DenseTensor} (h : Item.dense d ∈ orderItems m target) : d ∈ m.dense := by
  unfold orderItems at h
  split at h <;> simpa using h

theorem mem_placeItems {its : List Item} {cur : ℕ} {x : Item × ℕ} (h : x ∈ placeItems cur its) :
    x.1 ∈ its ∧ cur ≤ x.2 := by
  induction its generalizing cur with
  | nil => simp [placeItems] at h
  | cons it its ih =>
    rcases List.mem_cons.mp h with rfl | hmem
    · exact ⟨List.mem_cons_self, le_refl _⟩
    · obtain ⟨hin, hoff⟩ := ih hmem
      have hle := le_alignUp (cur + it.size)
      exact ⟨List.mem_cons_of_mem _ hin, by omega⟩

theorem placeItems_ordered (its : List Item) (cur : ℕ) :
    (placeItems cur its).Pairwise fun x y => x.2 + x.1.size ≤ y.2 := by
  induction its generalizing cur with
  | nil => exact .nil
  | cons it its ih =>
    refine List.pairwise_cons.mpr ⟨fun y hy => ?_, ih _⟩
    exact (le_alignUp _).trans (mem_placeItems hy).2

theorem mem_denseItems {placed : List (Item × ℕ)} {q : DenseTensor → Bool} {x : DenseTensor × ℕ}
    (h : x ∈ denseItems placed q) : (Item.dense x.1, x.2) ∈ placed := by
  obtain ⟨y, hy, hyx⟩ := List.mem_filterMap.mp h
  obtain ⟨it, off⟩ := y
  cases it with
  | dense d =>
    simp only at hyx
    split at hyx
    · cases hyx
      exact hy
    · simp at hyx
  | expert e => simp at hyx

theorem denseItems_ordered {placed : List (Item × ℕ)} (q : DenseTensor → Bool)
    (h : placed.Pairwise fun x y => x.2 + x.1.size ≤ y.2) :
    (denseItems placed q).Pairwise fun x y => x.2 + x.1.size ≤ y.2 := by
  refine h.filterMap _ fun x y hxy x' hx' y' hy' => ?_
  obtain ⟨x, xoff⟩ := x
  obtain ⟨y, yoff⟩ := y
  cases x <;> cases y <;> simp only [Option.ite_none_right_eq_some, Option.some.injEq,
    reduceCtorEq] at hx' hy'
  obtain ⟨-, rfl⟩ := hx'
  obtain ⟨-, rfl⟩ := hy'
  exact hxy

theorem le_foldl_end (xs : List (DenseTensor × ℕ)) (n : ℕ) :
    n ≤ xs.foldl (fun e x => max e (x.2 + x.1.size)) n ∧
      ∀ x ∈ xs, x.2 + x.1.size ≤ xs.foldl (fun e x => max e (x.2 + x.1.size)) n := by
  induction xs generalizing n with
  | nil => simp
  | cons x xs ih =>
    obtain ⟨hn, hxs⟩ := ih (max n (x.2 + x.1.size))
    refine ⟨(le_max_left _ _).trans hn, List.forall_mem_cons.mpr ⟨(le_max_right _ _).trans hn, hxs⟩⟩

theorem Model.Cut.placed (hm : m.Cut) {q : DenseTensor → Bool} {x : DenseTensor × ℕ}
    (hx : x ∈ denseItems (items m target) q) : Cuts x.1.srcs x.1.size :=
  hm.dense _ (mem_orderItems (mem_placeItems (mem_denseItems hx)).1)

theorem sectionUnit_laid (hm : m.Cut) {q : DenseTensor → Bool} {u : ChunkUnit}
    (h : sectionUnit (items m target) q = some u) : Laid u.content := by
  obtain ⟨s, hs, rfl⟩ := Option.map_eq_some_iff.mp h
  obtain ⟨first, hfirst, rfl⟩ := Option.map_eq_some_iff.mp hs
  have hmin : ∀ x ∈ denseItems (items m target) q, first ≤ x.2 := fun x hx =>
    (List.min?_eq_some_iff.mp hfirst).2 _ (List.mem_map_of_mem hx)
  have hordered := denseItems_ordered q (placeItems_ordered (orderItems m target) 0)
  constructor
  · refine List.pairwise_map.mpr (hordered.imp_of_mem fun {x y} hx hy hxy => ?_)
    have hlex := hmin x hx
    simp only
    omega
  · intro item hitem
    obtain ⟨x, hx, rfl⟩ := List.mem_map.mp hitem
    exact hm.placed hx

theorem blockUnit_laid (hm : m.Cut) {b : Block} (hb : b ∈ blocks m target) : Laid (blockUnit m b).content where
  ordered := List.pairwise_map.mpr (branches_ordered _ _)
  cuts item hitem := by
    obtain ⟨x, hx, rfl⟩ := List.mem_map.mp hitem
    exact hm.branch (mem_blocks hb).1 hx

theorem buildUnits_laid (hm : m.Cut) {units : List ChunkUnit} (h : buildUnits m = some units) :
    ∀ u ∈ units, Laid u.content := by
  obtain ⟨g, hg, rfl⟩ := Option.map_eq_some_iff.mp h
  intro u hu
  simp only [List.cons_append, List.mem_cons, List.mem_append, List.mem_filterMap, List.mem_map] at hu
  rcases hu with rfl | (⟨l, -, hl⟩ | ⟨l, -, hl⟩) | ⟨b, hb, rfl⟩
  · exact sectionUnit_laid hm hg
  · exact sectionUnit_laid hm hl
  · exact sectionUnit_laid hm hl
  · exact blockUnit_laid hm hb

end laid

section files

variable {m : Model} {slices : ℕ → ℕ → ℕ} {i : ℕ}

theorem mem_chunkRegions {units : List ChunkUnit} {u cum : ℕ} {r : Region}
    (h : r ∈ chunkRegions slices i u cum units) :
    cum * 4096 ≤ r.base ∧ ∃ unit ∈ units, ∃ start len base, r = strip unit start len base := by
  induction units generalizing u cum with
  | nil => simp [chunkRegions] at h
  | cons unit units ih =>
    unfold chunkRegions at h
    have hrest : r ∈ chunkRegions slices i (u + 1) (cum + slices i u) units →
        cum * 4096 ≤ r.base ∧ ∃ v ∈ unit :: units, ∃ start len base, r = strip v start len base := by
      intro hmem
      obtain ⟨hle, v, hv, hr⟩ := ih hmem
      exact ⟨(Nat.mul_le_mul_right _ (Nat.le_add_right _ _)).trans hle, v, List.mem_cons_of_mem _ hv, hr⟩
    split at h
    · exact hrest h
    · rcases List.mem_cons.mp h with rfl | hmem
      · exact ⟨le_refl _, unit, List.mem_cons_self, _, _, _, rfl⟩
      · exact hrest hmem

theorem chunkRegions_ordered (units : List ChunkUnit) (u cum : ℕ) :
    (chunkRegions slices i u cum units).Pairwise fun r s => r.base + r.len ≤ s.base := by
  induction units generalizing u cum with
  | nil => exact .nil
  | cons unit units ih =>
    unfold chunkRegions
    split
    · exact ih _ _
    · refine List.pairwise_cons.mpr ⟨fun s hs => ?_, ih _ _⟩
      have hle := (mem_chunkRegions hs).1
      rwa [Nat.add_mul] at hle

theorem denseOps_below (hm : m.Cut) {target : Target} {p : ℕ} (hp : blocksStart (items m target) ≤ p) :
    opHits (denseOps m target) p = 0 := by
  refine hits_eq_zero.mpr fun o ho hop => ?_
  obtain ⟨x, hx, ho⟩ := List.mem_flatMap.mp ho
  obtain ⟨s, hs, rfl⟩ := List.mem_map.mp ho
  have hinside := (hm.placed hx).inside s hs
  have hend := (le_foldl_end _ 0).2 x hx
  have hstart := le_alignUp ((denseItems (items m target) fun _ => true).foldl
    (fun e x => max e (x.2 + x.1.size)) 0)
  simp only [Covers] at hop
  unfold blocksStart at hp
  omega

/-- Every byte of a strip of `write_v3_chunk` and of an expert block of `write_single` is written by one
copy or one fill, and by nothing else that is written to the file. -/
theorem writer_writtenOnce (hm : m.Cut) :
    (∀ slices i units file, buildUnits m = some units → writeChunk m slices i = some file →
      ∀ r ∈ chunkRegions slices i 0 0 units, WrittenOnce r file) ∧
      ∀ target, ∀ b ∈ blocks m target, WrittenOnce (blockRegion m b) (writeSingle m target) := by
  constructor
  · intro slices i units file hunits hfile r hr
    have hsound : ∀ r ∈ chunkRegions slices i 0 0 units, r.Sound := by
      intro r hr
      obtain ⟨-, unit, hunit, start, len, base, rfl⟩ := mem_chunkRegions hr
      exact strip_sound (buildUnits_laid hm hunits unit hunit)
    rw [writeChunk, hunits, Option.map_some, Option.some.injEq] at hfile
    subst hfile
    refine (hsound r hr).written fun p hle hlt => ?_
    rw [hits_regions hsound]
    exact hits_eq_one (chunkRegions_ordered units 0 0) hr hle hlt
  · intro target b hb
    have hsound : ∀ r ∈ (blocks m target).map (blockRegion m), r.Sound := by
      simpa using fun b hb => blockRegion_sound hm hb
    have hordered : ((blocks m target).map (blockRegion m)).Pairwise fun r s => r.base + r.len ≤ s.base :=
      List.pairwise_map.mpr (placeBlocks_ordered _ _)
    refine (blockRegion_sound hm hb).written fun p hle hlt => ?_
    have hdense := denseOps_below hm ((mem_blocks hb).2.2.trans hle)
    have hblocks := hits_regions hsound p
    rw [hits_eq_one hordered (List.mem_map_of_mem hb) hle hlt] at hblocks
    simp only [writeSingle, opHits, fillHits, hits_append, List.flatMap_map] at hdense hblocks ⊢
    omega

/-- A tensor of ten bytes in two segments and two experts of six bytes, the second one in two segments. -/
def smallModel : Model where
  nLayer := 1
  nExpert := 2
  dense := [{ category := .denseGlobal, layer := -1, size := 10
              srcs := [{ file := 0, off := 64, len := 4, inOff := 0 }, { file := 1, off := 32, len := 6, inOff := 4 }] }]
  expert := [{ layer := 0, size := 12, perExpert := 6
               perExpertSrcs := [[{ file := 1, off := 38, len := 6, inOff := 0 }],
                 [{ file := 0, off := 70, len := 1, inOff := 0 }, { file := 1, off := 44, len := 5, inOff := 1 }]] }]

theorem smallModel_cut : smallModel.Cut where
  dense := by
    simp only [smallModel, List.forall_mem_singleton]
    exact ⟨by decide, by decide⟩
  expert := by
    simp only [smallModel, List.forall_mem_singleton, List.forall_mem_cons]
    exact ⟨rfl, ⟨by decide, by decide⟩, ⟨by decide, by decide⟩⟩

/-- The first strip file has the section of the dense tensor and the second block. -/
def everySecond (i u : ℕ) : ℕ := if i = u % 2 then 1 else 0

theorem writer_writtenOnce_smallModel :
    (∃ units file, buildUnits smallModel = some units ∧ writeChunk smallModel everySecond 0 = some file ∧
      ((chunkRegions everySecond 0 0 0 units).map fun r => (r.base, r.len)) = [(0, 4096), (4096, 4096)] ∧
      ∀ r ∈ chunkRegions everySecond 0 0 0 units, WrittenOnce r file) ∧
    ((blocks smallModel .v3).map fun b => (b.off, b.size)) = [(4096, 4096), (8192, 4096)] ∧
      ∀ b ∈ blocks smallModel .v3, WrittenOnce (blockRegion smallModel b) (writeSingle smallModel .v3) := by
  obtain ⟨hchunk, hsingle⟩ := writer_writtenOnce smallModel_cut
  have hunits : ((buildUnits smallModel).map fun units =>
      (chunkRegions everySecond 0 0 0 units).map fun r => (r.base, r.len)) = some [(0, 4096), (4096, 4096)] := by
    decide
  obtain ⟨units, hbuild, hregions⟩ := Option.map_eq_some_iff.mp hunits
  have hfile : writeChunk smallModel everySecond 0 = some
      ((chunkRegions everySecond 0 0 0 units).flatMap Region.ops,
        (chunkRegions everySecond 0 0 0 units).flatMap Region.fills) := by
    rw [writeChunk, hbuild]
    rfl
  exact ⟨⟨units, _, hbuild, hfile, hregions, hchunk everySecond 0 units _ hbuild hfile⟩, by decide, hsingle .v3⟩

end files

end WriterPlan
end StreamMoE
