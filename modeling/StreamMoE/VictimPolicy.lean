import Mathlib.Algebra.Order.Ring.Unbundled.Rat
import StreamMoE.SchedRuns
import StreamMoE.SoleRuns

/-! The choice of a victim in `alloc_or_evict`: what the free-slot loop and the two passes around the ring of
layers find in a state that nobody changes meanwhile. -/
namespace StreamMoE
namespace VictimPolicy

open AtomicProg SlotWord SchedConfig PoolGeometry Sched SchedRuns TransitionSystem

section ring

/-- The layers from `layer` downwards, then from the last one down to the one behind it. -/
structure Downward (layers ring : List ℕ) (layer : ℕ) : Prop where
  perm : ring.Perm layers
  order : ∃ below above, layers = below ++ layer :: above ∧ ring = layer :: below.reverse ++ above.reverse ∧
    (layers.Pairwise (· < ·) → (∀ l ∈ below, l < layer) ∧ ∀ l ∈ above, layer < l)

theorem getElem_ring {layers : List ℕ} {pos k : ℕ} (hpos : pos < layers.length) (hk : k < layers.length) :
    layers.getD ((pos + layers.length - k) % layers.length) 0 =
      ((layers.take (pos + 1)).reverse ++ (layers.drop (pos + 1)).reverse).getD k 0 := by
  have hlen : (layers.take (pos + 1)).reverse.length = pos + 1 := by
    rw [List.length_reverse, List.length_take]
    omega
  rw [List.getD_eq_getElem?_getD, List.getD_eq_getElem?_getD, List.getElem?_append, hlen]
  by_cases hle : k < pos + 1
  · have hmod : (pos + layers.length - k) % layers.length = pos - k := by
      rw [show pos + layers.length - k = pos - k + layers.length by omega, Nat.add_mod_right,
        Nat.mod_eq_of_lt (by omega)]
    rw [if_pos hle, hmod, List.getElem?_reverse (by rw [List.length_take]; omega), List.length_take,
      List.getElem?_take]
    rw [if_pos (by omega)]
    congr 2
    omega
  · have hmod : (pos + layers.length - k) % layers.length = pos + layers.length - k :=
      Nat.mod_eq_of_lt (by omega)
    rw [if_neg hle, hmod, List.getElem?_reverse (by rw [List.length_drop]; omega), List.length_drop,
      List.getElem?_drop]
    congr 2
    omega

theorem ringLayers_eq {layers : List ℕ} {layer : ℕ} (h : layer ∈ layers) :
    ringLayers layers layer = some ((layers.take (layers.idxOf layer + 1)).reverse ++
      (layers.drop (layers.idxOf layer + 1)).reverse) := by
  have hpos := List.idxOf_lt_length_of_mem h
  rw [ringLayers, if_pos h]
  congr 1
  apply List.ext_getElem
  · simp
    omega
  · intro k hk hk'
    rw [List.length_map, List.length_range] at hk
    rw [List.getElem_map, List.getElem_range, getElem_ring hpos hk,
      List.getD_eq_getElem?_getD, List.getElem?_eq_getElem hk', Option.getD_some]

/-- The ring of a layer of the group goes once through all its layers. -/
theorem exists_ring {layers : List ℕ} {layer : ℕ} (h : layer ∈ layers) :
    ∃ ring, ringLayers layers layer = some ring ∧ Downward layers ring layer := by
  have hpos := List.idxOf_lt_length_of_mem h
  have hsplit : layers = layers.take (layers.idxOf layer) ++
      layer :: layers.drop (layers.idxOf layer + 1) := by
    have hget : layers[layers.idxOf layer] = layer := List.getElem_idxOf hpos
    have hdrop := List.drop_eq_getElem_cons hpos
    rw [hget] at hdrop
    rw [← hdrop, List.take_append_drop]
  have htake : layers.take (layers.idxOf layer + 1) = layers.take (layers.idxOf layer) ++ [layer] := by
    rw [List.take_succ_eq_append_getElem hpos, List.getElem_idxOf hpos]
  refine ⟨_, ringLayers_eq h, ?_, _, _, hsplit, ?_, fun hsorted => ?_⟩
  · have hperm := (List.reverse_perm (layers.take (layers.idxOf layer + 1))).append
      (List.reverse_perm (layers.drop (layers.idxOf layer + 1)))
    rwa [List.take_append_drop] at hperm
  · rw [htake, List.reverse_append]
    rfl
  · rw [hsplit, List.pairwise_append, List.pairwise_cons] at hsorted
    exact ⟨fun l hl => hsorted.2.2 l hl layer List.mem_cons_self, hsorted.2.1.1⟩

end ring

section search

theorem findEmpty_alone (s : Sys) (n i : ℕ) :
    ∃ r, (findEmpty n i).alone s = some (r, s) ∧
      (∀ j, r = some j → i ≤ j ∧ j < i + n ∧ slotWordState (s.word j) = SlotState.empty.code) ∧
      (r = none → ∀ j, i ≤ j → j < i + n → slotWordState (s.word j) ≠ SlotState.empty.code) := by
  induction n generalizing i with
  | zero => exact ⟨none, rfl, fun j h => (nomatch h), fun _ j h₁ h₂ => by omega⟩
  | succ n ih =>
    rw [findEmpty, bind_eq, alone_bind_of (alone_get s)]
    by_cases hempty : slotWordState (s.word i) = SlotState.empty.code
    · rw [if_pos hempty]
      refine ⟨some i, rfl, fun j hj => ?_, fun h => (nomatch h)⟩
      cases hj
      exact ⟨Nat.le_refl i, by omega, hempty⟩
    · rw [if_neg hempty]
      obtain ⟨r, hr, hsome, hnone⟩ := ih (i + 1)
      refine ⟨r, hr, fun j hj => ?_, fun h j h₁ h₂ => ?_⟩
      · obtain ⟨h₁, h₂, h₃⟩ := hsome j hj
        exact ⟨by omega, by omega, h₃⟩
      · by_cases hj : j = i
        · rwa [hj]
        · exact hnone h j (by omega) (by omega)

/-- An expert with a READY copy in the region that nobody has pinned. -/
def Idle (s : Sys) (sp : Subpool) (pool layer expert i : ℕ) : Prop :=
  s.find ⟨layer, expert, pool⟩ = some i ∧ sp.owns i = true ∧
    slotWordState (s.word i) = SlotState.ready.code ∧ slotWordRefcount (s.word i) = 0

theorem evictable_iff {s : Sys} {sp : Subpool} {pool layer expert i : ℕ} {allowFresh : Bool} :
    evictable s sp pool layer expert allowFresh = some i ↔
      Idle s sp pool layer expert i ∧ (allowFresh = true ∨ s.lastUsed layer expert ≠ 0) := by
  unfold evictable Idle
  cases hfind : s.find ⟨layer, expert, pool⟩ with
  | none => simp
  | some j =>
    simp only [Subpool.owns, decide_eq_true_eq, Option.some.injEq]
    split_ifs with hout hbusy hfresh
    · constructor
      · exact fun h => (nomatch h)
      · rintro ⟨⟨rfl, hown, _⟩, _⟩
        omega
    · constructor
      · exact fun h => (nomatch h)
      · rintro ⟨⟨rfl, _, hready, hzero⟩, _⟩
        exact absurd hbusy (by simp [hready, hzero])
    · constructor
      · exact fun h => (nomatch h)
      · rintro ⟨_, hor⟩
        rcases hor with hor | hor
        · rw [hfresh.1] at hor
          cases hor
        · exact absurd hfresh.2 hor
    · constructor
      · intro h
        cases h
        simp only [not_or, not_not] at hbusy
        refine ⟨⟨rfl, by omega, hbusy⟩, ?_⟩
        cases allowFresh with
        | true => exact Or.inl rfl
        | false => exact Or.inr fun hzero => hfresh ⟨rfl, hzero⟩
      · exact fun h => congrArg some h.1.1

variable {o : Oracle} {s : Sys} {cur : ℕ} {sp : Subpool} {pool : ℕ} {allowFresh : Bool}

/-- What the scan of a layer has found after `es`, from a candidate `best` on. -/
structure Scanned (o : Oracle) (s : Sys) (cur : ℕ) (sp : Subpool) (pool : ℕ) (allowFresh : Bool) (layer : ℕ)
    (es : List ℕ) (best r : Option (Rat × ℕ × ℕ)) : Prop where
  best_le : ∀ b, best = some b → ∃ c, r = some c ∧ c.1 ≤ b.1
  lowest : ∀ e ∈ es, ∀ i, evictable s sp pool layer e allowFresh = some i →
    ∃ c, r = some c ∧ c.1 ≤ o.score layer e (cur - s.lastUsed layer e)
  source : ∀ c, r = some c → best = some c ∨
    c.2.2 ∈ es ∧ evictable s sp pool layer c.2.2 allowFresh = some c.2.1 ∧
      c.1 = o.score layer c.2.2 (cur - s.lastUsed layer c.2.2)

theorem searchLayer_alone (layer : ℕ) (es : List ℕ) (best : Option (Rat × ℕ × ℕ)) :
    ∃ r, (searchLayer o cur sp pool allowFresh layer es best).alone s = some (r.map Prod.snd, s) ∧
      Scanned o s cur sp pool allowFresh layer es best r := by
  induction es generalizing best with
  | nil =>
    refine ⟨best, rfl, fun b hb => ⟨b, hb, le_refl _⟩, fun e he => absurd he List.not_mem_nil, ?_⟩
    exact fun c hc => Or.inl hc
  | cons e es ih =>
    rw [searchLayer, bind_eq, alone_bind_of (alone_get s)]
    cases hev : evictable s sp pool layer e allowFresh with
    | none =>
      obtain ⟨r, hr, h⟩ := ih best
      refine ⟨r, hr, h.best_le, fun e' he' i hi => ?_, fun c hc => ?_⟩
      · rcases List.mem_cons.mp he' with rfl | he'
        · rw [hev] at hi
          cases hi
        · exact h.lowest e' he' i hi
      · exact (h.source c hc).imp_right fun hmem => ⟨List.mem_cons_of_mem e hmem.1, hmem.2⟩
    | some i =>
      dsimp only
      by_cases hlower : (best.all fun b =>
          decide (o.score layer e (cur - s.lastUsed layer e) < b.1)) = true
      · rw [if_pos hlower]
        obtain ⟨r, hr, h⟩ := ih (some (o.score layer e (cur - s.lastUsed layer e), i, e))
        obtain ⟨c, hc, hle⟩ := h.best_le _ rfl
        refine ⟨r, hr, fun b hb => ⟨c, hc, ?_⟩, fun e' he' j hj => ?_, fun c' hc' => ?_⟩
        · rw [hb] at hlower
          exact hle.trans (le_of_lt (of_decide_eq_true hlower))
        · rcases List.mem_cons.mp he' with rfl | he'
          · exact ⟨c, hc, hle⟩
          · exact h.lowest e' he' j hj
        · right
          rcases h.source c' hc' with heq | hmem
          · cases heq
            exact ⟨List.mem_cons_self, hev, rfl⟩
          · exact ⟨List.mem_cons_of_mem e hmem.1, hmem.2⟩
      · rw [if_neg hlower]
        obtain ⟨r, hr, h⟩ := ih best
        refine ⟨r, hr, h.best_le, fun e' he' j hj => ?_, fun c hc => ?_⟩
        · rcases List.mem_cons.mp he' with rfl | he'
          · cases hbest : best with
            | none =>
              rw [hbest] at hlower
              exact absurd rfl hlower
            | some b =>
              obtain ⟨c, hc, hle⟩ := h.best_le b hbest
              rw [hbest] at hlower
              have hge := le_of_not_gt fun hlt => hlower (decide_eq_true hlt)
              exact ⟨c, hc, hle.trans hge⟩
          · exact h.lowest e' he' j hj
        · exact (h.source c hc).imp_right fun hmem => ⟨List.mem_cons_of_mem e hmem.1, hmem.2⟩

/-- No expert of a layer passes the tests of the scan. -/
def NoneIn (s : Sys) (sp : Subpool) (pool : ℕ) (allowFresh : Bool) (nExpert layer : ℕ) : Prop :=
  ∀ e < nExpert, evictable s sp pool layer e allowFresh = none

/-- What one pass around the ring returns: nothing if no layer has a candidate, and otherwise the lowest
candidate of the first layer that has one. -/
def Passed (o : Oracle) (s : Sys) (nExpert cur : ℕ) (sp : Subpool) (pool : ℕ) (allowFresh : Bool)
    (ring : List ℕ) : Option (ℕ × ℕ × ℕ) → Prop
  | none => ∀ l ∈ ring, NoneIn s sp pool allowFresh nExpert l
  | some (i, layer, expert) =>
      (∃ before after, ring = before ++ layer :: after ∧
        ∀ l ∈ before, NoneIn s sp pool allowFresh nExpert l) ∧
      expert < nExpert ∧ evictable s sp pool layer expert allowFresh = some i ∧
      ∀ e < nExpert, ∀ j, evictable s sp pool layer e allowFresh = some j →
        o.score layer expert (cur - s.lastUsed layer expert) ≤ o.score layer e (cur - s.lastUsed layer e)

theorem searchRing_alone (nExpert : ℕ) (ring : List ℕ) :
    ∃ v, (searchRing o nExpert cur sp pool allowFresh ring).alone s = some (v, s) ∧
      Passed o s nExpert cur sp pool allowFresh ring v := by
  induction ring with
  | nil => exact ⟨none, rfl, fun l hl => absurd hl List.not_mem_nil⟩
  | cons layer ring ih =>
    obtain ⟨r, hr, h⟩ := @searchLayer_alone o s cur sp pool allowFresh layer (List.range nExpert) none
    rw [searchRing, bind_eq, alone_bind_of hr]
    cases hbest : r with
    | some c =>
      obtain ⟨score, i, e⟩ := c
      refine ⟨some (i, layer, e), rfl, ⟨[], ring, rfl, fun l hl => absurd hl List.not_mem_nil⟩, ?_⟩
      rcases h.source _ hbest with hnone | ⟨hmem, hev, hscore⟩
      · cases hnone
      · refine ⟨List.mem_range.mp hmem, hev, fun e' he' j hj => ?_⟩
        obtain ⟨c, hc, hle⟩ := h.lowest e' (List.mem_range.mpr he') j hj
        cases hbest.symm.trans hc
        exact hscore ▸ hle
    | none =>
      have hlayer : NoneIn s sp pool allowFresh nExpert layer := by
        intro e he
        cases hev : evictable s sp pool layer e allowFresh with
        | none => rfl
        | some i =>
          obtain ⟨c, hc, _⟩ := h.lowest e (List.mem_range.mpr he) i hev
          cases hbest.symm.trans hc
      obtain ⟨v, hv, hpassed⟩ := ih
      refine ⟨v, hv, ?_⟩
      cases v with
      | none =>
        intro l hl
        rcases List.mem_cons.mp hl with rfl | hl
        · exact hlayer
        · exact hpassed l hl
      | some v =>
        obtain ⟨i, l, e⟩ := v
        obtain ⟨⟨before, after, hring, hbefore⟩, hrest⟩ := hpassed
        refine ⟨⟨layer :: before, after, by rw [hring]; rfl, fun l' hl' => ?_⟩, hrest⟩
        rcases List.mem_cons.mp hl' with rfl | hl'
        · exact hlayer
        · exact hbefore l' hl'

end search

section policy

variable (C : Config) (o : Oracle) (s : Sys) (sp : Subpool) (pool : ℕ) (layers : List ℕ)

/-- A victim that the policy admits: an idle expert of the layer, and a never used one only if all idle
experts of the group are. -/
def Candidate (layer expert i : ℕ) : Prop :=
  expert < C.topo.nExpert ∧ Idle s sp pool layer expert i ∧
    (s.lastUsed layer expert ≠ 0 ∨
      ∀ l ∈ layers, ∀ e < C.topo.nExpert, ∀ j, Idle s sp pool l e j → s.lastUsed l e = 0)

def scoreOf (layer expert : ℕ) : Rat := o.score layer expert (s.token - s.lastUsed layer expert)

structure Policy (ring : List ℕ) (i layer expert : ℕ) : Prop where
  candidate : Candidate C s sp pool layers layer expert i
  group : layer ∈ layers
  lowest : ∀ e j, Candidate C s sp pool layers layer e j → scoreOf o s layer expert ≤ scoreOf o s layer e
  first : ∃ before after, ring = before ++ layer :: after ∧
    ∀ l ∈ before, ∀ e j, ¬ Candidate C s sp pool layers l e j

variable {C o s sp pool layers}

theorem groupOf_spec {layer gidx : ℕ} (h : groupOf C layer = some gidx) :
    ∃ g, C.topo.groups[gidx]? = some g ∧ layer ∈ g.layers := by
  unfold groupOf at h
  split at h
  · cases h
  · obtain ⟨hlt, hmem, _⟩ := List.findIdx?_eq_some_iff_getElem.mp h
    exact ⟨_, List.getElem?_eq_getElem hlt, by simpa using hmem⟩

/-- Without a used candidate the second pass admits every idle expert. -/
theorem candidate_iff_of_none (h : ∀ l ∈ layers, NoneIn s sp pool false C.topo.nExpert l) {l e i : ℕ} :
    Candidate C s sp pool layers l e i ↔
      e < C.topo.nExpert ∧ evictable s sp pool l e true = some i := by
  have hunused : ∀ l ∈ layers, ∀ e < C.topo.nExpert, ∀ j, Idle s sp pool l e j → s.lastUsed l e = 0 := by
    intro l hl e he j hj
    by_contra hused
    have hev : evictable s sp pool l e false = some j := evictable_iff.mpr ⟨hj, Or.inr hused⟩
    rw [h l hl e he] at hev
    cases hev
  rw [evictable_iff, Candidate]
  exact ⟨fun hc => ⟨hc.1, hc.2.1, Or.inl rfl⟩, fun hc => ⟨hc.1, hc.2.1, Or.inr hunused⟩⟩

/-- With one, only used experts are admitted. -/
theorem candidate_iff_of_some {l₀ e₀ i₀ : ℕ} (hl : l₀ ∈ layers) (he : e₀ < C.topo.nExpert)
    (hev : evictable s sp pool l₀ e₀ false = some i₀) {l e i : ℕ} :
    Candidate C s sp pool layers l e i ↔
      e < C.topo.nExpert ∧ evictable s sp pool l e false = some i := by
  have hused : ¬ ∀ l ∈ layers, ∀ e < C.topo.nExpert, ∀ j, Idle s sp pool l e j → s.lastUsed l e = 0 := by
    intro h
    obtain ⟨hidle, hor⟩ := evictable_iff.mp hev
    exact hor.elim (fun hf => (nomatch hf)) fun hne => hne (h l₀ hl e₀ he i₀ hidle)
  rw [evictable_iff, Candidate, or_iff_left hused]
  simp

/-- What a pass with the candidates as its tests finds. -/
theorem policy_of_passed {allowFresh : Bool} {ring : List ℕ} (hring : ring.Perm layers)
    (hiff : ∀ {l e i : ℕ}, Candidate C s sp pool layers l e i ↔
      e < C.topo.nExpert ∧ evictable s sp pool l e allowFresh = some i)
    {i layer expert : ℕ}
    (h : Passed o s C.topo.nExpert s.token sp pool allowFresh ring (some (i, layer, expert))) :
    Policy C o s sp pool layers ring i layer expert := by
  obtain ⟨⟨before, after, hsplit, hbefore⟩, he, hev, hlow⟩ := h
  have hlayer : layer ∈ ring := hsplit ▸ List.mem_append_right _ List.mem_cons_self
  refine ⟨hiff.mpr ⟨he, hev⟩, hring.subset hlayer, fun e j hc => ?_, before, after, hsplit, ?_⟩
  · obtain ⟨he', hev'⟩ := hiff.mp hc
    exact hlow e he' j hev'
  · intro l hl e j hc
    obtain ⟨he', hev'⟩ := hiff.mp hc
    rw [hbefore l hl e he'] at hev'
    cases hev'

/-- Both passes: a victim of the policy, or no idle expert in the whole group. -/
theorem findVictim_alone {gidx layer : ℕ} {g : Group} (hg : C.topo.groups[gidx]? = some g)
    (hlayer : layer ∈ g.layers) :
    ∃ ring v, Downward g.layers ring layer ∧
      (findVictim C o sp gidx layer pool).alone s = some (v, s) ∧
      (∀ i l e, v = some (i, l, e) → Policy C o s sp pool g.layers ring i l e) ∧
      (v = none → ∀ l ∈ g.layers, ∀ e < C.topo.nExpert, ∀ i, ¬ Idle s sp pool l e i) := by
  obtain ⟨ring, hring, hdown⟩ := exists_ring hlayer
  obtain ⟨v, hv, hpassed⟩ := @searchRing_alone o s s.token sp pool false C.topo.nExpert ring
  have hlayers : (C.topo.groups[gidx]?.map Group.layers).getD [] = g.layers := by rw [hg]; rfl
  refine ⟨ring, ?_⟩
  rw [findVictim, bind_eq, alone_bind_of (alone_get s), hlayers, hring]
  dsimp only
  rw [bind_eq, alone_bind_of hv]
  cases v with
  | some v =>
    obtain ⟨i, l, e⟩ := v
    refine ⟨some (i, l, e), hdown, rfl, fun i' l' e' heq => ?_, fun h => (nomatch h)⟩
    cases heq
    have hmem : l ∈ g.layers := by
      obtain ⟨⟨before, after, hsplit, _⟩, _⟩ := hpassed
      exact hdown.perm.subset (hsplit ▸ List.mem_append_right _ List.mem_cons_self)
    exact policy_of_passed hdown.perm (candidate_iff_of_some hmem hpassed.2.1 hpassed.2.2.1) hpassed
  | none =>
    have hnone : ∀ l ∈ g.layers, NoneIn s sp pool false C.topo.nExpert l :=
      fun l hl => hpassed l (hdown.perm.mem_iff.mpr hl)
    obtain ⟨w, hw, hpassed'⟩ := @searchRing_alone o s s.token sp pool true C.topo.nExpert ring
    refine ⟨w, hdown, hw, fun i l e heq => ?_, fun heq l hl e he i hidle => ?_⟩
    · subst heq
      exact policy_of_passed hdown.perm (candidate_iff_of_none hnone) hpassed'
    · subst heq
      have hev : evictable s sp pool l e true = some i := evictable_iff.mpr ⟨hidle, Or.inl rfl⟩
      rw [hpassed' l (hdown.perm.mem_iff.mpr hl) e he] at hev
      cases hev

def evictFound (C : Config) (reserve : ℕ → ℕ → Prog Sys (Option ℕ)) (sp : Subpool) (layer expert : ℕ) (s : Sys) :
    Option (ℕ × ℕ × ℕ) → Option (Option ℕ × Sys)
  | none => some (none, s)
  | some (i, l, e) => (evict C reserve sp layer expert i l e).alone s

/-- `alloc_or_evict` in a region without a free slot evicts what the search finds. -/
theorem allocWith_alone_full {reserve : ℕ → ℕ → Prog Sys (Option ℕ)} {layer expert gidx : ℕ}
    {v : Option (ℕ × ℕ × ℕ)} (hg : groupOf C layer = some gidx) (hsp : regionOf C pool gidx = some sp)
    (hfull : ∀ i, sp.owns i = true → slotWordState (s.word i) ≠ SlotState.empty.code)
    (hv : (findVictim C o sp gidx layer pool).alone s = some (v, s)) :
    (allocWith C o reserve layer expert pool).alone s = evictFound C reserve sp layer expert s v := by
  obtain ⟨r, hr, hsome, _⟩ := findEmpty_alone s sp.nSlots sp.slotBegin
  have hnone : r = none := by
    cases hrj : r with
    | none => rfl
    | some j =>
      obtain ⟨h₁, h₂, hempty⟩ := hsome j hrj
      exact absurd hempty (hfull j (decide_eq_true ⟨h₁, h₂⟩))
  subst hnone
  rw [allocWith, hg]
  dsimp only
  rw [hsp]
  dsimp only
  rw [bind_eq, alone_bind_of hr]
  dsimp only
  rw [bind_eq, alone_bind_of hv]
  rcases v with _ | ⟨i, l, e⟩
  · rfl
  · rfl

/-- In every reachable state without a free slot in the region, the victim is one of the policy and holds its
expert's bytes, and one is found whenever an expert of the group is idle in the region. -/
theorem victim_policy {C : Config} {guard : State → Act → Prop} {r : State}
    (h : Reach (system C) guard r) (o : Oracle) {layer pool gidx : ℕ} (expert : ℕ) {sp : Subpool}
    {g : Group} (hgroup : groupOf C layer = some gidx) (hg : C.topo.groups[gidx]? = some g)
    (hsp : regionOf C pool gidx = some sp)
    (hfull : ∀ i, sp.owns i = true → slotWordState (r.state.word i) ≠ SlotState.empty.code) :
    ∃ ring v, Downward g.layers ring layer ∧
      (allocOrEvict C o layer expert pool).alone r.state =
        evictFound C (allocRam C o) sp layer expert r.state v ∧
      (∀ i l e, v = some (i, l, e) →
        Policy C o r.state sp pool g.layers ring i l e ∧ r.state.content i = some (l, e)) ∧
      ((∃ l ∈ g.layers, ∃ e < C.topo.nExpert, ∃ i, Idle r.state sp pool l e i) → v ≠ none) := by
  obtain ⟨gh, hwf⟩ := wf_of_reach h
  have hlayer : layer ∈ g.layers := by
    obtain ⟨g', hg', hlayer⟩ := groupOf_spec hgroup
    cases hg.symm.trans hg'
    exact hlayer
  obtain ⟨ring, v, hdown, hv, hpolicy, hnone⟩ := @findVictim_alone C o r.state sp pool gidx layer g hg hlayer
  refine ⟨ring, v, hdown, allocWith_alone_full hgroup hsp hfull hv, fun i l e heq => ?_, ?_⟩
  · have hp := hpolicy i l e heq
    refine ⟨hp, hwf.content i (l, e) ?_⟩
    have hfind := hp.candidate.2.1.1
    unfold Sys.find at hfind
    split at hfind
    · rename_i hready
      have hentry : r.state.dir ⟨l, e, pool⟩ = ⟨.ready, some i⟩ := by
        rw [← hready, ← hfind]
      have hclaim := (hwf.dir.named _ i _).mp hentry
      rcases Owner.of_claim_ready hclaim with hown | hown <;> rw [hown] <;> rfl
    · cases hfind
  · rintro ⟨l, hl, e, he, i, hidle⟩ heq
    exact hnone heq l hl e he i hidle

/-- The only slot holds an expert of layer 0 that nobody has pinned since it was loaded; layer 1 asks. -/
theorem victim_policy_small :
    ∃ r : State, Reach (system smallConfig) anyStep r ∧ ∃ ring i, Downward [0, 1] ring 1 ∧
      (allocOrEvict smallConfig smallOracle 1 0 0).alone r.state =
        evictFound smallConfig (allocRam smallConfig smallOracle)
          ⟨0, 0, 0, 1, 1, 1, [⟨0, 0, 1⟩]⟩ 1 0 r.state (some (i, 0, 0)) := by
  obtain ⟨r, hr, hp⟩ := exists_run (loadRun true ++ [.env (.unpin (.batch (some 0)) 0)])
    (fun r => decide (slotWordState (r.state.word 0) = SlotState.ready.code ∧
      slotWordRefcount (r.state.word 0) = 0 ∧ r.state.find ⟨0, 0, 0⟩ = some 0 ∧
      r.state.find ⟨1, 0, 0⟩ = none)) (by decide +kernel)
  obtain ⟨hready, hzero, hfind, hnot⟩ := of_decide_eq_true hp
  have hreach : Reach (system smallConfig) anyStep r :=
    Reach.run_of_forall _ (fun _ _ _ => trivial) (.init rfl) hr
  have hfull : ∀ i, (⟨0, 0, 0, 1, 1, 1, [⟨0, 0, 1⟩]⟩ : Subpool).owns i = true →
      slotWordState (r.state.word i) ≠ SlotState.empty.code := by
    intro i hi
    have hzero : i = 0 := by
      simp only [Subpool.owns, decide_eq_true_eq] at hi
      omega
    rw [hzero, hready]
    decide
  obtain ⟨ring, v, hdown, halone, hpolicy, hfound⟩ := victim_policy hreach smallOracle 0
    (g := { layers := [0, 1], expertSize := 1, totalBytes := 2, strides := [1] }) (by decide : groupOf smallConfig 1 = some 0)
    rfl (by decide : regionOf smallConfig 0 0 = some ⟨0, 0, 0, 1, 1, 1, [⟨0, 0, 1⟩]⟩) hfull
  cases hv : v with
  | none => exact absurd hv (hfound ⟨0, by decide, 0, by decide, 0, hfind, by decide, hready, hzero⟩)
  | some w =>
    obtain ⟨i, l, e⟩ := w
    obtain ⟨hcand, hgroup, _, _⟩ := (hpolicy i l e hv).1
    have he : e = 0 := Nat.lt_one_iff.mp hcand.1
    have hl : l = 0 := by
      have hidle := hcand.2.1.1
      rw [he] at hidle
      simp only [List.mem_cons, List.not_mem_nil, or_false] at hgroup
      rcases hgroup with rfl | rfl
      · rfl
      · rw [hnot] at hidle
        cases hidle
    rw [hv, hl, he] at halone
    exact ⟨r, hreach, ring, i, hdown, halone⟩

end policy

end VictimPolicy
end StreamMoE
