import StreamMoE.PinAccesses

/-! A call of `pin_layer` among the scheduler and other threads: it returns with one pin for every
needed expert, or with none. -/
namespace StreamMoE
namespace PinLayer

open AtomicProg SlotWord SchedConfig Sched PinProtection

/-- A handle of the layer, in a region of its pool. -/
def Placed (C : Config) (layer : ℕ) (a : Handle) : Prop :=
  a.layer = layer ∧ InRegion C a.slot a.pool layer

/-- The call returns the count, and its handles stand for the pins it took. -/
def Delivered (C : Config) (b layer : ℕ) (want : List ℕ) (L : List Pin) (r : PinResult) (x : World) : Prop :=
  ∃ out, r = .pinned want.length out ∧ (out.map Handle.expert).Perm want ∧ (∀ a ∈ out, Placed C layer a) ∧
    ∃ β, Held C b (L ++ out.map (Handle.pin b)) β (tallyOf (out.map (Handle.pin b))) nothing x

/-- The call returns -1, and as many pins were given back as taken. -/
def Withdrawn (C : Config) (b : ℕ) (L : List Pin) (r : PinResult) (x : World) : Prop :=
  ∃ why, r = .failed why ∧ why ≠ .notFound ∧
    ∃ β τ, (∀ i, τ.taken i = τ.given i) ∧ Held C b L β τ nothing x

variable {C : Config} {b layer : ℕ} {L : List Pin} {β : Batch} {τ : Tally} {R : ℕ → Key → Prop} {x : World}

/-- A scan that finds a slot finds a resident one, and one that finds none meets no resident slot of
the pools it reads. -/
theorem held_scanPools (expert : ℕ) (ps : List ℕ) (hx : (execContract C).inv x)
    (h : Held C b L β τ R x) :
    Safe (execContract C) (scanPools layer expert ps)
      (fun r y => (∀ i p, r = some (i, p) → Held C b L β τ
          (fun j k => R j k ∨ (j = i ∧ k = ⟨layer, expert, p⟩)) y) ∧
        (r = none → Held C b L β τ R y ∧ ∀ i, ∀ p ∈ ps, ¬ R i ⟨layer, expert, p⟩)) x := by
  induction ps generalizing x with
  | nil =>
    refine Safe.ret stable_held hx h ?_
    intro y _ hy
    exact ⟨fun i p hr => (by cases hr), fun _ => ⟨hy, fun _ _ hp => absurd hp List.not_mem_nil⟩⟩
  | cons p ps ih =>
    refine Safe.get stable_held hx h ?_
    intro y hy hheld
    split
    · rename_i hready
      obtain ⟨i, _, hown⟩ := hheld.resident_of_ready hy hready
      have hfound : Held C b L β τ (fun j k => R j k ∨ (j = i ∧ k = ⟨layer, expert, p⟩)) y := by
        refine hheld.mono ?_
        rintro j k (hR | ⟨rfl, rfl⟩)
        · exact hheld.still.resident j k hR
        · exact hown
      refine Safe.get stable_held hy hfound ?_
      intro z hz hz'
      have hentry := dir_of_resident hz (hz'.still.resident i _ (.inr ⟨rfl, rfl⟩))
      split
      · rename_i j hj
        rw [hentry] at hj
        cases hj
        refine Safe.ret stable_held hz hz' ?_
        intro u _ hu
        refine ⟨?_, fun hr => (by cases hr)⟩
        intro j q hr
        cases hr
        exact hu
      · rename_i hj
        rw [hentry] at hj
        cases hj
    · rename_i hnot
      refine Safe.mono ?_ (ih hy hheld)
      rintro r z _ ⟨hsome, hnone⟩
      refine ⟨hsome, fun hr => ⟨(hnone hr).1, ?_⟩⟩
      intro i q hq hR
      rcases List.mem_cons.mp hq with rfl | hq
      · exact hnot (congrArg DirEntry.state (dir_of_resident hy (hheld.still.resident i _ hR)))
      · exact (hnone hr).2 i q hq hR

/-- The experts that are resident get a pin each, the others are missing. -/
theorem held_pinHits {want : List ℕ} (es : List ℕ) {out : List Handle} {missing : List ℕ}
    (hx : (execContract C).inv x)
    (h : Held C b (L ++ out.map (Handle.pin b)) β (tallyOf (out.map (Handle.pin b))) nothing x)
    (hout : ∀ a ∈ out, Placed C layer a) (hperm : (out.map Handle.expert ++ (missing ++ es)).Perm want) :
    Safe (execContract C) (pinHits C b layer es out missing)
      (fun r y => Held C b (L ++ r.1.map (Handle.pin b)) β (tallyOf (r.1.map (Handle.pin b))) nothing y ∧
        (∀ a ∈ r.1, Placed C layer a) ∧ (r.1.map Handle.expert ++ r.2).Perm want) x := by
  induction es generalizing x out missing with
  | nil =>
    refine Safe.ret stable_held hx h ?_
    intro y _ hy
    exact ⟨hy, hout, by simpa using hperm⟩
  | cons e es ih =>
    have hmiss : (out.map Handle.expert ++ (missing ++ [e] ++ es)).Perm want := by simpa using hperm
    refine Safe.bind hx (Safe.mono ?_ (held_scanPools e (List.range C.nPools) hx h))
    rintro r y hy ⟨hsome, hnone⟩
    cases r with
    | none => exact ih hy (hnone rfl).1 hout hmiss
    | some ip =>
      obtain ⟨i, pool⟩ := ip
      refine Safe.getModify stable_held hy (hsome i pool rfl) ?_
      intro z hz hz'
      refine ⟨_, exec_guar (a := .tryPin (.batch (some b)) i) ⟨b, rfl⟩ rfl, ?_⟩
      have hzinv := exec_inv (t := z.2.2) hz (a := .tryPin (.batch (some b)) i) ⟨b, rfl⟩ rfl
      cases hw : SlotWord.tryPin (z.1.word i) with
      | none =>
        have hsame : z.1.tryPin (.batch (some b)) i = z.1 := by simp only [Sys.tryPin, hw]
        rw [hsame, Tally.add_self] at hzinv ⊢
        exact ih hzinv hz'.forget hout hmiss
      | some w =>
        have hpinned := hz'.pin hz (.inr ⟨rfl, rfl⟩) hw
        have hregion : InRegion C i pool layer := by
          have hown := hz'.still.resident i ⟨layer, e, pool⟩ (.inr ⟨rfl, rfl⟩)
          exact hz.1.region i ⟨layer, e, pool⟩ .ready (by dsimp only; rw [hown]; rfl)
        have hheld : Held C b
            (L ++ (out ++ [Handle.mk i (slotWordGeneration w) layer e pool]).map (Handle.pin b)) β
            (tallyOf ((out ++ [Handle.mk i (slotWordGeneration w) layer e pool]).map (Handle.pin b))) nothing
            (z.1.tryPin (.batch (some b)) i, z.2.1,
              z.2.2.add z.1 (z.1.tryPin (.batch (some b)) i)) := by
          rw [List.map_append, List.map_singleton, tallyOf_concat, ← List.append_assoc]
          exact hpinned.forget
        refine Safe.getModify stable_held hzinv hheld ?_
        intro u hu hu'
        have htoken := exec_guar (C := C) (s := u.1) (g := u.2.1) (t := u.2.2) (a := .nextToken) trivial rfl
        refine ⟨_, htoken, ?_⟩
        have huinv := (execContract C).guar_inv _ _ hu htoken
        refine Safe.modify stable_held huinv (hu'.access rfl rfl rfl rfl hu'.still.batch) ?_
        intro v hv hv'
        have htouch := exec_guar (C := C) (s := v.1) (g := v.2.1) (t := v.2.2)
          (a := .touch layer e ((u.1.token + 1) % 2 ^ 64)) trivial rfl
        refine ⟨_, htouch, ?_⟩
        refine ih ((execContract C).guar_inv _ _ hv htouch)
          (hv'.access rfl rfl rfl rfl hv'.still.batch) ?_ ?_
        · intro a ha
          rcases List.mem_append.mp ha with ha | ha
          · exact hout a ha
          · rw [List.mem_singleton.mp ha]
            exact ⟨rfl, hregion⟩
        · rw [List.map_append]
          refine List.Perm.trans ?_ hperm
          simp only [List.append_assoc, List.map_cons, List.map_nil, List.singleton_append,
            List.perm_append_left_iff]
          exact List.perm_middle.symm

theorem give_give (t : Tally) (p : Pin) (P : List Pin) : (t.give [p]).give P = t.give (p :: P) := by
  simp only [Tally.give, List.countP_cons, List.countP_nil]
  congr 1
  funext i
  omega

theorem held_unpinHandles (hs : List Handle) (hx : (execContract C).inv x)
    (h : Held C b (L ++ hs.map (Handle.pin b)) β τ R x) (hlt : ∀ a ∈ hs, a.slot < C.geometry.numSlots) :
    Safe (execContract C) (unpinHandles C b hs)
      (fun _ => Held C b L β (τ.give (hs.map (Handle.pin b))) R) x := by
  induction hs generalizing x τ with
  | nil =>
    refine Safe.ret stable_held hx h ?_
    intro y _ hy
    simpa [Tally.give] using hy
  | cons a hs ih =>
    refine Safe.modify stable_held hx h ?_
    intro y hy hy'
    rw [if_pos (hlt a List.mem_cons_self)]
    obtain ⟨hguar, hheld⟩ := hy'.unpin hy
    refine ⟨_, hguar, ?_⟩
    rw [List.map_cons, ← give_give]
    exact ih ((execContract C).guar_inv _ _ hy hguar) hheld fun c hc => hlt c (List.mem_cons_of_mem a hc)

/-- The scan after the wait finds the slot of every expert the scheduler pinned. -/
theorem held_collect {M : List Pin} (want : ℕ) (es : List ℕ) {out : List Handle} {B : List Pin}
    (hx : (execContract C).inv x) (h : Held C b M β τ R x) (hout : ∀ a ∈ out, Placed C layer a)
    (hM : ∀ q ∈ B, q ∈ M) (hB : (B.map Pin.content).Perm (es.map fun e => some (layer, e)))
    (hR : ∀ q ∈ B, ∃ k : Key, R q.slot k ∧ q.content = some (k.layer, k.expert) ∧ k.pool < C.nPools) :
    Safe (execContract C) (collect C b layer want es out)
      (fun r y => ∃ out', r = .pinned want out' ∧ Held C b M β τ R y ∧ (∀ a ∈ out', Placed C layer a) ∧
        (out'.map (Handle.pin b)).Perm (out.map (Handle.pin b) ++ B) ∧
        out'.map Handle.expert = out.map Handle.expert ++ es) x := by
  induction es generalizing x out B with
  | nil =>
    have hnil : B = [] := List.map_eq_nil_iff.mp hB.eq_nil
    refine Safe.ret stable_held hx h ?_
    intro y _ hy
    refine ⟨out, rfl, hy, hout, ?_, (List.append_nil _).symm⟩
    rw [hnil, List.append_nil]
  | cons e es ih =>
    obtain ⟨q, hq, hcontent⟩ : ∃ q ∈ B, q.content = some (layer, e) :=
      List.mem_map.mp (hB.mem_iff.mpr List.mem_cons_self)
    obtain ⟨l₁, l₂, rfl⟩ := List.append_of_mem hq
    have hsplit : (l₁ ++ q :: l₂).Perm (q :: (l₁ ++ l₂)) := List.perm_middle
    have hrest : ((l₁ ++ l₂).map Pin.content).Perm (es.map fun e => some (layer, e)) := by
      have hboth := (hsplit.map Pin.content).symm.trans hB
      rw [List.map_cons, List.map_cons, hcontent] at hboth
      exact hboth.cons_inv
    have hsub : ∀ r ∈ l₁ ++ l₂, r ∈ l₁ ++ q :: l₂ := fun r hr => hsplit.mem_iff.mpr (List.mem_cons_of_mem q hr)
    obtain ⟨k, hk, hkcontent, hpool⟩ := hR q hq
    have hkey : k.layer = layer ∧ k.expert = e := by
      rw [hcontent] at hkcontent
      cases hkcontent
      exact ⟨rfl, rfl⟩
    refine Safe.bind hx (Safe.mono ?_ (held_scanPools e (List.range C.nPools) hx h))
    rintro r y hy ⟨hsome, hnone⟩
    cases r with
    | none =>
      have hmeets := (hnone rfl).2 q.slot k.pool (List.mem_range.mpr hpool)
      rw [← hkey.1, ← hkey.2] at hmeets
      exact absurd hk hmeets
    | some ip =>
      obtain ⟨i, pool⟩ := ip
      refine Safe.get stable_held hy (hsome i pool rfl) ?_
      intro z hz hz'
      -- the expert has one resident copy, so that the slot found is the one the scheduler pinned
      have hown := hz'.still.resident i ⟨layer, e, pool⟩ (.inr ⟨rfl, rfl⟩)
      have hqown := hz'.still.resident q.slot k (.inl hk)
      have hclaim : (z.2.1.own i).claim = some (⟨layer, e, pool⟩, .ready) := by rw [hown]; rfl
      have hqclaim : (z.2.1.own q.slot).claim = some (k, .ready) := by rw [hqown]; rfl
      have hslot : i = q.slot := hz.1.dir.single i q.slot _ k _ _ hclaim hqclaim hkey.1.symm hkey.2.symm
      have hmine := hz'.still.mine.mem_iff.mpr (hM q hq)
      obtain ⟨hqpins, hholder⟩ := List.mem_filter.mp hmine
      have hgen := (hz.2.held q hqpins).1
      have hpin : Handle.pin b ⟨i, slotWordGeneration (z.1.word i), layer, e, pool⟩ = q := by
        rw [hslot]
        obtain ⟨_, _, _, _⟩ := q
        simp only [beq_iff_eq] at hholder
        simp only [Handle.pin, Pin.mk.injEq]
        exact ⟨hholder.symm, trivial, hgen.symm, hcontent.symm⟩
      have hplaced : ∀ a ∈ out ++ [⟨i, slotWordGeneration (z.1.word i), layer, e, pool⟩], Placed C layer a := by
        intro a ha
        rcases List.mem_append.mp ha with ha | ha
        · exact hout a ha
        · rw [List.mem_singleton.mp ha]
          exact ⟨rfl, hz.1.region i ⟨layer, e, pool⟩ .ready hclaim⟩
      refine Safe.mono ?_ (ih (B := l₁ ++ l₂) hz (hz'.mono fun j c hc => hz'.still.resident j c (.inl hc))
        hplaced (fun r hr => hM r (hsub r hr)) hrest fun r hr => hR r (hsub r hr))
      rintro r u _ ⟨out', hr, hheld, hall, hperm, hexperts⟩
      refine ⟨out', hr, hheld, hall, ?_, ?_⟩
      · rw [List.map_append, List.map_singleton, hpin, List.append_assoc] at hperm
        exact hperm.trans (hsplit.symm.append_left _)
      · rw [hexperts, List.map_append, List.append_assoc]
        rfl

/-- Submitting the request. -/
theorem Held.push {s s' : Sys} {g : Ghost} {t : Tally} {out : List Handle} {missing : List ℕ}
    (h : Held C b (L ++ out.map (Handle.pin b)) ⟨0, false⟩ (tallyOf (out.map (Handle.pin b))) nothing (s, g, t))
    (hpush : push (requestFor b layer missing) s = some s') :
    Waiting C b layer missing (L ++ out.map (Handle.pin b)) (out.map (Handle.pin b)) (s', g, t.add s s') ∧
      AllBound (s', g, t.add s s') := by
  have hq := h.still.quiet
  unfold PinLayer.push at hpush
  split at hpush
  · cases hpush
    refine ⟨.inl ⟨⟨?_, hq.idle, hq.calm, hq.owed, hq.phase⟩, ?_, h.still.mine, h.still.batch, ?_⟩, ?_⟩
    · have hnone := hq.requests
      dsimp only at hnone ⊢
      rw [hnone]
      rfl
    · exact h.still.bound.of_pins (fun _ hp => hp) rfl fun _ hi => hi
    · exact (t.add_same fun _ => rfl).trans h.still.tally
    · exact fun b' => (h.bound b').of_pins (fun _ hp => hp) rfl fun _ hi => hi
  · cases hpush

/-- The whole call. -/
theorem held_pinLayer {needed : ℕ → Bool} {outCap : ℕ} (hx : (execContract C).inv x)
    (h : Held C b L β .zero nothing x) :
    Safe (execContract C) (pinLayer C b layer needed outCap)
      (fun r y => Delivered C b layer ((List.range C.topo.nExpert).filter needed) L r y ∨
        Withdrawn C b L r y) x := by
  have hstart : Held C b (L ++ [].map (Handle.pin b)) β (tallyOf ([].map (Handle.pin b))) nothing x := by
    rw [List.map_nil, List.append_nil]
    exact h
  have hnone : ∀ a ∈ ([] : List Handle), Placed C layer a := fun a ha => absurd ha List.not_mem_nil
  -- the call has touched nothing yet
  have hrefuse : ∀ why, why ≠ .notFound → Safe (execContract C) (.ret (.failed why))
      (fun r y => Delivered C b layer ((List.range C.topo.nExpert).filter needed) L r y ∨
        Withdrawn C b L r y) x := by
    intro why hwhy
    refine Safe.ret stable_held hx h ?_
    intro y _ hy
    exact .inr ⟨why, rfl, hwhy, β, .zero, fun _ => rfl, hy⟩
  unfold pinLayer
  dsimp only
  split
  · exact hrefuse .badLayer (by simp)
  · split
    · rename_i hzero
      refine Safe.ret stable_held hx hstart ?_
      intro y _ hy
      refine .inl ⟨[], by rw [hzero], ?_, hnone, β, hy⟩
      rw [List.eq_nil_of_length_eq_zero hzero]
      exact .refl _
    · split
      · exact hrefuse .outCap (by simp)
      · have hperm : ([].map Handle.expert ++ ([] ++ (List.range C.topo.nExpert).filter needed)).Perm
            ((List.range C.topo.nExpert).filter needed) := .refl _
        refine Safe.bind hx (Safe.mono ?_ (held_pinHits _ hx hstart hnone hperm))
        rintro ⟨out, missing⟩ y hy ⟨hheld, hplaced, hperm⟩
        dsimp only at hheld hplaced hperm ⊢
        split
        · rename_i hmissing
          refine Safe.ret stable_held hy hheld ?_
          intro z _ hz
          rw [List.eq_nil_of_length_eq_zero hmissing, List.append_nil] at hperm
          exact .inl ⟨out, rfl, hperm, hplaced, β, hz⟩
        · rename_i hne
          have hpos : 0 < missing.length := Nat.pos_of_ne_zero hne
          have hnodup : missing.Nodup :=
            (List.nodup_append.mp (hperm.nodup_iff.mpr (List.nodup_range.filter _))).2.1
          refine Safe.modify stable_held hy hheld ?_
          intro z hz hz'
          have hreset := exec_guar (C := C) (s := z.1) (g := z.2.1) (t := z.2.2) (a := .resetBatch b)
            trivial rfl
          refine ⟨_, hreset, ?_⟩
          refine Safe.act stable_held ((execContract C).guar_inv _ _ hz hreset)
            (hz'.access rfl rfl rfl rfl (Function.update_self ..)) ?_
          intro u hu hu' t hpush
          have hguar := exec_guar (C := C) (g := u.2.1) (t := u.2.2)
            (a := .push (requestFor b layer missing)) trivial hpush
          refine ⟨_, hguar, ?_⟩
          refine Safe.await ((stable_waiting hnodup hpos).and stable_allBound)
            ((execContract C).guar_inv _ _ hu hguar) (hu'.push hpush) ?_
          rintro v hv ⟨hwaiting, hbound⟩ hwake
          refine ⟨_, (execContract C).guar_refl v, ?_⟩
          rcases hwaiting.wakes hpos (by simpa using hwake) with ⟨B, hcontents, β', hβ', hstill⟩ |
            ⟨β', τ, hβ', hτ, hstill⟩
          · refine Safe.get stable_held hv (⟨hstill, hbound⟩ : Held C b _ β' _ nothing v) ?_
            intro u hu hu'
            rw [if_neg (by rw [hu'.still.batch, hβ']; simp)]
            have hresident : ∀ q ∈ B, ∃ k : Key, u.2.1.own q.slot = .resident k ∧
                q.content = some (k.layer, k.expert) ∧ k.pool < C.nPools := by
              intro q hq
              have hmine := hu'.still.mine.mem_iff.mpr (List.mem_append_right _ hq)
              obtain ⟨hqpins, hholder⟩ := List.mem_filter.mp hmine
              obtain ⟨k, hk, _, hc⟩ := hu'.still.bound q hqpins (.inr (by simpa using hholder))
              exact ⟨k, hk, hc, (hu.1.region q.slot k .ready (by dsimp only; rw [hk]; rfl)).pool_lt⟩
            refine Safe.mono ?_ (held_collect (R := fun i k => u.2.1.own i = .resident k) _ missing hu
              (hu'.mono fun _ _ hk => hk) hplaced (fun q hq => List.mem_append_right _ hq) hcontents hresident)
            rintro r w _ ⟨out', hr, hcollected, hall, hpins, hexperts⟩
            refine .inl ⟨out', hr, ?_, hall, β', ?_⟩
            · rw [hexperts]
              exact hperm
            · rw [tallyOf_perm hpins]
              refine hcollected.forget.perm ?_
              rw [List.append_assoc]
              exact hpins.symm.append_left L
          · refine Safe.get stable_held hv (⟨hstill, hbound⟩ : Held C b _ β' τ nothing v) ?_
            intro u hu hu'
            rw [if_pos (by rw [hu'.still.batch]; exact hβ')]
            refine Safe.bind hu (Safe.mono ?_ (held_unpinHandles out hu hu' fun a ha =>
              slot_lt_of_region (hplaced a ha).2))
            intro _ w hw hw'
            refine Safe.ret stable_held hw hw' ?_
            intro y' _ hy'
            exact .inr ⟨.loadFailed, rfl, by simp, β', τ.give (out.map (Handle.pin b)),
              fun i => (hτ i).trans (Nat.add_comm ..), hy'⟩

end PinLayer
end StreamMoE
