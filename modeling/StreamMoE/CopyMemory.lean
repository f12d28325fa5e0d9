import Mathlib.Data.List.Count
import Mathlib.Logic.Function.Basic
import StreamMoE.OfferSchedule

/-! What the nodes of a run read when some of their operands are copies: a copy holds what its source
held at the moment it was made. -/
namespace StreamMoE
namespace CopyMemory

variable {ν κ σ : Type*}

/-- The cell a node writes, the cell a copy is made of, and what a node reads. -/
structure Wiring (ν κ σ : Type*) where
  writes : ν → κ
  source : σ → κ
  reads : ν → List (κ ⊕ σ)

/-- One node runs, or copies are made together. -/
inductive Action (ν σ : Type*)
  | run (n : ν)
  | copy (batch : List σ)

def Action.ran : Action ν σ → List ν
  | .run n => [n]
  | .copy _ => []

def Action.copied : Action ν σ → List σ
  | .run _ => []
  | .copy batch => batch

/-- The nodes of a run, in order. -/
def ran (as : List (Action ν σ)) : List ν := as.flatMap Action.ran

def MadeOnce (as : List (Action ν σ)) : Prop :=
  as.Pairwise fun a b => ∀ s ∈ a.copied, s ∉ b.copied

@[simp] theorem ran_run (n : ν) (as : List (Action ν σ)) : ran (.run n :: as) = n :: ran as := rfl

@[simp] theorem ran_copy (batch : List σ) (as : List (Action ν σ)) :
    ran (.copy batch :: as) = ran as := rfl

@[simp] theorem ran_append (as bs : List (Action ν σ)) : ran (as ++ bs) = ran as ++ ran bs :=
  List.flatMap_append

section semantics

variable [DecidableEq κ] [DecidableEq σ] (w : Wiring ν κ σ) {V : Type}
  (kernel : ν → List V → V → V)

def inputs (mem : κ ⊕ σ → V) (n : ν) : List V := (w.reads n).map mem

def step (mem : κ ⊕ σ → V) : Action ν σ → κ ⊕ σ → V
  | .run n =>
      Function.update mem (.inl (w.writes n))
        (kernel n (inputs w mem n) (mem (.inl (w.writes n))))
  | .copy batch =>
      Sum.elim (fun k => mem (.inl k))
        fun s => if s ∈ batch then mem (.inl (w.source s)) else mem (.inr s)

/-- The memory the `t`-th node finds. -/
def memAt (mem : κ ⊕ σ → V) : List (Action ν σ) → ℕ → κ ⊕ σ → V
  | [], _ => mem
  | .run _ :: _, 0 => mem
  | .run n :: as, t + 1 => memAt (step w kernel mem (.run n)) as t
  | .copy batch :: as, t => memAt (step w kernel mem (.copy batch)) as t

/-- What each node of a run reads. -/
def seen (mem : κ ⊕ σ → V) : List (Action ν σ) → List (ν × List V)
  | [] => []
  | .run n :: as => (n, inputs w mem n) :: seen (step w kernel mem (.run n)) as
  | .copy batch :: as => seen (step w kernel mem (.copy batch)) as

/-- Whatever the nodes compute and the memory holds, the runs have the same nodes with the same
inputs. -/
def SameInputs (as bs : List (Action ν σ)) : Prop :=
  ∀ (V : Type) (kernel : ν → List V → V → V) (mem : κ ⊕ σ → V),
    seen w kernel mem as = seen w kernel mem bs

/-- How many nodes have run when a copy is made. -/
def turn (s : σ) : List (Action ν σ) → Option ℕ
  | [] => none
  | .run _ :: as => (turn s as).map (· + 1)
  | .copy batch :: as => if s ∈ batch then some 0 else turn s as

/-- How often the source had been written when the copy was made, if the `t`-th node finds one. -/
def stamp (nodes : List ν) (s : σ) (made : Option ℕ) (t : ℕ) : Option ℕ :=
  (made.filter fun k => decide (k ≤ t)).map fun k =>
    (nodes.take k).countP fun n => decide (w.writes n = w.source s)

variable {w kernel}

@[simp] theorem step_copy_cell (mem : κ ⊕ σ → V) (batch : List σ) (k : κ) :
    step w kernel mem (.copy batch) (.inl k) = mem (.inl k) := rfl

@[simp] theorem step_run_copy (mem : κ ⊕ σ → V) (n : ν) (s : σ) :
    step w kernel mem (.run n) (.inr s) = mem (.inr s) := by
  simp [step]

theorem step_run_cell (mem : κ ⊕ σ → V) (n : ν) (k : κ) :
    step w kernel mem (.run n) (.inl k) =
      if w.writes n = k then kernel n (inputs w mem n) (mem (.inl k)) else mem (.inl k) := by
  by_cases h : w.writes n = k
  · subst h
    simp [step]
  · simp [step, h, Function.update_of_ne, Ne.symm h]

@[simp] theorem memAt_cell_zero (mem : κ ⊕ σ → V) (as : List (Action ν σ)) (k : κ) :
    memAt w kernel mem as 0 (.inl k) = mem (.inl k) := by
  induction as generalizing mem with
  | nil => rfl
  | cons a as ih =>
    cases a with
    | run n => rfl
    | copy batch => simp [memAt, ih]

/-- A node changes the cell it writes, copies change none. -/
theorem memAt_cell_succ (mem : κ ⊕ σ → V) {as : List (Action ν σ)} {t : ℕ} {n : ν}
    (h : (ran as)[t]? = some n) (k : κ) :
    memAt w kernel mem as (t + 1) (.inl k) =
      if w.writes n = k then
        kernel n (inputs w (memAt w kernel mem as t) n) (memAt w kernel mem as t (.inl k))
      else memAt w kernel mem as t (.inl k) := by
  induction as generalizing mem t with
  | nil => cases h
  | cons a as ih =>
    cases a with
    | copy batch => exact ih _ h
    | run n' =>
      cases t with
      | zero =>
        obtain rfl : n' = n := Option.some.inj h
        simp [memAt, step_run_cell]
      | succ t => exact ih _ h

omit [DecidableEq κ] in
theorem turn_eq_none {s : σ} {as : List (Action ν σ)} (h : ∀ a ∈ as, s ∉ a.copied) :
    turn s as = none := by
  induction as with
  | nil => rfl
  | cons a as ih =>
    have hrest := ih fun b hb => h b (List.mem_cons_of_mem _ hb)
    cases a with
    | run n => simp [turn, hrest]
    | copy batch =>
      have hs : s ∉ batch := h _ (List.mem_cons_self ..)
      simp [turn, hrest, hs]

omit [DecidableEq κ] in
theorem turn_append (s : σ) (as bs : List (Action ν σ)) :
    turn s (as ++ bs) = (turn s as).or ((turn s bs).map ((ran as).length + ·)) := by
  induction as with
  | nil => simp [turn, ran]
  | cons a as ih =>
    cases a with
    | run n =>
      rw [List.cons_append, turn, ih, turn]
      cases turn s as <;> cases turn s bs <;> simp
      omega
    | copy batch =>
      rw [List.cons_append, turn, ih, turn]
      split <;> simp

/-- A copy holds what its source held at its turn. -/
theorem memAt_copy (mem : κ ⊕ σ → V) {as : List (Action ν σ)} (honce : MadeOnce as) (s : σ) (t : ℕ) :
    memAt w kernel mem as t (.inr s) =
      match (turn s as).filter fun k => decide (k ≤ t) with
      | some k => memAt w kernel mem as k (.inl (w.source s))
      | none => mem (.inr s) := by
  induction as generalizing mem t with
  | nil => rfl
  | cons a as ih =>
    obtain ⟨hfirst, hrest⟩ := List.pairwise_cons.mp honce
    cases a with
    | run n =>
      cases t with
      | zero =>
        cases hs : turn s as with
        | none => simp [memAt, turn, hs]
        | some k => simp [memAt, turn, hs, Option.filter_some]
      | succ t =>
        have hih := ih (step w kernel mem (.run n)) hrest t
        cases hs : turn s as with
        | none => simpa [memAt, turn, hs] using hih
        | some k =>
          by_cases hk : k ≤ t
          · simpa [memAt, turn, hs, hk, Option.filter_some] using hih
          · simpa [memAt, turn, hs, hk, Option.filter_some] using hih
    | copy batch =>
      have hih := ih (step w kernel mem (.copy batch)) hrest t
      by_cases hs : s ∈ batch
      · rw [turn_eq_none fun b hb => hfirst b hb s hs] at hih
        simpa [memAt, turn, hs, step, Option.filter_some] using hih
      · simpa [memAt, turn, hs, step] using hih

theorem getElem?_seen (mem : κ ⊕ σ → V) (as : List (Action ν σ)) (t : ℕ) :
    (seen w kernel mem as)[t]? =
      (ran as)[t]?.map fun n => (n, inputs w (memAt w kernel mem as t) n) := by
  induction as generalizing mem t with
  | nil => rfl
  | cons a as ih =>
    cases a with
    | copy batch => exact ih _ t
    | run n =>
      cases t with
      | zero => rfl
      | succ t => exact ih _ t

theorem memAt_count (as : List (Action ν σ)) (k : κ) (t : ℕ) (ht : t ≤ (ran as).length) :
    memAt w (fun _ _ old => old.map (· + 1)) (Sum.elim (fun _ => some 0) fun _ => none) as t (.inl k) =
      some (((ran as).take t).countP fun n => decide (w.writes n = k)) := by
  induction t with
  | zero => simp
  | succ t ih =>
    have hn : (ran as)[t]? = some (ran as)[t] := List.getElem?_eq_getElem ht
    rw [memAt_cell_succ _ hn, ih (Nat.le_of_succ_le ht), List.take_add_one, hn, Option.toList_some,
      List.countP_append, List.countP_singleton]
    split <;> simp_all

theorem turn_le (s : σ) (as : List (Action ν σ)) (k : ℕ) (h : turn s as = some k) :
    k ≤ (ran as).length := by
  induction as generalizing k with
  | nil => cases h
  | cons a as ih =>
    cases a with
    | run n =>
      obtain ⟨j, hj, rfl⟩ := Option.map_eq_some_iff.mp h
      have hle := ih j hj
      simp only [ran_run, List.length_cons]
      omega
    | copy batch =>
      rw [turn] at h
      split at h
      · cases h
        exact Nat.zero_le _
      · exact ih k h

/-- A cell keeps its content while no node writes it. -/
theorem memAt_cell_kept (mem : κ ⊕ σ → V) (as : List (Action ν σ)) (k : κ) {i j : ℕ} (hij : i ≤ j)
    (hj : j ≤ (ran as).length)
    (hcount : ((ran as).take i).countP (fun n => decide (w.writes n = k)) =
      ((ran as).take j).countP fun n => decide (w.writes n = k)) :
    memAt w kernel mem as i (.inl k) = memAt w kernel mem as j (.inl k) := by
  induction hij with
  | refl => rfl
  | @step j hij ih =>
    have hn : (ran as)[j]? = some (ran as)[j] := List.getElem?_eq_getElem hj
    have hmono : ((ran as).take i).countP (fun n => decide (w.writes n = k)) ≤
        ((ran as).take j).countP fun n => decide (w.writes n = k) :=
      (List.take_sublist_take_left hij).countP_le
    rw [List.take_add_one, hn, Option.toList_some, List.countP_append, List.countP_singleton] at hcount
    have hne : w.writes (ran as)[j] ≠ k := by
      intro heq
      simp only [heq, decide_true, if_true] at hcount
      omega
    rw [memAt_cell_succ mem hn, if_neg hne]
    refine ih (Nat.le_of_succ_le hj) ?_
    simpa only [hne, decide_false, Bool.false_eq_true, if_false, Nat.add_zero] using hcount

/-- While the cells have had the same contents, copies with the same stamp have. -/
theorem inputs_congr {as bs : List (Action ν σ)} (ha : MadeOnce as) (hb : MadeOnce bs)
    (hran : ran as = ran bs) (mem : κ ⊕ σ → V) {t : ℕ}
    (hcells : ∀ i ≤ t, ∀ k, memAt w kernel mem as i (.inl k) = memAt w kernel mem bs i (.inl k)) {n : ν}
    (hstamps : ∀ s, Sum.inr s ∈ w.reads n →
      stamp w (ran as) s (turn s as) t = stamp w (ran as) s (turn s bs) t) :
    inputs w (memAt w kernel mem as t) n = inputs w (memAt w kernel mem bs t) n := by
  refine List.map_congr_left fun cell hcell => ?_
  rcases cell with k | s
  · exact hcells t (Nat.le_refl t) k
  · have hstamp := hstamps s hcell
    rw [memAt_copy mem ha, memAt_copy mem hb]
    unfold stamp at hstamp
    cases hi : (turn s as).filter fun k => decide (k ≤ t) with
    | none =>
      rw [hi, Option.map_none, eq_comm, Option.map_eq_none_iff] at hstamp
      rw [hstamp]
    | some i =>
      rw [hi, Option.map_some, eq_comm, Option.map_eq_some_iff] at hstamp
      obtain ⟨j, hj, hcount⟩ := hstamp
      obtain ⟨hturn, _⟩ := Option.filter_eq_some_iff.mp hi
      obtain ⟨hturn', hjt⟩ := Option.filter_eq_some_iff.mp hj
      have hilen := turn_le s as i hturn
      have hjlen := turn_le s bs j hturn'
      rw [← hran] at hjlen
      rw [hj]
      dsimp only
      rw [← hcells j (of_decide_eq_true hjt)]
      rcases Nat.le_total i j with hij | hji
      · exact memAt_cell_kept mem as _ hij hjlen hcount.symm
      · exact (memAt_cell_kept mem as _ hji hilen hcount).symm

/-- Two runs of the same nodes show them the same inputs exactly if at every node that reads a copy
both have made it or neither has, and its source had been written equally often. -/
theorem sameInputs_iff {as bs : List (Action ν σ)} (ha : MadeOnce as) (hb : MadeOnce bs)
    (hran : ran as = ran bs) :
    SameInputs w as bs ↔ ∀ t n, (ran as)[t]? = some n → ∀ s, Sum.inr s ∈ w.reads n →
      stamp w (ran as) s (turn s as) t = stamp w (ran as) s (turn s bs) t := by
  constructor
  · intro hsame t n hn s hs
    have hseen := congrArg (·[t]?) (hsame (Option ℕ) (fun _ _ old => old.map (· + 1))
      (Sum.elim (fun _ => some 0) fun _ => none))
    simp only [getElem?_seen, ← hran, hn, Option.map_some, Option.some.injEq, Prod.mk.injEq,
      true_and] at hseen
    have hcopy := List.map_inj_left.mp hseen _ hs
    have hstamp : ∀ cs : List (Action ν σ), MadeOnce cs → ran cs = ran as →
        memAt w (fun _ _ old => old.map (· + 1)) (Sum.elim (fun _ => some 0) fun _ => none) cs t (.inr s) =
          stamp w (ran as) s (turn s cs) t := by
      intro cs honce hcs
      rw [memAt_copy _ honce, stamp]
      cases hturn : turn s cs with
      | none => rfl
      | some k =>
        by_cases hk : k ≤ t
        · simp only [Option.filter_some, hk, decide_true, if_true, Option.map_some]
          rw [memAt_count cs _ k (turn_le s cs k hturn), hcs]
        · simp [Option.filter_some, hk]
    rw [hstamp as ha rfl, hstamp bs hb hran.symm] at hcopy
    exact hcopy
  · intro hstamps V kernel mem
    have hmem : ∀ t ≤ (ran as).length, ∀ k,
        memAt w kernel mem as t (.inl k) = memAt w kernel mem bs t (.inl k) := by
      intro t
      induction t using Nat.strongRecOn with
      | ind t ih =>
        intro ht k
        cases t with
        | zero => simp
        | succ t =>
          have hn : (ran as)[t]? = some (ran as)[t] := List.getElem?_eq_getElem ht
          have hbefore : ∀ i ≤ t, ∀ k,
              memAt w kernel mem as i (.inl k) = memAt w kernel mem bs i (.inl k) := fun i hi =>
            ih i (by omega) (by omega)
          rw [memAt_cell_succ mem hn, memAt_cell_succ mem (by rw [← hran]; exact hn), hbefore t (Nat.le_refl t) k,
            inputs_congr ha hb hran mem hbefore fun s hs => hstamps t _ hn s hs]
    refine List.ext_getElem? fun t => ?_
    rw [getElem?_seen, getElem?_seen, ← hran]
    cases hn : (ran as)[t]? with
    | none => rfl
    | some n =>
      have ht : t ≤ (ran as).length := Nat.le_of_lt (List.getElem?_eq_some_iff.mp hn).1
      rw [Option.map_some, Option.map_some,
        inputs_congr ha hb hran mem (fun i hi => hmem i (Nat.le_trans hi ht)) fun s hs =>
          hstamps t n hn s hs]

end semantics

section offers

open OfferSchedule

variable {ρ : Type*} (acts : ν → Bool) (f : ρ → σ)

/-- What happens in a run whose items stand for copies; some nodes compute nothing. -/
def eventActions : Event ρ ν → List (Action ν σ)
  | .copies batch => [.copy (batch.map f)]
  | .ran nodes => (nodes.filter acts).map .run

def actionsOf (events : List (Event ρ ν)) : List (Action ν σ) := events.flatMap (eventActions acts f)

/-- The offer for copies that its items are offered by. -/
def comapBeat : Beat σ ν → Beat ρ ν
  | .offer takes => .offer fun r => takes (f r)
  | .exec nodes => .exec nodes

/-- How many nodes have run when the copy is offered first. -/
def offerTurn (s : σ) : List (Beat σ ν) → Option ℕ
  | [] => none
  | .offer takes :: beats => if takes s then some 0 else offerTurn s beats
  | .exec nodes :: beats => (offerTurn s beats).map (nodes.countP acts + ·)

def beatNodes : Beat σ ν → List ν
  | .offer _ => []
  | .exec nodes => nodes

variable {acts f}

theorem offerTurn_append (s : σ) (as bs : List (Beat σ ν)) :
    offerTurn acts s (as ++ bs) =
      (offerTurn acts s as).or
        ((offerTurn acts s bs).map ((as.flatMap beatNodes).countP acts + ·)) := by
  induction as with
  | nil => simp [offerTurn]
  | cons a as ih =>
    cases a with
    | offer takes =>
      rw [List.cons_append, offerTurn, ih, offerTurn]
      split <;> simp [beatNodes]
    | exec nodes =>
      rw [List.cons_append, offerTurn, ih, offerTurn]
      cases offerTurn acts s as <;> cases offerTurn acts s bs <;> simp [beatNodes, List.countP_append]
      omega

theorem offerTurn_eq_none {s : σ} {beats : List (Beat σ ν)}
    (h : ∀ takes, Beat.offer takes ∈ beats → takes s = false) : offerTurn acts s beats = none := by
  induction beats with
  | nil => rfl
  | cons b beats ih =>
    have hrest := ih fun takes htakes => h takes (List.mem_cons_of_mem _ htakes)
    cases b with
    | offer takes => simp [offerTurn, h takes (List.mem_cons_self ..), hrest]
    | exec nodes => simp [offerTurn, hrest]

variable [DecidableEq ρ] {items : List ρ}

def Together (f : ρ → σ) (items executed : List ρ) : Prop :=
  ∀ i ∈ items, ∀ j ∈ executed, f i = f j → i ∈ executed

theorem Together.offer {executed : List ρ} (h : Together f items executed) (takes : σ → Bool) :
    Together f items (executed ++ batch items executed fun r => takes (f r)) := by
  intro i hi j hj heq
  rw [List.mem_append, mem_batch] at hj ⊢
  rcases hj with hj | ⟨_, _, htakes⟩
  · exact Or.inl (h i hi j hj heq)
  · by_cases hmem : i ∈ executed
    · exact Or.inl hmem
    · exact Or.inr ⟨hi, hmem, heq ▸ htakes⟩

theorem mem_map_batch {executed : List ρ} (h : Together f items executed) {takes : σ → Bool} {s : σ} :
    s ∈ (batch items executed fun r => takes (f r)).map f ↔
      s ∈ items.map f ∧ takes s = true ∧ s ∉ executed.map f := by
  simp only [List.mem_map, mem_batch]
  constructor
  · rintro ⟨i, ⟨hi, hnot, htakes⟩, rfl⟩
    exact ⟨⟨i, hi, rfl⟩, htakes, fun ⟨j, hj, heq⟩ => hnot (h i hi j hj heq.symm)⟩
  · rintro ⟨⟨i, hi, rfl⟩, htakes, hnot⟩
    exact ⟨i, ⟨hi, fun hmem => hnot ⟨i, hmem, rfl⟩, htakes⟩, rfl⟩

@[simp] theorem ran_map_run (l : List ν) : ran (l.map (Action.run : ν → Action ν σ)) = l := by
  induction l with
  | nil => rfl
  | cons n l ih => simp [ih]

theorem ran_actionsOf (executed : List ρ) (beats : List (Beat σ ν)) :
    ran (actionsOf acts f (play items executed (beats.map (comapBeat f)))) =
      (beats.flatMap beatNodes).filter acts := by
  induction beats generalizing executed with
  | nil => rfl
  | cons b beats ih =>
    cases b with
    | offer takes =>
      simp only [List.map_cons, comapBeat, play, actionsOf, List.flatMap_cons, eventActions, beatNodes]
      exact ih _
    | exec nodes =>
      simp only [List.map_cons, comapBeat, play, actionsOf, List.flatMap_cons, eventActions, beatNodes,
        ran_append, ran_map_run, List.filter_append, List.append_cancel_left_eq]
      exact ih _

/-- A copy is made when it is offered first. -/
theorem turn_actionsOf [DecidableEq σ] {executed : List ρ} (h : Together f items executed) {s : σ}
    (hs : s ∈ items.map f) (beats : List (Beat σ ν)) :
    turn s (actionsOf acts f (play items executed (beats.map (comapBeat f)))) =
      if s ∈ executed.map f then none else offerTurn acts s beats := by
  induction beats generalizing executed with
  | nil => simp [play, actionsOf, turn, offerTurn]
  | cons b beats ih =>
    cases b with
    | offer takes =>
      have hrest := ih (h.offer takes)
      simp only [List.map_cons, comapBeat, play, actionsOf, List.flatMap_cons, eventActions,
        List.singleton_append, turn, offerTurn, mem_map_batch h, hs, true_and] at hrest ⊢
      rw [hrest]
      simp only [List.map_append, List.mem_append, mem_map_batch h, hs, true_and]
      by_cases hex : s ∈ executed.map f
      · simp [hex]
      · by_cases htakes : takes s = true <;> simp [hex, htakes]
    | exec nodes =>
      have hrest := ih h
      have hnodes : ∀ l : List ν, turn s (l.map (Action.run : ν → Action ν σ)) = none := fun l =>
        turn_eq_none fun a ha => by
          obtain ⟨n, _, rfl⟩ := List.mem_map.mp ha
          exact List.not_mem_nil
      simp only [List.map_cons, comapBeat, play, actionsOf, List.flatMap_cons, eventActions,
        turn_append, hnodes, ran_map_run, Option.none_or, offerTurn, List.countP_eq_length_filter] at hrest ⊢
      rw [hrest]
      split <;> rfl

theorem madeOnce_actionsOf {executed : List ρ} (h : Together f items executed) (beats : List (Beat σ ν)) :
    MadeOnce (actionsOf acts f (play items executed (beats.map (comapBeat f)))) ∧
      ∀ a ∈ actionsOf acts f (play items executed (beats.map (comapBeat f))), ∀ s ∈ a.copied,
        s ∉ executed.map f := by
  induction beats generalizing executed with
  | nil => simp [play, actionsOf, MadeOnce]
  | cons b beats ih =>
    cases b with
    | offer takes =>
      obtain ⟨honce, hfresh⟩ := ih (h.offer takes)
      simp only [List.map_cons, comapBeat, play, actionsOf, List.flatMap_cons, eventActions,
        List.singleton_append] at honce hfresh ⊢
      refine ⟨List.pairwise_cons.mpr ⟨fun a ha s hs hsa => ?_, honce⟩, fun a ha s hs => ?_⟩
      · refine hfresh a ha s hsa ?_
        rw [List.map_append, List.mem_append]
        exact Or.inr hs
      · rcases List.mem_cons.mp ha with rfl | ha
        · exact (mem_map_batch h).mp hs |>.2.2
        · have hnot := hfresh a ha s hs
          rw [List.map_append, List.mem_append, not_or] at hnot
          exact hnot.1
    | exec nodes =>
      obtain ⟨honce, hfresh⟩ := ih h
      have hnone : ∀ a ∈ (nodes.filter acts).map (Action.run : ν → Action ν σ), a.copied = [] := by
        intro a ha
        obtain ⟨n, _, rfl⟩ := List.mem_map.mp ha
        rfl
      simp only [List.map_cons, comapBeat, play, actionsOf, List.flatMap_cons, eventActions] at honce hfresh ⊢
      refine ⟨List.pairwise_append.mpr ⟨?_, honce, ?_⟩, fun a ha s hs => ?_⟩
      · refine List.Pairwise.imp_of_mem ?_ (List.pairwise_of_forall fun _ _ => trivial)
        intro a b ha _ _ s hs
        rw [hnone a ha] at hs
        cases hs
      · intro a ha b _ s hs
        rw [hnone a ha] at hs
        cases hs
      · rcases List.mem_append.mp ha with ha | ha
        · rw [hnone a ha] at hs
          cases hs
        · exact hfresh a ha s hs

omit [DecidableEq ρ] in
theorem mem_copied_eventActions {e : Event ρ ν} {a : Action ν σ} (ha : a ∈ eventActions acts f e) {s : σ}
    (hs : s ∈ a.copied) : ∃ r ∈ e.copied, f r = s := by
  cases e with
  | copies batch =>
    rw [eventActions, List.mem_singleton] at ha
    subst ha
    exact List.mem_map.mp hs
  | ran nodes =>
    obtain ⟨n, _, rfl⟩ := List.mem_map.mp ha
    cases hs

theorem mem_copied_actionsOf {executed : List ρ} {beats : List (Beat σ ν)} {a : Action ν σ}
    (ha : a ∈ actionsOf acts f (play items executed (beats.map (comapBeat f)))) {s : σ}
    (hs : s ∈ a.copied) :
    s ∈ items.map f ∧ ∃ takes, Beat.offer takes ∈ beats ∧ takes s = true := by
  induction beats generalizing executed with
  | nil => cases ha
  | cons b beats ih =>
    have hlater : ∀ executed', a ∈ actionsOf acts f (play items executed' (beats.map (comapBeat f))) →
        s ∈ items.map f ∧ ∃ takes, Beat.offer takes ∈ b :: beats ∧ takes s = true := by
      intro executed' ha'
      obtain ⟨hitem, takes, hmem, htakes⟩ := ih ha'
      exact ⟨hitem, takes, List.mem_cons_of_mem _ hmem, htakes⟩
    cases b with
    | offer takes =>
      rw [List.map_cons, comapBeat, play, actionsOf, List.flatMap_cons, List.mem_append] at ha
      rcases ha with ha | ha
      · obtain ⟨r, hr, rfl⟩ := mem_copied_eventActions ha hs
        obtain ⟨hitem, _, htakes⟩ := mem_batch.mp hr
        exact ⟨List.mem_map_of_mem hitem, takes, List.mem_cons_self .., htakes⟩
      · exact hlater _ ha
    | exec nodes =>
      rw [List.map_cons, comapBeat, play, actionsOf, List.flatMap_cons, List.mem_append] at ha
      rcases ha with ha | ha
      · obtain ⟨r, hr, _⟩ := mem_copied_eventActions ha hs
        cases hr
      · exact hlater _ ha

end offers

section pieces

open OfferSchedule

/-- A stretch of two runs that are compared. -/
structure Piece (σ ν : Type*) where
  left : List (Beat σ ν)
  right : List (Beat σ ν)

variable (acts : ν → Bool)

def Piece.nodes (p : Piece σ ν) : List ν := (p.left.flatMap beatNodes).filter acts

def Piece.Offers (p : Piece σ ν) (s : σ) : Prop :=
  ∃ takes, (Beat.offer takes ∈ p.left ∨ Beat.offer takes ∈ p.right) ∧ takes s = true

variable [DecidableEq κ] (w : Wiring ν κ σ)

/-- At the nodes of the stretch that read the copy, and behind the stretch if a later node reads it,
the copy is there in both runs or in neither, and of the same content of its source. -/
def Agrees (nodes later : List ν) (s : σ) (a b : Option ℕ) : Prop :=
  (∀ i n, nodes[i]? = some n → Sum.inr s ∈ w.reads n → stamp w nodes s a i = stamp w nodes s b i) ∧
    ∀ n ∈ later, Sum.inr s ∈ w.reads n →
      stamp w nodes s a nodes.length = stamp w nodes s b nodes.length

def AgreesEach (s : σ) : List (Piece σ ν) → Prop
  | [] => True
  | p :: ps =>
      Agrees w (p.nodes acts) (ps.flatMap (Piece.nodes acts)) s (offerTurn acts s p.left)
        (offerTurn acts s p.right) ∧ AgreesEach s ps

def AgreesAll (nodes : List ν) (s : σ) (a b : Option ℕ) : Prop :=
  ∀ t n, nodes[t]? = some n → Sum.inr s ∈ w.reads n → stamp w nodes s a t = stamp w nodes s b t

variable {acts w}

theorem offerTurn_le {s : σ} {beats : List (Beat σ ν)} {k : ℕ} (h : offerTurn acts s beats = some k) :
    k ≤ ((beats.flatMap beatNodes).filter acts).length := by
  induction beats generalizing k with
  | nil => cases h
  | cons b beats ih =>
    cases b with
    | offer takes =>
      rw [offerTurn] at h
      split at h
      · cases h
        exact Nat.zero_le _
      · exact ih h
    | exec nodes =>
      obtain ⟨j, hj, rfl⟩ := Option.map_eq_some_iff.mp h
      have hle := ih hj
      simp only [List.flatMap_cons, beatNodes, List.filter_append, List.length_append,
        List.countP_eq_length_filter]
      omega

theorem stamp_append_left {ys : List ν} (zs : List ν) {s : σ} {a : Option ℕ}
    (ha : ∀ k ∈ a, k ≤ ys.length) (t : ℕ) : stamp w (ys ++ zs) s a t = stamp w ys s a t := by
  cases a with
  | none => rfl
  | some k =>
    have htake : (ys ++ zs).take k = ys.take k := List.take_append_of_le_length (ha k rfl)
    by_cases hk : k ≤ t
    · simp [stamp, Option.filter_some, hk, htake]
    · simp [stamp, Option.filter_some, hk]

theorem stamp_behind {ys : List ν} {s : σ} {a : Option ℕ} (ha : ∀ k ∈ a, k ≤ ys.length) {t : ℕ}
    (ht : ys.length ≤ t) : stamp w ys s a t = stamp w ys s a ys.length := by
  cases a with
  | none => rfl
  | some k =>
    have hk := ha k rfl
    simp only [stamp, Option.filter_some, hk, Nat.le_trans hk ht]

theorem stamp_shift (ys zs : List ν) (s : σ) (a : Option ℕ) (i : ℕ) :
    stamp w (ys ++ zs) s (a.map (ys.length + ·)) (ys.length + i) =
      (stamp w zs s a i).map (ys.countP (fun n => decide (w.writes n = w.source s)) + ·) := by
  cases a with
  | none => rfl
  | some k =>
    by_cases hk : k ≤ i
    · have htake : (ys ++ zs).take (ys.length + k) = ys ++ zs.take k := List.take_length_add_append k
      simp [stamp, Option.filter_some, hk, htake, List.countP_append]
    · simp [stamp, Option.filter_some, hk]

theorem stamp_ahead (nodes : List ν) (s : σ) (a : Option ℕ) {l t : ℕ} (ht : t < l) :
    stamp w nodes s (a.map (l + ·)) t = none := by
  cases a with
  | none => rfl
  | some k =>
    have hk : ¬ l + k ≤ t := by omega
    simp [stamp, Option.filter_some, hk]

theorem agreesAll_append_left {ys zs : List ν} {s : σ} {a b : Option ℕ} (ha : ∀ k ∈ a, k ≤ ys.length)
    (hb : ∀ k ∈ b, k ≤ ys.length) : AgreesAll w (ys ++ zs) s a b ↔ Agrees w ys zs s a b := by
  simp only [AgreesAll, Agrees, stamp_append_left zs ha, stamp_append_left zs hb]
  constructor
  · intro h
    refine ⟨fun i n hn hs => h i n ?_ hs, fun n hn hs => ?_⟩
    · rw [List.getElem?_append_left (List.getElem?_eq_some_iff.mp hn).1]
      exact hn
    · obtain ⟨j, hj⟩ := List.mem_iff_getElem?.mp hn
      have hget := h (ys.length + j) n (by rw [List.getElem?_append_right (by omega)]; simpa using hj) hs
      rwa [stamp_behind ha (by omega), stamp_behind hb (by omega)] at hget
  · rintro ⟨hin, hlater⟩ t n hn hs
    by_cases ht : t < ys.length
    · rw [List.getElem?_append_left ht] at hn
      exact hin t n hn hs
    · rw [List.getElem?_append_right (by omega)] at hn
      rw [stamp_behind ha (by omega), stamp_behind hb (by omega)]
      exact hlater n (List.mem_of_getElem? hn) hs

/-- A copy that the first stretch has nothing to do with. -/
theorem agreesAll_append_right (ys zs : List ν) (s : σ) (a b : Option ℕ) :
    AgreesAll w (ys ++ zs) s (a.map (ys.length + ·)) (b.map (ys.length + ·)) ↔ AgreesAll w zs s a b := by
  constructor
  · intro h t n hn hs
    have hget := h (ys.length + t) n
      (by rw [List.getElem?_append_right (by omega)]; simpa using hn) hs
    rw [stamp_shift, stamp_shift] at hget
    exact Option.map_injective (fun _ _ heq => Nat.add_left_cancel heq) hget
  · intro h t n hn hs
    by_cases ht : t < ys.length
    · rw [stamp_ahead _ _ _ ht, stamp_ahead _ _ _ ht]
    · obtain ⟨i, rfl⟩ := Nat.exists_eq_add_of_le (Nat.le_of_not_lt ht)
      rw [List.getElem?_append_right (by omega)] at hn
      rw [stamp_shift, stamp_shift, h i n (by simpa using hn) hs]

instance [DecidableEq σ] (n : ν) (s : σ) : Decidable (Sum.inr s ∈ w.reads n) :=
  decidable_of_iff ((w.reads n).any (fun o => decide (o = Sum.inr s)) = true) (by simp)

instance [DecidableEq σ] (nodes later : List ν) (s : σ) (a b : Option ℕ) :
    Decidable (Agrees w nodes later s a b) :=
  decidable_of_iff
    ((∀ y ∈ nodes.zipIdx, Sum.inr s ∈ w.reads y.1 → stamp w nodes s a y.2 = stamp w nodes s b y.2) ∧
      ∀ n ∈ later, Sum.inr s ∈ w.reads n →
        stamp w nodes s a nodes.length = stamp w nodes s b nodes.length) (by
    refine and_congr ⟨fun h i n hn => ?_, fun h y hy => ?_⟩ Iff.rfl
    · exact h (n, i) (List.mem_zipIdx_iff_getElem?.mpr hn)
    · exact h y.2 y.1 (List.mem_zipIdx_iff_getElem?.mp hy))

theorem agrees_refl (nodes later : List ν) (s : σ) (a : Option ℕ) : Agrees w nodes later s a a :=
  ⟨fun _ _ _ _ => rfl, fun _ _ _ => rfl⟩

theorem offerTurn_of_not_offers {p : Piece σ ν} {s : σ} (h : ¬ p.Offers s) :
    offerTurn acts s p.left = none ∧ offerTurn acts s p.right = none := by
  constructor
  · refine offerTurn_eq_none fun takes htakes => ?_
    by_contra hs
    exact h ⟨takes, Or.inl htakes, by simpa using hs⟩
  · refine offerTurn_eq_none fun takes htakes => ?_
    by_contra hs
    exact h ⟨takes, Or.inr htakes, by simpa using hs⟩

theorem agreesEach_of_not_offers {pieces : List (Piece σ ν)} {s : σ} (h : ∀ p ∈ pieces, ¬ p.Offers s) :
    AgreesEach acts w s pieces := by
  induction pieces with
  | nil => trivial
  | cons p pieces ih =>
    obtain ⟨hleft, hright⟩ : offerTurn acts s p.left = none ∧ offerTurn acts s p.right = none :=
      offerTurn_of_not_offers (h p (List.mem_cons_self ..))
    refine ⟨?_, ih fun q hq => h q (List.mem_cons_of_mem _ hq)⟩
    rw [hleft, hright]
    exact agrees_refl _ _ s none

/-- Two runs agree on their copies exactly if they do stretch by stretch, each copy being offered in
one stretch. -/
theorem agreesAll_pieces {pieces : List (Piece σ ν)}
    (hnodes : ∀ p ∈ pieces, (p.right.flatMap beatNodes).filter acts = p.nodes acts)
    (hoffers : pieces.Pairwise fun p q => ∀ s, p.Offers s → ¬ q.Offers s) (s : σ) :
    AgreesAll w (pieces.flatMap (Piece.nodes acts)) s (offerTurn acts s (pieces.flatMap Piece.left))
        (offerTurn acts s (pieces.flatMap Piece.right)) ↔
      AgreesEach acts w s pieces := by
  induction pieces with
  | nil => exact ⟨fun _ => trivial, fun _ t n hn => absurd hn (by simp)⟩
  | cons p pieces ih =>
    obtain ⟨hfirst, hrest⟩ := List.pairwise_cons.mp hoffers
    have hih := ih (fun q hq => hnodes q (List.mem_cons_of_mem _ hq)) hrest
    have hright := hnodes p (List.mem_cons_self ..)
    rw [List.flatMap_cons, List.flatMap_cons, List.flatMap_cons, offerTurn_append, offerTurn_append,
      List.countP_eq_length_filter, List.countP_eq_length_filter, hright, AgreesEach]
    by_cases hs : p.Offers s
    · have hnone : ∀ q ∈ pieces, ¬ q.Offers s := fun q hq => hfirst q hq s hs
      have hleft : offerTurn acts s (pieces.flatMap Piece.left) = none := by
        refine offerTurn_eq_none fun takes htakes => ?_
        obtain ⟨q, hq, hmem⟩ := List.mem_flatMap.mp htakes
        by_contra htaken
        exact hnone q hq ⟨takes, Or.inl hmem, by simpa using htaken⟩
      have hright' : offerTurn acts s (pieces.flatMap Piece.right) = none := by
        refine offerTurn_eq_none fun takes htakes => ?_
        obtain ⟨q, hq, hmem⟩ := List.mem_flatMap.mp htakes
        by_contra htaken
        exact hnone q hq ⟨takes, Or.inr hmem, by simpa using htaken⟩
      rw [hleft, hright']
      simp only [Option.map_none, Option.or_none]
      have hle : ∀ k ∈ offerTurn acts s p.left, k ≤ (p.nodes acts).length := fun k hk =>
        offerTurn_le hk
      have hle' : ∀ k ∈ offerTurn acts s p.right, k ≤ (p.nodes acts).length := by
        intro k hk
        rw [← hright]
        exact offerTurn_le hk
      rw [agreesAll_append_left hle hle']
      exact ⟨fun h => ⟨h, agreesEach_of_not_offers hnone⟩, And.left⟩
    · rw [(offerTurn_of_not_offers hs).1, (offerTurn_of_not_offers hs).2, Option.none_or,
        Option.none_or]
      exact (agreesAll_append_right _ _ s _ _).trans
        (hih.trans ⟨fun h => ⟨agrees_refl _ _ s none, h⟩, And.right⟩)

end pieces

section moments

variable [DecidableEq κ] {w : Wiring ν κ σ}

/-- The copy is made ahead of the `t`-th node. -/
def Behind (a : Option ℕ) (t : ℕ) : Prop := ∃ k, a = some k ∧ k ≤ t

@[simp] theorem not_behind_none (t : ℕ) : ¬ Behind none t := by simp [Behind]

@[simp] theorem behind_some {k t : ℕ} : Behind (some k) t ↔ k ≤ t :=
  ⟨fun ⟨_, h, hle⟩ => Option.some.inj h ▸ hle, fun h => ⟨k, rfl, h⟩⟩

theorem behind_map {a : Option ℕ} {l t : ℕ} : Behind (a.map (l + ·)) t ↔ l ≤ t ∧ Behind a (t - l) := by
  cases a with
  | none => simp
  | some k =>
    rw [Option.map_some, behind_some, behind_some]
    omega

theorem countP_take_eq_iff {p : ν → Bool} {l : List ν} {i j : ℕ} (hij : i ≤ j) :
    (l.take i).countP p = (l.take j).countP p ↔
      ∀ (k : ℕ) (x : ν), i ≤ k → k < j → l[k]? = some x → p x = false := by
  obtain ⟨d, rfl⟩ := Nat.exists_eq_add_of_le hij
  rw [List.take_add, List.countP_append, Nat.left_eq_add, List.countP_eq_zero]
  constructor
  · intro h k x hik hkj hx
    have hmem : x ∈ (l.drop i).take d := by
      refine List.mem_of_getElem? (i := k - i) ?_
      rw [List.getElem?_take_of_lt (by omega), List.getElem?_drop, Nat.add_sub_cancel' hik]
      exact hx
    simpa using h x hmem
  · intro h x hx
    obtain ⟨k, hk⟩ := List.mem_iff_getElem?.mp hx
    rw [List.getElem?_take] at hk
    split at hk
    · rename_i hlt
      rw [List.getElem?_drop] at hk
      simp [h (i + k) x (by omega) (by omega) hk]
    · cases hk

/-- Two moments show a node the same content of the source exactly if both are ahead of it or neither is,
and no node that writes the source is between them. -/
theorem stamp_eq_iff {nodes : List ν} {s : σ} {a b : Option ℕ} {t : ℕ} :
    stamp w nodes s a t = stamp w nodes s b t ↔ (Behind a t ↔ Behind b t) ∧
      (Behind a t → ∀ (j : ℕ) (n : ν), nodes[j]? = some n → w.writes n = w.source s →
        (Behind a j ↔ Behind b j)) := by
  have hnone : ∀ o : Option ℕ, ¬ Behind o t → stamp w nodes s o t = none := by
    intro o ho
    cases o with
    | none => rfl
    | some k => simp [stamp, Option.filter_some, mt behind_some.mpr ho]
  have hsome : ∀ k : ℕ, k ≤ t → stamp w nodes s (some k) t =
      some ((nodes.take k).countP fun n => decide (w.writes n = w.source s)) := by
    intro k hk
    simp [stamp, Option.filter_some, hk]
  by_cases ha : Behind a t
  · obtain ⟨k, rfl, hk⟩ := ha
    by_cases hb : Behind b t
    · obtain ⟨k', rfl, hk'⟩ := hb
      have hcount : (nodes.take k).countP (fun n => decide (w.writes n = w.source s)) =
          (nodes.take k').countP (fun n => decide (w.writes n = w.source s)) ↔
          ∀ (j : ℕ) (n : ν), nodes[j]? = some n → w.writes n = w.source s → (k ≤ j ↔ k' ≤ j) := by
        rcases Nat.le_total k k' with hle | hle
        · rw [countP_take_eq_iff hle]
          refine ⟨fun h j n hn hwrites => ⟨fun hj => ?_, fun hj => by omega⟩, fun h j n hj hj' hn => ?_⟩
          · by_contra hlt
            exact of_decide_eq_false (h j n hj (by omega) hn) hwrites
          · exact decide_eq_false fun hwrites => absurd ((h j n hn hwrites).mp hj) (by omega)
        · rw [eq_comm, countP_take_eq_iff hle]
          refine ⟨fun h j n hn hwrites => ⟨fun hj => by omega, fun hj => ?_⟩, fun h j n hj hj' hn => ?_⟩
          · by_contra hlt
            exact of_decide_eq_false (h j n hj (by omega) hn) hwrites
          · exact decide_eq_false fun hwrites => absurd ((h j n hn hwrites).mpr hj) (by omega)
      rw [hsome k hk, hsome k' hk', Option.some.injEq, hcount]
      simp only [behind_some, hk, hk', true_and, forall_const]
    · rw [hsome k hk, hnone b hb]
      simp [hk, hb]
  · rw [hnone a ha]
    by_cases hb : Behind b t
    · obtain ⟨k', rfl, hk'⟩ := hb
      rw [hsome k' hk']
      simp [ha, hk']
    · rw [hnone b hb]
      simp [ha, hb]

/-- No node that writes the source is between the moments. -/
def Unmoved (w : Wiring ν κ σ) (nodes : List ν) (s : σ) (a b : Option ℕ) : Prop :=
  ∀ (j : ℕ) (n : ν), nodes[j]? = some n → w.writes n = w.source s → (Behind a j ↔ Behind b j)

theorem agrees_iff {nodes later : List ν} {s : σ} {a b : Option ℕ} :
    Agrees w nodes later s a b ↔
      (∀ (i : ℕ) (n : ν), nodes[i]? = some n → Sum.inr s ∈ w.reads n →
        (Behind a i ↔ Behind b i) ∧ (Behind a i → Unmoved w nodes s a b)) ∧
      ∀ n ∈ later, Sum.inr s ∈ w.reads n → (Behind a nodes.length ↔ Behind b nodes.length) ∧
        (Behind a nodes.length → Unmoved w nodes s a b) := by
  simp only [Agrees, stamp_eq_iff, Unmoved]

theorem agrees_of_unread {nodes later : List ν} {s : σ} {a b : Option ℕ}
    (h : ∀ n, n ∈ nodes ∨ n ∈ later → Sum.inr s ∉ w.reads n) : Agrees w nodes later s a b :=
  ⟨fun _ n hn hs => absurd hs (h n (Or.inl (List.mem_of_getElem? hn))),
    fun n hn hs => absurd hs (h n (Or.inr hn))⟩

/-- Three parts run one after the other. The first moment is ahead of all of the first part or of none of
it, the second one is behind it, and nothing in the middle part reads the copy. -/
theorem agrees_iff_parts {first mid last later : List ν} {s : σ} {a b : Option ℕ} {early made served : Prop}
    {ahead alone : ν → Prop} (hfirst : ∀ i < first.length, (Behind a i ↔ early) ∧ ¬ Behind b i)
    (hmid : ∀ (i : ℕ) (n : ν), mid[i]? = some n →
      (Behind a (first.length + i) ↔ ahead n) ∧ (Behind b (first.length + i) ↔ alone n))
    (hlast : ∀ (i : ℕ) (n : ν), last[i]? = some n → (Behind a (first.length + (mid.length + i)) ↔ ahead n) ∧
      (Behind b (first.length + (mid.length + i)) ↔ alone n))
    (hend : (Behind a (first ++ (mid ++ last)).length ↔ made) ∧
      (Behind b (first ++ (mid ++ last)).length ↔ served))
    (hreads : ∀ n ∈ mid, Sum.inr s ∉ w.reads n) (halone : ∀ n ∈ last, Sum.inr s ∈ w.reads n → alone n) :
    Agrees w (first ++ (mid ++ last)) later s a b ↔
      (∀ n ∈ first, Sum.inr s ∈ w.reads n → ¬ early) ∧
      (∀ n ∈ last, Sum.inr s ∈ w.reads n → ahead n ∧
        (∀ n ∈ first, w.writes n = w.source s → ¬ early) ∧
          ∀ n ∈ mid ++ last, w.writes n = w.source s → (ahead n ↔ alone n)) ∧
      ∀ n ∈ later, Sum.inr s ∈ w.reads n → (made ↔ served) ∧
        (made → (∀ n ∈ first, w.writes n = w.source s → ¬ early) ∧
          ∀ n ∈ mid ++ last, w.writes n = w.source s → (ahead n ↔ alone n)) := by
  have hparts : ∀ {i : ℕ} {n : ν}, (first ++ (mid ++ last))[i]? = some n →
      i < first.length ∧ n ∈ first ∨
        (∃ k, i = first.length + k ∧ mid[k]? = some n) ∨
          ∃ k, i = first.length + (mid.length + k) ∧ last[k]? = some n := by
    intro i n hn
    by_cases hi : i < first.length
    · rw [List.getElem?_append_left hi] at hn
      exact Or.inl ⟨hi, List.mem_of_getElem? hn⟩
    · rw [List.getElem?_append_right (Nat.le_of_not_lt hi)] at hn
      by_cases hk : i - first.length < mid.length
      · rw [List.getElem?_append_left hk] at hn
        exact Or.inr (Or.inl ⟨i - first.length, by omega, hn⟩)
      · rw [List.getElem?_append_right (Nat.le_of_not_lt hk)] at hn
        exact Or.inr (Or.inr ⟨i - first.length - mid.length, by omega, hn⟩)
  have hget₁ : ∀ {k : ℕ} {n : ν}, first[k]? = some n → (first ++ (mid ++ last))[k]? = some n := by
    intro k n hn
    rw [List.getElem?_append_left (List.getElem?_eq_some_iff.mp hn).1, hn]
  have hget₂ : ∀ {k : ℕ} {n : ν}, mid[k]? = some n → (first ++ (mid ++ last))[first.length + k]? = some n := by
    intro k n hn
    rw [List.getElem?_append_right (Nat.le_add_right _ _), Nat.add_sub_cancel_left,
      List.getElem?_append_left (List.getElem?_eq_some_iff.mp hn).1, hn]
  have hget₃ : ∀ {k : ℕ} {n : ν}, last[k]? = some n →
      (first ++ (mid ++ last))[first.length + (mid.length + k)]? = some n := by
    intro k n hn
    rw [List.getElem?_append_right (Nat.le_add_right _ _), Nat.add_sub_cancel_left,
      List.getElem?_append_right (Nat.le_add_right _ _), Nat.add_sub_cancel_left, hn]
  have hunmoved : Unmoved w (first ++ (mid ++ last)) s a b ↔
      (∀ n ∈ first, w.writes n = w.source s → ¬ early) ∧
        ∀ n ∈ mid ++ last, w.writes n = w.source s → (ahead n ↔ alone n) := by
    constructor
    · intro h
      refine ⟨fun n hn hwrites hearly => ?_, fun n hn hwrites => ?_⟩
      · obtain ⟨k, hk⟩ := List.mem_iff_getElem?.mp hn
        obtain ⟨hleft, hright⟩ := hfirst k (List.getElem?_eq_some_iff.mp hk).1
        exact hright ((h k n (hget₁ hk) hwrites).mp (hleft.mpr hearly))
      · rcases List.mem_append.mp hn with hn | hn
        · obtain ⟨k, hk⟩ := List.mem_iff_getElem?.mp hn
          rw [← (hmid k n hk).1, ← (hmid k n hk).2]
          exact h _ n (hget₂ hk) hwrites
        · obtain ⟨k, hk⟩ := List.mem_iff_getElem?.mp hn
          rw [← (hlast k n hk).1, ← (hlast k n hk).2]
          exact h _ n (hget₃ hk) hwrites
    · rintro ⟨hearly, hsame⟩ j n hn hwrites
      rcases hparts hn with ⟨hj, hmem⟩ | ⟨k, rfl, hk⟩ | ⟨k, rfl, hk⟩
      · obtain ⟨hleft, hright⟩ := hfirst j hj
        exact iff_of_false (fun h => hearly n hmem hwrites (hleft.mp h)) hright
      · rw [(hmid k n hk).1, (hmid k n hk).2]
        exact hsame n (List.mem_append_left _ (List.mem_of_getElem? hk)) hwrites
      · rw [(hlast k n hk).1, (hlast k n hk).2]
        exact hsame n (List.mem_append_right _ (List.mem_of_getElem? hk)) hwrites
  rw [agrees_iff, hunmoved, hend.1, hend.2]
  constructor
  · rintro ⟨hnodes, hlater⟩
    refine ⟨fun n hn hread hearly => ?_, fun n hn hread => ?_, hlater⟩
    · obtain ⟨k, hk⟩ := List.mem_iff_getElem?.mp hn
      obtain ⟨hleft, hright⟩ := hfirst k (List.getElem?_eq_some_iff.mp hk).1
      exact hright ((hnodes k n (hget₁ hk) hread).1.mp (hleft.mpr hearly))
    · obtain ⟨k, hk⟩ := List.mem_iff_getElem?.mp hn
      obtain ⟨hleft, hright⟩ := hlast k n hk
      obtain ⟨hsame, hkept⟩ := hnodes _ n (hget₃ hk) hread
      have hbehind := hsame.mpr (hright.mpr (halone n hn hread))
      exact ⟨hleft.mp hbehind, hkept hbehind⟩
  · rintro ⟨hnot, hnodes, hlater⟩
    refine ⟨fun i n hn hread => ?_, hlater⟩
    rcases hparts hn with ⟨hi, hmem⟩ | ⟨k, rfl, hk⟩ | ⟨k, rfl, hk⟩
    · obtain ⟨hleft, hright⟩ := hfirst i hi
      have hno : ¬ Behind a i := fun h => hnot n hmem hread (hleft.mp h)
      exact ⟨iff_of_false hno hright, fun h => absurd h hno⟩
    · exact absurd hread (hreads n (List.mem_of_getElem? hk))
    · obtain ⟨hleft, hright⟩ := hlast k n hk
      have hmem := List.mem_of_getElem? hk
      obtain ⟨hahead, hkept⟩ := hnodes n hmem hread
      exact ⟨iff_of_true (hleft.mpr hahead) (hright.mpr (halone n hmem hread)), fun _ => hkept⟩

/-- Moments that are ahead of the same nodes up to one that both are ahead of. -/
theorem eq_of_behind {a b : Option ℕ} {t : ℕ} (ha : Behind a t) (h : ∀ i ≤ t, (Behind a i ↔ Behind b i)) :
    a = b := by
  obtain ⟨k, rfl, hk⟩ := ha
  obtain ⟨k', rfl, hk'⟩ := (h t (Nat.le_refl t)).mp (behind_some.mpr hk)
  have hle := (h k hk).mp (behind_some.mpr (Nat.le_refl k))
  have hge := (h k' hk').mpr (behind_some.mpr (Nat.le_refl k'))
  rw [behind_some] at hle hge
  rw [Nat.le_antisymm hge hle]

end moments
end CopyMemory
end StreamMoE
