import Glr.Proofs.Derivation
import Glr.Proofs.Growth

/-!
# What a kernel predicts

The closure of a kernel holds, beside the kernel, the items that begin the productions of every
predicted nonterminal.  Two facts about it carry all that is said of the automaton later.  The
prediction is complete: a nonterminal right of a dot in the closure is predicted, so its
productions are all there (`predicted_of_next`).  And it is sound: nothing is predicted that does
not stand right of some dot (`exists_next_of_predicted`), so a state that has an item from the
start of a production also has a move on its left side.
-/

namespace Glr

namespace SymbolBits

theorem mem_below {set : SymbolBits} {bound : Nat} {s : Symbol} :
    s ∈ set.below bound ↔ s < bound ∧ set.contains s = true := by
  rw [below, List.mem_filter, List.mem_range]

theorem contains_foldl_insert {symbols : List Symbol} {set : SymbolBits} {s : Symbol} :
    (symbols.foldl insert set).contains s = true ↔ set.contains s = true ∨ s ∈ symbols := by
  have adds : ∀ (set : SymbolBits) t, (set.insert t).contains s = true ↔
      set.contains s = true ∨ t = s := by
    intro set t
    rw [contains_insert, Bool.or_eq_true, decide_eq_true_eq]
  rw [foldl_iff (P := fun set : SymbolBits => set.contains s = true) adds]
  simp

theorem contains_ofList {symbols : List Symbol} {s : Symbol} :
    (ofList symbols).contains s = true ↔ s ∈ symbols := by
  rw [ofList, contains_foldl_insert, contains_empty]
  simp

end SymbolBits

namespace FlatGrammar

variable {g : FlatGrammar}

theorem rhs_eq {p : ProductionId} {production : FlatProduction}
    (h : g.productions[p]? = some production) : g.rhs p = production.rhs := by
  rw [rhs, h]

theorem rhs_augmented : g.rhs g.augmented = [g.start] := by
  simp [rhs, augmented]

theorem WellFormed.lt_of_mem_rhs (wf : g.WellFormed) {p : ProductionId} {s : Symbol}
    (h : s ∈ g.rhs p) : s < g.symbols.size := by
  rw [rhs] at h
  split at h
  · next production hp => exact wf.rhs_lt production (Array.mem_of_getElem? hp) s h
  · rw [List.mem_singleton] at h
    exact h ▸ wf.start_lt

end FlatGrammar

namespace Item

variable {g : FlatGrammar} {item : Item}

theorem rest_eq_cons {s : Symbol} (h : item.next? g = some s) :
    item.rest g = s :: item.advance.rest g := by
  rw [next?, List.head?_eq_some_iff] at h
  obtain ⟨after, h⟩ := h
  have tail : (item.rest g).tail = item.advance.rest g := by
    rw [rest, List.tail_drop]
    rfl
  rw [← tail, h, List.tail_cons]

theorem next?_lt (wf : g.WellFormed) {s : Symbol} (h : item.next? g = some s) :
    s < g.symbols.size := by
  have mem : s ∈ item.rest g := by
    rw [rest_eq_cons h]
    exact List.mem_cons_self
  exact wf.lt_of_mem_rhs (List.mem_of_mem_drop mem)

end Item

namespace Automaton

variable {g : FlatGrammar} {kernel : List Item}

/-- The items beside the kernel begin the productions of the predicted nonterminals. -/
theorem mem_closure {item : Item} :
    item ∈ closure g kernel ↔ item ∈ kernel ∨
      ∃ p production, g.productions[p]? = some production ∧
        (predicted g kernel).contains production.lhs = true ∧ item = Item.start p := by
  rw [closure, List.mem_append, List.mem_filterMap]
  refine or_congr_right ⟨?_, ?_⟩
  · rintro ⟨p, -, h⟩
    split at h
    · next production hp =>
      split at h
      · next hs => exact ⟨p, production, hp, hs, (Option.some.inj h).symm⟩
      · cases h
    · cases h
  · rintro ⟨p, production, hp, hs, rfl⟩
    have hlt : p < g.productions.size := (Array.getElem?_eq_some_iff.mp hp).1
    exact ⟨p, List.mem_range.mpr hlt, by simp only [hp, hs, if_true]⟩

/-! ## The prediction is complete -/

theorem predictFrom_up (wf : g.WellFormed) (set : SymbolBits) (item : Item) :
    SymbolBits.Grows g.symbols.size set (predictFrom g set item) := by
  rw [predictFrom]
  split
  · next s hs =>
    split
    · exact (SymbolBits.growth _).refl set
    · exact SymbolBits.Grows.insert set (Item.next?_lt wf hs)
  · exact (SymbolBits.growth _).refl set

theorem contains_predictFrom {set : SymbolBits} {item : Item} {s : Symbol}
    (hs : item.next? g = some s) (nonterminal : g.isTerminal s = false) :
    (predictFrom g set item).contains s = true := by
  simp [predictFrom, hs, nonterminal]

/-- One step of a round: look at one production. -/
def predictStep (g : FlatGrammar) (set : SymbolBits) (p : ProductionId) : SymbolBits :=
  match g.productions[p]? with
  | some production =>
    if set.contains production.lhs then predictFrom g set (Item.start p) else set
  | none => set

theorem predictRound_eq (set : SymbolBits) :
    predictRound g set = (List.range g.productions.size).foldl (predictStep g) set := rfl

theorem predictStep_up (wf : g.WellFormed) (set : SymbolBits) (p : ProductionId) :
    SymbolBits.Grows g.symbols.size set (predictStep g set p) := by
  rw [predictStep]
  split
  · split
    · exact predictFrom_up wf set _
    · exact (SymbolBits.growth _).refl set
  · exact (SymbolBits.growth _).refl set

theorem predictRound_up (wf : g.WellFormed) (set : SymbolBits) :
    SymbolBits.Grows g.symbols.size set (predictRound g set) :=
  foldl_up (SymbolBits.growth _) (P := fun _ => True) (fun a _ p _ => predictStep_up wf a p)
    (fun _ _ _ _ => trivial) trivial

theorem predictRound_predicted (wf : g.WellFormed) :
    predictRound g (predicted g kernel) = predicted g kernel :=
  saturate_fixed (SymbolBits.growth _) (P := fun _ => True)
    (fun a _ => predictRound_up wf a) (fun _ _ => trivial)
    (fun a _ => SymbolBits.rank_le_bound _ a) trivial (by omega)

theorem predictStep_predicted (wf : g.WellFormed) {p : ProductionId}
    (hp : p < g.productions.size) :
    predictStep g (predicted g kernel) p = predicted g kernel :=
  foldl_fixed (SymbolBits.growth _) (P := fun _ => True)
    (fun a _ q _ => predictStep_up wf a q) (fun _ _ _ _ => trivial) trivial
    (predictRound_predicted wf) p (List.mem_range.mpr hp)

/-- A nonterminal right of a dot of the kernel is predicted from the start. -/
theorem contains_kernel_next (wf : g.WellFormed) {items : List Item} {set : SymbolBits}
    {item : Item} (mem : item ∈ items) {s : Symbol} (hs : item.next? g = some s)
    (nonterminal : g.isTerminal s = false) :
    (items.foldl (predictFrom g) set).contains s = true := by
  have up : ∀ (items : List Item) (set : SymbolBits),
      SymbolBits.Grows g.symbols.size set (items.foldl (predictFrom g) set) := fun items set =>
    foldl_up (SymbolBits.growth _) (P := fun _ => True) (fun a _ i _ => predictFrom_up wf a i)
      (fun _ _ _ _ => trivial) trivial
  induction items generalizing set with
  | nil => exact absurd mem List.not_mem_nil
  | cons i items ih =>
    rw [List.foldl_cons]
    rcases List.mem_cons.mp mem with rfl | mem
    · exact (up items _).1 s (contains_predictFrom hs nonterminal)
    · exact ih mem

/-- A nonterminal right of a dot in the closure is predicted. -/
theorem predicted_of_next (wf : g.WellFormed) {item : Item} (mem : item ∈ closure g kernel)
    {s : Symbol} (hs : item.next? g = some s) (nonterminal : g.isTerminal s = false) :
    (predicted g kernel).contains s = true := by
  rcases mem_closure.mp mem with hk | ⟨p, production, hp, hl, rfl⟩
  · have above : SymbolBits.Grows g.symbols.size _ (predicted g kernel) :=
      saturate_above (SymbolBits.growth _) (P := fun _ => True)
        (fun a _ => predictRound_up wf a) (fun _ _ => trivial) trivial
    exact above.1 s (contains_kernel_next wf hk hs nonterminal)
  · have fixed : predictStep g (predicted g kernel) p = predicted g kernel :=
      predictStep_predicted wf (Array.getElem?_eq_some_iff.mp hp).1
    simp only [predictStep, hp, hl, if_true] at fixed
    rw [← fixed]
    exact contains_predictFrom hs nonterminal

/-- Every production of a nonterminal right of a dot begins in the closure. -/
theorem start_mem_closure (wf : g.WellFormed) {item : Item} (mem : item ∈ closure g kernel)
    {p : ProductionId} {production : FlatProduction} (hp : g.productions[p]? = some production)
    (hs : item.next? g = some production.lhs) : Item.start p ∈ closure g kernel := by
  have nonterminal := wf.lhs_nonterminal production (Array.mem_of_getElem? hp)
  exact mem_closure.mpr (Or.inr ⟨p, production, hp, predicted_of_next wf mem hs nonterminal, rfl⟩)

/-! ## The prediction is sound -/

/-- Every symbol of a set is a nonterminal right of a dot, in the kernel or at the start of a
production of a nonterminal in the set. -/
def Grounded (g : FlatGrammar) (kernel : List Item) (set : SymbolBits) : Prop :=
  ∀ s, set.contains s = true → g.isTerminal s = false ∧ ∃ item : Item, item.next? g = some s ∧
    (item ∈ kernel ∨ ∃ p production, g.productions[p]? = some production ∧
      set.contains production.lhs = true ∧ item = Item.start p)

theorem Grounded.predictFrom {set : SymbolBits} (h : Grounded g kernel set) {item : Item}
    (known : item ∈ kernel ∨ ∃ p production, g.productions[p]? = some production ∧
      set.contains production.lhs = true ∧ item = Item.start p) :
    Grounded g kernel (predictFrom g set item) := by
  rw [Automaton.predictFrom]
  split
  · next t ht =>
    split
    · exact h
    · next nonterminal =>
      have widen : ∀ {i : Item}, (i ∈ kernel ∨ ∃ p production,
          g.productions[p]? = some production ∧ set.contains production.lhs = true ∧
            i = Item.start p) →
          i ∈ kernel ∨ ∃ p production, g.productions[p]? = some production ∧
            (set.insert t).contains production.lhs = true ∧ i = Item.start p := by
        rintro i (hk | ⟨p, production, hp, hl, rfl⟩)
        · exact Or.inl hk
        · exact Or.inr ⟨p, production, hp, by simp [hl], rfl⟩
      intro s hs
      rw [SymbolBits.contains_insert, Bool.or_eq_true, decide_eq_true_eq] at hs
      rcases hs with hs | rfl
      · obtain ⟨hn, i, hi, hk⟩ := h s hs
        exact ⟨hn, i, hi, widen hk⟩
      · exact ⟨Bool.eq_false_iff.mpr nonterminal, item, ht, widen known⟩
  · exact h

theorem Grounded.predictStep {set : SymbolBits} (h : Grounded g kernel set) (p : ProductionId) :
    Grounded g kernel (predictStep g set p) := by
  rw [Automaton.predictStep]
  split
  · next production hp =>
    split
    · next hl => exact h.predictFrom (Or.inr ⟨p, production, hp, hl, rfl⟩)
    · exact h
  · exact h

theorem grounded_predicted : Grounded g kernel (predicted g kernel) := by
  refine saturate_keeps (fun set h => ?_) ?_
  · rw [predictRound_eq]
    exact foldl_keeps (fun a ha p _ => ha.predictStep p) h
  · refine foldl_keeps (P := Grounded g kernel) (fun a ha item mem => ?_) ?_
    · exact ha.predictFrom (Or.inl mem)
    · intro s hs
      rw [SymbolBits.contains_empty] at hs
      cases hs

/-- What is predicted stands right of a dot in the closure. -/
theorem exists_next_of_predicted {s : Symbol} (h : (predicted g kernel).contains s = true) :
    ∃ item ∈ closure g kernel, item.next? g = some s := by
  obtain ⟨-, item, hs, hk⟩ := grounded_predicted s h
  exact ⟨item, mem_closure.mpr hk, hs⟩

end Automaton

end Glr
