import Glr.Proofs.Lowered
import Glr.Proofs.Rows
import Mathlib

/-!
# How precedence settles a cell

A cell of the tables is what precedence and associativity leave of the candidates that the items of
a state put into it.  Here the candidates are named by the items themselves: the productions that
stand before the terminal (`Shifts`), those read to their end in front of it (`Completes`), and of
these the ones of the highest precedence (`Leads`).  What is left is said in these terms only
(`Resolves`), so that nothing of how a cell is put together or settled shows.

One thing comes out otherwise than the grammar declares it.  The level of a shift is looked for from
zero upwards, and where all productions to be shifted are of a negative level the shift counts as
one of level zero.  That is a difference just where the reductions stand between the two levels
(`settled_as_declared_iff`): they lose to a shift that is declared to be below them.
-/

namespace Glr

/-- The order of the actions in a cell. -/
def Action.Before : Action → Action → Prop
  | .accept, .shift _ => True
  | .accept, .reduce _ => True
  | .shift _, .reduce _ => True
  | .reduce p, .reduce q => p < q
  | _, _ => False

/-! ## Settling a cell -/

namespace Cell

variable {g : FlatGrammar} {cell : Cell}

theorem foldl_max {n : Int} : ∀ {levels : List Int} (base : Int), n ∈ levels →
    (∀ m ∈ levels, m ≤ n) → levels.foldl max base = max base n
  | m :: levels, base, mem, le => by
    have later : ∀ m ∈ levels, m ≤ n := fun k hk => le k (List.mem_cons_of_mem m hk)
    have here := le m List.mem_cons_self
    rw [List.foldl_cons]
    by_cases again : n ∈ levels
    · rw [foldl_max _ again later]
      omega
    · obtain rfl : n = m := (List.mem_cons.mp mem).resolve_right again
      have rest : ∀ {levels : List Int} {base : Int}, (∀ m ∈ levels, m ≤ base) →
          levels.foldl max base = base := by
        intro levels
        induction levels with
        | nil => exact fun _ => rfl
        | cons k levels ih =>
          intro base le
          have := le k List.mem_cons_self
          rw [List.foldl_cons, show max base k = base by omega]
          exact ih fun m hm => le m (List.mem_cons_of_mem k hm)
      exact rest fun k hk => Int.le_trans (later k hk) (Int.le_max_right base n)

/-- The level of a shift is that of the highest of its productions, or zero. -/
theorem shiftLevel_eq {n : Int} (mem : ∃ p ∈ cell.shifters, levelOf g p = n)
    (le : ∀ p ∈ cell.shifters, levelOf g p ≤ n) : cell.shiftLevel g = max 0 n := by
  refine foldl_max 0 (List.mem_map.mpr mem) fun m hm => ?_
  obtain ⟨p, hp, rfl⟩ := List.mem_map.mp hm
  exact le p hp

theorem isHighest_iff {reduces : List ProductionId} {p : ProductionId} :
    isHighest g reduces p = true ↔ ∀ q ∈ reduces, levelOf g q ≤ levelOf g p := by
  simp [isHighest]

theorem beatsShift_iff {level : Int} {p : ProductionId} :
    beatsShift g level p = true ↔
      level < levelOf g p ∨ levelOf g p = level ∧ assocOf g p = .left := by
  simp [beatsShift]

theorem yieldsToShift_eq_false_iff {level : Int} {p : ProductionId} :
    yieldsToShift g level p = false ↔
      level < levelOf g p ∨ levelOf g p = level ∧ assocOf g p ≠ .right := by
  rw [yieldsToShift, Bool.or_eq_false_iff, decide_eq_false_iff_not, Bool.and_eq_false_iff,
    beq_eq_false_iff_ne, beq_eq_false_iff_ne]
  constructor
  · rintro ⟨notLess, unequal | kept⟩
    · exact .inl (by omega)
    · by_cases more : level < levelOf g p
      · exact .inl more
      · exact .inr ⟨by omega, kept⟩
  · rintro (more | ⟨same, kept⟩)
    · exact ⟨by omega, .inl (by omega)⟩
    · exact ⟨by omega, .inr kept⟩

theorem accepts_settle : (cell.settle g).accepts = cell.accepts := by
  rw [settle]
  split <;> rfl

theorem mem_reduces_settle {p : ProductionId} :
    p ∈ (cell.settle g).reduces ↔
      (p ∈ cell.reduces ∧ ∀ q ∈ cell.reduces, levelOf g q ≤ levelOf g p) ∧
        (cell.shift ≠ none → yieldsToShift g (cell.shiftLevel g) p = false) := by
  rw [settle]
  split
  · next noShift =>
    rw [List.mem_filter, isHighest_iff]
    exact (and_iff_left fun h => absurd noShift h).symm
  · next j shift =>
    rw [List.mem_filter, List.mem_filter, isHighest_iff, Bool.not_eq_true']
    refine and_congr_right fun _ => ⟨fun h _ => h, fun h => h ?_⟩
    rw [shift]
    exact Option.some_ne_none j

theorem shift_settle {j : StateId} :
    (cell.settle g).shift = some j ↔ cell.shift = some j ∧
      ∀ p, (p ∈ cell.reduces ∧ ∀ q ∈ cell.reduces, levelOf g q ≤ levelOf g p) →
        beatsShift g (cell.shiftLevel g) p = false := by
  rw [settle]
  split
  · next noShift =>
    rw [noShift]
    have ne : none ≠ some j := (Option.some_ne_none j).symm
    exact iff_of_false ne fun h => ne h.1
  · next k shift =>
    dsimp only
    split
    · next beaten =>
      obtain ⟨p, hp, beats⟩ := List.any_eq_true.mp beaten
      rw [List.mem_filter, isHighest_iff] at hp
      refine iff_of_false (Option.some_ne_none j).symm fun h => ?_
      rw [h.2 p hp] at beats
      exact Bool.false_ne_true beats
    · next unbeaten =>
      rw [Bool.not_eq_true, List.any_eq_false] at unbeaten
      refine (and_iff_left fun p hp => ?_).symm
      rw [← Bool.not_eq_true]
      exact unbeaten p (by rwa [List.mem_filter, isHighest_iff])

theorem reduces_settle_sublist : (cell.settle g).reduces.Sublist cell.reduces := by
  rw [settle]
  split
  · exact List.filter_sublist
  · exact List.filter_sublist.trans List.filter_sublist

theorem pairwise_actions (ascending : cell.reduces.Pairwise (· < ·)) :
    cell.actions.Pairwise Action.Before := by
  rw [actions, List.pairwise_append, List.pairwise_append, List.pairwise_map]
  refine ⟨⟨?_, ?_, ?_⟩, ascending, ?_⟩
  · split <;> simp
  · cases cell.shift <;> simp
  · intro x hx y hy
    obtain ⟨-, rfl⟩ : cell.accepts = true ∧ x = .accept := by
      split at hx
      · next accepts => exact ⟨accepts, List.mem_singleton.mp hx⟩
      · exact absurd hx List.not_mem_nil
    obtain ⟨j, -, rfl⟩ := Option.map_eq_some_iff.mp (Option.mem_toList.mp hy)
    trivial
  · intro x hx y hy
    obtain ⟨p, -, rfl⟩ := List.mem_map.mp hy
    rcases List.mem_append.mp hx with hx | hx
    · split at hx
      · rw [List.mem_singleton.mp hx]
        trivial
      · exact absurd hx List.not_mem_nil
    · obtain ⟨j, -, rfl⟩ := Option.map_eq_some_iff.mp (Option.mem_toList.mp hx)
      trivial

/-- Something is left of a cell with a candidate: a reduction that drives out the shift stays. -/
theorem settle_ne_nil (some : cell.actions ≠ []) : (cell.settle g).actions ≠ [] := by
  have of_mem {action : Action} (h : action ∈ (cell.settle g).actions) :
      (cell.settle g).actions ≠ [] := List.ne_nil_of_mem h
  by_cases accepts : cell.accepts = true
  · exact of_mem (mem_actions_accept.mpr (accepts_settle.trans accepts))
  have atLevel : ∀ {p}, p ∈ cell.reduces.argmax (levelOf g) →
      p ∈ cell.reduces ∧ ∀ q ∈ cell.reduces, levelOf g q ≤ levelOf g p :=
    fun hp => ⟨List.argmax_mem hp, fun q hq => List.le_of_mem_argmax hq hp⟩
  cases shift : cell.shift with
  | none =>
    cases best : cell.reduces.argmax (levelOf g) with
    | none =>
      have empty := List.argmax_eq_none.mp best
      exact absurd (by simp [actions, accepts, shift, empty]) some
    | some p =>
      exact of_mem (mem_actions_reduce.mpr
        (mem_reduces_settle.mpr ⟨atLevel best, fun h => absurd shift h⟩))
  | some j =>
    by_cases stays : (cell.settle g).shift = Option.some j
    · exact of_mem (mem_actions_shift.mpr stays)
    · rw [shift_settle] at stays
      push Not at stays
      obtain ⟨p, highest, beats⟩ := stays shift
      refine of_mem (mem_actions_reduce.mpr (mem_reduces_settle.mpr ⟨highest, fun _ => ?_⟩))
      rw [yieldsToShift_eq_false_iff]
      rcases beatsShift_iff.mp (Bool.eq_true_of_not_eq_false beats) with above | same
      · exact Or.inl above
      · refine Or.inr (same.imp_right fun left => ?_)
        simp [left]

end Cell

/-! ## The items of a state are distinct -/

namespace Automaton

variable {g : FlatGrammar} {kernel : List Item}

/-- The items of a kernel are distinct, and none of them is predicted. -/
structure Distinct (g : FlatGrammar) (kernel : List Item) : Prop where
  nodup : kernel.Nodup
  start : ∀ item ∈ kernel, item.dot = 0 → item.production = g.augmented

theorem Distinct.closure (h : Distinct g kernel) : (closure g kernel).Nodup := by
  rw [Automaton.closure, List.nodup_append]
  refine ⟨h.nodup, ?_, ?_⟩
  · rw [List.Nodup, List.pairwise_filterMap]
    refine List.nodup_range.imp fun {p q} ne item hp item' hq => ?_
    have production : item.production = p ∧ item'.production = q := by grind [Item.start]
    rintro rfl
    exact ne (production.1.symm.trans production.2)
  · rintro item known item' predicted rfl
    obtain ⟨p, hp, found⟩ := List.mem_filterMap.mp predicted
    have first : item = Item.start p := by grind
    have := h.start item known (first ▸ rfl)
    rw [first] at this
    obtain rfl : p = g.augmented := this
    exact absurd (List.mem_range.mp hp) (Nat.lt_irrefl _)

theorem Distinct.core (h : Distinct g kernel) (s : Symbol) :
    Distinct g (core g (Automaton.closure g kernel) s) where
  nodup := by
    rw [Automaton.core, (List.mergeSort_perm ..).nodup_iff]
    refine (h.closure.filter _).map_on fun item _ item' _ same => ?_
    obtain ⟨p, n⟩ := item
    obtain ⟨q, m⟩ := item'
    simpa [Item.advance] using same
  start item mem first := by
    obtain ⟨before, -, -, rfl⟩ := mem_core.mp mem
    exact absurd first (Nat.succ_ne_zero before.dot)

theorem nodup_explore :
    ∀ {fuel : Nat} {kernels : Array (List Item)} {done states : Array LrState},
      explore g kernels done fuel = .ok states →
      (∀ (i : StateId) kernel, kernels[i]? = some kernel → Distinct g kernel) →
      (∀ state ∈ done, state.items.Nodup) → ∀ state ∈ states, state.items.Nodup := by
  intro fuel
  induction fuel with
  | zero =>
    intro kernels done states h _ known
    rw [explore] at h
    cases h
    exact known
  | succ fuel ih =>
    intro kernels done states h distinct known
    rw [explore] at h
    split at h
    · cases h
      exact known
    · next kernel found =>
      obtain ⟨⟨moves, kernels'⟩, followed, h⟩ := of_bind_eq_ok h
      refine ih h (fun i kernel' hi => ?_) fun state mem => ?_
      · rcases (follow_followed followed).new i kernel' hi with old | ⟨s, rfl⟩
        · exact distinct i kernel' old
        · exact (distinct _ _ found).core s
      · rcases Array.mem_push.mp mem with mem | rfl
        · exact known state mem
        · exact (distinct _ _ found).closure

theorem nodup_items {a : Automaton} (h : ofGrammar g = .ok a) {i : StateId} {state : LrState}
    (hi : a.states[i]? = some state) : state.items.Nodup := by
  rw [ofGrammar] at h
  obtain ⟨states, explored, h⟩ := of_bind_eq_ok h
  cases h
  refine nodup_explore explored (fun i kernel hi => ?_) (by simp) state (Array.mem_of_getElem? hi)
  obtain ⟨hlt, rfl⟩ := Array.getElem?_eq_some_iff.mp hi
  obtain rfl : i = 0 := by simpa using hlt
  exact ⟨List.nodup_singleton _, fun item mem _ => List.mem_singleton.mp mem ▸ rfl⟩

end Automaton

/-! ## What the items of a state ask for -/

namespace FlatGrammar

open Cell (levelOf assocOf)

section Items

variable (g : FlatGrammar) (a : Automaton) (i : StateId) (state : LrState) (s : Symbol)

/-- A production with an item of the state whose dot stands before a symbol. -/
def Shifts (p : ProductionId) : Prop :=
  ∃ item ∈ state.items, item.next? g = some s ∧ item.production = p

/-- A production with an item of the state that is read to its end, a terminal being ahead. -/
def Completes (p : ProductionId) : Prop :=
  ∃ item ∈ state.items, item.next? g = none ∧ item.production = p ∧ p ≠ g.augmented ∧
    ((g.lookaheads a).ofItem g a i item).contains s = true

/-- A completed production of the highest precedence among them. -/
def Leads (p : ProductionId) : Prop :=
  g.Completes a i state s p ∧ ∀ q, g.Completes a i state s q → levelOf g q ≤ levelOf g p

/-- The highest precedence among the productions with their dot before a symbol. -/
def ShiftLevel (n : Int) : Prop :=
  (∃ p, g.Shifts state s p ∧ levelOf g p = n) ∧ ∀ p, g.Shifts state s p → levelOf g p ≤ n

/-- Everything is read, and the end of the text is ahead. -/
def Finishes : Prop :=
  s = Symbol.endOfText ∧ ∃ item ∈ state.items, item.next? g = none ∧ item.production = g.augmented

/-- What precedence and associativity leave of the shift and of the reductions, where a shift of a
given level counts as one of level `count level`. -/
structure Resolves (count : Int → Int) (actions : List Action) : Prop where
  reduce : ∀ p, .reduce p ∈ actions ↔ g.Leads a i state s p ∧ ∀ n, g.ShiftLevel state s n →
    count n < levelOf g p ∨ levelOf g p = count n ∧ assocOf g p ≠ .right
  shift : ∀ j, .shift j ∈ actions ↔ state.moves.lookup s = some j ∧
    ∀ p n, g.Leads a i state s p → g.ShiftLevel state s n →
      ¬(count n < levelOf g p ∨ levelOf g p = count n ∧ assocOf g p = .left)

end Items

variable {g : FlatGrammar} {t : Tables} {a : Automaton} {i : StateId} {state : LrState} {s : Symbol}

theorem ShiftLevel.eq {n m : Int} (h : g.ShiftLevel state s n) (h' : g.ShiftLevel state s m) :
    n = m := by
  obtain ⟨⟨p, hp, rfl⟩, le⟩ := h
  obtain ⟨⟨q, hq, rfl⟩, le'⟩ := h'
  exact Int.le_antisymm (le' p hp) (le q hq)

theorem Leads.level_eq {p q : ProductionId} (h : g.Leads a i state s p)
    (h' : g.Leads a i state s q) : levelOf g p = levelOf g q :=
  Int.le_antisymm (h'.2 p h.1) (h.2 q h'.1)

/-! ## The cell of a state on a terminal -/

theorem mem_reduces_cell {p : ProductionId} :
    p ∈ ((g.offer a i state).cell state s).reduces ↔ g.Completes a i state s p := by
  rw [Offer.cell, List.mem_mergeSort, List.mem_filterMap]
  constructor
  · rintro ⟨c, hc, found⟩
    split at found
    · next ahead =>
      cases found
      rcases Offer.mem_complete.mp hc with hc | ⟨item, mem, last, other, production, known⟩
      · exact absurd hc List.not_mem_nil
      · exact ⟨item, mem, last, production, production ▸ other, known ▸ ahead⟩
    · cases found
  · rintro ⟨item, mem, last, rfl, other, ahead⟩
    refine ⟨(item.production, (g.lookaheads a).ofItem g a i item), ?_, if_pos ahead⟩
    exact Offer.mem_complete.mpr (.inr ⟨item, mem, last, other, rfl, rfl⟩)

theorem mem_shifters_cell (terminal : g.isTerminal s = true) {p : ProductionId} :
    p ∈ ((g.offer a i state).cell state s).shifters ↔ g.Shifts state s p := by
  rw [Offer.cell, List.mem_filterMap]
  constructor
  · rintro ⟨m, hm, found⟩
    split at found
    · next here =>
      cases found
      rcases Offer.mem_shifting.mp hm with hm | ⟨item, mem, next, -, production⟩
      · exact absurd hm List.not_mem_nil
      · exact ⟨item, mem, here ▸ next, production⟩
    · cases found
  · rintro ⟨item, mem, next, rfl⟩
    refine ⟨(s, item.production), ?_, if_pos rfl⟩
    exact Offer.mem_shifting.mpr (.inr ⟨item, mem, next, terminal, rfl⟩)

theorem accepts_cell :
    ((g.offer a i state).cell state s).accepts = true ↔ g.Finishes state s := by
  rw [Offer.cell, Bool.and_eq_true, beq_iff_eq, and_comm]
  refine and_congr_right fun _ => Offer.accepts_iff.trans (or_iff_right ?_)
  exact Bool.false_ne_true

/-- What the items completed in a state offer, the last one first. -/
theorem complete_ofItems {lookahead : Item → SymbolBits} {items : List Item} (offer : Offer) :
    (Offer.ofItems g lookahead offer items).complete =
      (items.filterMap fun item =>
        if item.next? g = none ∧ item.production ≠ g.augmented then
          some (item.production, lookahead item)
        else none).reverse ++ offer.complete := by
  induction items generalizing offer with
  | nil => rfl
  | cons item items ih =>
    rw [Offer.ofItems, List.foldl_cons, ← Offer.ofItems, ih, Offer.addItem, List.filterMap_cons]
    cases next : item.next? g with
    | some s => dsimp only; split <;> simp
    | none => by_cases last : item.production = g.augmented <;> simp [last]

theorem pairwise_mergeSort_of_nodup {ps : List ProductionId} (distinct : ps.Nodup) :
    (ps.mergeSort (· ≤ ·)).Pairwise (· < ·) := by
  have sorted : (ps.mergeSort (· ≤ ·)).Pairwise fun p q => decide (p ≤ q) = true := by
    refine List.pairwise_mergeSort (fun p q r le le' => ?_) (fun p q => ?_) ps
    · exact decide_eq_true (Nat.le_trans (of_decide_eq_true le) (of_decide_eq_true le'))
    · rw [Bool.or_eq_true, decide_eq_true_eq, decide_eq_true_eq]
      exact Nat.le_total p q
  have nodup := (List.mergeSort_perm ps (· ≤ ·)).nodup_iff.mpr distinct
  exact (sorted.and nodup).imp fun ⟨le, ne⟩ => Nat.lt_of_le_of_ne (of_decide_eq_true le) ne

theorem ascending_cell (h : Automaton.ofGrammar g = .ok a) (hi : a.states[i]? = some state) :
    ((g.offer a i state).cell state s).reduces.Pairwise (· < ·) := by
  have co := Automaton.coherent_ofGrammar h
  -- A completed item is told by its production, its dot being at the end.
  have apart : state.items.Pairwise fun item item' =>
      item.next? g = none → item'.next? g = none → item.production ≠ item'.production := by
    have distinct := Automaton.nodup_items h hi
    refine distinct.imp_of_mem fun {item item'} mem mem' ne last last' same => ?_
    have dot {item : Item} (mem : item ∈ state.items) (last : item.next? g = none) :
        item.dot = (g.rhs item.production).length :=
      Nat.le_antisymm (co.dot_le hi mem) (List.drop_eq_nil_iff.mp (List.head?_eq_none_iff.mp last))
    refine ne ?_
    obtain ⟨p, n⟩ := item
    obtain ⟨q, m⟩ := item'
    obtain rfl : p = q := same
    obtain rfl : n = m := (dot mem last).trans (dot mem' last').symm
    rfl
  have distinct : ((g.offer a i state).complete.filterMap fun c =>
      if c.2.contains s then some c.1 else none).Nodup := by
    rw [offer, Offer.ofState, ← Offer.ofItems, complete_ofItems, Offer.empty, List.append_nil,
      List.Nodup, List.pairwise_filterMap, List.pairwise_reverse, List.pairwise_filterMap]
    refine apart.imp fun {item item'} ne c hc c' hc' p hp q hq => ?_
    grind
  exact pairwise_mergeSort_of_nodup distinct

/-- A production with its dot before a symbol stands there for the state to move on. -/
theorem shift_cell_iff (wf : g.WellFormed) (h : Automaton.ofGrammar g = .ok a)
    (hi : a.states[i]? = some state) :
    ((g.offer a i state).cell state s).shift ≠ none ↔ ∃ p, g.Shifts state s p := by
  have co := Automaton.coherent_ofGrammar h
  rw [Option.ne_none_iff_exists']
  constructor
  · rintro ⟨j, hj⟩
    obtain ⟨item, mem, next⟩ := (Automaton.mem_nexts wf).mp (co.move hi hj).1
    exact ⟨item.production, item, mem, next, rfl⟩
  · rintro ⟨p, item, mem, next, -⟩
    exact co.moves hi ((Automaton.mem_nexts wf).mpr ⟨item, mem, next⟩)

/-- Where there is a shift there is a highest level of it, and it counts as no less than zero. -/
theorem exists_shiftLevel (terminal : g.isTerminal s = true) (some : ∃ p, g.Shifts state s p) :
    ∃ n, g.ShiftLevel state s n ∧ ((g.offer a i state).cell state s).shiftLevel g = max 0 n := by
  obtain ⟨p, hp⟩ := some
  have mem := (mem_shifters_cell (a := a) (i := i) terminal).mpr hp
  cases best : ((g.offer a i state).cell state s).shifters.argmax (levelOf g) with
  | none =>
    rw [List.argmax_eq_none.mp best] at mem
    exact absurd mem List.not_mem_nil
  | some q =>
    have greatest : ∀ r ∈ ((g.offer a i state).cell state s).shifters,
        levelOf g r ≤ levelOf g q := fun r hr => List.le_of_mem_argmax hr best
    refine ⟨levelOf g q, ⟨⟨q, (mem_shifters_cell terminal).mp (List.argmax_mem best), rfl⟩,
      fun r hr => greatest r ((mem_shifters_cell terminal).mpr hr)⟩, ?_⟩
    exact Cell.shiftLevel_eq ⟨q, List.argmax_mem best, rfl⟩ greatest

theorem leads_iff {p : ProductionId} :
    (p ∈ ((g.offer a i state).cell state s).reduces ∧
      ∀ q ∈ ((g.offer a i state).cell state s).reduces, levelOf g q ≤ levelOf g p) ↔
      g.Leads a i state s p := by
  simp only [mem_reduces_cell, Leads]

/-! ## The actions of a table -/

namespace Tabulated

variable (tab : Tabulated g t a) (wf : g.WellFormed) (hi : a.states[i]? = some state)
  (terminal : g.isTerminal s = true)

include tab wf hi terminal

theorem actions_eq : t.actions i s = (((g.offer a i state).cell state s).settle g).actions := by
  rw [tab.actions s hi]
  split
  · rfl
  · next nothing =>
    rw [eq_comm, List.eq_nil_iff_forall_not_mem]
    intro action mem
    refine nothing (Offer.mem_terminals.mpr ⟨lt_of_isTerminal terminal, ?_⟩)
    have candidate := Cell.mem_of_mem_settle mem
    cases action with
    | accept =>
      have accepts := Cell.mem_actions_accept.mp candidate
      rw [Offer.cell, Bool.and_eq_true, beq_iff_eq] at accepts
      exact .inr (.inl accepts)
    | reduce p =>
      obtain ⟨item, mem, last, production, other, ahead⟩ :=
        mem_reduces_cell.mp (Cell.mem_actions_reduce.mp candidate)
      exact .inr (.inr ⟨(item.production, _),
        Offer.mem_complete.mpr (.inr ⟨item, mem, last, production ▸ other, rfl, rfl⟩), ahead⟩)
    | shift j =>
      have moves := Cell.mem_actions_shift.mp candidate
      obtain ⟨p, item, mem, next, production⟩ :=
        (shift_cell_iff wf tab.automaton hi).mp (by rw [moves]; exact Option.some_ne_none j)
      exact .inl ⟨p, Offer.mem_shifting.mpr (.inr ⟨item, mem, next, terminal, production⟩)⟩

theorem accept_iff : .accept ∈ t.actions i s ↔ g.Finishes state s := by
  rw [tab.actions_eq wf hi terminal, Cell.mem_actions_accept, Cell.accepts_settle, accepts_cell]

theorem pairwise_before : (t.actions i s).Pairwise Action.Before := by
  rw [tab.actions_eq wf hi terminal]
  exact Cell.pairwise_actions
    ((ascending_cell tab.automaton hi).sublist Cell.reduces_settle_sublist)

theorem actions_ne_nil (candidate : (∃ p, g.Shifts state s p) ∨
    (∃ p, g.Completes a i state s p) ∨ g.Finishes state s) : t.actions i s ≠ [] := by
  rw [tab.actions_eq wf hi terminal]
  refine Cell.settle_ne_nil ?_
  rcases candidate with shifts | ⟨p, completes⟩ | finishes
  · obtain ⟨j, hj⟩ :=
      Option.ne_none_iff_exists'.mp ((shift_cell_iff wf tab.automaton hi).mpr shifts)
    exact List.ne_nil_of_mem (Cell.mem_actions_shift.mpr hj)
  · exact List.ne_nil_of_mem (Cell.mem_actions_reduce.mpr (mem_reduces_cell.mpr completes))
  · exact List.ne_nil_of_mem (Cell.mem_actions_accept.mpr (accepts_cell.mpr finishes))

/-- A shift counts as one of level zero at least. -/
theorem resolves_raised : g.Resolves a i state s (max 0) (t.actions i s) := by
  rw [tab.actions_eq wf hi terminal]
  have shifts := shift_cell_iff (s := s) wf tab.automaton hi
  have level {n : Int} (hn : g.ShiftLevel state s n) :
      ((g.offer a i state).cell state s).shiftLevel g = max 0 n := by
    obtain ⟨m, hm, eq⟩ := exists_shiftLevel (a := a) (i := i) terminal (hn.1.imp fun _ => And.left)
    rw [eq, hm.eq hn]
  constructor
  · intro p
    rw [Cell.mem_actions_reduce, Cell.mem_reduces_settle, leads_iff, shifts]
    refine and_congr_right fun _ => ⟨fun h n hn => ?_, fun h some => ?_⟩
    · rw [← level hn, ← Cell.yieldsToShift_eq_false_iff]
      exact h (hn.1.imp fun _ => And.left)
    · obtain ⟨n, hn, eq⟩ := exists_shiftLevel (a := a) (i := i) terminal some
      rw [Cell.yieldsToShift_eq_false_iff, eq]
      exact h n hn
  · intro j
    rw [Cell.mem_actions_shift, Cell.shift_settle]
    refine and_congr_right fun moves => ⟨fun h p n hp hn => ?_, fun h p hp => ?_⟩
    · rw [← level hn, ← Cell.beatsShift_iff, h p (leads_iff.mpr hp)]
      exact Bool.false_ne_true
    · obtain ⟨n, hn, eq⟩ := exists_shiftLevel (a := a) (i := i) terminal
        (shifts.mp (by rw [moves]; exact Option.some_ne_none j))
      rw [← Bool.not_eq_true, Cell.beatsShift_iff, eq]
      exact h p n (leads_iff.mp hp) hn

end Tabulated

/-! ## Negative levels -/

/-- The reductions of the highest precedence fare alike against a shift of a level below zero and
against one of level zero: they are above both or below both, or on one of the two, where their
associativities make up for it. -/
def FareAlike (g : FlatGrammar) (a : Automaton) (i : StateId) (state : LrState) (s : Symbol)
    (n : Int) : Prop :=
  ∀ p, g.Leads a i state s p → 0 < levelOf g p ∨ levelOf g p < n ∨
    (levelOf g p = 0 ∧ (∀ q, g.Leads a i state s q → assocOf g q ≠ .right) ∧
      ∃ q, g.Leads a i state s q ∧ assocOf g q = .left) ∨
    (levelOf g p = n ∧ ∀ q, g.Leads a i state s q → assocOf g q = .right)

section Declared

variable {actions : List Action} (raised : g.Resolves a i state s (max 0) actions)

include raised

theorem fareAlike_of_resolves (declared : g.Resolves a i state s id actions) {j : StateId}
    (moves : state.moves.lookup s = some j) {n : Int} (hn : g.ShiftLevel state s n)
    (negative : n < 0) : g.FareAlike a i state s n := by
  intro p hp
  have zero : max 0 n = 0 := by omega
  -- Either way of counting tells the same actions.
  have reduce {q : ProductionId} (hq : g.Leads a i state s q) :
      (n < levelOf g q ∨ levelOf g q = n ∧ assocOf g q ≠ .right) ↔
        (0 < levelOf g q ∨ levelOf g q = 0 ∧ assocOf g q ≠ .right) := by
    have same := ((declared.reduce q).symm.trans (raised.reduce q)).trans (and_iff_right hq)
    rw [and_iff_right hq] at same
    constructor
    · intro h
      exact zero ▸ same.mp (fun m hm => hm.eq hn ▸ h) n hn
    · intro h
      exact same.mpr (fun m hm => by rwa [hm.eq hn, zero]) n hn
  rcases Int.lt_trichotomy (levelOf g p) 0 with below | level | above
  · rcases Int.lt_trichotomy (levelOf g p) n with less | same | between
    · exact .inr (.inl less)
    · refine .inr (.inr (.inr ⟨same, fun q hq => ?_⟩))
      have hq' := hq.level_eq hp
      by_contra other
      have := (reduce hq).mp (.inr ⟨by omega, other⟩)
      omega
    · have := (reduce hp).mp (.inl between)
      omega
  · refine .inr (.inr (.inl ⟨level, fun q hq => ?_, ?_⟩))
    · have hq' := hq.level_eq hp
      exact (((reduce hq).mp (.inl (by omega))).resolve_left (by omega)).2
    · have gone : .shift j ∉ actions := fun h =>
        ((declared.shift j).mp h).2 p n hp hn (.inl (by simpa [level] using negative))
      by_contra none
      refine gone ((raised.shift j).mpr ⟨moves, fun q m hq hm beats => ?_⟩)
      have hq' := hq.level_eq hp
      rw [hm.eq hn, zero] at beats
      rcases beats with more | ⟨-, left⟩
      · omega
      · exact none ⟨q, hq, left⟩
  · exact .inl above

theorem resolves_of_fareAlike
    (alike : ∀ n, g.ShiftLevel state s n → n < 0 → g.FareAlike a i state s n) :
    g.Resolves a i state s id actions := by
  constructor
  · intro p
    rw [raised.reduce p]
    refine and_congr_right fun hp => forall_congr' fun n => forall_congr' fun hn => ?_
    rcases Int.lt_or_le n 0 with negative | counted
    · have zero : max 0 n = 0 := by omega
      rw [zero, id]
      rcases alike n hn negative p hp with above | below | ⟨level, other, -⟩ | ⟨level, right⟩
      · exact iff_of_true (.inl above) (.inl (by omega))
      · exact iff_of_false (by omega) (by omega)
      · exact iff_of_true (.inr ⟨level, other p hp⟩) (.inl (by omega))
      · refine iff_of_false (by omega) ?_
        rintro (more | ⟨-, other⟩)
        · omega
        · exact other (right p hp)
    · rw [show max 0 n = n by omega, id]
  · intro j
    rw [raised.shift j]
    refine and_congr_right fun _ => ⟨fun stays p n hp hn => ?_, fun stays p n hp hn => ?_⟩
    all_goals
      have unbeaten := stays p n hp hn
      rcases Int.lt_or_le n 0 with negative | counted
      case inr =>
        simpa only [show max 0 n = n by omega, id] using unbeaten
      have zero : max 0 n = 0 := by omega
    · rcases alike n hn negative p hp with above | below | ⟨level, -, q, hq, left⟩ | ⟨level, right⟩
      · exact absurd (.inl (show max 0 n < levelOf g p by omega)) unbeaten
      · rintro (more | ⟨same, -⟩)
        · exact absurd below (Int.lt_asymm more)
        · exact absurd below (by rw [same]; exact Int.lt_irrefl n)
      · have := hq.level_eq hp
        exact absurd (.inr ⟨by omega, left⟩) (stays q n hq hn)
      · rintro (more | ⟨-, left⟩)
        · exact absurd more (by rw [level]; exact Int.lt_irrefl n)
        · rw [right p hp] at left
          cases left
    · rw [zero]
      rintro (more | ⟨level, -⟩)
      · exact unbeaten (.inl (show n < levelOf g p by omega))
      · exact unbeaten (.inl (show n < levelOf g p by omega))

end Declared

/-- What is left of a cell: acceptance, the shift and the reductions, in this order.  A shift of a
negative level counts as one of level zero, and the cell is settled as the levels are declared
exactly if the leading reductions fare alike against both. -/
theorem settled_as_declared_iff {G : Grammar} {strict : Bool} (lowered : G.lower = .ok g)
    (built : g.tables strict = .ok t) (automaton : Automaton.ofGrammar g = .ok a)
    (hi : a.states[i]? = some state) (terminal : g.isTerminal s = true) :
    (.accept ∈ t.actions i s ↔ g.Finishes state s) ∧
    (t.actions i s).Pairwise Action.Before ∧
    ((∃ p, g.Shifts state s p) ∨ (∃ p, g.Completes a i state s p) ∨ g.Finishes state s →
      t.actions i s ≠ []) ∧
    g.Resolves a i state s (max 0) (t.actions i s) ∧
    (g.Resolves a i state s id (t.actions i s) ↔
      ∀ n, g.ShiftLevel state s n → n < 0 → g.FareAlike a i state s n) := by
  have wf := Grammar.wellFormed_of_lower lowered
  obtain ⟨a', tab⟩ := tabulated_of_tables built
  obtain rfl : a' = a := Except.ok.inj (tab.automaton.symm.trans automaton)
  have raised := tab.resolves_raised wf hi terminal
  refine ⟨tab.accept_iff wf hi terminal, tab.pairwise_before wf hi terminal,
    tab.actions_ne_nil wf hi terminal, raised, fun declared n hn => ?_,
    resolves_of_fareAlike raised⟩
  obtain ⟨j, moves⟩ := Option.ne_none_iff_exists'.mp
    ((shift_cell_iff wf automaton hi).mpr (hn.1.imp fun _ => And.left))
  exact fareAlike_of_resolves raised declared moves hn

/-- Differences, declared to group to the left and on a level below zero. -/
def difference : Grammar where
  name := "difference"
  rules := [⟨"e", .choice [.precLeft (-1) (.seq [.ref "e", .literal "-", .ref "e"]),
    .literal "n"]⟩]
  extras := []
  word := none
  conflicts := []
  externals := []
  strict := false

/-- The same, flat: the tokens are 2 and 3, and the rule is 4. -/
def differenceFlat : FlatGrammar where
  name := "difference"
  symbols := #[⟨"end", true, false, false, false⟩, ⟨"ERROR", true, true, true, false⟩,
    ⟨"-", true, false, true, false⟩, ⟨"n", true, false, true, false⟩,
    ⟨"e", false, true, true, false⟩]
  tokens := [⟨2, .literal "-"⟩, ⟨3, .literal "n"⟩]
  productions := #[⟨4, [4, 2, 4], -1, .left, 0⟩, ⟨4, [3], 0, .neither, 0⟩]
  start := 4
  extras := []
  word := none
  externals := []
  conflicts := []
  origin := #[0, 1, 2, 3, 4]

theorem difference_lower : difference.lower = .ok differenceFlat := by cbv

/-- The state behind a difference, which may go on with another. -/
def behindDifference : LrState :=
  ⟨[⟨0, 1⟩, ⟨0, 3⟩], [⟨0, 1⟩, ⟨0, 3⟩], [(2, 3)]⟩

/-- The automaton of differences. -/
def differenceAutomaton : Automaton :=
  ⟨#[⟨[⟨2, 0⟩], [⟨2, 0⟩, ⟨0, 0⟩, ⟨1, 0⟩], [(3, 1), (4, 2)]⟩, ⟨[⟨1, 1⟩], [⟨1, 1⟩], []⟩,
    ⟨[⟨0, 1⟩, ⟨2, 1⟩], [⟨0, 1⟩, ⟨2, 1⟩], [(2, 3)]⟩,
    ⟨[⟨0, 2⟩], [⟨0, 2⟩, ⟨0, 0⟩, ⟨1, 0⟩], [(3, 1), (4, 4)]⟩, behindDifference]⟩

/-- The tables of differences. -/
def differenceTables : Tables where
  name := "difference"
  symbols := differenceFlat.symbols
  productions := #[⟨4, 3, -1, .left, 0⟩, ⟨4, 1, 0, .neither, 0⟩]
  states := #[⟨[(3, [.shift 1])], [(4, 2)], 0⟩, ⟨[(0, [.reduce 1]), (2, [.reduce 1])], [], 1⟩,
    ⟨[(0, [.accept]), (2, [.shift 3])], [], 1⟩, ⟨[(3, [.shift 1])], [(4, 4)], 0⟩,
    ⟨[(0, [.reduce 0]), (2, [.shift 3])], [], 1⟩]
  lexModes := #[[3], [2]]
  tokens := differenceFlat.tokens
  extras := []
  wordToken := none
  externalTokens := []
  startSymbol := 4

theorem differenceAutomaton_eq : Automaton.ofGrammar differenceFlat = .ok differenceAutomaton := by
  cbv

theorem differenceFlat_tables : differenceFlat.tables false = .ok differenceTables := by
  rw [tables, differenceAutomaton_eq]
  exact ok_of_toOption (by decide +kernel)

/-- Before another minus, the one production that is shifted is that of a difference. -/
theorem shiftLevel_behindDifference : differenceFlat.ShiftLevel behindDifference 2 (-1) := by
  refine ⟨⟨0, ⟨⟨0, 1⟩, by decide, by decide, rfl⟩, by decide⟩, ?_⟩
  rintro p ⟨item, mem, next, rfl⟩
  revert item
  decide

/-- Before another minus, the one production that is completed is that of a difference. -/
theorem leads_behindDifference :
    differenceFlat.Leads differenceAutomaton 4 behindDifference 2 0 := by
  refine ⟨⟨⟨0, 3⟩, by decide, by decide, rfl, by decide, by decide +kernel⟩, ?_⟩
  rintro q ⟨item, mem, -, rfl, -⟩
  revert item
  decide

theorem difference_settled :
    difference.lower = .ok differenceFlat ∧
    differenceFlat.tables false = .ok differenceTables ∧
    Automaton.ofGrammar differenceFlat = .ok differenceAutomaton ∧
    differenceAutomaton.states[4]? = some behindDifference ∧
    differenceFlat.isTerminal 2 = true ∧
    differenceTables.actions 4 2 ≠ [] ∧
    differenceFlat.Resolves differenceAutomaton 4 behindDifference 2 (max 0)
      (differenceTables.actions 4 2) ∧
    (differenceFlat.Resolves differenceAutomaton 4 behindDifference 2 id
        (differenceTables.actions 4 2) →
      differenceFlat.FareAlike differenceAutomaton 4 behindDifference 2 (-1)) := by
  have at4 : differenceAutomaton.states[4]? = some behindDifference := rfl
  obtain ⟨-, -, some, raised, declared⟩ := settled_as_declared_iff difference_lower
    differenceFlat_tables differenceAutomaton_eq at4 (s := 2) (by decide)
  exact ⟨difference_lower, differenceFlat_tables, differenceAutomaton_eq, at4, by decide,
    some (.inr (.inl ⟨0, leads_behindDifference.1⟩)), raised,
    fun h => declared.mp h (-1) shiftLevel_behindDifference (by decide)⟩

/-- The reduction is on the level of the shift and groups to the left, and yet the shift is what
stays. -/
theorem difference_groups_right :
    difference.lower = .ok differenceFlat ∧
    differenceFlat.tables false = .ok differenceTables ∧
    Automaton.ofGrammar differenceFlat = .ok differenceAutomaton ∧
    differenceAutomaton.states[4]? = some behindDifference ∧
    differenceFlat.ShiftLevel behindDifference 2 (-1) ∧
    differenceFlat.Leads differenceAutomaton 4 behindDifference 2 0 ∧
    levelOf differenceFlat 0 = -1 ∧ assocOf differenceFlat 0 = .left ∧
    differenceTables.actions 4 2 = [.shift 3] ∧
    ¬ differenceFlat.Resolves differenceAutomaton 4 behindDifference 2 id
      (differenceTables.actions 4 2) := by
  refine ⟨difference_lower, differenceFlat_tables, differenceAutomaton_eq, rfl,
    shiftLevel_behindDifference, leads_behindDifference, by decide, by decide, by decide,
    fun declared => ?_⟩
  have stays : .shift 3 ∈ differenceTables.actions 4 2 := by decide
  exact ((declared.shift 3).mp stays).2 0 (-1) leads_behindDifference shiftLevel_behindDifference
    (.inr (by decide))

end FlatGrammar

end Glr
