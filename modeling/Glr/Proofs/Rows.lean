import Glr.Grammar.Build
import Glr.Proofs.Flow

/-!
# What the cells of a table hold

The rows of a table are made state by state: the items of a state offer shifts, reductions and
acceptance, and a cell keeps what precedence leaves of the offer.  This file reads the rows back in
those terms.  An action in a cell comes from an item of the state (`shift_sound`, `reduce_sound`,
`accept_sound`), and where settling the cell discards nothing, every item has its action there
(`shift_complete`, `reduce_complete`, `accept_complete`).
-/

namespace Glr

namespace Tables

/-- The actions of a state on a terminal. -/
def actions (t : Tables) (i : StateId) (s : Symbol) : List Action :=
  match t.states[i]? with
  | some row => row.actionsOn s
  | none => []

/-- The state after a nonterminal. -/
def goto? (t : Tables) (i : StateId) (s : Symbol) : Option StateId :=
  (t.states[i]?).bind (·.goto? s)

end Tables

namespace Cell

variable {g : FlatGrammar} {cell : Cell}

theorem mem_actions_shift {j : StateId} : .shift j ∈ cell.actions ↔ cell.shift = some j := by
  cases h : cell.shift <;> simp [actions, h, eq_comm (a := j)]

theorem mem_actions_reduce {p : ProductionId} : .reduce p ∈ cell.actions ↔ p ∈ cell.reduces := by
  cases h : cell.shift <;> simp [actions, h]

theorem mem_actions_accept : .accept ∈ cell.actions ↔ cell.accepts = true := by
  cases h : cell.shift <;> simp [actions, h]

/-- Settling a cell adds no action to it. -/
theorem mem_of_mem_settle {action : Action} (h : action ∈ (cell.settle g).actions) :
    action ∈ cell.actions := by
  have shift : (cell.settle g).shift = none ∨ (cell.settle g).shift = cell.shift := by
    rw [settle]
    split
    · exact Or.inr rfl
    · dsimp only
      split
      · exact Or.inl rfl
      · exact Or.inr rfl
  have reduces : ∀ p ∈ (cell.settle g).reduces, p ∈ cell.reduces := by
    intro p hp
    rw [settle] at hp
    split at hp
    · exact List.mem_of_mem_filter hp
    · exact List.mem_of_mem_filter (List.mem_of_mem_filter hp)
  have accepts : (cell.settle g).accepts = cell.accepts := by
    rw [settle]
    split <;> rfl
  cases action with
  | shift j =>
    rw [mem_actions_shift] at h ⊢
    rcases shift with none | same
    · rw [none] at h
      cases h
    · rw [← same, h]
  | reduce p => exact mem_actions_reduce.mpr (reduces p (mem_actions_reduce.mp h))
  | accept => rw [mem_actions_accept] at h ⊢; rw [← accepts, h]

theorem resolve_eq {strict : Bool} {i : StateId} {s : Symbol} {actions : List Action}
    (h : cell.resolve g strict i s = .ok actions) : actions = (cell.settle g).actions := by
  simp only [resolve] at h
  split at h
  · cases h
  · exact (Except.ok.inj h).symm

end Cell

namespace Offer

variable {g : FlatGrammar} {a : Automaton} {known : Lookaheads} {i : StateId} {state : LrState}

/-! ## What the items offer -/

/-- The offer of some items, on top of what is offered already. -/
def ofItems (g : FlatGrammar) (lookahead : Item → SymbolBits) (offer : Offer)
    (items : List Item) : Offer :=
  items.foldl (fun offer item => offer.addItem g item (lookahead item)) offer

section Items

variable {lookahead : Item → SymbolBits} {offer : Offer} {items : List Item}

theorem mem_shifting {m : Symbol × ProductionId} :
    m ∈ (ofItems g lookahead offer items).shifting ↔ m ∈ offer.shifting ∨
      ∃ item ∈ items, item.next? g = some m.1 ∧ g.isTerminal m.1 = true ∧
        item.production = m.2 := by
  refine foldl_iff (P := fun offer : Offer => m ∈ offer.shifting) fun offer item => ?_
  rw [addItem]
  cases hs : item.next? g with
  | none => dsimp only; split <;> simp
  | some s =>
    by_cases ht : g.isTerminal s = true
    · simp only [ht, if_true, List.mem_cons, Prod.ext_iff, Option.some.injEq]
      grind
    · simp only [ht]
      grind

theorem mem_complete {c : ProductionId × SymbolBits} :
    c ∈ (ofItems g lookahead offer items).complete ↔ c ∈ offer.complete ∨
      ∃ item ∈ items, item.next? g = none ∧ item.production ≠ g.augmented ∧
        item.production = c.1 ∧ lookahead item = c.2 := by
  refine foldl_iff (P := fun offer : Offer => c ∈ offer.complete) fun offer item => ?_
  rw [addItem]
  cases hs : item.next? g with
  | none =>
    by_cases hp : item.production = g.augmented
    · simp [hp]
    · simp only [hp, if_false, List.mem_cons, Prod.ext_iff]
      grind
  | some s => dsimp only; split <;> simp

theorem accepts_iff :
    (ofItems g lookahead offer items).accepts = true ↔ offer.accepts = true ∨
      ∃ item ∈ items, item.next? g = none ∧ item.production = g.augmented := by
  refine foldl_iff (P := fun offer : Offer => offer.accepts = true) fun offer item => ?_
  rw [addItem]
  cases hs : item.next? g with
  | none => by_cases hp : item.production = g.augmented <;> simp [hp]
  | some s => dsimp only; split <;> simp

end Items

theorem mem_terminals {offer : Offer} {s : Symbol} :
    s ∈ offer.terminals g ↔ s < g.symbols.size ∧ ((∃ p, (s, p) ∈ offer.shifting) ∨
      (offer.accepts = true ∧ s = Symbol.endOfText) ∨
        ∃ c ∈ offer.complete, c.2.contains s = true) := by
  have joined (complete : List (ProductionId × SymbolBits)) (set : SymbolBits) :
      (complete.foldl (fun set c => set.union c.2) set).contains s = true ↔
        set.contains s = true ∨ ∃ c ∈ complete, c.2.contains s = true :=
    foldl_iff (P := fun set : SymbolBits => set.contains s = true) fun set c => by
      rw [SymbolBits.contains_union, Bool.or_eq_true]
  have shifted : (SymbolBits.ofList (offer.shifting.map (·.1))).contains s = true ↔
      ∃ p, (s, p) ∈ offer.shifting := by
    rw [SymbolBits.contains_ofList]
    simp
  rw [terminals, SymbolBits.mem_below, joined, ← or_assoc]
  refine and_congr_right fun _ => or_congr_left ?_
  split
  · next h =>
    rw [SymbolBits.contains_insert, Bool.or_eq_true, shifted, decide_eq_true_eq]
    simp [h, eq_comm]
  · next h =>
    rw [shifted]
    simp [h]

end Offer

namespace FlatGrammar

variable {g : FlatGrammar} {strict : Bool}

/-! ## Rows -/

/-- A row holds, on each terminal that something is offered on, what is left of its cell. -/
theorem lookup_actionsOf {i : StateId} {state : LrState} {offer : Offer} {s : Symbol} :
    ∀ {ss : List Symbol} {cells : List (Symbol × List Action)},
      actionsOf g strict i state offer ss = .ok cells →
      (cells.lookup s).getD [] =
        if s ∈ ss then ((offer.cell state s).settle g).actions else [] := by
  intro ss
  induction ss with
  | nil =>
    intro cells h
    rw [actionsOf] at h
    cases h
    simp
  | cons t ts ih =>
    intro cells h
    rw [actionsOf] at h
    simp only [bind, Except.bind] at h
    split at h
    · cases h
    · next actions hactions =>
      split at h
      · cases h
      · next others hothers =>
        have rest := ih hothers
        have heq := Cell.resolve_eq hactions
        cases h
        by_cases hst : s = t
        · subst hst
          rw [if_pos List.mem_cons_self, ← heq]
          split
          · next hempty =>
            rw [List.isEmpty_iff.mp hempty] at heq ⊢
            rw [rest, ← heq, ite_self]
          · rw [List.lookup_cons_self, Option.getD_some]
        · have same : (s ∈ t :: ts) = (s ∈ ts) := by simp [hst]
          simp only [same]
          rw [← rest]
          split
          · rfl
          · rw [List.lookup_cons, beq_eq_false_iff_ne.mpr hst]

/-- The cells of a row are on terminals that something is offered on, in the order of these, and
none of them is empty. -/
theorem keys_actionsOf {i : StateId} {state : LrState} {offer : Offer} :
    ∀ {ss : List Symbol} {cells : List (Symbol × List Action)},
      actionsOf g strict i state offer ss = .ok cells →
      (cells.map (·.1)).Sublist ss ∧ ∀ cell ∈ cells, cell.2 ≠ [] := by
  intro ss
  induction ss with
  | nil =>
    intro cells h
    rw [actionsOf] at h
    cases h
    exact ⟨.slnil, fun _ hc => absurd hc List.not_mem_nil⟩
  | cons s ss ih =>
    intro cells h
    rw [actionsOf] at h
    simp only [bind, Except.bind] at h
    split at h
    · cases h
    · next actions _ =>
      split at h
      · cases h
      · next others hothers =>
        obtain ⟨keys, full⟩ := ih hothers
        cases h
        split
        · exact ⟨keys.cons s, full⟩
        · next some =>
          refine ⟨keys.cons_cons s, fun cell hc => ?_⟩
          rcases List.mem_cons.mp hc with rfl | hc
          · exact fun none => some (List.isEmpty_iff.mpr none)
          · exact full cell hc

/-- What a list of states adds to the rows before: a row for each. -/
theorem rowsFrom_rows {a : Automaton} {known : Lookaheads} :
    ∀ {states : List LrState} {rows rows' : Array StateRow} {modes modes' : Array (List Symbol)},
      rowsFrom g strict a known rows modes states = .ok (rows', modes') →
      rows'.size = rows.size + states.length ∧
      (∀ (i : StateId) row, rows[i]? = some row → rows'[i]? = some row) ∧
      ∀ k state, states[k]? = some state → ∃ row, rows'[rows.size + k]? = some row ∧
        row.gotos = state.moves.filter (fun m => !g.isTerminal m.1) ∧
        actionsOf g strict (rows.size + k) state
          (Offer.ofState g a known (rows.size + k) state)
          ((Offer.ofState g a known (rows.size + k) state).terminals g) = .ok row.actions := by
  intro states
  induction states with
  | nil =>
    intro rows rows' modes modes' h
    rw [rowsFrom] at h
    cases h
    exact ⟨rfl, fun _ _ h => h, fun k state hk => by simp at hk⟩
  | cons state states ih =>
    intro rows rows' modes modes' h
    rw [rowsFrom] at h
    simp only [bind, Except.bind] at h
    split at h
    · cases h
    · next actions hactions =>
      obtain ⟨hsize, hold, hnew⟩ := ih h
      rw [Array.size_push] at hsize hnew
      refine ⟨?_, fun i row hi => ?_, fun k state' hk => ?_⟩
      · rw [hsize, List.length_cons]
        omega
      · exact hold i row (getElem?_pushed hi)
      · cases k with
        | zero =>
          obtain rfl : state = state' := Option.some.inj hk
          exact ⟨_, hold rows.size _ Array.getElem?_push_size, rfl, hactions⟩
        | succ k =>
          have := hnew k state' hk
          rwa [Nat.add_assoc, Nat.add_comm 1 k] at this

/-- The lookaheads of the items of a grammar's automaton. -/
def lookaheads (g : FlatGrammar) (a : Automaton) : Lookaheads :=
  Lookaheads.ofAutomaton g (FirstSets.ofGrammar g) a

/-- What the items of a state offer, with their lookaheads. -/
def offer (g : FlatGrammar) (a : Automaton) (i : StateId) (state : LrState) : Offer :=
  Offer.ofState g a (g.lookaheads a) i state

/-- Tables of a grammar: the automaton they come from, and what their rows hold of it. -/
structure Tabulated (g : FlatGrammar) (t : Tables) (a : Automaton) : Prop where
  automaton : Automaton.ofGrammar g = .ok a
  symbols : t.symbols = g.symbols
  startSymbol : t.startSymbol = g.start
  lexical : t.tokens = g.tokens ∧ t.externalTokens = g.externals
  roles : t.extras = g.extras ∧ t.wordToken = g.word
  productions : t.productions = g.productions.map fun p =>
    ⟨p.lhs, p.rhs.length, p.precedence, p.assoc, p.dynamicPrecedence⟩
  size : t.states.size = a.states.size
  row : ∀ {i : StateId} {state : LrState}, a.states[i]? = some state →
    ∃ row, t.states[i]? = some row ∧ row.gotos = state.moves.filter (fun m => !g.isTerminal m.1) ∧
      (row.actions.map (·.1)).Sublist ((g.offer a i state).terminals g) ∧
        ∀ cell ∈ row.actions, cell.2 ≠ []
  actions : ∀ {i : StateId} {state : LrState} (s : Symbol), a.states[i]? = some state →
    t.actions i s =
      if s ∈ (g.offer a i state).terminals g then
        (((g.offer a i state).cell state s).settle g).actions
      else []
  goto : ∀ {i : StateId} {state : LrState} {s : Symbol}, a.states[i]? = some state →
    g.isTerminal s = false → t.goto? i s = state.moves.lookup s
  gotoTerminal : ∀ {i : StateId} {s j : Symbol}, t.goto? i s = some j → g.isTerminal s = false

theorem tabulated_of_tables {t : Tables} (h : g.tables strict = .ok t) :
    ∃ a, Tabulated g t a := by
  simp only [tables, bind, Except.bind] at h
  split at h
  · cases h
  · next a ha =>
    split at h
    · cases h
    · next rows hrows =>
      cases h
      obtain ⟨rows, modes⟩ := rows
      obtain ⟨hsize, -, hrow⟩ := rowsFrom_rows hrows
      have rowOf : ∀ {i : StateId} {state : LrState}, a.states[i]? = some state →
          ∃ row, rows[i]? = some row ∧
            row.gotos = state.moves.filter (fun m => !g.isTerminal m.1) ∧
            actionsOf g strict i state (g.offer a i state) ((g.offer a i state).terminals g) =
              .ok row.actions := by
        intro i state hi
        have := hrow i state (by rw [Array.getElem?_toList]; exact hi)
        rw [Array.size_empty, Nat.zero_add] at this
        exact this
      have size : rows.size = a.states.size := by
        rw [hsize, Array.size_empty, Nat.zero_add, Array.length_toList]
      refine ⟨a, ha, rfl, rfl, ⟨rfl, rfl⟩, ⟨rfl, rfl⟩, rfl, size, fun hi => ?_,
        fun s hi => ?_, fun hi hs => ?_, fun {i s j} hj => ?_⟩
      · obtain ⟨row, hr, hgotos, hactions⟩ := rowOf hi
        exact ⟨row, hr, hgotos, keys_actionsOf hactions⟩
      · obtain ⟨row, hr, -, hactions⟩ := rowOf hi
        simp only [Tables.actions, hr, StateRow.actionsOn]
        exact lookup_actionsOf hactions
      · obtain ⟨row, hr, hgotos, -⟩ := rowOf hi
        simp only [Tables.goto?, hr, Option.bind_some, StateRow.goto?, hgotos]
        exact lookup_filter_key (p := fun s => !g.isTerminal s) _ (by rw [hs]; rfl)
      · simp only [Tables.goto?] at hj
        obtain ⟨row, hr, hg⟩ := Option.bind_eq_some_iff.mp hj
        have hlt : i < a.states.size := size ▸ (Array.getElem?_eq_some_iff.mp hr).1
        obtain ⟨row', hr', hgotos, -⟩ := rowOf (Array.getElem?_eq_getElem hlt)
        obtain rfl : row = row' := Option.some.inj (hr.symm.trans hr')
        rw [StateRow.goto?, hgotos] at hg
        have := (List.mem_filter.mp (mem_of_lookup hg)).2
        simpa using this

/-- Settling the cells of a grammar discards no action. -/
def DiscardsNothing (g : FlatGrammar) : Prop :=
  ∀ a, Automaton.ofGrammar g = .ok a → ∀ (i : StateId) state, a.states[i]? = some state →
    ∀ s ∈ (g.offer a i state).terminals g,
      (((g.offer a i state).cell state s).settle g).actions =
        ((g.offer a i state).cell state s).actions

theorem discardsNothing_iff {a : Automaton} (h : Automaton.ofGrammar g = .ok a) :
    g.DiscardsNothing ↔ ∀ i : Fin a.states.size, ∀ s ∈ (g.offer a i a.states[i]).terminals g,
      (((g.offer a i a.states[i]).cell a.states[i] s).settle g).actions =
        ((g.offer a i a.states[i]).cell a.states[i] s).actions := by
  constructor
  · exact fun keeps i => keeps a h i _ (Array.getElem?_eq_getElem i.isLt)
  · intro keeps a' ha i state hi
    obtain rfl := Except.ok.inj (h.symm.trans ha)
    obtain ⟨hlt, rfl⟩ := Array.getElem?_eq_some_iff.mp hi
    exact keeps ⟨i, hlt⟩

instance : Decidable g.DiscardsNothing :=
  match h : Automaton.ofGrammar g with
  | .error _ => isTrue fun _ ha => nomatch h.symm.trans ha
  | .ok _ => decidable_of_iff' _ (discardsNothing_iff h)

namespace Tabulated

variable {t : Tables} {a : Automaton} (tab : Tabulated g t a) {i : StateId} {s : Symbol}

include tab

theorem production {p : ProductionId} {production : FlatProduction}
    (hp : g.productions[p]? = some production) :
    t.productions[p]? = some ⟨production.lhs, production.rhs.length, production.precedence,
      production.assoc, production.dynamicPrecedence⟩ := by
  rw [tab.productions, Array.getElem?_map, hp, Option.map_some]

/-- A state with an action on a terminal, and the candidates of the cell. -/
theorem candidate {action : Action} (h : action ∈ t.actions i s) :
    ∃ state, a.states[i]? = some state ∧ s ∈ (g.offer a i state).terminals g ∧
      action ∈ ((g.offer a i state).cell state s).actions := by
  cases hi : a.states[i]? with
  | none =>
    have hlt : t.states.size ≤ i := by
      rw [tab.size]
      exact Array.getElem?_eq_none_iff.mp hi
    rw [Tables.actions, Array.getElem?_eq_none hlt] at h
    exact absurd h List.not_mem_nil
  | some state =>
    refine ⟨state, rfl, ?_⟩
    rw [tab.actions s hi] at h
    split at h
    · next mem => exact ⟨mem, Cell.mem_of_mem_settle h⟩
    · exact absurd h List.not_mem_nil

/-- There are actions on terminals only. -/
theorem isTerminal_of_mem (wf : g.WellFormed) {action : Action} (h : action ∈ t.actions i s) :
    g.isTerminal s = true := by
  obtain ⟨state, -, mem, -⟩ := tab.candidate h
  have fit := Lookaheads.fit_ofAutomaton wf (a := a) (FirstSets.within_ofGrammar wf)
  obtain ⟨-, ⟨p, hp⟩ | ⟨-, rfl⟩ | ⟨c, hc, hs⟩⟩ := Offer.mem_terminals.mp mem
  · rcases Offer.mem_shifting.mp hp with hp | ⟨item, -, -, terminal, -⟩
    · exact absurd hp List.not_mem_nil
    · exact terminal
  · exact wf.terminal_end
  · rcases Offer.mem_complete.mp hc with hc | ⟨item, -, -, -, -, heq⟩
    · exact absurd hc List.not_mem_nil
    · exact fit.ofItem i item s (heq ▸ hs)

theorem shift_sound {j : StateId} (h : .shift j ∈ t.actions i s) :
    ∃ state, a.states[i]? = some state ∧ state.moves.lookup s = some j := by
  obtain ⟨state, hi, -, mem⟩ := tab.candidate h
  exact ⟨state, hi, Cell.mem_actions_shift.mp mem⟩

theorem reduce_sound {p : ProductionId} (h : .reduce p ∈ t.actions i s) :
    ∃ state production, a.states[i]? = some state ∧ g.productions[p]? = some production ∧
      (⟨p, production.rhs.length⟩ : Item) ∈ state.items := by
  obtain ⟨state, hi, -, mem⟩ := tab.candidate h
  have co := Automaton.coherent_ofGrammar tab.automaton
  have hp := Cell.mem_actions_reduce.mp mem
  rw [Offer.cell, List.mem_mergeSort, List.mem_filterMap] at hp
  obtain ⟨c, hc, heq⟩ := hp
  split at heq
  · rcases Offer.mem_complete.mp hc with hc | ⟨item, hitem, hnext, hne, hprod, -⟩
    · exact absurd hc List.not_mem_nil
    · obtain rfl : item.production = p := hprod.trans (Option.some.inj heq)
      -- A complete item of a state has its dot at the end of one of the productions.
      have hdot := co.dot_le hi hitem
      have hend : (g.rhs item.production).length ≤ item.dot :=
        List.drop_eq_nil_iff.mp (List.head?_eq_none_iff.mp hnext)
      have hlt : item.production < g.productions.size :=
        Nat.lt_of_le_of_ne (co.production_le hi hitem) hne
      have hproduction := Array.getElem?_eq_getElem hlt
      refine ⟨state, _, hi, hproduction, ?_⟩
      rw [← rhs_eq hproduction, ← Nat.le_antisymm hdot hend]
      exact hitem
  · cases heq

theorem accept_sound (h : .accept ∈ t.actions i s) :
    s = Symbol.endOfText ∧ ∃ state, a.states[i]? = some state ∧
      (⟨g.augmented, 1⟩ : Item) ∈ state.items := by
  obtain ⟨state, hi, -, mem⟩ := tab.candidate h
  have co := Automaton.coherent_ofGrammar tab.automaton
  have haccepts := Cell.mem_actions_accept.mp mem
  simp only [Offer.cell, Bool.and_eq_true, beq_iff_eq] at haccepts
  refine ⟨haccepts.2, state, hi, ?_⟩
  rcases Offer.accepts_iff.mp haccepts.1 with h | ⟨item, hitem, hnext, hprod⟩
  · cases h
  · have hdot := co.dot_le hi hitem
    have hend : (g.rhs item.production).length ≤ item.dot :=
      List.drop_eq_nil_iff.mp (List.head?_eq_none_iff.mp hnext)
    rw [hprod, rhs_augmented] at hdot hend
    obtain ⟨p, n⟩ := item
    obtain rfl : p = g.augmented := hprod
    obtain rfl : n = 1 := Nat.le_antisymm hdot hend
    exact hitem

section Complete

variable (keeps : g.DiscardsNothing) {state : LrState} (hi : a.states[i]? = some state)

include keeps hi

/-- A candidate of a cell that settles without loss is an action of the table. -/
theorem mem_actions {action : Action}
    (hs : s ∈ (g.offer a i state).terminals g)
    (h : action ∈ ((g.offer a i state).cell state s).actions) : action ∈ t.actions i s := by
  rw [tab.actions s hi, if_pos hs, keeps a tab.automaton i state hi s hs]
  exact h

theorem shift_complete (wf : g.WellFormed) {item : Item} (hitem : item ∈ state.items)
    (hs : item.next? g = some s) (terminal : g.isTerminal s = true) {j : StateId}
    (hj : state.moves.lookup s = some j) : .shift j ∈ t.actions i s := by
  refine tab.mem_actions keeps hi (Offer.mem_terminals.mpr ⟨Item.next?_lt wf hs, Or.inl ?_⟩)
    (Cell.mem_actions_shift.mpr hj)
  exact ⟨item.production, Offer.mem_shifting.mpr (Or.inr ⟨item, hitem, hs, terminal, rfl⟩)⟩

theorem reduce_complete (wf : g.WellFormed) {item : Item} (hitem : item ∈ state.items)
    (hnext : item.next? g = none) (hne : item.production ≠ g.augmented)
    (ht : ((g.lookaheads a).ofItem g a i item).contains s = true) :
    .reduce item.production ∈ t.actions i s := by
  have fit := Lookaheads.fit_ofAutomaton wf (a := a) (FirstSets.within_ofGrammar wf)
  have hlt := lt_of_isTerminal (fit.ofItem i item s ht)
  have complete : (item.production, (g.lookaheads a).ofItem g a i item) ∈
      (g.offer a i state).complete :=
    Offer.mem_complete.mpr (Or.inr ⟨item, hitem, hnext, hne, rfl, rfl⟩)
  refine tab.mem_actions keeps hi
    (Offer.mem_terminals.mpr ⟨hlt, Or.inr (Or.inr ⟨_, complete, ht⟩)⟩)
    (Cell.mem_actions_reduce.mpr ?_)
  rw [Offer.cell, List.mem_mergeSort, List.mem_filterMap]
  exact ⟨_, complete, if_pos ht⟩

theorem accept_complete (wf : g.WellFormed) {item : Item} (hitem : item ∈ state.items)
    (hnext : item.next? g = none) (hprod : item.production = g.augmented) :
    .accept ∈ t.actions i Symbol.endOfText := by
  have accepts : (g.offer a i state).accepts = true :=
    Offer.accepts_iff.mpr (Or.inr ⟨item, hitem, hnext, hprod⟩)
  have hlt := lt_of_isTerminal wf.terminal_end
  refine tab.mem_actions keeps hi
    (Offer.mem_terminals.mpr ⟨hlt, Or.inr (Or.inl ⟨accepts, rfl⟩)⟩)
    (Cell.mem_actions_accept.mpr ?_)
  rw [Offer.cell, Bool.and_eq_true]
  exact ⟨accepts, beq_self_eq_true _⟩

end Complete

end Tabulated

end FlatGrammar

end Glr
