import Glr.Proofs.Layout
import Glr.Tables.Validate

/-!
# Tables that are built can be loaded

A loader does not trust the tables it is given and checks every number in them.  Tables that come
from a grammar pass, and they are in better order than a loader can ask for (`WellMade`): no cell is
empty, only the end of the text is accepted, and a lex mode is the list of the terminals that its
states have actions on.

Each check is answered by the part that made what is checked.  The layout of the symbols is that of
flattening, the targets of moves are states because the search for states is complete, and a row is
in order because it is made along an ascending list of symbols.  The lex modes are the only thing
that rows share, and `Sharing` is what is kept of them from one row to the next.
-/

namespace Glr

/-! ## Ascending lists -/

theorem strictlyAscending_of_pairwise :
    ∀ {xs : List Nat}, xs.Pairwise (· < ·) → strictlyAscending xs = true
  | [], _ => rfl
  | [_], _ => rfl
  | a :: b :: rest, h => by
    obtain ⟨before, later⟩ := List.pairwise_cons.mp h
    rw [strictlyAscending, strictlyAscending_of_pairwise later,
      decide_eq_true (before b List.mem_cons_self)]
    rfl

theorem eq_of_pairwise_of_mem_iff {xs ys : List Nat} (hx : xs.Pairwise (· < ·))
    (hy : ys.Pairwise (· < ·)) (same : ∀ s, s ∈ xs ↔ s ∈ ys) : xs = ys := by
  have perm : xs.Perm ys :=
    (List.perm_ext_iff_of_nodup (hx.imp Nat.ne_of_lt) (hy.imp Nat.ne_of_lt)).mpr same
  exact perm.eq_of_pairwise (fun _ _ _ _ h h' => absurd h (Nat.lt_asymm h')) hx hy

theorem SymbolBits.pairwise_below (set : SymbolBits) (bound : Nat) :
    (set.below bound).Pairwise (· < ·) :=
  List.pairwise_lt_range.filter _

/-! ## Lex modes -/

/-- The terminals with a cell in a row, the end of the text apart. -/
def StateRow.valid (row : StateRow) : List Symbol :=
  (row.actions.map (·.1)).filter (· != Symbol.endOfText)

theorem StateRow.mem_valid {row : StateRow} {s : Symbol} :
    s ∈ row.valid ↔ s ≠ Symbol.endOfText ∧ ∃ cell ∈ row.actions, cell.1 = s := by
  rw [valid, List.mem_filter, List.mem_map, bne_iff_ne, and_comm]

namespace FlatGrammar

variable {g : FlatGrammar} {strict : Bool}

/-- Every row has the mode of its terminals, no two modes are the same, and each was made for a row
of its own. -/
structure Sharing (rows : Array StateRow) (modes : Array (List Symbol)) : Prop where
  own : ∀ row ∈ rows, modes[row.lexMode]? = some row.valid
  used : ∀ mode ∈ modes, ∃ row ∈ rows, mode = row.valid
  distinct : ∀ {i j : Nat} {valid}, modes[i]? = some valid → modes[j]? = some valid → i = j
  size_le : modes.size ≤ rows.size

/-- A mode is found or put behind the others. -/
theorem lexModeOf_eq (modes : Array (List Symbol)) (valid : List Symbol) :
    (∃ mode, lexModeOf modes valid = (mode, modes) ∧ modes[mode]? = some valid) ∨
      lexModeOf modes valid = (modes.size, modes.push valid) ∧ valid ∉ modes := by
  rw [lexModeOf]
  split
  · next mode found => exact Or.inl ⟨mode, rfl, getElem?_of_idxOf? found⟩
  · next absent => exact Or.inr ⟨rfl, Array.idxOf?_eq_none_iff.mp absent⟩

theorem Sharing.push {rows : Array StateRow} {modes : Array (List Symbol)}
    (h : Sharing rows modes) {row : StateRow} {modes' : Array (List Symbol)}
    (mode : lexModeOf modes row.valid = (row.lexMode, modes')) :
    Sharing (rows.push row) modes' := by
  rcases lexModeOf_eq modes row.valid with ⟨i, found, here⟩ | ⟨added, new⟩
  · obtain ⟨same, rfl⟩ := Prod.mk.inj (mode.symm.trans found)
    refine ⟨fun row' hr => ?_, fun m hm => ?_, h.distinct, ?_⟩
    · rcases Array.mem_push.mp hr with hr | rfl
      · exact h.own row' hr
      · rw [same, here]
    · obtain ⟨row', hr, same⟩ := h.used m hm
      exact ⟨row', Array.mem_push_of_mem _ hr, same⟩
    · rw [Array.size_push]
      exact Nat.le_succ_of_le h.size_le
  · obtain ⟨same, rfl⟩ := Prod.mk.inj (mode.symm.trans added)
    have fresh : ∀ {i : Nat}, modes[i]? ≠ some row.valid :=
      fun found => new (Array.mem_of_getElem? found)
    refine ⟨fun row' hr => ?_, fun m hm => ?_, fun {i j valid} hi hj => ?_, ?_⟩
    · rcases Array.mem_push.mp hr with hr | rfl
      · exact getElem?_pushed (h.own row' hr)
      · rw [same, Array.getElem?_push_size]
    · rcases Array.mem_push.mp hm with hm | rfl
      · obtain ⟨row', hr, same⟩ := h.used m hm
        exact ⟨row', Array.mem_push_of_mem _ hr, same⟩
      · exact ⟨row, Array.mem_push_self, rfl⟩
    · rw [Array.getElem?_push] at hi hj
      split at hi
      · next hi' =>
        cases hi
        split at hj
        · next hj' => exact hi'.trans hj'.symm
        · exact absurd hj fresh
      · split at hj
        · cases hj
          exact absurd hi fresh
        · exact h.distinct hi hj
    · rw [Array.size_push, Array.size_push]
      exact Nat.succ_le_succ h.size_le

theorem rowsFrom_sharing {a : Automaton} {known : Lookaheads} :
    ∀ {states : List LrState} {rows rows' : Array StateRow} {modes modes' : Array (List Symbol)},
      Sharing rows modes → rowsFrom g strict a known rows modes states = .ok (rows', modes') →
      Sharing rows' modes' := by
  intro states
  induction states with
  | nil =>
    intro rows rows' modes modes' h hr
    rw [rowsFrom] at hr
    cases hr
    exact h
  | cons state states ih =>
    intro rows rows' modes modes' h hr
    rw [rowsFrom] at hr
    obtain ⟨actions, -, hr⟩ := of_bind_eq_ok hr
    exact ih (h.push rfl) hr

theorem sharing_of_tables {t : Tables} (h : g.tables strict = .ok t) :
    Sharing t.states t.lexModes := by
  rw [tables] at h
  obtain ⟨a, -, h⟩ := of_bind_eq_ok h
  obtain ⟨⟨rows, modes⟩, hrows, h⟩ := of_bind_eq_ok h
  cases h
  refine rowsFrom_sharing ⟨?_, ?_, ?_, Nat.le_refl _⟩ hrows
  · exact fun _ hr => absurd hr (Array.not_mem_empty _)
  · exact fun _ hm => absurd hm (Array.not_mem_empty _)
  · intro i j valid hi
    rw [Array.getElem?_empty] at hi
    cases hi

/-! ## Rows -/

namespace Tabulated

variable {t : Tables} {a : Automaton} (tab : Tabulated g t a) {i : StateId} {row : StateRow}

include tab

/-- The state that a row is of, and how the row is made from it. -/
theorem state_of_row (hr : t.states[i]? = some row) :
    ∃ state, a.states[i]? = some state ∧
      row.gotos = state.moves.filter (fun m => !g.isTerminal m.1) ∧
      (row.actions.map (·.1)).Sublist ((g.offer a i state).terminals g) ∧
        ∀ cell ∈ row.actions, cell.2 ≠ [] := by
  have bound : i < a.states.size := tab.size ▸ (Array.getElem?_eq_some_iff.mp hr).1
  have hi := Array.getElem?_eq_getElem bound
  obtain ⟨row', hr', made⟩ := tab.row hi
  obtain rfl := Option.some.inj (hr.symm.trans hr')
  exact ⟨_, hi, made⟩

theorem pairwise_actions (hr : t.states[i]? = some row) :
    (row.actions.map (·.1)).Pairwise (· < ·) := by
  obtain ⟨state, -, -, keys, -⟩ := tab.state_of_row hr
  exact (SymbolBits.pairwise_below _ _).sublist keys

theorem pairwise_gotos (hr : t.states[i]? = some row) :
    (row.gotos.map (·.1)).Pairwise (· < ·) := by
  obtain ⟨state, hi, gotos, -⟩ := tab.state_of_row hr
  have keys := (Automaton.coherent_ofGrammar tab.automaton).keys hi
  rw [gotos]
  refine List.Pairwise.sublist (List.filter_sublist.map _) ?_
  rw [keys]
  exact SymbolBits.pairwise_below _ _

/-- What a cell holds is what the state does on its terminal. -/
theorem actions_of_cell (hr : t.states[i]? = some row) {cell : Symbol × List Action}
    (mem : cell ∈ row.actions) : t.actions i cell.1 = cell.2 := by
  simp only [Tables.actions, hr, StateRow.actionsOn]
  rw [lookup_of_mem ((tab.pairwise_actions hr).imp Nat.ne_of_lt) mem, Option.getD_some]

theorem isTerminal_eq (s : Symbol) : t.isTerminal s = g.isTerminal s := by
  rw [Tables.isTerminal, tab.symbols]
  rfl

theorem isTerminal_of_cell (wf : g.WellFormed) (hr : t.states[i]? = some row)
    {cell : Symbol × List Action} (mem : cell ∈ row.actions) : t.isTerminal cell.1 = true := by
  obtain ⟨state, -, -, -, filled⟩ := tab.state_of_row hr
  obtain ⟨action, some⟩ := List.exists_mem_of_ne_nil _ (filled cell mem)
  rw [← tab.actions_of_cell hr mem] at some
  rw [tab.isTerminal_eq]
  exact tab.isTerminal_of_mem wf some

/-- An action leads to a state, or completes a production, that is there. -/
theorem actionFault?_eq_none (hr : t.states[i]? = some row) {cell : Symbol × List Action}
    (mem : cell ∈ row.actions) {action : Action} (some : action ∈ cell.2) :
    t.actionFault? i action = none := by
  rw [← tab.actions_of_cell hr mem] at some
  have co := Automaton.coherent_ofGrammar tab.automaton
  cases action with
  | shift target =>
    obtain ⟨state, hi, moves⟩ := tab.shift_sound some
    obtain ⟨-, next, hj, -⟩ := co.move hi moves
    exact if_pos (tab.size ▸ (Array.getElem?_eq_some_iff.mp hj).1)
  | reduce p =>
    obtain ⟨-, production, -, hp, -⟩ := tab.reduce_sound some
    exact if_pos (Array.getElem?_eq_some_iff.mp (tab.production hp)).1
  | accept => rfl

theorem goto_valid (wf : g.WellFormed) (hr : t.states[i]? = some row) {m : Symbol × StateId}
    (mem : m ∈ row.gotos) : t.hasSymbol m.1 = true ∧ m.2 < t.states.size := by
  obtain ⟨state, hi, gotos, -⟩ := tab.state_of_row hr
  have co := Automaton.coherent_ofGrammar tab.automaton
  have moved : state.moves.lookup m.1 = some m.2 := by
    refine lookup_of_mem ?_ (List.mem_of_mem_filter (gotos ▸ mem))
    rw [co.keys hi]
    exact (SymbolBits.pairwise_below _ _).imp Nat.ne_of_lt
  obtain ⟨next, target, hj, -⟩ := co.move hi moved
  obtain ⟨item, -, hs⟩ := (Automaton.mem_nexts wf).mp next
  refine ⟨?_, tab.size ▸ (Array.getElem?_eq_some_iff.mp hj).1⟩
  rw [Tables.hasSymbol, tab.symbols]
  exact decide_eq_true (Item.next?_lt wf hs)

theorem rowFault?_eq_none (wf : g.WellFormed) (sharing : Sharing t.states t.lexModes)
    (hr : t.states[i]? = some row) : t.rowFault? row i = none := by
  have mode := (Array.getElem?_eq_some_iff.mp (sharing.own row (Array.mem_of_getElem? hr))).1
  have cells : row.actions.findSome? (t.cellFault? i) = none := by
    refine List.findSome?_eq_none_iff.mpr fun cell mem => ?_
    rw [Tables.cellFault?, if_pos (tab.isTerminal_of_cell wf hr mem)]
    exact List.findSome?_eq_none_iff.mpr fun action some => tab.actionFault?_eq_none hr mem some
  have gotos : row.gotos.all (fun m => t.hasSymbol m.1 && m.2 < t.states.size) = true := by
    refine List.all_eq_true.mpr fun m mem => ?_
    obtain ⟨there, target⟩ := tab.goto_valid wf hr mem
    simp only [there, target, decide_true, Bool.and_self]
  rw [Tables.rowFault?, if_neg (Nat.not_le_of_lt mode), cells, if_pos gotos,
    strictlyAscending_of_pairwise (tab.pairwise_actions hr),
    strictlyAscending_of_pairwise (tab.pairwise_gotos hr)]
  rfl

theorem fault?_eq_none (wf : g.WellFormed) (laid : g.LaidOut)
    (sharing : Sharing t.states t.lexModes) : t.fault? = none := by
  have co := Automaton.coherent_ofGrammar tab.automaton
  obtain ⟨k, two_le, le_size, -⟩ := laid.terminals
  obtain ⟨first, found, -⟩ := co.start
  have states : t.states.isEmpty = false := by
    rw [Array.isEmpty_eq_false_iff_exists_mem]
    obtain ⟨row, hr, -⟩ := tab.row found
    exact ⟨row, Array.mem_of_getElem? hr⟩
  have nonterminal : ∀ {s : Symbol}, s < g.symbols.size → g.isTerminal s = false →
      t.isNonterminal s = true := by
    intro s there inner
    rw [Tables.isNonterminal, Tables.hasSymbol, tab.isTerminal_eq, inner, tab.symbols,
      decide_eq_true there]
    rfl
  have sizes : (t.symbols.size > idLimit || t.states.size > idLimit) = false := by
    rw [tab.symbols, tab.size]
    exact Bool.or_eq_false_iff.mpr ⟨decide_eq_false (Nat.not_lt_of_le laid.room),
      decide_eq_false (Nat.not_lt_of_le co.size_le)⟩
  have productions : (t.productions.toList.zipIdx.findSome? fun e =>
      if t.isNonterminal e.1.lhs then none else some (TableFault.productionSide e.2)) = none := by
    refine List.findSome?_eq_none_iff.mpr fun e mem => if_pos ?_
    have mem := Array.mem_toList_iff.mp (List.fst_mem_of_mem_zipIdx mem)
    rw [tab.productions, Array.mem_map] at mem
    obtain ⟨q, hq, same⟩ := mem
    rw [← same]
    exact nonterminal (wf.lhs_lt q hq) (wf.lhs_nonterminal q hq)
  have rows : (t.states.toList.zipIdx.findSome? fun e => t.rowFault? e.1 e.2) = none := by
    refine List.findSome?_eq_none_iff.mpr fun e mem => ?_
    have hr := List.mem_zipIdx_iff_getElem?.mp mem
    rw [Array.getElem?_toList] at hr
    exact tab.rowFault?_eq_none wf sharing hr
  have modes : t.lexModes.all (fun mode => mode.all t.hasSymbol) = true := by
    refine Array.all_eq_true_iff_forall_mem.mpr fun mode mem => List.all_eq_true.mpr fun s hs => ?_
    obtain ⟨row, hrow, rfl⟩ := sharing.used mode mem
    obtain ⟨i, hr⟩ := Array.getElem?_of_mem hrow
    obtain ⟨-, cell, hcell, rfl⟩ := StateRow.mem_valid.mp hs
    have terminal := tab.isTerminal_of_cell wf hr hcell
    rw [tab.isTerminal_eq] at terminal
    rw [Tables.hasSymbol, tab.symbols]
    exact decide_eq_true (lt_of_isTerminal terminal)
  have tokens : (t.tokens.findSome? fun d =>
      if t.isTerminal d.symbol then none else some (TableFault.tokenNotTerminal d.symbol)) =
        none := by
    refine List.findSome?_eq_none_iff.mpr fun d mem => if_pos ?_
    rw [tab.isTerminal_eq]
    exact (wf.token d (tab.lexical.1 ▸ mem)).2
  have roles : (t.extras.all t.isTerminal && t.externalTokens.all t.isTerminal
      && t.wordToken.all t.isTerminal) = true := by
    rw [Bool.and_eq_true, Bool.and_eq_true, List.all_eq_true, List.all_eq_true,
      Option.all_eq_true, tab.roles.1, tab.roles.2, tab.lexical.2]
    refine ⟨⟨fun s hs => ?_, fun s hs => ?_⟩, fun s hs => ?_⟩
    · exact (tab.isTerminal_eq s).trans (laid.extras s hs)
    · exact (tab.isTerminal_eq s).trans (laid.externals s hs)
    · exact (tab.isTerminal_eq s).trans (laid.word s hs)
  have start := nonterminal wf.start_lt wf.start_nonterminal
  rw [← tab.startSymbol] at start
  have enough : ¬ t.symbols.size < 2 := by
    rw [tab.symbols]
    exact Nat.not_lt_of_le (Nat.le_trans two_le le_size)
  rw [Tables.fault?, if_neg enough, states, sizes, start, productions, rows, modes, tokens, roles]
  rfl

end Tabulated

end FlatGrammar

namespace Tables

/-- A terminal, not the end of the text, that a state has an action on. -/
def Expects (t : Tables) (row : StateRow) (s : Symbol) : Prop :=
  t.isTerminal s = true ∧ s ≠ Symbol.endOfText ∧ row.actionsOn s ≠ []

/-- Tables that a loader finds nothing wrong with, and whose symbols, rows and lex modes are in
order. -/
structure WellMade (t : Tables) : Prop where
  valid : t.fault? = none
  endOfText : t.symbols[Symbol.endOfText]? = some ⟨"end", true, false, false, false⟩
  error : t.symbols[Symbol.error]? = some ⟨"ERROR", true, true, true, false⟩
  terminals : ∃ k, 2 ≤ k ∧ k ≤ t.symbols.size ∧ ∀ s, t.isTerminal s = true ↔ s < k
  actions : ∀ row ∈ t.states, (row.actions.map (·.1)).Pairwise (· < ·)
  gotos : ∀ row ∈ t.states, (row.gotos.map (·.1)).Pairwise (· < ·)
  filled : ∀ row ∈ t.states, ∀ cell ∈ row.actions, cell.2 ≠ []
  accepts : ∀ row ∈ t.states, ∀ cell ∈ row.actions, .accept ∈ cell.2 → cell.1 = Symbol.endOfText
  lexMode : ∀ row ∈ t.states, ∃ valid, t.lexModes[row.lexMode]? = some valid ∧
    valid.Pairwise (· < ·) ∧ ∀ s, s ∈ valid ↔ t.Expects row s
  shared : ∀ row ∈ t.states, ∀ row' ∈ t.states,
    row.lexMode = row'.lexMode ↔ ∀ s, t.Expects row s ↔ t.Expects row' s

end Tables

namespace FlatGrammar

namespace Tabulated

variable {g : FlatGrammar} {t : Tables} {a : Automaton} (tab : Tabulated g t a)

include tab

theorem mem_valid_iff (wf : g.WellFormed) {i : StateId} {row : StateRow}
    (hr : t.states[i]? = some row) {s : Symbol} : s ∈ row.valid ↔ t.Expects row s := by
  rw [StateRow.mem_valid]
  constructor
  · rintro ⟨ne, cell, mem, rfl⟩
    refine ⟨tab.isTerminal_of_cell wf hr mem, ne, ?_⟩
    obtain ⟨-, -, -, -, filled⟩ := tab.state_of_row hr
    rw [StateRow.actionsOn, lookup_of_mem ((tab.pairwise_actions hr).imp Nat.ne_of_lt) mem]
    exact filled cell mem
  · rintro ⟨-, ne, some⟩
    refine ⟨ne, ?_⟩
    rw [StateRow.actionsOn] at some
    cases found : row.actions.lookup s with
    | none =>
      rw [found] at some
      exact absurd rfl some
    | some actions => exact ⟨(s, actions), mem_of_lookup found, rfl⟩

end Tabulated

end FlatGrammar

/-- What building makes of a grammar, a loader accepts. -/
theorem Grammar.wellMade_of_build {G : Grammar} {t : Tables} (built : G.build = .ok t) :
    t.WellMade := by
  rw [Grammar.build] at built
  obtain ⟨g, lowered, built⟩ := of_bind_eq_ok built
  have wf := wellFormed_of_lower lowered
  have laid := laidOut_of_lower lowered
  have sharing := FlatGrammar.sharing_of_tables built
  obtain ⟨a, tab⟩ := FlatGrammar.tabulated_of_tables built
  have ascending : ∀ row ∈ t.states, row.valid.Pairwise (· < ·) := by
    intro row hrow
    obtain ⟨i, hr⟩ := Array.getElem?_of_mem hrow
    exact (tab.pairwise_actions hr).filter _
  refine {
    valid := tab.fault?_eq_none wf laid sharing
    endOfText := tab.symbols ▸ laid.endOfText
    error := tab.symbols ▸ laid.error
    terminals := ?_
    actions := fun row hrow => ?_
    gotos := fun row hrow => ?_
    filled := fun row hrow => ?_
    accepts := fun row hrow cell mem accepted => ?_
    lexMode := fun row hrow => ?_
    shared := fun row hrow row' hrow' => ?_ }
  · obtain ⟨k, two_le, le_size, terminal⟩ := laid.terminals
    exact ⟨k, two_le, tab.symbols ▸ le_size, fun s => tab.isTerminal_eq s ▸ terminal s⟩
  · obtain ⟨i, hr⟩ := Array.getElem?_of_mem hrow
    exact tab.pairwise_actions hr
  · obtain ⟨i, hr⟩ := Array.getElem?_of_mem hrow
    exact tab.pairwise_gotos hr
  · obtain ⟨i, hr⟩ := Array.getElem?_of_mem hrow
    obtain ⟨-, -, -, -, filled⟩ := tab.state_of_row hr
    exact filled
  · obtain ⟨i, hr⟩ := Array.getElem?_of_mem hrow
    rw [← tab.actions_of_cell hr mem] at accepted
    exact (tab.accept_sound accepted).1
  · obtain ⟨i, hr⟩ := Array.getElem?_of_mem hrow
    exact ⟨row.valid, sharing.own row hrow, ascending row hrow, fun s => tab.mem_valid_iff wf hr⟩
  · obtain ⟨i, hr⟩ := Array.getElem?_of_mem hrow
    obtain ⟨j, hr'⟩ := Array.getElem?_of_mem hrow'
    have own := sharing.own row hrow
    have own' := sharing.own row' hrow'
    constructor
    · intro same s
      rw [same, own'] at own
      rw [← tab.mem_valid_iff wf hr, ← tab.mem_valid_iff wf hr', Option.some.inj own]
    · intro same
      refine sharing.distinct own ?_
      rw [own', eq_of_pairwise_of_mem_iff (ascending row hrow) (ascending row' hrow') fun s => ?_]
      rw [tab.mem_valid_iff wf hr, tab.mem_valid_iff wf hr']
      exact same s

namespace FlatGrammar

/-- A name and its value, with names that a scanner may find as well and line ends that only a
scanner finds. -/
def setting : Grammar where
  name := "setting"
  rules := [⟨"setting", .seq [.ref "name", .literal "=", .ref "value", .ref "newline"]⟩,
    ⟨"value", .choice [.ref "name", .seq [.literal "(", .ref "value", .literal ")"]]⟩,
    ⟨"name", .pattern "[a-z]"⟩]
  extras := [.literal " "]
  word := some "name"
  conflicts := [["value"]]
  externals := ["name", "newline"]
  strict := true

def settingFlat : FlatGrammar where
  name := "setting"
  symbols := #[⟨"end", true, false, false, false⟩, ⟨"ERROR", true, true, true, false⟩,
    ⟨"name", true, true, true, false⟩, ⟨"newline", true, true, true, false⟩,
    ⟨" ", true, false, true, true⟩, ⟨"=", true, false, true, false⟩,
    ⟨"(", true, false, true, false⟩, ⟨")", true, false, true, false⟩,
    ⟨"setting", false, true, true, false⟩, ⟨"value", false, true, true, false⟩]
  tokens := [⟨2, .regex "[a-z]"⟩, ⟨4, .literal " "⟩, ⟨5, .literal "="⟩, ⟨6, .literal "("⟩,
    ⟨7, .literal ")"⟩]
  productions := #[⟨8, [2, 5, 9, 3], 0, .neither, 0⟩, ⟨9, [2], 0, .neither, 0⟩,
    ⟨9, [6, 9, 7], 0, .neither, 0⟩]
  start := 8
  extras := [4]
  word := some 2
  externals := [2, 3]
  conflicts := [[9]]
  origin := #[0, 1, 2, 3, 4, 5, 6, 7, 8, 9]

/-- Ten states share seven lex modes. -/
theorem setting_wellMade : ∃ t, setting.build = .ok t ∧ t.states.size = 10 ∧
    t.lexModes = #[[2], [5], [], [2, 6], [3, 7], [3], [7]] ∧ t.WellMade := by
  have lowered : setting.lower = .ok settingFlat := by cbv
  have made : (settingFlat.tables true).toOption.map (fun t => (t.states.size, t.lexModes)) =
      some (10, #[[2], [5], [], [2, 6], [3, 7], [3], [7]]) := by decide +kernel
  obtain ⟨t, tables, same⟩ := Option.map_eq_some_iff.mp made
  obtain ⟨size, modes⟩ := Prod.mk.inj same
  have built : setting.build = .ok t := by
    rw [Grammar.build, lowered]
    exact ok_of_toOption tables
  exact ⟨t, built, size, modes, Grammar.wellMade_of_build built⟩

end FlatGrammar

end Glr
