import Glr.Proofs.Lexing
import Glr.Proofs.Recognition

/-!
# A language and its grammar

A parse knows its language only through tables, sets and a matcher.  For a language that was
compiled from a grammar these have a meaning, and `Founded` collects what the proofs about parsing
need of it: the tables are those of a well-formed flat grammar and its automaton, and no token is
one of the reserved symbols.  A scanner may be attached; whatever it answers, the symbols it may
answer with are external tokens of the grammar.
-/

namespace Glr

namespace SymbolSet

theorem contains_insert_iff {set : SymbolSet} {s t : Symbol} :
    (set.insert s).contains t = true ↔
      set.contains t = true ∨ s = t ∧ s < set.slots.size := by
  rw [insert, contains, contains, Array.getD_eq_getD_getElem?, Array.getD_eq_getD_getElem?,
    Array.getElem?_setIfInBounds]
  by_cases same : s = t
  · subst same
    rw [if_pos rfl]
    by_cases inside : s < set.slots.size
    · simp [inside]
    · simp [inside]
  · simp [same]

theorem contains_ofList {count : Nat} {symbols : List Symbol} {s : Symbol} :
    (ofList count symbols).contains s = true ↔ s ∈ symbols ∧ s < count := by
  have grown : ∀ (symbols : List Symbol) (set : SymbolSet),
      (symbols.foldl insert set).contains s = true ↔
        set.contains s = true ∨ s ∈ symbols ∧ s < set.slots.size := by
    intro symbols
    induction symbols with
    | nil => simp
    | cons t ts ih =>
      intro set
      have size : (set.insert t).slots.size = set.slots.size := by
        rw [insert, Array.size_setIfInBounds]
      rw [List.foldl_cons, ih, contains_insert_iff, size, List.mem_cons, or_assoc]
      refine or_congr_right ?_
      rw [or_and_right]
      refine or_congr_left ?_
      constructor
      · rintro ⟨rfl, inside⟩
        exact ⟨rfl, inside⟩
      · rintro ⟨rfl, inside⟩
        exact ⟨rfl, inside⟩
  have none : (empty count).contains s = false := by
    rw [empty, contains, Array.getD_eq_getD_getElem?, Array.getElem?_replicate]
    split <;> rfl
  have size : (empty count).slots.size = count := by
    rw [empty, Array.size_replicate]
  rw [ofList, grown, none, size]
  simp

end SymbolSet

theorem Matcher.symbol_of_ofTokens {tokens : List TokenDef} {nameOf : Symbol → String}
    {m : Matcher} (h : ofTokens tokens nameOf = .ok m) :
    ∀ rule ∈ m.rules, ∃ token ∈ tokens, token.symbol = rule.symbol := by
  rw [ofTokens] at h
  obtain ⟨rules, hrules, same⟩ := of_bind_eq_ok h
  cases same
  clear h
  show ∀ rule ∈ rules, ∃ token ∈ tokens, token.symbol = rule.symbol
  induction tokens generalizing rules with
  | nil =>
    rw [List.mapM_nil] at hrules
    cases hrules
    exact fun _ hr => absurd hr List.not_mem_nil
  | cons d ds ih =>
    rw [List.mapM_cons] at hrules
    obtain ⟨rule, first, hrules⟩ := of_bind_eq_ok hrules
    obtain ⟨rest, hrest, hrules⟩ := of_bind_eq_ok hrules
    cases hrules
    intro r hr
    rcases List.mem_cons.mp hr with rfl | hr
    · split at first
      · cases first
        exact ⟨d, List.mem_cons_self, rfl⟩
      · cases first
    · obtain ⟨token, mem, same⟩ := ih rest hrest r hr
      exact ⟨token, List.mem_cons_of_mem d mem, same⟩

namespace Language

variable {G : Grammar} {g : FlatGrammar} {a : Automaton} {l : Language} {i : StateId} {s : Symbol}

/-- A language loaded from the tables of a grammar, with or without a scanner. -/
def Compiled (G : Grammar) (l : Language) : Prop :=
  ∃ t loaded scanner, G.build = .ok t ∧ Language.ofTables t = .ok loaded ∧
    l = { loaded with scanner }

/-- What a loaded language has of its grammar. -/
structure Founded (g : FlatGrammar) (a : Automaton) (l : Language) : Prop where
  wf : g.WellFormed
  tab : g.Tabulated l.tables a
  token : ∀ rule ∈ l.matcher.rules, 2 ≤ rule.symbol
  external : ∀ s, l.isExternal s = true → 2 ≤ s

theorem Compiled.of_tables {t : Tables} (lowered : G.lower = .ok g)
    (built : g.tables G.strict = .ok t) (valid : t.fault? = none)
    (prepared : prepare Blob.currentVersion t = .ok l) : l.Compiled G := by
  refine ⟨t, l, l.scanner, ?_, ofTables_eq_ok.mpr ⟨valid, prepared⟩, rfl⟩
  rw [Grammar.build, lowered]
  exact built

theorem Compiled.built (h : l.Compiled G) : G.build = .ok l.tables := by
  obtain ⟨t, loaded, scanner, built, loads, rfl⟩ := h
  obtain ⟨-, -, rfl⟩ := prepare_eq_ok.mp (ofTables_eq_ok.mp loads).2
  exact built

theorem Compiled.founded (h : l.Compiled G) : ∃ g a, G.lower = .ok g ∧ l.Founded g a := by
  obtain ⟨t, loaded, scanner, built, loads, rfl⟩ := h
  rw [Grammar.build] at built
  obtain ⟨g, lowered, built⟩ := of_bind_eq_ok built
  have wf := Grammar.wellFormed_of_lower lowered
  obtain ⟨a, tab⟩ := FlatGrammar.tabulated_of_tables built
  have tokens : t.tokens = g.tokens ∧ t.externalTokens = g.externals := tab.lexical
  refine ⟨g, a, lowered, ?_⟩
  obtain ⟨matcher, hmatcher, rfl⟩ := prepare_eq_ok.mp (ofTables_eq_ok.mp loads).2
  refine ⟨wf, tab, fun rule hrule => ?_, fun s hs => ?_⟩
  · obtain ⟨token, mem, same⟩ := Matcher.symbol_of_ofTokens hmatcher rule hrule
    rw [tokens.1] at mem
    exact same ▸ (wf.token token mem).1
  · have mem := (SymbolSet.contains_ofList.mp hs).1
    rw [tokens.2] at mem
    exact wf.external s mem

namespace Founded

variable (founded : l.Founded g a)

include founded

/-- Only at its end is the text at an end. -/
theorem atEnd_of_placed {text : Text} {offset : Nat} {t : Token} (placed : l.Placed text offset t)
    (h : t.symbol = Symbol.endOfText) : t.span.stop = text.size ∧ offset = text.size := by
  rcases placed.symbol with ⟨-, stop, atEnd⟩ | wrong | ⟨rule, hrule, same⟩ | external
  · exact ⟨stop, atEnd⟩
  · exact absurd (h.symm.trans (placed.wrong wrong)) (by decide)
  · have := founded.token rule hrule
    rw [same, h] at this
    cases this
  · have := founded.external _ external
    rw [h] at this
    cases this

/-- A token that something matched is neither an error nor, where it is not the end of the text,
that. -/
theorem unreserved_of_placed {text : Text} {offset : Nat} {t : Token}
    (placed : l.Placed text offset t) (matched : t.isError = false)
    (notEnd : t.symbol ≠ Symbol.endOfText) : 2 ≤ t.symbol := by
  rcases placed.symbol with ⟨atEnd, -⟩ | wrong | ⟨rule, hrule, same⟩ | external
  · exact absurd atEnd notEnd
  · rw [matched] at wrong
    cases wrong
  · exact same ▸ founded.token rule hrule
  · exact founded.external _ external

/-- What is shifted is neither the end of the text nor an error. -/
theorem unreserved_of_shift {j : StateId} (h : .shift j ∈ l.actions i s) : 2 ≤ s := by
  obtain ⟨state, hi, moves⟩ := founded.tab.shift_sound h
  have co := Automaton.coherent_ofGrammar founded.tab.automaton
  obtain ⟨item, -, next⟩ := (Automaton.mem_nexts founded.wf).mp (co.move hi moves).1
  have mem : s ∈ g.rhs item.production := by
    have mem : s ∈ item.rest g := by
      rw [Item.rest_eq_cons next]
      exact List.mem_cons_self
    exact List.mem_of_mem_drop mem
  rw [FlatGrammar.rhs] at mem
  split at mem
  · next production hp =>
    exact founded.wf.rhs_unreserved production (Array.mem_of_getElem? hp) _ mem
  · -- Only the start symbol is behind the dot of the augmented production, and it is no terminal.
    have terminal := founded.tab.isTerminal_of_mem founded.wf h
    rw [List.mem_singleton.mp mem, founded.wf.start_nonterminal] at terminal
    cases terminal

theorem shift_ne_end {j : StateId} (h : .shift j ∈ l.actions i s) : s ≠ Symbol.endOfText := by
  rintro rfl
  exact absurd (founded.unreserved_of_shift h) (by decide)

theorem goto_sound {j : StateId} (h : l.goto? i s = some j) :
    ∃ state, a.states[i]? = some state ∧ state.moves.lookup s = some j := by
  obtain ⟨row, hrow, -⟩ := Option.bind_eq_some_iff.mp h
  obtain ⟨bound, -⟩ := Array.getElem?_eq_some_iff.mp hrow
  rw [founded.tab.size] at bound
  have found := Array.getElem?_eq_getElem bound
  exact ⟨_, found, (founded.tab.goto found (founded.tab.gotoTerminal h)).symm.trans h⟩

theorem isTerminal_of_action {action : Action} (h : action ∈ l.actions i s) :
    g.isTerminal s = true := founded.tab.isTerminal_of_mem founded.wf h

/-- The production behind what the tables keep of it. -/
theorem production_of_known {id : ProductionId} {p : Production}
    (known : l.production? id = some p) :
    ∃ production, g.productions[id]? = some production ∧ p.lhs = production.lhs ∧
      p.length = production.rhs.length := by
  rw [production?, founded.tab.productions, Array.getElem?_map] at known
  obtain ⟨production, found, rfl⟩ := Option.map_eq_some_iff.mp known
  exact ⟨production, found, rfl, rfl⟩

theorem lhs_nonterminal {id : ProductionId} {p : Production}
    (known : l.production? id = some p) : g.isTerminal p.lhs = false := by
  obtain ⟨production, found, lhs, -⟩ := founded.production_of_known known
  rw [lhs]
  exact founded.wf.lhs_nonterminal production (Array.mem_of_getElem? found)

theorem unreserved_of_nonterminal (h : g.isTerminal s = false) : 2 ≤ s := by
  rcases s with _ | _ | s
  · exact absurd (h.symm.trans founded.wf.terminal_end) (by decide)
  · exact absurd (h.symm.trans founded.wf.terminal_error) (by decide)
  · exact Nat.le_add_left 2 s

theorem startSymbol_eq : l.startSymbol = g.start := founded.tab.startSymbol

end Founded

end Language

namespace FlatGrammar

/-! ## A compiled language -/

/-- The tables of as many `b`s behind as many `a`s. -/
def nestedTables : Tables where
  name := "nested"
  symbols := nestedFlat.symbols
  productions := #[⟨4, 0, 0, .neither, 0⟩, ⟨4, 3, 0, .neither, 0⟩]
  states := #[⟨[(0, [.reduce 0]), (2, [.shift 1])], [(4, 2)], 0⟩,
    ⟨[(2, [.shift 1]), (3, [.reduce 0])], [(4, 3)], 1⟩,
    ⟨[(0, [.accept])], [], 2⟩,
    ⟨[(3, [.shift 4])], [], 3⟩,
    ⟨[(0, [.reduce 1]), (3, [.reduce 1])], [], 3⟩]
  lexModes := #[[2], [2, 3], [], [3]]
  tokens := nestedFlat.tokens
  extras := []
  wordToken := none
  externalTokens := []
  startSymbol := 4

/-- The language loaded from these tables. -/
def nestedLanguage : Language where
  version := 14
  tables := nestedTables
  matcher := ⟨[⟨2, true, .chars ⟨[(97, 97)]⟩⟩, ⟨3, true, .chars ⟨[(98, 98)]⟩⟩]⟩
  validSets := #[⟨#[false, false, true, false, false]⟩, ⟨#[false, false, true, true, false]⟩,
    ⟨#[false, false, false, false, false]⟩, ⟨#[false, false, false, true, false]⟩]
  recoveryTerminals := ⟨#[false, false, true, true, false]⟩
  extras := ⟨#[false, false, false, false, false]⟩
  keywords := ⟨#[false, false, false, false, false]⟩
  externals := ⟨#[false, false, false, false, false]⟩
  scanner := none

theorem nestedFlat_tables : nestedFlat.tables false = .ok nestedTables :=
  ok_of_toOption (by decide +kernel)

theorem nestedLanguage_compiled : nestedLanguage.Compiled nested := by
  have matcher : Matcher.ofTokens nestedTables.tokens (Language.nameIn nestedTables) =
      .ok nestedLanguage.matcher := by cbv
  exact .of_tables nested_lower nestedFlat_tables (by decide +kernel)
    (Language.prepare_eq_ok.mpr ⟨_, matcher, by cbv⟩)

end FlatGrammar

end Glr
