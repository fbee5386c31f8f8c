import Glr.Proofs.Compiled
import Glr.Proofs.Container
import Glr.Proofs.Matching

/-!
# What loading makes of tables

A loaded language keeps its tables and lays out sets beside them.  Here each set is read back as a
statement about the tables: what is an extra, what is a keyword, what is tried where nothing valid
matches.  Loading checks the tables first, so every symbol that a token definition or an extra names
has its slot in the sets and none is lost.
-/

namespace Glr

namespace Tables

variable {t : Tables} {s : Symbol}

theorem lt_of_isTerminal (h : t.isTerminal s = true) : s < t.symbols.size := by
  rw [isTerminal] at h
  split at h
  · next info found => exact (Array.getElem?_eq_some_iff.mp found).1
  · cases h

/-- In tables that hold together the start symbol is no terminal, every row is sound, and
definitions and extras are of terminals. -/
theorem checks_of_valid (valid : t.fault? = none) : t.isNonterminal t.startSymbol = true ∧
    (∀ (i : Nat) (row : StateRow), t.states[i]? = some row → t.rowFault? row i = none) ∧
    (∀ d ∈ t.tokens, t.isTerminal d.symbol = true) ∧ ∀ s ∈ t.extras, t.isTerminal s = true := by
  rw [fault?] at valid
  split at valid
  · cases valid
  split at valid
  · cases valid
  split at valid
  · cases valid
  split at valid
  · cases valid
  next start =>
  obtain ⟨-, valid⟩ := Option.or_eq_none_iff.mp valid
  obtain ⟨rows, valid⟩ := Option.or_eq_none_iff.mp valid
  split at valid
  · cases valid
  obtain ⟨tokens, valid⟩ := Option.or_eq_none_iff.mp valid
  refine ⟨by simpa using start, fun i row found => ?_, fun d mem => ?_, ?_⟩
  · refine List.findSome?_eq_none_iff.mp rows (row, i) ?_
    rw [List.mk_mem_zipIdx_iff_getElem?, Array.getElem?_toList]
    exact found
  · have own := List.findSome?_eq_none_iff.mp tokens d mem
    split at own
    · assumption
    · cases own
  · split at valid
    · next roles =>
      rw [Bool.and_eq_true, Bool.and_eq_true] at roles
      exact List.all_eq_true.mp roles.1.1
    · cases valid

/-- In tables that hold together only terminals have actions. -/
theorem isTerminal_of_action (valid : t.fault? = none) {i : Nat} {row : StateRow}
    (found : t.states[i]? = some row) {action : Action} (mem : action ∈ row.actionsOn s) :
    t.isTerminal s = true := by
  have sound := (checks_of_valid valid).2.1 i row found
  rw [rowFault?] at sound
  split at sound
  · cases sound
  split at sound
  · cases sound
  obtain ⟨cells, -⟩ := Option.or_eq_none_iff.mp sound
  rw [StateRow.actionsOn] at mem
  cases cell : row.actions.lookup s with
  | none =>
    rw [cell] at mem
    cases mem
  | some actions =>
    have own := List.findSome?_eq_none_iff.mp cells (s, actions) (mem_of_lookup cell)
    rw [cellFault?] at own
    split at own
    · assumption
    · cases own

end Tables

namespace Language

variable {l : Language} {s : Symbol}

/-- A language as loading gives it, from tables at hand or from a blob. -/
def Loaded (l : Language) : Prop := (∃ t, ofTables t = .ok l) ∨ ∃ blob, ofBlob blob = .ok l

theorem Compiled.loaded {G : Grammar} (compiled : l.Compiled G) (unaided : l.scanner = none) :
    l.Loaded := by
  obtain ⟨t, l', scanner, -, loads, rfl⟩ := compiled
  obtain ⟨matcher, -, rfl⟩ := prepare_eq_ok.mp (ofTables_eq_ok.mp loads).2
  obtain rfl : scanner = none := unaided
  exact Or.inl ⟨t, loads⟩

/-- A literal of the tables that the word token matches as well. -/
def Keyword (l : Language) (s : Symbol) : Prop :=
  ∃ word, l.wordToken = some word ∧ ∃ d ∈ l.tables.tokens, d.symbol = s ∧
    ∃ text, d.pattern = .literal text ∧ ∃ e ∈ l.tables.tokens, e.symbol = word ∧
      e.pattern.Matches (Text.ofString text).toList

/-- A literal or named terminal of the tables that is not reserved. -/
def Recovers (l : Language) (s : Symbol) : Prop :=
  2 ≤ s ∧ l.isTerminal s = true ∧ ((l.symbolInfo? s).any (·.named) = true ∨
    ∃ d ∈ l.tables.tokens, d.symbol = s ∧ d.pattern.isLiteral = true)

/-- Loading makes valid tables ready and changes nothing of them. -/
theorem Loaded.prepared (loaded : l.Loaded) :
    l.tables.fault? = none ∧ ∃ version, prepare version l.tables = .ok l := by
  have keeps {version : Nat} {t : Tables} (valid : t.fault? = none)
      (h : prepare version t = .ok l) :
      l.tables.fault? = none ∧ ∃ version, prepare version l.tables = .ok l := by
    have same : l.tables = t := by
      obtain ⟨m, -, rfl⟩ := prepare_eq_ok.mp h
      rfl
    rw [same]
    exact ⟨valid, version, h⟩
  rcases loaded with ⟨t, h⟩ | ⟨blob, h⟩
  · obtain ⟨valid, h⟩ := ofTables_eq_ok.mp h
    exact keeps valid h
  · rw [ofBlob] at h
    obtain ⟨⟨version, t⟩, decoded, h⟩ := of_bind_eq_ok h
    obtain ⟨-, valid, -⟩ := Blob.eq_assemble_of_decode decoded
    exact keeps valid h

section Loaded

variable (loaded : l.Loaded)

include loaded

theorem Loaded.matcher_eq : Matcher.ofTokens l.tables.tokens (nameIn l.tables) = .ok l.matcher := by
  obtain ⟨-, version, h⟩ := loaded.prepared
  obtain ⟨m, read, same⟩ := prepare_eq_ok.mp h
  rw [same]
  exact read

theorem Loaded.scanner_eq : l.scanner = none := by
  obtain ⟨-, version, h⟩ := loaded.prepared
  obtain ⟨m, -, same⟩ := prepare_eq_ok.mp h
  rw [same]

theorem Loaded.isExtra_iff : l.isExtra s = true ↔ s ∈ l.tables.extras := by
  obtain ⟨valid, version, h⟩ := loaded.prepared
  obtain ⟨m, -, same⟩ := prepare_eq_ok.mp h
  have extras : l.extras = SymbolSet.ofList l.tables.symbols.size l.tables.extras := by
    rw [same]
  rw [isExtra, extras, SymbolSet.contains_ofList]
  exact and_iff_left_of_imp fun mem =>
    Tables.lt_of_isTerminal ((Tables.checks_of_valid valid).2.2.2 s mem)

theorem Loaded.recovers_iff : l.recoveryTerminals.contains s = true ↔ l.Recovers s := by
  obtain ⟨-, version, h⟩ := loaded.prepared
  obtain ⟨m, -, same⟩ := prepare_eq_ok.mp h
  have terminals : l.recoveryTerminals = SymbolSet.ofList l.tables.symbols.size
      ((List.range l.tables.symbols.size).filter (isRecoveryTerminal l.tables)) := by
    rw [same]
  rw [terminals, SymbolSet.contains_ofList, List.mem_filter, List.mem_range, isRecoveryTerminal,
    Recovers, isTerminal, Tables.isTerminal, symbolInfo?]
  cases found : l.tables.symbols[s]? with
  | none => simp
  | some info =>
    have inside := (Array.getElem?_eq_some_iff.mp found).1
    simp [inside, and_assoc]

theorem Loaded.mem_scan_iff {text : Text} {offset : Nat} {m : TokenMatch}
    (inside : offset ≤ text.size) :
    m ∈ (l.matcher.scan text offset).found ↔ offset ≤ m.stop ∧ m.stop ≤ text.size ∧
      ∃ d ∈ l.tables.tokens, d.symbol = m.symbol ∧ d.pattern.isLiteral = m.literal ∧
        d.pattern.Matches (text.extract offset m.stop).toList :=
  Matcher.mem_scan_iff_of_ofTokens loaded.matcher_eq inside

theorem Loaded.matchesWhole_iff {text : Text} :
    l.matcher.matchesWhole text s = true ↔
      ∃ d ∈ l.tables.tokens, d.symbol = s ∧ d.pattern.Matches text.toList := by
  rw [Matcher.matchesWhole, List.any_eq_true]
  constructor
  · rintro ⟨m, mem, whole⟩
    rw [Bool.and_eq_true, beq_iff_eq, beq_iff_eq] at whole
    obtain ⟨-, -, d, hd, symbol, -, held⟩ := (loaded.mem_scan_iff (Nat.zero_le _)).mp mem
    rw [whole.2, Array.extract_size] at held
    exact ⟨d, hd, symbol.trans whole.1, held⟩
  · rintro ⟨d, hd, rfl, held⟩
    refine ⟨⟨text.size, d.symbol, d.pattern.isLiteral⟩,
      (loaded.mem_scan_iff (Nat.zero_le _)).mpr ⟨Nat.zero_le _, Nat.le_refl _, d, hd, rfl, rfl, ?_⟩,
      by simp⟩
    rwa [Array.extract_size]

theorem Loaded.isKeyword_iff : l.isKeyword s = true ↔ l.Keyword s := by
  obtain ⟨valid, version, h⟩ := loaded.prepared
  obtain ⟨m, -, same⟩ := prepare_eq_ok.mp h
  have keywords : l.keywords =
      SymbolSet.ofList l.tables.symbols.size (keywordsOf l.tables l.matcher) := by
    rw [same]
  have found : s ∈ keywordsOf l.tables l.matcher ↔ l.Keyword s := by
    rw [keywordsOf, Keyword, wordToken]
    cases l.tables.wordToken with
    | none => simp
    | some word =>
      simp only [List.mem_filterMap, Option.some.injEq, exists_eq_left', ← loaded.matchesWhole_iff]
      refine exists_congr fun d => and_congr_right fun _ => ?_
      cases d.pattern with
      | literal text =>
        simp only [TokenPattern.literal.injEq, exists_eq_left', Option.ite_none_right_eq_some,
          Option.some.injEq]
        exact and_comm
      | regex source => simp
  rw [isKeyword, keywords, SymbolSet.contains_ofList, found]
  refine and_iff_left_of_imp ?_
  rintro ⟨word, -, d, hd, rfl, -⟩
  exact Tables.lt_of_isTerminal ((Tables.checks_of_valid valid).2.2.1 d hd)

end Loaded

end Language

end Glr
