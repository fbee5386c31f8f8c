import Glr.Proofs.EndLeaves
import Glr.Proofs.Pace
import Glr.Proofs.Selection

/-!
# Before the end of a text

A parse ends where the end of the text is ahead.  That is right as long as the end is not ahead
before, which is a matter of the tables: every token that is lexed before the end covers some of the
text and is a match of a definition of its symbol (`Language.Extends`), so the end is lexed before
the end just where a token is defined for it.  Checking the tables does not exclude such a
definition, and `early_accepted` shows what a parse makes of one.

In all other tables the end is reserved (`Tables.ReservesEnd`).  Then no turn of a parse before the
end of the text has it ahead, not even in a leaf of an old tree, and the number of these turns is
bounded.
-/

namespace Glr

/-- No token is defined for the end of the text. -/
def Tables.ReservesEnd (t : Tables) : Prop := ∀ d ∈ t.tokens, d.symbol ≠ Symbol.endOfText

/-! ## Tokens -/

namespace Language

variable {l : Language} {text : Text} {offset stop : Nat} {V : Symbol → Prop} {s : Symbol}

theorem Candidate.finds (h : l.Candidate text offset V stop s) :
    ∃ m, l.Finds text offset m ∧ m.symbol = s ∧ m.stop = stop := by
  cases h with
  | own best => exact ⟨_, best.finds, rfl, rfl⟩
  | word _ _ longest => exact longest.finds

theorem FirstStop.lt_stop (h : l.FirstStop text offset stop) : offset < stop := by
  induction h with
  | atEnd h => exact h
  | here h => exact Nat.lt_add_of_pos_right (Utf8.width_pos _)
  | later h _ _ _ ih => exact Nat.lt_of_le_of_lt (Nat.le_add_right _ _) ih

/-- What is chosen covers some of the text, and all of it is a match unless it is an error. -/
theorem Chosen.covers {mode recorded : Nat} {wrong : Bool}
    (h : l.Chosen text offset V mode s stop recorded wrong) : offset < stop ∧
      (wrong = false → ∃ d ∈ l.tables.tokens, d.symbol = s ∧
        d.pattern.Matches (text.extract offset stop).toList) := by
  have found {V : Symbol → Prop} (candidate : l.Candidate text offset V stop s) :
      offset < stop ∧ ∃ d ∈ l.tables.tokens, d.symbol = s ∧
        d.pattern.Matches (text.extract offset stop).toList := by
    obtain ⟨m, finds, rfl, rfl⟩ := candidate.finds
    obtain ⟨d, hd, symbol, -, fits⟩ := finds.defined
    exact ⟨finds.lt_stop, d, hd, symbol, fits⟩
  cases h with
  | valid candidate => exact ⟨(found candidate).1, fun _ => (found candidate).2⟩
  | recovered _ candidate => exact ⟨(found candidate).1, fun _ => (found candidate).2⟩
  | unknown _ _ first => exact ⟨first.lt_stop, fun h => by cases h⟩

/-- What a token at an offset is: it covers the text from there on, all of it is a match of a
definition of its symbol, and it is empty and the end of the text just at the end of the text. -/
structure Extends (l : Language) (text : Text) (offset : Nat) (t : Token) : Prop where
  start : t.span.start = offset
  stop_le : t.span.stop ≤ text.size
  extent : t.extent = Point.extentOf (text.extract offset t.span.stop)
  exhausted : t.symbol = Symbol.endOfText ∧ t.span.stop = offset ↔ offset = text.size
  covers : offset < text.size → offset < t.span.stop
  defined : offset < text.size → t.isError = false → ∃ d ∈ l.tables.tokens,
    d.symbol = t.symbol ∧ d.pattern.Matches (text.extract offset t.span.stop).toList
  wrong : t.isError = true → t.symbol = Symbol.error

theorem extends_nextTokenIn (loaded : l.Loaded) (inside : offset ≤ text.size) (valid : SymbolSet)
    (mode : Nat) : l.Extends text offset (l.nextTokenIn text offset valid mode) := by
  have placed := l.placed_nextTokenIn text offset valid mode
  have extent := l.extent_nextTokenIn text offset valid mode
  have token := nextTokenIn_of_loaded loaded text offset valid mode
  rw [Nat.min_eq_left inside] at placed token
  rw [placed.start] at extent
  rcases Nat.lt_or_eq_of_le inside with before | rfl
  · obtain ⟨covers, defined⟩ :=
      (chosen_patternToken loaded before (offset + 1) valid mode).covers
    rw [← token] at covers defined
    refine ⟨placed.start, placed.stop_le, extent, ?_, fun _ => covers, fun _ => defined,
      placed.wrong⟩
    exact ⟨fun h => absurd h.2 (Nat.ne_of_gt covers), fun h => absurd h (Nat.ne_of_lt before)⟩
  · rw [patternToken, if_pos (Nat.le_refl _)] at token
    refine ⟨placed.start, placed.stop_le, extent, ⟨fun _ => rfl, fun _ => ?_⟩,
      fun h => absurd h (Nat.lt_irrefl _), fun h => absurd h (Nat.lt_irrefl _), placed.wrong⟩
    rw [token]
    exact ⟨rfl, rfl⟩

/-- Where the end is reserved it is not lexed before. -/
theorem Extends.symbol_ne_end (reserved : l.tables.ReservesEnd) {t : Token}
    (h : l.Extends text offset t) (before : offset < text.size) :
    t.symbol ≠ Symbol.endOfText := by
  cases right : t.isError with
  | true =>
    rw [h.wrong right]
    decide
  | false =>
    obtain ⟨d, hd, symbol, -⟩ := h.defined before right
    rw [← symbol]
    exact reserved d hd

end Language

/-! ## Parses -/

section Parse

variable {task : ParseTask} {old : Option Green} {la : Lookahead} {root : Green} {r : Run}
  (loaded : task.language.Loaded) (reserved : task.language.tables.ReservesEnd)

include loaded reserved

/-- A token that is lexed is the end of the text only where that is. -/
theorem atEnd_of_lexed {offset : Nat} (valid : SymbolSet) (mode : Nat)
    (isEnd : (task.language.nextTokenIn task.text offset valid mode).symbol = Symbol.endOfText) :
    task.text.size ≤ offset := by
  rcases Nat.lt_or_ge offset task.text.size with before | after
  · have covering := Language.extends_nextTokenIn loaded (Nat.le_of_lt before) valid mode
    exact absurd isEnd (covering.symbol_ne_end reserved before)
  · exact after

theorem Ahead.forward (ends : ∀ root ∈ old, root.EndsEmpty) (ahead : Ahead task old la) :
    la.Forward task.text := by
  cases ahead with
  | @reused place leaf held isLeaf nonempty undamaged correct =>
    obtain ⟨root, hroot, held⟩ := held
    have own := (Green.hereditary_endsEmpty.of_holds (ends root hroot) held).here
      (List.isEmpty_iff.mp isLeaf)
    refine ⟨fun isEnd => ?_, fun _ => Nat.lt_add_of_pos_right nonempty,
      fun after => Nat.le_trans after (Nat.le_add_right _ _)⟩
    rcases own (beq_iff_eq.mp isEnd) with empty | damaged
    · exact absurd empty (Nat.ne_of_gt nonempty)
    · rw [undamaged] at damaged
      cases damaged
  | lexed place valid mode =>
    refine ⟨fun isEnd => atEnd_of_lexed loaded reserved valid mode (beq_iff_eq.mp isEnd),
      fun before => ?_, fun after => ?_⟩
    · exact (Language.extends_nextTokenIn loaded (Nat.le_of_lt before) valid mode).covers before
    · have placed := task.language.placed_nextTokenIn task.text place.offset valid mode
      have after : task.text.size ≤ place.offset := after
      rw [Nat.min_eq_right after] at placed
      exact placed.le_stop

theorem Ahead.endEmpty (ends : ∀ root ∈ old, root.EndsEmpty) (ahead : Ahead task old la)
    (r : Run) (state : StateId) (flags : NodeFlags) : (r.makeLeaf la state flags).1.EndEmpty := by
  obtain ⟨-, symbol, length⟩ := ahead.leaf_spec r state flags
  intro isEnd
  rw [symbol] at isEnd
  have atEnd := (ahead.forward loaded reserved ends).atEnd (beq_iff_eq.mpr isEnd)
  refine Or.inl ?_
  rw [length]
  cases ahead with
  | @reused place leaf held isLeaf nonempty undamaged correct =>
    obtain ⟨root, hroot, held⟩ := held
    have own := (Green.hereditary_endsEmpty.of_holds (ends root hroot) held).here
      (List.isEmpty_iff.mp isLeaf)
    rcases own isEnd with empty | damaged
    · exact absurd empty (Nat.ne_of_gt nonempty)
    · rw [undamaged] at damaged
      cases damaged
  | lexed place valid mode =>
    have placed := task.language.placed_nextTokenIn task.text place.offset valid mode
    have after : task.text.size ≤ place.offset := atEnd
    rw [Nat.min_eq_right after] at placed
    exact Nat.sub_eq_zero_of_le (placed.start ▸ placed.stop_le)

/-- The ends of the text in a new tree are empty if those in the old tree are. -/
theorem endsEmpty_of_ending (ends : ∀ root ∈ old, root.EndsEmpty)
    (ending : Run.Ending task old root r) : root.EndsEmpty := by
  have error (text : Text) : (Repair.errorLeaf text).EndsEmpty := by
    refine .of_leaf rfl fun isEnd => ?_
    cases isEnd
  refine hereditary_of_ending Green.hereditary_endsEmpty error (fun la r state flags ahead => ?_)
    ends ending
  exact .of_leaf (ahead.leaf_spec r state flags).1
    (ahead.endEmpty loaded reserved ends r state flags)

end Parse

/-! ## Trees -/

/-- A tree that parses with loaded languages and edits give. -/
inductive Tree.Gained : Tree → Prop where
  | parse {p : Parser} (loaded : p.language.Loaded) (text : Text) {old : Option Tree}
      (ih : ∀ t ∈ old, Gained t) (interrupts : Interrupts) :
      Gained (p.parse text old interrupts).value.tree
  | edit {t : Tree} (ih : Gained t) (e : TextEdit) : Gained (t.edit e).value

namespace Parser

variable {p : Parser} {text : Text} {old : Option Tree}

/-- An old tree is used just if its language has the same tables. -/
theorem tables_of_mem_oldRoot {root : Green} (h : root ∈ p.oldRoot old) :
    ∃ t ∈ old, t.root = root ∧ t.language.tables = p.language.tables := by
  obtain ⟨t, ht, same⟩ := Option.map_eq_some_iff.mp h
  obtain ⟨mem, used⟩ := Option.filter_eq_some_iff.mp ht
  exact ⟨t, mem, same, beq_iff_eq.mp used⟩

end Parser

theorem Tree.Gained.endsEmpty {t : Tree} (gained : t.Gained) :
    t.language.tables.ReservesEnd → t.root.EndsEmpty := by
  induction gained with
  | @parse p loaded text old gained interrupts ih =>
    intro reserved
    have known : ∀ root ∈ p.oldRoot old, root.EndsEmpty := by
      intro root hroot
      obtain ⟨t, ht, rfl, tables⟩ := Parser.tables_of_mem_oldRoot hroot
      exact ih t ht (tables ▸ reserved)
    have ending := Run.ending_outcome (p.task text) interrupts (p.oldRoot old)
    rw [Parser.tree_parse]
    generalize Run.outcome (p.task text) interrupts (p.oldRoot old) = outcome at ending ⊢
    exact endsEmpty_of_ending loaded reserved known ending
  | edit gained e ih => exact fun reserved => (ih reserved).edit e

/-! ## Before the end -/

/-- What is known of a parse between two turns.  Before the end of the text, a token that covers
some of it is ahead, and not the end; the parse does not end without saying that it cannot be
completed; and so far only so many turns were taken there. -/
structure Run.Underway (task : ParseTask) (tokens : List Lookahead) (r : Run) : Prop where
  ahead : r.position.offset < task.text.size → (r.lookahead task).1.token.isEnd = false ∧
    (r.lookahead task).1.start = r.position ∧
    r.position.offset < (r.lookahead task).1.stop.offset
  unfinished : r.position.offset < task.text.size → ∀ root r', r.turn task = .done root r' →
    ∃ w ∈ r'.warnings, w.problem = .incomplete
  turns : tokens.countP (fun la => la.start.offset < task.text.size) ≤
    (task.config.maxRecoveryAttempts + 1) * task.text.size

namespace Run

variable {task : ParseTask} {old : Option Green} {r : Run} {tokens : List Lookahead}
  {outcome : Outcome} (forward : ∀ la, Ahead task old la → la.Forward task.text)

include forward

theorem Reached.underway (reached : Reached task old tokens r) : r.Underway task tokens := by
  obtain ⟨ahead, here, -⟩ := lookahead_spec reached.good
  have start := here.trans (Steady.lookahead task r).position
  have covers := forward _ ahead
  refine ⟨fun before => ?_, fun before root r' done => ?_, (reached.paced forward).total⟩
  · refine ⟨Bool.eq_false_iff.mpr fun isEnd => ?_, start, ?_⟩
    · exact Nat.not_lt_of_le (covers.atEnd isEnd) (start ▸ before)
    · have moves := covers.moves
      rw [start] at moves
      exact moves before
  · rcases done_turn done with incomplete | ⟨isEnd, -⟩
    · exact incomplete
    · exact absurd (start ▸ before) (Nat.not_lt_of_le (covers.atEnd isEnd))

/-- A parse that is not cancelled and does not say that it cannot be completed has come to the end
of the text. -/
theorem Closes.atEnd (closes : Closes task old tokens outcome) (ran : outcome.cancelled = false)
    (complete : ∀ w ∈ outcome.run.warnings, w.problem ≠ .incomplete) :
    task.text.size ≤ outcome.run.position.offset := by
  cases closes with
  | cancelled reached => cases ran
  | exceeded reached => exact absurd rfl (complete _ List.mem_cons_self)
  | @done r r' tokens root reached done =>
    rcases done_turn done with ⟨w, hw, incomplete⟩ | ⟨isEnd, same⟩
    · exact absurd incomplete (complete w hw)
    · obtain ⟨ahead, here, -⟩ := lookahead_spec reached.good
      have start := here.trans (Steady.lookahead task r).position
      have after := (forward _ ahead).atEnd isEnd
      show _ ≤ r'.position.offset
      rwa [same, ← start]

end Run

namespace Parser

variable {p : Parser}

/-- The tokens of a loaded language cover the text.  If moreover no token is defined for the end of
the text, no parse takes the end for read before it is, or stays where it is for ever. -/
theorem not_over_before_end (loaded : p.language.Loaded) (text : Text) :
    (∀ offset ≤ text.size, ∀ (valid : SymbolSet) (mode : Nat),
      p.language.Extends text offset (p.language.nextTokenIn text offset valid mode)) ∧
    (p.language.tables.ReservesEnd → ∀ old : Option Tree, (∀ t ∈ old, t.Gained) →
      (∀ tokens r, Run.Reached (p.task text) (p.oldRoot old) tokens r →
        r.Underway (p.task text) tokens) ∧
      ∀ interrupts, (p.parse text old interrupts).value.cancelled = false →
        (∀ w ∈ (p.parse text old interrupts).value.warnings, w.problem ≠ .incomplete) →
          text.size ≤
            (Run.outcome (p.task text) interrupts (p.oldRoot old)).run.position.offset) := by
  refine ⟨fun offset inside => Language.extends_nextTokenIn loaded inside,
    fun reserved old gained => ?_⟩
  have ends : ∀ root ∈ p.oldRoot old, root.EndsEmpty := by
    intro root hroot
    obtain ⟨t, ht, rfl, tables⟩ := tables_of_mem_oldRoot hroot
    exact (gained t ht).endsEmpty (tables ▸ reserved)
  have forward (la : Lookahead) (ahead : Ahead (p.task text) (p.oldRoot old) la) :
      la.Forward text := ahead.forward loaded reserved ends
  refine ⟨fun tokens r reached => reached.underway forward,
    fun interrupts ran complete => ?_⟩
  have closes := Run.closes_outcome (p.task text) interrupts (p.oldRoot old)
  rw [value_parse] at ran complete
  dsimp only at ran complete
  generalize Run.outcome (p.task text) interrupts (p.oldRoot old) = outcome
    at closes ran complete ⊢
  exact closes.atEnd forward ran fun w hw => complete w (List.mem_reverse.mpr hw)

/-- A word of two letters is parsed, and a third one is put behind it. -/
theorem word_over_at_end :
    let p : Parser := ⟨Language.wordLanguage, {}⟩
    let old := ((p.parse #[105, 102] none .never).value.tree.edit
      (.replace #[105, 102] 2 2 #[102])).value
    let text : Text := #[105, 102, 102]
    p.language.Loaded ∧ p.language.tables.ReservesEnd ∧ old.Gained ∧
      p.language.Extends text 1 (p.language.nextTokenIn text 1 (p.language.validSet 0) 0) ∧
      (Run.initial (p.oldRoot (some old))).Underway (p.task text) [] ∧
      text.size ≤
        (Run.outcome (p.task text) .never (p.oldRoot (some old))).run.position.offset := by
  intro p old text
  have loaded : p.language.Loaded := Or.inl ⟨Language.wordTables, Language.wordTables_load⟩
  have reserved : p.language.tables.ReservesEnd := by
    rw [Tables.ReservesEnd]
    decide
  have first : (p.parse #[105, 102] none .never).value.tree.Gained :=
    .parse loaded _ (fun t ht => absurd ht (Option.not_mem_none t)) _
  have gained : old.Gained := first.edit _
  have quiet : (p.parse text (some old) .never).value.warnings = [] := by decide +kernel
  obtain ⟨tokens, parses⟩ := not_over_before_end loaded text
  obtain ⟨underway, atEnd⟩ := parses reserved (some old) fun t ht => Option.some.inj ht ▸ gained
  refine ⟨loaded, reserved, gained, tokens 1 (by decide) _ _, underway _ _ .initial,
    atEnd .never (by decide +kernel) fun w hw => ?_⟩
  rw [quiet] at hw
  cases hw

end Parser

/-! ## A token for the end -/

/-- Tables of a language whose one sentence is empty, with a token `a` for the end of the text. -/
def earlyTables : Tables where
  name := "early"
  symbols := #[⟨"end", true, false, false, false⟩, ⟨"ERROR", true, true, true, false⟩,
    ⟨"s", false, true, true, false⟩]
  productions := #[⟨2, 0, 0, .neither, 0⟩]
  states := #[⟨[(0, [.reduce 0])], [(2, 1)], 0⟩, ⟨[(0, [.accept])], [], 0⟩]
  lexModes := #[[0]]
  tokens := [⟨0, .literal "a"⟩]
  extras := []
  wordToken := none
  externalTokens := []
  startSymbol := 2

/-- The language loaded from these tables. -/
def earlyLanguage : Language where
  version := 14
  tables := earlyTables
  matcher := ⟨[⟨0, true, .chars ⟨[(97, 97)]⟩⟩]⟩
  validSets := #[⟨#[true, false, false]⟩]
  recoveryTerminals := ⟨#[false, false, false]⟩
  extras := ⟨#[false, false, false]⟩
  keywords := ⟨#[false, false, false]⟩
  externals := ⟨#[false, false, false]⟩
  scanner := none

theorem earlyTables_load : Language.ofTables earlyTables = .ok earlyLanguage := by
  have matcher : Matcher.ofTokens earlyTables.tokens (Language.nameIn earlyTables) =
      .ok earlyLanguage.matcher := by cbv
  exact Language.ofTables_eq_ok.mpr
    ⟨by decide +kernel, Language.prepare_eq_ok.mpr ⟨_, matcher, by cbv⟩⟩

/-- The `a` of `ab` is taken for the end of the text: the parse accepts at the start, without an
error or a warning, and the tree holds nothing. -/
theorem early_accepted :
    let p : Parser := ⟨earlyLanguage, {}⟩
    let text : Text := #[97, 98]
    let parsed := (p.parse text none .never).value
    p.language.Loaded ∧ (p.language.nextToken text 0 0).isEnd = true ∧
      parsed.cancelled = false ∧ parsed.warnings = [] ∧ parsed.hasErrors = false ∧
      parsed.tree.textLength = 0 ∧
      (Run.outcome (p.task text) .never none).run.position.offset < text.size := by
  intro p text parsed
  have loaded : p.language.Loaded := Or.inl ⟨earlyTables, earlyTables_load⟩
  exact ⟨loaded, by decide +kernel, by decide +kernel, by decide +kernel, by decide +kernel,
    by decide +kernel, by decide +kernel⟩

end Glr
