import Glr.Proofs.Following
import Glr.Proofs.Heeding
import Glr.Proofs.RootKind

/-!
# Texts that are edited and parsed again

A text is parsed, edited, and parsed again with the edited tree, any number of times.  Each of the
trees is the one that a parse from scratch comes to, errors and all (`Session.structurallyEqual`),
as long as nothing comes up of what an old tree cannot tell a parse:

* how far the text was looked at for what is inside an error that ends in front of an edit;
* how far it was looked at for the extras between a node and the token that has closed it;
* what the states before and behind the last reductions of a subtree make of the text behind it;
* how many reductions and turns the parse from scratch would have needed, if it ran out of them.

Everything else that an old tree holds is known to be what a parse would come to again: a tree
tells of its text, and of the next as far as an edit has left it alone (`Language.Tells`), every
node that is not fragile and has no error in it was made in a way that the automaton cannot but take
again (`Vouches`), and as long as there are no errors the token that has closed it is among what the
node was made from (`Heeds`).
-/

namespace Glr

open Green

/-- A node in a tree has its like in any tree of the same gist. -/
theorem Green.Holds.of_gist {g h n : Green} {o : Nat} (same : g.gist = h.gist)
    (held : g.Holds o n) : ∃ m, h.Holds o m ∧ n.gist = m.gist := by
  induction held with
  | root => exact ⟨h, .root, same⟩
  | @child start g' c before after above among ih =>
    obtain ⟨m, held, like⟩ := ih
    have children := children_congr like
    rw [among, List.map_append, List.map_cons] at children
    obtain ⟨before', rest, among', first, rest_eq⟩ := List.map_eq_append_iff.mp children.symm
    obtain ⟨c', after', rfl, own, -⟩ := List.map_eq_cons_iff.mp rest_eq
    refine ⟨c', ?_, own.symm⟩
    rw [← spread_gists before, ← first, spread_gists]
    exact held.child among'

/-- Nodes of one gist can be made again from the same. -/
theorem Vouches.congr {l : Language} {text : Text} {x : Nat} {g h : Green}
    (vouches : Vouches l text x g) (same : g.gist = h.gist) : Vouches l text x h := by
  intro unmarked inner
  have inner' : g.production.isSome = true := production_congr same ▸ inner
  have state : h.parseState = g.parseState := by
    rw [← parseState_gist inner, ← same, parseState_gist inner']
  have unmarked' : g.isMarked = false := by
    rw [isMarked, hasError_congr same, isFragile_congr same]
    exact unmarked
  rw [state]
  exact (vouches unmarked' inner').congr (by rw [List.map_singleton, List.map_singleton, same])

/-- Whether a problem is that the reductions for a token ran out, or the turns of the parse. -/
def Problem.isShortage : Problem → Bool
  | limit (.reductions _) => true
  | limit (.steps _) => true
  | _ => false

/-- A parse that ran out of neither reductions nor turns. -/
def ParseResult.Ample (result : ParseResult) : Prop :=
  ∀ w ∈ result.warnings, w.problem.isShortage = false

instance (result : ParseResult) : Decidable result.Ample :=
  inferInstanceAs (Decidable (∀ w ∈ result.warnings, w.problem.isShortage = false))

namespace Run

variable {task : ParseTask}

theorem outcome_eq (task : ParseTask) (old : Option Green) : outcome task .never old =
    ending task (task.config.stepBudget task.text.size) (initial old) := by
  cases old with
  | none => rfl
  | some root => rfl

theorem cancelled_ending : ∀ (fuel : Nat) (r : Run), (ending task fuel r).cancelled = false := by
  intro fuel
  induction fuel with
  | zero => exact fun _ => rfl
  | succ fuel ih =>
    intro r
    cases turn : r.turn task with
    | done root r' => rw [ending_done turn]
    | more r' =>
      rw [ending_more turn]
      exact ih r'

end Run

namespace Parser

variable {G : Grammar} {p : Parser} {text : Text} {t : Tree} {e : TextEdit}

theorem ample_outcome {old : Option Tree} (ample : (p.parse text old .never).value.Ample) :
    Run.Ample (p.task text) (Run.outcome (p.task text) .never (p.oldRoot old)) := by
  rw [ParseResult.Ample, value_parse] at ample
  dsimp only at ample
  generalize Run.outcome (p.task text) .never (p.oldRoot old) = outcome at ample ⊢
  have silent : ∀ w ∈ outcome.run.warnings, w.problem.isShortage = false :=
    fun w hw => ample w (List.mem_reverse.mpr hw)
  -- A limit that is like one of the two is one of the two.
  refine ⟨fun w hw l' told like => ?_, fun w hw l' told like => ?_⟩
  · cases l' with
    | reductions allowed => exact Bool.noConfusion ((told ▸ silent w hw).symm)
    | parallel allowed => exact Bool.noConfusion (like ⟨true, false, false, false⟩)
    | ambiguity allowed => exact Bool.noConfusion (like ⟨false, true, false, false⟩)
    | steps allowed => exact Bool.noConfusion (like ⟨false, false, false, true⟩)
  · cases l' with
    | steps allowed => exact Bool.noConfusion ((told ▸ silent w hw).symm)
    | parallel allowed => exact Bool.noConfusion (like ⟨true, false, false, false⟩)
    | ambiguity allowed => exact Bool.noConfusion (like ⟨false, true, false, false⟩)
    | reductions allowed => exact Bool.noConfusion (like ⟨false, false, true, false⟩)

/-- A parse from scratch that runs out of nothing holds all of its text. -/
theorem length_of_ample (compiled : p.language.Compiled G) (small : text.size ≤ Size.largest)
    (ample : (p.parse text none .never).value.Ample) :
    (p.parse text none .never).value.tree.root.length = text.size := by
  obtain ⟨g, a, -, founded⟩ := compiled.founded
  have founded : (p.task text).language.Founded g a := founded
  have fits : Green.Fits text none := fun root hroot => absurd hroot (Option.not_mem_none root)
  have closes := Run.closes_outcome (p.task text) .never none
  have ending := Run.ending_outcome (p.task text) .never none
  have none : p.oldRoot none = none := rfl
  obtain ⟨thrifty, brief⟩ := ample_outcome ample
  rw [tree_parse]
  rw [none] at thrifty brief ⊢
  have ran : (Run.outcome (p.task text) .never Option.none).cancelled = false := by
    rw [Run.outcome_eq]
    exact Run.cancelled_ending _ _
  generalize Run.outcome (p.task text) .never Option.none = outcome
    at closes ending thrifty brief ran ⊢
  exact (Run.length_of_ending founded fits small ending).mpr
    (Run.not_stranded founded closes ran thrifty brief)

/-- A parse with an old tree whose leaves and nodes can be relied on comes to what a parse from
scratch comes to. -/
theorem gist_parse (compiled : p.language.Compiled G) {root : Green}
    (same : p.oldRoot (some t) = some root) (legacy : Legacy (p.task text) root)
    (hands : Run.HandsOver (p.task text) root false)
    (ample : (p.parse text none .never).value.Ample) :
    (p.parse text (some t) .never).value.tree.root.gist =
      (p.parse text none .never).value.tree.root.gist := by
  obtain ⟨g, a, -, founded⟩ := compiled.founded
  have none : p.oldRoot none = none := rfl
  have ample := ample_outcome ample
  rw [tree_parse, tree_parse, same]
  rw [none, Run.outcome_eq] at ample ⊢
  rw [Run.outcome_eq]
  have founded : (p.task text).language.Founded g a := founded
  have free : Run.Unhindered (p.task text) _ (Run.initial Option.none) := ⟨⟨_, .initial⟩, ample⟩
  have level : Run.Level (p.task text) (Run.initial (some root)) (Run.initial Option.none) :=
    .alike ⟨rfl, rfl, rfl, rfl⟩
  have gist := Run.gist_ending founded legacy hands _ _ .initial free level (Nat.le_refl _)
  dsimp only
  exact gist.symm

/-- Texts with their trees: one is parsed from scratch, and each of the others comes from the one
before by an edit and is parsed with the edited tree.  None has had an error if that is `sure`.

Where a node was decided in front of an edit, the extras behind it have to have been as well
(`clear`), and where an error ends in front of an edit, so have the leaves in it (`closed`); the one
is asked for only before the first error, and the other only after it.  Behind a subtree that is
taken over, the states before and after its last reductions have to see the same (`hands`), and no
parse from scratch may run out of reductions or turns (`ample`). -/
inductive Session (p : Parser) : Bool → Text → Tree → Prop where
  | first {text : Text} (small : text.size ≤ Size.largest)
      (ample : (p.parse text none .never).value.Ample) :
      Session p (!(p.parse text none .never).value.hasErrors) text
        (p.parse text none .never).value.tree
  | next {sure : Bool} {old text : Text} {t : Tree} {e : TextEdit} (before : Session p sure old t)
      (turns : e.Turns old text) (small : text.size ≤ Size.largest)
      (ample : (p.parse text none .never).value.Ample)
      (clear : sure = true → t.root.Clear p.language old e.startByte)
      (closed : sure = false → (t.edit e).value.root.Sealed e.startByte)
      (hands : Run.HandsOver (p.task text) (t.edit e).value.root sure) :
      Session p (sure && !(p.parse text (some (t.edit e).value) .never).value.hasErrors) text
        (p.parse text (some (t.edit e).value) .never).value.tree

/-- What is known of the trees of a session. -/
structure Settled (G : Grammar) (p : Parser) (sure : Bool) (text : Text) (t : Tree) : Prop where
  language : t.language = p.language
  obtained : t.Obtained G
  gist : t.root.gist = (p.parse text none .never).value.tree.root.gist
  tells : p.language.Tells text t.root
  inStep : t.root.InStep text
  right : sure = true → t.root.hasError = false
  heeds : sure = true → Everywhere (Heeds p.language text) 0 [t.root]

namespace Settled

variable {sure : Bool} {old : Text} (settled : Settled G p sure old t)
  (compiled : p.language.Compiled G) (unaided : p.language.scanner = none)

include settled compiled unaided

/-- All that stands in the tree can be made again if all in that from scratch can. -/
theorem vouches (small : old.size ≤ Size.largest) {o : Nat} {n : Green}
    (held : t.root.Holds o n) : Vouches p.language old o n := by
  obtain ⟨m, held', same⟩ := held.of_gist settled.gist
  exact (vouches_parse compiled unaided small .never held').congr same.symm

omit unaided in
/-- An edit leaves what is known of the errors: there are none, or they are sealed. -/
theorem sealed (closed : sure = false → (t.edit e).value.root.Sealed e.startByte) :
    (t.edit e).value.root.Sealed e.startByte := by
  obtain ⟨g, a, lowered, -⟩ := compiled.founded
  cases sure with
  | false => exact closed rfl
  | true =>
    have rooted := settled.obtained.rooted lowered
    exact (rooted.edit e).sealed (rooted.hasError_edit (settled.right rfl) e) _

/-- The edited tree can be relied on for the new text. -/
theorem legacy (small : old.size ≤ Size.largest) (turns : e.Turns old text)
    (closed : (t.edit e).value.root.Sealed e.startByte)
    (modes : ∀ row ∈ p.language.tables.states, row.lexMode ≠ LexMode.recovery) :
    Legacy (p.task text) (t.edit e).value.root := by
  obtain ⟨g, a, lowered, -⟩ := compiled.founded
  have between := turns.between
  have edited := settled.obtained.edit e
  have rooted := edited.rooted lowered
  have length := settled.inStep.length
  refine ⟨fun root hroot => ?_, settled.tells.recalls_edit between length closed unaided,
    fun o n held undamaged => ?_, edited.plain, fun o n held => ?_, fun o n held => ?_,
    fun row hrow => ⟨modes row hrow, compiled.lexMode_ne_union hrow⟩⟩
  · obtain rfl := Option.mem_some_iff.mp hroot
    exact ⟨edited.measured, (settled.inStep.edit between).length⟩
  · exact settled.tells.retraces_edit between length closed unaided
      (fun b n held => settled.vouches compiled unaided small held) held undamaged
  · exact (rooted.of_holds held).1.shaped.leaf
  · exact (rooted.of_holds held).1.shaped.wrong

/-- As long as there was no error, all that can be taken over heeds the new text. -/
theorem heeds_edit (turns : e.Turns old text) (isSure : sure = true)
    (clear : t.root.Clear p.language old e.startByte) {o : Nat} {n : Green}
    (held : (t.edit e).value.root.Holds o n) (undamaged : n.isDamaged = false) :
    Everywhere (Heeds p.language text) o [n] := by
  obtain ⟨g, a, lowered, -⟩ := compiled.founded
  have heeds := (Everywhere.cons.mp (settled.heeds isSure)).1
  refine fun j m below => settled.tells.heeds_edit turns.between settled.inStep.length
    (fun b m held => (settled.obtained.rooted lowered).isError_eq_false (settled.right isSure) held)
    clear unaided (fun b m held => ?_) held undamaged (holdsIn_singleton.mp below)
  rw [← Nat.zero_add b]
  exact heeds b m held

end Settled

/-- A tree without errors heeds its text, if what was taken over for it did. -/
theorem heeds_parse (compiled : p.language.Compiled G) (unaided : p.language.scanner = none)
    (small : text.size ≤ Size.largest) {old : Option Tree}
    (obtained : ∀ t ∈ old, t.Obtained G) (leans : Run.Leans (p.task text) (p.oldRoot old))
    (right : (p.parse text old .never).value.tree.root.hasError = false) :
    Everywhere (Heeds p.language text) 0 [(p.parse text old .never).value.tree.root] := by
  obtain ⟨g, a, lowered, founded⟩ := compiled.founded
  have founded : (p.task text).language.Founded g a := founded
  have rooted : ∀ root ∈ p.oldRoot old, root.Rooted g := by
    intro root hroot
    obtain ⟨t, ht, rfl⟩ := exists_of_mem_oldRoot hroot
    exact (obtained t ht).rooted lowered
  have closes := Run.closes_outcome (p.task text) .never (p.oldRoot old)
  rw [tree_parse] at right ⊢
  generalize Run.outcome (p.task text) .never (p.oldRoot old) = outcome at closes right ⊢
  exact Run.heeds_of_closes founded unaided small leans rooted closes right

/-- The tree of a parse is known as far as that from scratch is. -/
theorem settled_first (compiled : p.language.Compiled G) (unaided : p.language.scanner = none)
    (small : text.size ≤ Size.largest) (ample : (p.parse text none .never).value.Ample) :
    Settled G p (!(p.parse text none .never).value.hasErrors) text
      (p.parse text none .never).value.tree := by
  have none : ∀ root ∈ p.oldRoot none, root.Spells text 0 :=
    fun root hroot => absurd hroot (Option.not_mem_none root)
  have length := length_of_ample compiled small ample
  have right (sure : (!(p.parse text Option.none .never).value.hasErrors) = true) :
      (p.parse text Option.none .never).value.tree.root.hasError = false :=
    (Bool.not_eq_true' _).mp sure
  exact ⟨rfl, .parse compiled text (fun t ht => absurd ht (Option.not_mem_none t)) .never, rfl,
    tells_parse compiled unaided small .never, ⟨length, spells_parse small none .never length⟩,
    right, fun sure => heeds_parse compiled unaided small
      (fun t ht => absurd ht (Option.not_mem_none t)) (.fresh _) (right sure)⟩

theorem Session.settled {sure : Bool} (compiled : p.language.Compiled G)
    (unaided : p.language.scanner = none)
    (modes : ∀ row ∈ p.language.tables.states, row.lexMode ≠ LexMode.recovery)
    (session : p.Session sure text t) : Settled G p sure text t ∧ text.size ≤ Size.largest ∧
      (p.parse text none .never).value.Ample := by
  induction session with
  | first small ample => exact ⟨settled_first compiled unaided small ample, small, ample⟩
  | @next sure old text t e before turns small ample clear closed hands ih =>
    obtain ⟨g, a, -, founded⟩ := compiled.founded
    have founded : (p.task text).language.Founded g a := founded
    obtain ⟨settled, small', -⟩ := ih
    have closed := settled.sealed compiled closed
    have legacy := settled.legacy compiled unaided small' turns closed modes
    have language : (t.edit e).value.language = p.language := settled.language
    have same : p.oldRoot (some (t.edit e).value) = some (t.edit e).value.root := by
      rw [oldRoot, Option.filter_some, language, Language.sameAs, beq_self_eq_true, if_pos rfl]
      rfl
    have obtained : ∀ u ∈ some (t.edit e).value, u.Obtained G := by
      intro u hu
      obtain rfl := Option.mem_some_iff.mp hu
      exact settled.obtained.edit e
    -- As long as there was no error, the old tree tells what closes that which is taken over.
    have hands : Run.HandsOver (p.task text) (t.edit e).value.root false ∧
        (sure = true → Run.Leans (p.task text) (some (t.edit e).value.root)) := by
      cases sure with
      | false => exact ⟨hands, fun isSure => nomatch isSure⟩
      | true =>
        have heeds := fun o n => settled.heeds_edit compiled unaided turns rfl (clear rfl)
          (o := o) (n := n)
        exact ⟨hands.closes legacy heeds, fun _ => Run.leans_of_legacy legacy heeds hands founded⟩
    have gist := gist_parse compiled same legacy hands.1 ample
    have length : (p.parse text (some (t.edit e).value) .never).value.tree.root.length =
        text.size := (length_congr gist).trans (length_of_ample compiled small ample)
    have fits : Green.Fits text (p.oldRoot (some (t.edit e).value)) := same ▸ legacy.fits
    have right (isSure : (sure &&
        !(p.parse text (some (t.edit e).value) .never).value.hasErrors) = true) :
        sure = true ∧
          (p.parse text (some (t.edit e).value) .never).value.tree.root.hasError = false := by
      rw [Bool.and_eq_true, Bool.not_eq_true'] at isSure
      exact isSure
    refine ⟨⟨rfl, .parse compiled text obtained .never, gist,
      tells_reparse compiled unaided small fits (same ▸ legacy.recalls) .never, ⟨length,
      spells_parse small (fun root hroot => ?_) .never length⟩, fun isSure => (right isSure).2,
      fun isSure => ?_⟩, small, ample⟩
    · rw [same] at hroot
      obtain rfl := Option.mem_some_iff.mp hroot
      exact (settled.inStep.edit turns.between).spells
    · exact heeds_parse compiled unaided small obtained (same ▸ hands.2 (right isSure).1)
        (right isSure).2

/-- Each tree of a session is the one that a parse from scratch comes to. -/
theorem Session.structurallyEqual {sure : Bool} (compiled : p.language.Compiled G)
    (unaided : p.language.scanner = none)
    (modes : ∀ row ∈ p.language.tables.states, row.lexMode ≠ LexMode.recovery)
    (session : p.Session sure text t) :
    t.structurallyEqual (p.parse text none .never).value.tree = true ∧
      t.hasError = (p.parse text none .never).value.hasErrors := by
  have gist := (session.settled compiled unaided modes).1.gist
  exact ⟨sameShape_of_gist _ _ gist, hasError_congr gist⟩

end Parser

namespace FlatGrammar

/-! ## Phrases of two letters -/

/-- Any number of phrases `ab`.  There may be blanks. -/
def phrases : Grammar where
  name := "phrases"
  rules := [⟨"s", .choice [.blank, .seq [.ref "s", .ref "phrase"]]⟩,
    ⟨"phrase", .seq [.literal "a", .literal "b"]⟩]
  extras := [.literal " "]
  word := none
  conflicts := []
  externals := []
  strict := false

def phrasesFlat : FlatGrammar where
  name := "phrases"
  symbols := #[⟨"end", true, false, false, false⟩, ⟨"ERROR", true, true, true, false⟩,
    ⟨" ", true, false, true, true⟩, ⟨"a", true, false, true, false⟩,
    ⟨"b", true, false, true, false⟩, ⟨"s", false, true, true, false⟩,
    ⟨"phrase", false, true, true, false⟩]
  tokens := [⟨2, .literal " "⟩, ⟨3, .literal "a"⟩, ⟨4, .literal "b"⟩]
  productions := #[⟨5, [], 0, .neither, 0⟩, ⟨5, [5, 6], 0, .neither, 0⟩, ⟨6, [3, 4], 0, .neither, 0⟩]
  start := 5
  extras := [2]
  word := none
  externals := []
  conflicts := []
  origin := #[0, 1, 2, 3, 4, 5, 6]

def phrasesAutomaton : Automaton :=
  ⟨#[⟨[⟨3, 0⟩], [⟨3, 0⟩, ⟨0, 0⟩, ⟨1, 0⟩], [(5, 1)]⟩,
    ⟨[⟨1, 1⟩, ⟨3, 1⟩], [⟨1, 1⟩, ⟨3, 1⟩, ⟨2, 0⟩], [(3, 2), (6, 3)]⟩,
    ⟨[⟨2, 1⟩], [⟨2, 1⟩], [(4, 4)]⟩, ⟨[⟨1, 2⟩], [⟨1, 2⟩], []⟩, ⟨[⟨2, 2⟩], [⟨2, 2⟩], []⟩]⟩

def phrasesTables : Tables where
  name := "phrases"
  symbols := phrasesFlat.symbols
  productions := #[⟨5, 0, 0, .neither, 0⟩, ⟨5, 2, 0, .neither, 0⟩, ⟨6, 2, 0, .neither, 0⟩]
  states := #[⟨[(0, [.reduce 0]), (3, [.reduce 0])], [(5, 1)], 0⟩,
    ⟨[(0, [.accept]), (3, [.shift 2])], [(6, 3)], 0⟩,
    ⟨[(4, [.shift 4])], [], 1⟩,
    ⟨[(0, [.reduce 1]), (3, [.reduce 1])], [], 0⟩,
    ⟨[(0, [.reduce 2]), (3, [.reduce 2])], [], 0⟩]
  lexModes := #[[3], [4]]
  tokens := phrasesFlat.tokens
  extras := [2]
  wordToken := none
  externalTokens := []
  startSymbol := 5

def phrasesLanguage : Language where
  version := 14
  tables := phrasesTables
  matcher := ⟨[⟨2, true, .chars ⟨[(32, 32)]⟩⟩, ⟨3, true, .chars ⟨[(97, 97)]⟩⟩,
    ⟨4, true, .chars ⟨[(98, 98)]⟩⟩]⟩
  validSets := #[⟨#[false, false, false, true, false, false, false]⟩,
    ⟨#[false, false, false, false, true, false, false]⟩]
  recoveryTerminals := ⟨#[false, false, true, true, true, false, false]⟩
  extras := ⟨#[false, false, true, false, false, false, false]⟩
  keywords := ⟨#[false, false, false, false, false, false, false]⟩
  externals := ⟨#[false, false, false, false, false, false, false]⟩
  scanner := none

theorem phrases_lower : phrases.lower = .ok phrasesFlat := by cbv

theorem phrasesAutomaton_eq : Automaton.ofGrammar phrasesFlat = .ok phrasesAutomaton := by cbv

theorem phrasesFlat_tables : phrasesFlat.tables false = .ok phrasesTables := by
  rw [tables, phrasesAutomaton_eq]
  exact ok_of_toOption (by decide +kernel)

theorem phrasesLanguage_compiled : phrasesLanguage.Compiled phrases := by
  have matcher : Matcher.ofTokens phrasesTables.tokens (Language.nameIn phrasesTables) =
      .ok phrasesLanguage.matcher := by cbv
  exact .of_tables phrases_lower phrasesFlat_tables (by decide +kernel)
    (Language.prepare_eq_ok.mpr ⟨_, matcher, by cbv⟩)

end FlatGrammar

namespace Parser

/-- A phrase is added to a text, a letter of it is typed over with one that is none, and is typed
again.  What stands in front of the edits, and behind them, is taken over each time. -/
theorem phrases_session :
    let p : Parser := ⟨FlatGrammar.phrasesLanguage, {}⟩
    let text : Text := #[97, 98, 32, 97, 98, 32, 97, 98]
    let longer := TextEdit.splice text 8 8 #[32, 97, 98]
    let broken := TextEdit.splice longer 6 7 #[63]
    let first := (p.parse text none .never).value
    let second := (p.parse longer
      (some (first.tree.edit (.replace text 8 8 #[32, 97, 98])).value) .never).value
    let third := (p.parse broken
      (some (second.tree.edit (.replace longer 6 7 #[63])).value) .never).value
    let fourth := (p.parse longer
      (some (third.tree.edit (.ofTexts broken longer)).value) .never).value
    (second.hasErrors = false ∧ second.metrics.nodesReused = 4) ∧
      (third.hasErrors = true ∧ third.metrics.nodesReused = 5) ∧
      (fourth.hasErrors = false ∧ fourth.metrics.nodesReused = 5) ∧
      (∃ sure, p.Session sure longer fourth.tree) ∧
      third.tree.structurallyEqual (p.parse broken none .never).value.tree = true ∧
      fourth.tree.structurallyEqual (p.parse longer none .never).value.tree = true := by
  intro p text longer broken first second third fourth
  have begun : p.Session _ text first.tree := .first (by decide) (by decide +kernel)
  have added : p.Session _ longer second.tree :=
    begun.next (.replaced 8 8 #[32, 97, 98]) (by decide +kernel) (by decide +kernel)
      (fun _ => .of_clears (by decide +kernel)) (fun _ => by decide +kernel)
      (.of_handsOver 100 (by decide +kernel))
  have mistyped : p.Session _ broken third.tree :=
    added.next (.replaced 6 7 #[63]) (by decide +kernel) (by decide +kernel)
      (fun _ => .of_clears (by decide +kernel)) (fun _ => by decide +kernel)
      (.of_handsOver 100 (by decide +kernel))
  have typed : p.Session _ longer fourth.tree :=
    mistyped.next (.compared longer) (by decide +kernel) (by decide +kernel)
      (fun _ => .of_clears (by decide +kernel)) (fun _ => by decide +kernel)
      (.of_handsOver 100 (by decide +kernel))
  have compiled := FlatGrammar.phrasesLanguage_compiled
  exact ⟨⟨by decide +kernel, by decide +kernel⟩, ⟨by decide +kernel, by decide +kernel⟩,
    ⟨by decide +kernel, by decide +kernel⟩, ⟨_, typed⟩,
    (mistyped.structurallyEqual compiled rfl (by decide)).1,
    (typed.structurallyEqual compiled rfl (by decide)).1⟩

end Parser

namespace FlatGrammar

/-! ## A token that reaches further -/

theorem greedy_unambiguous (w : List Symbol) : greedyFlat.Unambiguous w := by
  refine unambiguous_of_settled greedy_lower greedyFlat_tables (by decide +kernel)
    (Tables.settled_of_rows ?_) w
  decide +kernel

/-- In `ac` the `a` is read and then an error.  A `d` behind the text makes one token of it, but the
`a` is taken over: the error that it is in does not tell that the `a` was decided by what is behind
the text.  Nothing else is amiss. -/
theorem greedy_reparse :
    let p : Parser := ⟨greedyLanguage, {}⟩
    let old := (p.parse #[97, 99] none .never).value
    let edited := (old.tree.edit (.replace #[97, 99] 2 2 #[100])).value
    let fresh := (p.parse #[97, 99, 100] none .never).value
    greedyLanguage.Compiled greedy ∧ (∀ w, greedyFlat.Unambiguous w) ∧ old.Ample ∧ fresh.Ample ∧
      Run.HandsOver (p.task #[97, 99, 100]) edited.root false ∧ ¬edited.root.Sealed 2 ∧
      fresh.hasErrors = false ∧
      (p.parse #[97, 99, 100] (some edited) .never).value.tree.structurallyEqual fresh.tree =
        false := by
  intro p old edited fresh
  exact ⟨greedyLanguage_compiled, greedy_unambiguous, by decide +kernel, by decide +kernel,
    .of_handsOver 100 (by decide +kernel), by decide +kernel, by decide +kernel, by decide +kernel⟩

/-! ## Blanks that are longer in the end -/

/-- After `x` come a `p` or a `q`, and a blank may have `cdefg!` in it. -/
def blurred : Grammar where
  name := "blurred"
  rules := [⟨"s", .choice [.seq [.literal "a", .ref "p", .literal "c", .literal "defg"],
      .seq [.literal "a", .ref "q"],
      .seq [.literal "b", .ref "p", .literal "cd", .literal "efg"],
      .seq [.literal "b", .ref "q"]]⟩,
    ⟨"p", .seq [.literal "x"]⟩, ⟨"q", .seq [.literal "x"]⟩]
  extras := [.literal " ", .literal " cdefg!"]
  word := none
  conflicts := []
  externals := []
  strict := false

def blurredFlat : FlatGrammar where
  name := "blurred"
  symbols := #[⟨"end", true, false, false, false⟩, ⟨"ERROR", true, true, true, false⟩,
    ⟨" ", true, false, true, true⟩, ⟨" cdefg!", true, false, true, true⟩,
    ⟨"a", true, false, true, false⟩, ⟨"c", true, false, true, false⟩,
    ⟨"defg", true, false, true, false⟩, ⟨"b", true, false, true, false⟩,
    ⟨"cd", true, false, true, false⟩, ⟨"efg", true, false, true, false⟩,
    ⟨"x", true, false, true, false⟩, ⟨"s", false, true, true, false⟩,
    ⟨"p", false, true, true, false⟩, ⟨"q", false, true, true, false⟩]
  tokens := [⟨2, .literal " "⟩, ⟨3, .literal " cdefg!"⟩, ⟨4, .literal "a"⟩, ⟨5, .literal "c"⟩,
    ⟨6, .literal "defg"⟩, ⟨7, .literal "b"⟩, ⟨8, .literal "cd"⟩, ⟨9, .literal "efg"⟩,
    ⟨10, .literal "x"⟩]
  productions := #[⟨11, [4, 12, 5, 6], 0, .neither, 0⟩, ⟨11, [4, 13], 0, .neither, 0⟩,
    ⟨11, [7, 12, 8, 9], 0, .neither, 0⟩, ⟨11, [7, 13], 0, .neither, 0⟩,
    ⟨12, [10], 0, .neither, 0⟩, ⟨13, [10], 0, .neither, 0⟩]
  start := 11
  extras := [2, 3]
  word := none
  externals := []
  conflicts := []
  origin := #[0, 1, 2, 3, 4, 5, 6, 7, 8, 9, 10, 11, 12, 13]

def blurredAutomaton : Automaton :=
  ⟨#[⟨[⟨6, 0⟩], [⟨6, 0⟩, ⟨0, 0⟩, ⟨1, 0⟩, ⟨2, 0⟩, ⟨3, 0⟩], [(4, 1), (7, 2), (11, 3)]⟩,
    ⟨[⟨0, 1⟩, ⟨1, 1⟩], [⟨0, 1⟩, ⟨1, 1⟩, ⟨4, 0⟩, ⟨5, 0⟩], [(10, 4), (12, 5), (13, 6)]⟩,
    ⟨[⟨2, 1⟩, ⟨3, 1⟩], [⟨2, 1⟩, ⟨3, 1⟩, ⟨4, 0⟩, ⟨5, 0⟩], [(10, 4), (12, 7), (13, 8)]⟩,
    ⟨[⟨6, 1⟩], [⟨6, 1⟩], []⟩, ⟨[⟨4, 1⟩, ⟨5, 1⟩], [⟨4, 1⟩, ⟨5, 1⟩], []⟩,
    ⟨[⟨0, 2⟩], [⟨0, 2⟩], [(5, 9)]⟩, ⟨[⟨1, 2⟩], [⟨1, 2⟩], []⟩, ⟨[⟨2, 2⟩], [⟨2, 2⟩], [(8, 10)]⟩,
    ⟨[⟨3, 2⟩], [⟨3, 2⟩], []⟩, ⟨[⟨0, 3⟩], [⟨0, 3⟩], [(6, 11)]⟩, ⟨[⟨2, 3⟩], [⟨2, 3⟩], [(9, 12)]⟩,
    ⟨[⟨0, 4⟩], [⟨0, 4⟩], []⟩, ⟨[⟨2, 4⟩], [⟨2, 4⟩], []⟩]⟩

def blurredTables : Tables where
  name := "blurred"
  symbols := blurredFlat.symbols
  productions := #[⟨11, 4, 0, .neither, 0⟩, ⟨11, 2, 0, .neither, 0⟩, ⟨11, 4, 0, .neither, 0⟩,
    ⟨11, 2, 0, .neither, 0⟩, ⟨12, 1, 0, .neither, 0⟩, ⟨13, 1, 0, .neither, 0⟩]
  states := #[⟨[(4, [.shift 1]), (7, [.shift 2])], [(11, 3)], 0⟩,
    ⟨[(10, [.shift 4])], [(12, 5), (13, 6)], 1⟩, ⟨[(10, [.shift 4])], [(12, 7), (13, 8)], 1⟩,
    ⟨[(0, [.accept])], [], 2⟩, ⟨[(0, [.reduce 5]), (5, [.reduce 4]), (8, [.reduce 4])], [], 3⟩,
    ⟨[(5, [.shift 9])], [], 4⟩, ⟨[(0, [.reduce 1])], [], 2⟩, ⟨[(8, [.shift 10])], [], 5⟩,
    ⟨[(0, [.reduce 3])], [], 2⟩, ⟨[(6, [.shift 11])], [], 6⟩, ⟨[(9, [.shift 12])], [], 7⟩,
    ⟨[(0, [.reduce 0])], [], 2⟩, ⟨[(0, [.reduce 2])], [], 2⟩]
  lexModes := #[[4, 7], [10], [], [5, 8], [5], [8], [6], [9]]
  tokens := blurredFlat.tokens
  extras := [2, 3]
  wordToken := none
  externalTokens := []
  startSymbol := 11

def blurredLanguage : Language where
  version := 14
  tables := blurredTables
  matcher := ⟨[⟨2, true, .chars ⟨[(32, 32)]⟩⟩,
    ⟨3, true, .seq (.chars ⟨[(32, 32)]⟩) (.seq (.chars ⟨[(99, 99)]⟩) (.seq (.chars ⟨[(100, 100)]⟩)
      (.seq (.chars ⟨[(101, 101)]⟩) (.seq (.chars ⟨[(102, 102)]⟩)
        (.seq (.chars ⟨[(103, 103)]⟩) (.chars ⟨[(33, 33)]⟩))))))⟩,
    ⟨4, true, .chars ⟨[(97, 97)]⟩⟩, ⟨5, true, .chars ⟨[(99, 99)]⟩⟩,
    ⟨6, true, .seq (.chars ⟨[(100, 100)]⟩) (.seq (.chars ⟨[(101, 101)]⟩)
      (.seq (.chars ⟨[(102, 102)]⟩) (.chars ⟨[(103, 103)]⟩)))⟩,
    ⟨7, true, .chars ⟨[(98, 98)]⟩⟩,
    ⟨8, true, .seq (.chars ⟨[(99, 99)]⟩) (.chars ⟨[(100, 100)]⟩)⟩,
    ⟨9, true, .seq (.chars ⟨[(101, 101)]⟩) (.seq (.chars ⟨[(102, 102)]⟩)
      (.chars ⟨[(103, 103)]⟩))⟩,
    ⟨10, true, .chars ⟨[(120, 120)]⟩⟩]⟩
  validSets := #[.ofList 14 [4, 7], .ofList 14 [10], .ofList 14 [], .ofList 14 [5, 8],
    .ofList 14 [5], .ofList 14 [8], .ofList 14 [6], .ofList 14 [9]]
  recoveryTerminals := .ofList 14 [2, 3, 4, 5, 6, 7, 8, 9, 10]
  extras := .ofList 14 [2, 3]
  keywords := .ofList 14 []
  externals := .ofList 14 []
  scanner := none

theorem blurred_lower : blurred.lower = .ok blurredFlat := by cbv

theorem blurredAutomaton_eq : Automaton.ofGrammar blurredFlat = .ok blurredAutomaton := by cbv

theorem blurredFlat_tables : blurredFlat.tables false = .ok blurredTables := by
  rw [tables, blurredAutomaton_eq]
  exact ok_of_toOption (by decide +kernel)

theorem blurredLanguage_compiled : blurredLanguage.Compiled blurred := by
  have matcher : Matcher.ofTokens blurredTables.tokens (Language.nameIn blurredTables) =
      .ok blurredLanguage.matcher := by cbv
  exact .of_tables blurred_lower blurredFlat_tables (by decide +kernel)
    (Language.prepare_eq_ok.mpr ⟨_, matcher, by cbv⟩)

/-- In `bx cdefg` the `cd` makes a `p` of the `x`.  A `!` behind the text makes one blank of all
that is behind the `x`, but the `p` is taken over: it tells how far the text was looked at for the
`cd` and not for the blank in front of that.  There are no errors, and nothing else is amiss. -/
theorem blank_reparse :
    let p : Parser := ⟨blurredLanguage, {}⟩
    let text : Text := #[98, 120, 32, 99, 100, 101, 102, 103]
    let longer := TextEdit.splice text 8 8 #[33]
    let old := (p.parse text none .never).value
    let edited := (old.tree.edit (.replace text 8 8 #[33])).value
    let fresh := (p.parse longer none .never).value
    blurredLanguage.Compiled blurred ∧ old.hasErrors = false ∧ old.Ample ∧ fresh.Ample ∧
      Run.HandsOver (p.task longer) edited.root true ∧ fresh.hasErrors = false ∧
      (p.parse longer (some edited) .never).value.tree.structurallyEqual fresh.tree = false := by
  intro p text longer old edited fresh
  exact ⟨blurredLanguage_compiled, by decide +kernel, by decide +kernel, by decide +kernel,
    .of_handsOver 100 (by decide +kernel), by decide +kernel, by decide +kernel⟩

/-- In `axcdefg` the `cd` makes a `p` of the `x`, and there is an error, since behind an `a` that
calls for a `c`.  When the same text is parsed again, the `p` is taken over, and behind it only a
`c` is looked for, and found.  Nothing is wrong with the lookahead of any node. -/
theorem repeated_reparse :
    let p : Parser := ⟨blurredLanguage, {}⟩
    let text : Text := #[97, 120, 99, 100, 101, 102, 103]
    let old := (p.parse text none .never).value
    let edited := (old.tree.edit (.replace text 7 7 #[])).value
    let again := (p.parse text (some edited) .never).value
    old.Ample ∧ edited.root.Sealed 7 ∧ old.tree.root.clears p.language text 7 = true ∧
      old.hasErrors = true ∧ again.hasErrors = false ∧
      again.tree.structurallyEqual old.tree = false := by
  intro p text old edited again
  exact ⟨by decide +kernel, by decide +kernel, by decide +kernel, by decide +kernel,
    by decide +kernel, by decide +kernel⟩

end FlatGrammar

end Glr
