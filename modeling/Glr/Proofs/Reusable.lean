import Glr.Proofs.Extents
import Glr.Proofs.Spared
import Glr.Proofs.Loadable
import Glr.Proofs.Readings

/-!
# Tokens that are taken over

After an edit a parse takes a leaf of the old tree for the token ahead if nothing on the leaf speaks
against it.  It is right to do so if the lexer would read just that token there, and so it does
(`Parser.nextToken_of_reusable`): the leaf stands in a subtree that the edit has not damaged, the
subtree tells how far the text was looked at for all that is in it, and up to there the text is what
it was.

There is one exception.  An error tells nothing of what is inside of it, so an edit behind an error
leaves a token in it undamaged although it has changed what the lexer looked at
(`FlatGrammar.greedy_misread`).
-/

namespace Glr

namespace Language

variable {G : Grammar} {l : Language}

/-- A leaf that a parse would take over in a state that calls for the mode it was lexed in. -/
structure Reusable (l : Language) (leaf : Green) : Prop where
  isLeaf : leaf.isLeaf = true
  nonempty : 0 < leaf.length
  undamaged : leaf.isDamaged = false
  correct : leaf.hasError = false
  solid : leaf.isFragile = false
  mode : ∃ row ∈ l.tables.states, row.lexMode = leaf.lexMode

/-- What a parse takes over it could take over in the state that it is in. -/
theorem reusable_of_found {r : Run} {old : Option Green} (inside : r.reuse.Inside old)
    (known : ∀ s ∈ r.live, s.state < l.tables.states.size) {leaf : Green}
    (found : (r.reusableLeaf l).1 = some leaf) : l.Reusable leaf := by
  obtain ⟨-, isLeaf, nonempty, undamaged, correct⟩ :=
    (Run.reusableLeaf_spec (l := l) inside).2.2 leaf found
  rw [Run.reusableLeaf] at found
  split at found
  · next s single =>
    have usable := (Option.filter_eq_some_iff.mp found).2
    simp only [Bool.and_eq_true, Bool.not_eq_true', beq_iff_eq] at usable
    have here := known s (by simp [single])
    refine ⟨isLeaf, nonempty, undamaged, correct, usable.1.2, _, Array.getElem_mem here, ?_⟩
    rw [usable.2, lexMode, Array.getElem?_eq_getElem here]
  · cases found

/-- There are too few states for one of them to have the mode of tokens that were lexed for several
stacks. -/
theorem Compiled.lexMode_ne_union (compiled : l.Compiled G) {row : StateRow}
    (hr : row ∈ l.tables.states) : row.lexMode ≠ LexMode.union := by
  have built := compiled.built
  rw [Grammar.build] at built
  obtain ⟨g, -, built⟩ := of_bind_eq_ok built
  obtain ⟨a, tab⟩ := FlatGrammar.tabulated_of_tables built
  have few := (Automaton.coherent_ofGrammar tab.automaton).size_le
  have sharing := FlatGrammar.sharing_of_tables built
  have bound := (Array.getElem?_eq_some_iff.mp (sharing.own row hr)).1
  refine Nat.ne_of_lt (bound.trans_le (sharing.size_le.trans ?_))
  rw [tab.size]
  exact few

end Language

namespace Green

theorem token_moved (leaf : Green) (o o' : Nat) : (leaf.token o).moved o o' = leaf.token o' := by
  rw [Token.moved, token, token, Token.mk.injEq, Span.mk.injEq]
  refine ⟨rfl, ⟨?_, ?_⟩, rfl, rfl, rfl, rfl⟩
  · show o' + (o - o) = o'
    omega
  · show o' + (o + leaf.length - o) = o' + leaf.length
    omega

/-- The errors around a token that end before a place have all that was looked at for the token
before that place too. -/
def ErrorsReach (root : Green) (first : Nat) (o : Nat) (leaf : Green) : Prop :=
  ∀ {a i : Nat} {e : Green}, root.Holds a e → e.isError = true → e.Holds i leaf → o = a + i →
    a + e.length < first → o + leaf.length + leaf.lookahead < first

/-- What stands in a tree was decided before a place if the tree was. -/
theorem Reaching.lt_of_errorsReach {root n leaf : Green} {b i first : Nat} (reaching : n.Reaching)
    (measured : n.Measured) (held : root.Holds b n) (inside : n.Holds i leaf)
    (apart : root.ErrorsReach first (b + i) leaf) (clear : b + n.length + n.lookahead < first) :
    b + i + leaf.length + leaf.lookahead < first := by
  rcases (reaching.of_holds inside).2 with covered | ⟨a, e, j, outer, wrong, below, rfl⟩
  · omega
  · have within := (measured.of_holds outer).2
    exact apart (held.trans outer) wrong below (Nat.add_assoc ..).symm (by omega)

end Green

namespace Language.Tells

variable {l : Language} {old new : Text} {e : TextEdit} {root n : Green} {b o : Nat}
  (between : e.Between old new) (tells : l.Tells old root) (length : root.length = old.size)

include between tells length

/-- What is kept of a tree of its text is not all of it, and tells of its tokens. -/
theorem reaching_of_undamaged (held : root.Holds b n)
    (undamaged : e.damages b (b + n.length) n.lookahead = false) : n.Reaching := by
  have last := Nat.le_trans between.start_le_old between.old_le_size
  have inside := between.old_le_size
  rcases held.cases_root with ⟨rfl, rfl⟩ | inside
  · rw [TextEdit.damages_eq_false_iff] at undamaged
    omega
  · obtain ⟨before, c, after, i, among, held, -⟩ := inside.exists
    exact ((tells.reaching c (by simp [among])).of_holds held).1

/-- What is not damaged after an edit was there before it, and all that was looked at for a token in
it is as it was, unless that is behind an error around the token. -/
theorem carried (held : (root.edit e).value.Holds o n) (undamaged : n.isDamaged = false) :
    ∃ b, root.Holds b n ∧ n.Reaching ∧ ∀ i leaf, n.Holds i leaf →
      (root.edit e).value.ErrorsReach e.startByte (o + i) leaf →
        b + i ≤ old.size ∧ o + i ≤ new.size ∧
        Text.Agree old (b + i) new (o + i) (b + i + leaf.length + leaf.lookahead + 1) := by
  obtain ⟨m, b, q, j, before, after, inside, rfl, undamaged, moved⟩ :=
    tells.measured.spared e held undamaged
  have order := between.start_le_old
  have order' := between.start_le_new
  have bound := between.old_le_size
  have size := between.size
  have place := moved order order' (length ▸ bound)
  have reaching := reaching_of_undamaged between tells length before undamaged
  obtain ⟨measured, within⟩ := tells.measured.of_holds before
  refine ⟨b + j, before.trans inside, (reaching.of_holds inside).1, fun i leaf below apart => ?_⟩
  have deep := inside.trans below
  have ends := (measured.of_holds deep).2
  rw [Nat.add_assoc] at apart ⊢
  rw [Nat.add_assoc]
  rw [TextEdit.value_mapOffset] at place
  rcases TextEdit.damages_eq_false_iff.mp undamaged with behind | clear
  · rw [if_neg (by omega), if_pos (by omega)] at place
    have agree := between.agree_behind (show e.oldEndByte ≤ b + (j + i) by omega)
      (b + (j + i) + leaf.length + leaf.lookahead + 1)
    rw [show b + (j + i) - e.oldEndByte + e.newEndByte = q + (j + i) by omega] at agree
    exact ⟨by omega, by omega, agree⟩
  · rw [if_pos (by omega)] at place
    subst place
    have decided := reaching.lt_of_errorsReach measured after deep apart clear
    exact ⟨by omega, by omega, between.agree_before decided⟩

end Language.Tells

namespace Parser

variable {G : Grammar} {p : Parser} {text inserted : Text} {start stop : Nat}

/-- A token that can be taken over from the tree of the old text is what the lexer reads in the
new one, unless the edit is behind an error with the token in it and yet among what was looked at
for the token.  Where a mode of the tables has the number of the recovery terminals, a token of
these says nothing either. -/
theorem nextToken_of_reusable (compiled : p.language.Compiled G)
    (unaided : p.language.scanner = none) (small : text.size ≤ Size.largest)
    (interrupts : Interrupts) {o : Nat} {leaf : Green}
    (held : ((p.parse text none interrupts).value.tree.edit
      (.replace text start stop inserted)).value.root.Holds o leaf)
    (reusable : p.language.Reusable leaf) (mode : leaf.lexMode ≠ LexMode.recovery)
    (apart : ((p.parse text none interrupts).value.tree.edit
      (.replace text start stop inserted)).value.root.ErrorsReach
        (TextEdit.replace text start stop inserted).startByte o leaf) :
    p.language.nextToken (TextEdit.splice text start stop inserted) o leaf.lexMode =
      leaf.token o := by
  have tells := tells_parse compiled unaided small interrupts
  generalize (p.parse text none interrupts).value.tree = t at held apart tells
  obtain ⟨row, hr, same⟩ := reusable.mode
  have union : leaf.lexMode ≠ LexMode.union := same ▸ compiled.lexMode_ne_union hr
  have isLeaf := reusable.isLeaf
  have before : ∃ b, t.root.Holds b leaf := by
    obtain ⟨n, b, q, i, before, -, inside, -⟩ := tells.measured.spared _ held reusable.undamaged
    exact ⟨b + i, before.trans inside⟩
  have length : t.root.length = text.size := by
    obtain ⟨b, before⟩ := before
    have token := before.mem_tokensAt isLeaf reusable.nonempty 0
    refine tells.covers.resolve_right fun wrong => ?_
    have := wrong _ token
    rw [reusable.correct] at this
    cases this
  obtain ⟨b, before, -, carried⟩ := tells.carried (TextEdit.between_replace text start stop inserted)
    length held reusable.undamaged
  obtain ⟨inside, inside', agree⟩ := carried 0 leaf .root apart
  have token := before.mem_tokensAt isLeaf reusable.nonempty 0
  rw [Nat.zero_add] at token
  have reads : p.language.nextToken text b leaf.lexMode = leaf.token b :=
    tells.reads _ token reusable.correct mode union
  rw [Language.nextToken] at reads ⊢
  rw [← Green.token_moved leaf b, ← reads]
  refine Language.nextTokenIn_moved unaided inside inside' ?_
  rw [reads]
  exact agree

/-- Two letters are put into the middle of a text, and the first letter is read as it was. -/
theorem nested_read_again :
    let p : Parser := ⟨FlatGrammar.nestedLanguage, {}⟩
    let old : Text := #[97, 97, 97, 97, 98, 98, 98, 98]
    let edited := ((p.parse old none .never).value.tree.edit (.replace old 4 4 #[97, 98])).value
    ∃ leaf, edited.root.Holds 0 leaf ∧ FlatGrammar.nestedLanguage.Reusable leaf ∧
      FlatGrammar.nestedLanguage.nextToken (TextEdit.splice old 4 4 #[97, 98]) 0 leaf.lexMode =
        leaf.token 0 := by
  intro p old edited
  obtain ⟨leaf, first⟩ := Option.isSome_iff_exists.mp
    (show edited.root.firstLeaf?.isSome = true by decide +kernel)
  obtain ⟨held, isLeaf, nonempty⟩ := Green.holds_firstLeaf edited.root .root first
  have facts : ∀ leaf ∈ edited.root.firstLeaf?, leaf.isDamaged = false ∧ leaf.hasError = false ∧
      leaf.isFragile = false ∧ leaf.lexMode = 0 ∧ leaf.length + leaf.lookahead < 4 := by
    decide +kernel
  obtain ⟨undamaged, correct, solid, mode, before⟩ := facts leaf first
  have reusable : FlatGrammar.nestedLanguage.Reusable leaf :=
    ⟨isLeaf, nonempty, undamaged, correct, solid, mode ▸ by decide +kernel⟩
  refine ⟨leaf, held, reusable, ?_⟩
  exact nextToken_of_reusable (p := p) FlatGrammar.nestedLanguage_compiled rfl
    (by decide) .never held reusable (mode ▸ by decide) fun _ _ _ _ _ => by
      rw [Nat.zero_add]
      exact before

end Parser

namespace FlatGrammar

/-! ## A token that reaches further -/

/-- An `a` before a `b`, or a `c`, or all of `acd`. -/
def greedy : Grammar where
  name := "greedy"
  rules := [⟨"s", .choice [.seq [.literal "a", .literal "b"], .literal "c", .literal "acd"]⟩]
  extras := []
  word := none
  conflicts := []
  externals := []
  strict := false

def greedyFlat : FlatGrammar where
  name := "greedy"
  symbols := #[⟨"end", true, false, false, false⟩, ⟨"ERROR", true, true, true, false⟩,
    ⟨"a", true, false, true, false⟩, ⟨"b", true, false, true, false⟩,
    ⟨"c", true, false, true, false⟩, ⟨"acd", true, false, true, false⟩,
    ⟨"s", false, true, true, false⟩]
  tokens := [⟨2, .literal "a"⟩, ⟨3, .literal "b"⟩, ⟨4, .literal "c"⟩, ⟨5, .literal "acd"⟩]
  productions := #[⟨6, [2, 3], 0, .neither, 0⟩, ⟨6, [4], 0, .neither, 0⟩, ⟨6, [5], 0, .neither, 0⟩]
  start := 6
  extras := []
  word := none
  externals := []
  conflicts := []
  origin := #[0, 1, 2, 3, 4, 5, 6]

def greedyTables : Tables where
  name := "greedy"
  symbols := greedyFlat.symbols
  productions := #[⟨6, 2, 0, .neither, 0⟩, ⟨6, 1, 0, .neither, 0⟩, ⟨6, 1, 0, .neither, 0⟩]
  states := #[⟨[(2, [.shift 1]), (4, [.shift 2]), (5, [.shift 3])], [(6, 4)], 0⟩,
    ⟨[(3, [.shift 5])], [], 1⟩,
    ⟨[(0, [.reduce 1])], [], 2⟩,
    ⟨[(0, [.reduce 2])], [], 2⟩,
    ⟨[(0, [.accept])], [], 2⟩,
    ⟨[(0, [.reduce 0])], [], 2⟩]
  lexModes := #[[2, 4, 5], [3], []]
  tokens := greedyFlat.tokens
  extras := []
  wordToken := none
  externalTokens := []
  startSymbol := 6

def greedyLanguage : Language where
  version := 14
  tables := greedyTables
  matcher := ⟨[⟨2, true, .chars ⟨[(97, 97)]⟩⟩, ⟨3, true, .chars ⟨[(98, 98)]⟩⟩,
    ⟨4, true, .chars ⟨[(99, 99)]⟩⟩,
    ⟨5, true, .seq (.chars ⟨[(97, 97)]⟩) (.seq (.chars ⟨[(99, 99)]⟩) (.chars ⟨[(100, 100)]⟩))⟩]⟩
  validSets := #[⟨#[false, false, true, false, true, true, false]⟩,
    ⟨#[false, false, false, true, false, false, false]⟩,
    ⟨#[false, false, false, false, false, false, false]⟩]
  recoveryTerminals := ⟨#[false, false, true, true, true, true, false]⟩
  extras := ⟨#[false, false, false, false, false, false, false]⟩
  keywords := ⟨#[false, false, false, false, false, false, false]⟩
  externals := ⟨#[false, false, false, false, false, false, false]⟩
  scanner := none

theorem greedy_lower : greedy.lower = .ok greedyFlat := by cbv

theorem greedyFlat_tables : greedyFlat.tables false = .ok greedyTables :=
  ok_of_toOption (by decide +kernel)

theorem greedyLanguage_compiled : greedyLanguage.Compiled greedy := by
  have matcher : Matcher.ofTokens greedyTables.tokens (Language.nameIn greedyTables) =
      .ok greedyLanguage.matcher := by cbv
  exact .of_tables greedy_lower greedyFlat_tables (by decide +kernel)
    (Language.prepare_eq_ok.mpr ⟨_, matcher, by cbv⟩)

/-- In `ac` the `a` is read and then an error.  A `d` behind the text makes one token of it, but
nothing speaks against the `a`. -/
theorem greedy_misread :
    let p : Parser := ⟨greedyLanguage, {}⟩
    let edited := ((p.parse #[97, 99] none .never).value.tree.edit
      (.replace #[97, 99] 2 2 #[100])).value
    greedyLanguage.Compiled greedy ∧ greedyLanguage.scanner = none ∧
      ∃ leaf, edited.root.Holds 0 leaf ∧ greedyLanguage.Reusable leaf ∧
        greedyLanguage.nextToken #[97, 99, 100] 0 leaf.lexMode ≠ leaf.token 0 := by
  intro p edited
  obtain ⟨leaf, first⟩ := Option.isSome_iff_exists.mp
    (show edited.root.firstLeaf?.isSome = true by decide +kernel)
  obtain ⟨held, isLeaf, nonempty⟩ := Green.holds_firstLeaf edited.root .root first
  have facts : ∀ leaf ∈ edited.root.firstLeaf?, leaf.isDamaged = false ∧ leaf.hasError = false ∧
      leaf.isFragile = false ∧ leaf.lexMode = 0 ∧ leaf.symbol = 2 := by
    decide +kernel
  obtain ⟨undamaged, correct, solid, mode, symbol⟩ := facts leaf first
  refine ⟨greedyLanguage_compiled, rfl, leaf, held,
    ⟨isLeaf, nonempty, undamaged, correct, solid, mode ▸ by decide +kernel⟩, fun same => ?_⟩
  have read : (greedyLanguage.nextToken #[97, 99, 100] 0 0).symbol = 5 := by decide +kernel
  rw [mode] at same
  rw [same] at read
  have contra : (2 : Symbol) = 5 := symbol.symm.trans read
  exact absurd contra (by decide)

end FlatGrammar

end Glr
