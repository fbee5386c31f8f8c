import Glr.Proofs.Quiet
import Glr.Proofs.Standings

/-!
# The best reading wins

A parse that reports nothing has followed all the runs that the machine of the tables has over the
tokens, and the tree that it gives is that of the best of them (`parse_best`).

It drops stacks long before that is known: of stacks with the same states only one is left, the one
that is ranked first so far.  Nothing is lost by that, because the machine cannot tell the two apart
any more: what the one can still gain or lose, the other can as well, so the order between them will
not change.  Between two tokens this is an invariant of the live stacks (`Ranked`): each of them is
a run, and each run is covered by one of them.

Extras are pushed on every stack without a look at the tables, as long as no state has an action on
one.  They split what could have been merged, since stacks with extras at other places are not the
same, but to the machine they are nothing.
-/

namespace Glr

/-- The terminals of tokens, without the end of the text and the extras. -/
def Language.terminals (l : Language) (tokens : List Lookahead) : List Symbol :=
  (tokens.map (·.token.symbol)).filter fun s => s != Symbol.endOfText && !l.isExtra s

namespace Run

variable {task : ParseTask} {read : List Symbol} {r : Run} {la : Lookahead} {g : FlatGrammar}
  {a : Automaton}

/-- The runs that start before a text. -/
abbrev RunsTo (task : ParseTask) (w : List Symbol) (c : Course) : Prop :=
  Relation.ReflTransGen task.language.tables.Weighs (.start w) c

/-- Behind some terminals, the latest first, the live stacks are runs, and all runs are covered. -/
structure Ranked (task : ParseTask) (read : List Symbol) (r : Run) : Prop where
  honest : r.Honest
  errors : ∀ s ∈ r.live, s.errorCost = 0
  sound : ∀ s ∈ r.live, ∀ rest, RunsTo task (read.reverse ++ rest) (s.course rest)
  complete : ∀ c, task.language.tables.Arrives read c → ∃ s ∈ r.live, s.Covers c

theorem ranked_initial : Ranked task [] (initial none) where
  honest := fun l reported => by cases l <;> cases reported
  errors := fun s hs => by rw [List.mem_singleton.mp hs]; rfl
  sound := fun s hs rest => by rw [List.mem_singleton.mp hs]; exact .refl
  complete := by
    rintro c ⟨w⟩
    exact ⟨Stack.empty, List.mem_singleton_self _, rfl, Or.inr ⟨rfl, Nat.le_refl _⟩⟩

theorem Ranked.lookahead (ranked : Ranked task read r) (good : r.Good task none) :
    Ahead task none (r.lookahead task).1 ∧ (∀ s ∈ (r.lookahead task).2.live,
        Built task none (r.lookahead task).1.start.offset s.entries) ∧
      Ranked task read (r.lookahead task).2 := by
  obtain ⟨ahead, here, good'⟩ := lookahead_spec good
  obtain ⟨reports, live⟩ := lookahead_reports task r
  exact ⟨ahead, fun s hs => here ▸ good'.built s hs, reports.honest ranked.honest,
    live ▸ ranked.errors, live ▸ ranked.sound, live ▸ ranked.complete⟩

/-- An extra is pushed on every stack and is nothing to the machine. -/
theorem Ranked.shiftExtra (ranked : Ranked task read r) :
    Ranked task read (r.shiftExtra la 0) := by
  obtain ⟨state, flags, -, -, same⟩ := shiftExtra_eq r la 0
  rw [same]
  have leaf := Reports.makeLeaf (r := r) la state flags
  have live := (Keeps.makeLeaf (r := r) la state flags).live
  have alike : ∀ (s : Stack) (e : StackEntry), e.extra = true →
      statesOf ((s.push e).charge 0).entries = statesOf s.entries ∧
        ∀ rest, ((s.push e).charge 0).course rest = s.course rest := by
    intro s e extra
    refine ⟨statesOf_extra extra, fun rest => ?_⟩
    rw [Stack.course, Stack.course, Stack.charge, Stack.push, statesOf_extra extra,
      treesOf_extra extra]
  refine ⟨leaf.honest ranked.honest, fun s hs => ?_, fun s hs rest => ?_, fun c arrives => ?_⟩
  · obtain ⟨t, ht, rfl⟩ := List.mem_map.mp hs
    exact ranked.errors t (live ▸ ht)
  · obtain ⟨t, ht, rfl⟩ := List.mem_map.mp hs
    rw [(alike t _ rfl).2]
    exact ranked.sound t (live ▸ ht) rest
  · obtain ⟨s, hs, covers⟩ := ranked.complete c arrives
    rw [← live] at hs
    exact ⟨_, List.mem_map.mpr ⟨s, hs, rfl⟩, (alike s _ rfl).1.trans covers.same, covers.rank⟩

/-! ## On one token -/

/-- A stack on its way through the reductions on a token. -/
structure OnWay (task : ParseTask) (read : List Symbol) (la : Lookahead) (s : Stack) : Prop where
  built : Built task none la.start.offset s.entries
  errors : s.errorCost = 0
  run : ∀ rest, rest.headD Symbol.endOfText = la.token.symbol →
    RunsTo task (read.reverse ++ rest) (s.course rest)

theorem rooted_none {root : Green} (h : root ∈ (none : Option Green)) : root.Rooted g :=
  absurd h (Option.not_mem_none root)

/-- A stack with the token ahead on it is a run over that token. -/
theorem OnWay.shifted {s : Stack} {m : Stack × StateId} {node : Green}
    (founded : task.language.Founded g a) (way : OnWay task read la s)
    (branches : Branches task la s (.shift m.2) m.1)
    (leaf : node.skeleton = .token la.token.symbol) :
    (Run.shifted node la.stop m).errorCost = 0 ∧
      ∀ rest, RunsTo task ((la.token.symbol :: read).reverse ++ rest)
        ((Run.shifted node la.stop m).course rest) := by
  have sprouting := built_sprouting founded (fun _ => rooted_none) way.built
  constructor
  · obtain ⟨index, -, same⟩ := branches
    rw [Run.shifted, Stack.push, same, (rank_branch task la s index).2.2, way.errors]
  · intro rest
    rw [List.reverse_cons, List.append_assoc]
    exact (way.run (la.token.symbol :: rest) rfl).tail
      (weighs_of_shift sprouting.laid branches rfl rfl leaf rest)

section Token

variable (founded : task.language.Founded g a) (ahead : Ahead task none la)
  (ranked : Ranked task read r)
  (built : ∀ s ∈ r.live, Built task none la.start.offset s.entries)

include founded ahead ranked built

/-- All that comes out of the reductions are runs. -/
theorem Ranked.onWay : Phase.From task la (OnWay task read la) (r.reduceAll task la).1 := by
  refine reduceAll_from (fun {s s'} onWay takes => ?_) fun s hs =>
    ⟨built s hs, ranked.errors s hs, fun rest _ => ranked.sound s hs rest⟩
  have sprouting := built_sprouting founded (fun _ => rooted_none) onWay.built
  exact ⟨built_of_takes ahead onWay.built takes,
    (errorCost_of_takes takes).trans onWay.errors,
    fun rest here => (onWay.run rest here).tail (weighs_of_takes sprouting takes here)⟩

/-- All runs over the token come out of the reductions. -/
theorem Ranked.covers (quiet : (r.reduceAll task la).2.warnings = []) {c d : Course}
    (arrives : task.language.tables.Arrives read c)
    (folds : Relation.ReflTransGen task.language.tables.Folds c d)
    (here : d.rest.headD Symbol.endOfText = la.token.symbol) :
    ∃ s, Laid a s.entries ∧ s.Covers d ∧
      Phase.Covers task la (r.reduceAll task la).1 s := by
  obtain ⟨s, hs, covers⟩ := ranked.complete c arrives
  rw [Tables.Folds.rest_eq folds] at here
  obtain ⟨s', steps, built', covers'⟩ :=
    covers.takes_all founded (fun _ => rooted_none) ahead (built s hs) folds here
  exact ⟨s', (tracked_of_built built').laid founded, covers',
    reduceAll_complete ranked.honest quiet s hs s' steps⟩

/-- The token is shifted on every run that can shift it, and the runs are covered again. -/
theorem Ranked.shiftAll (fresh : la.reused = none)
    (quiet : ((r.reduceAll task la).2.shiftAll task la (r.reduceAll task la).1.shifts).warnings =
      []) :
    Ranked task (la.token.symbol :: read)
      ((r.reduceAll task la).2.shiftAll task la (r.reduceAll task la).1.shifts) := by
  have onWay := ranked.onWay founded ahead built
  have all := fun {c d} => ranked.covers founded ahead built (c := c) (d := d)
    (shiftAll_silent fresh quiet)
  obtain ⟨honest, before, state, flags, present, live⟩ :=
    shiftAll_live fresh ((reduceAll_reports r).honest ranked.honest) quiet
  obtain ⟨-, production, symbol, -⟩ :=
    ahead.leaf_grown (g := g) (fun _ => rooted_none) before state flags present
  have leaf := Green.skeleton_of_token production
  rw [symbol] at leaf
  generalize (makeLeaf before la state flags).1 = node at live leaf
  have pushed : ∀ m ∈ (r.reduceAll task la).1.shifts, (shifted node la.stop m).errorCost = 0 ∧
      ∀ rest, RunsTo task ((la.token.symbol :: read).reverse ++ rest)
        ((shifted node la.stop m).course rest) := by
    intro m hm
    obtain ⟨s, way, branches⟩ := onWay.shifts m hm
    exact way.shifted founded branches leaf
  have errors : ∀ s ∈ (r.reduceAll task la).1.shifts.map (shifted node la.stop),
      s.errorCost = 0 := by
    intro s hs
    obtain ⟨m, hm, rfl⟩ := List.mem_map.mp hs
    exact (pushed m hm).1
  refine ⟨honest, fun s hs => ?_, fun s hs => ?_, fun c arrives => ?_⟩
  · rw [live] at hs
    exact errors s (Frontier.mem_of_mem_merge hs)
  · rw [live] at hs
    obtain ⟨m, hm, rfl⟩ := List.mem_map.mp (Frontier.mem_of_mem_merge hs)
    exact (pushed m hm).2
  · -- Whoever arrives behind the token was behind the one before it, and was covered there.
    cases arrives with
    | shift arrives folds step taken =>
      obtain ⟨s, laid, covers, sorted⟩ := all arrives folds (by rw [taken]; rfl)
      obtain ⟨next, b, branches, push⟩ := covers.shifts laid step taken
      have mem := List.mem_map_of_mem (f := shifted node la.stop) (sorted.shift next b branches)
      obtain ⟨t, ht, replaces⟩ := Frontier.exists_replaces_merge mem
      obtain ⟨same, rank⟩ := push ⟨next, node, la.stop, false⟩ rfl rfl
      have covers : (shifted node la.stop (b, next)).Covers c := ⟨same, rank⟩
      rw [live]
      refine ⟨t, ht, covers.of_replaces replaces ?_⟩
      rw [errors t (Frontier.mem_of_mem_merge ht), errors _ mem]

/-- The stack that accepts is a run, and none is ranked before it. -/
theorem Ranked.accepts (atEnd : la.token.symbol = Symbol.endOfText)
    (quiet : (r.reduceAll task la).2.warnings = []) {s : Stack}
    (best : Frontier.best? (r.reduceAll task la).1.accepted = some s) :
    task.language.tables.AcceptsWith read.reverse [(accept task.language s).value.skeleton]
        s.dynamicPrecedence s.preference ∧
      ∀ trees gain detours, task.language.tables.AcceptsWith read.reverse trees gain detours →
        gain < s.dynamicPrecedence ∨ gain = s.dynamicPrecedence ∧ s.preference ≤ detours := by
  have onWay := ranked.onWay founded ahead built
  have errors : ∀ t ∈ (r.reduceAll task la).1.accepted, t.errorCost = 0 := by
    intro t ht
    obtain ⟨u, way, index, -, rfl⟩ := onWay.accepted t ht
    rw [(rank_branch task la u index).2.2, way.errors]
  have mem := Frontier.mem_of_best? best
  constructor
  · obtain ⟨t, way, branches⟩ := onWay.accepted s mem
    have sprouting := built_sprouting founded (fun _ => rooted_none) way.built
    obtain ⟨under, states⟩ := sprouting.laid.statesOf_state
    have trees := skeleton_accept founded (branches.entries ▸ sprouting) branches.mem
    obtain ⟨index, found, rfl⟩ := branches
    obtain ⟨gain, detours, -⟩ := rank_branch task la t index
    have run := way.run [] atEnd.symm
    rw [List.append_nil, Stack.course, states] at run
    rw [atEnd] at found
    refine ⟨t.state, under, t.preference, index, ?_, found, ?_⟩
    · rw [gain, ← trees, entries_branch]
      exact run
    · rw [detours, atEnd]
  · -- A run that accepts is covered by a stack that accepts, and none of those beats the best.
    rintro trees gain detours ⟨i, stack, before, index, run, found, rfl⟩
    obtain ⟨read', d, text, arrives, folds⟩ := Tables.exists_arrives run
    rw [List.append_nil, List.reverse_inj] at text
    subst text
    obtain ⟨t, laid, covers, sorted⟩ := ranked.covers founded ahead built quiet arrives folds
      atEnd.symm
    rw [← atEnd] at found
    obtain ⟨b, branches, covers⟩ := covers.branches laid rfl found
    have accepted := sorted.accept b branches
    have unbeaten := Frontier.unbeaten_of_best? best b accepted
    have rank := covers.rank
    rw [Stack.beats_false_iff, errors s mem, errors b accepted] at unbeaten
    rw [atEnd] at rank
    dsimp only at rank
    omega

end Token

/-! ## A whole parse -/

theorem Reached.ranked {tokens : List Lookahead} (founded : task.language.Founded g a)
    (apart : ∀ s, task.language.isExtra s = true → ∀ i, task.language.actions i s = [])
    (reached : Reached task none tokens r) (quiet : r.warnings = []) :
    Ranked task (task.language.terminals tokens) r := by
  induction reached with
  | initial => exact ranked_initial
  | @turn r r' tokens reached more ih =>
    obtain ⟨before, turn⟩ := quiet_turn reached.good (by rw [more]; exact quiet)
    obtain ⟨ahead, built, ranked⟩ := (ih before).lookahead reached.good
    rw [more] at turn
    generalize (r.lookahead task).2 = r₁ at ranked built turn
    generalize (r.lookahead task).1 = la at ahead built turn ⊢
    cases turn with
    | extra notEnd isExtra =>
      rw [Language.terminals, List.map_cons, List.filter_cons_of_neg (by simp [isExtra])]
      exact ranked.shiftExtra
    | shift some =>
      obtain ⟨m, hm⟩ := List.exists_mem_of_ne_nil _ some
      obtain ⟨s, -, branches⟩ := (ranked.onWay founded ahead built).shifts m hm
      have action := branches.mem
      have notEnd := founded.shift_ne_end action
      have plain : task.language.isExtra la.token.symbol = false := by
        refine Bool.eq_false_iff.mpr fun isExtra => ?_
        rw [apart _ isExtra] at action
        exact List.not_mem_nil action
      rw [Language.terminals, List.map_cons, List.filter_cons_of_pos (by simp [notEnd, plain])]
      exact ranked.shiftAll founded ahead built (fresh_of_ahead ahead) quiet

/-- What a parse that reports nothing comes to is the best of all runs. -/
theorem Closes.best {tokens : List Lookahead} {outcome : Outcome}
    (founded : task.language.Founded g a)
    (apart : ∀ s, task.language.isExtra s = true → ∀ i, task.language.actions i s = [])
    (closes : Closes task none tokens outcome) (quiet : outcome.run.warnings = []) :
    ∃ gain detours, task.language.tables.AcceptsWith (task.language.terminals tokens).reverse
        [outcome.root.skeleton] gain detours ∧
      ∀ trees gain' detours', task.language.tables.AcceptsWith
          (task.language.terminals tokens).reverse trees gain' detours' →
        gain' < gain ∨ gain' = gain ∧ detours ≤ detours' := by
  cases closes with
  | cancelled reached => exact absurd quiet (List.cons_ne_nil _ _)
  | exceeded reached => exact absurd quiet (List.cons_ne_nil _ _)
  | @done r r' tokens root reached done =>
    obtain ⟨before, turn⟩ := quiet_turn reached.good (by rw [done]; exact quiet)
    obtain ⟨ahead, built, ranked⟩ :=
      (reached.ranked founded apart before).lookahead reached.good
    rw [done] at turn
    generalize (r.lookahead task).2 = r₁ at ranked built turn
    generalize (r.lookahead task).1 = la at ahead built turn ⊢
    generalize hflow : Flow.done root r' = flow at turn
    cases turn with
    | extra notEnd isExtra => cases hflow
    | shift some => cases hflow
    | @accept s atEnd best =>
      cases hflow
      have atEnd : la.token.symbol = Symbol.endOfText := beq_iff_eq.mp atEnd
      rw [Language.terminals, List.map_cons, List.filter_cons_of_neg (by simp [atEnd])]
      exact ⟨_, _, ranked.accepts founded ahead built atEnd quiet best⟩

end Run

namespace Parser

variable {G : Grammar} {p : Parser} {text : Text}

/-- If the tables have no action on an extra and a parse without an old tree reports nothing, then
its tree is the one of a run of the tables over the tokens of the text.  No run over them that
accepts has more dynamic precedence, and none that has as much has taken actions of cells with
several at earlier places. -/
theorem parse_best (compiled : p.language.Compiled G)
    (apart : ∀ s, p.language.isExtra s = true → ∀ i, p.language.actions i s = [])
    (interrupts : Interrupts) (quiet : (p.parse text none interrupts).value.warnings = []) :
    let root := (p.parse text none interrupts).value.tree.root
    let w := p.language.terminals (Run.tokensAhead (p.task text) interrupts none)
    root.sentence = w ∧ ∃ gain detours,
      p.language.tables.AcceptsWith w [root.skeleton] gain detours ∧
        ∀ trees gain' detours', p.language.tables.AcceptsWith w trees gain' detours' →
          gain' < gain ∨ gain' = gain ∧ detours ≤ detours' := by
  obtain ⟨g, a, lowered, founded⟩ := compiled.founded
  have founded : (p.task text).language.Founded g a := founded
  obtain ⟨account, -⟩ := account_outcome compiled text
    (fun t ht => absurd ht (Option.not_mem_none t)) interrupts
  obtain ⟨rooted, start⟩ := rooted_parse lowered compiled text
    (fun t ht => absurd ht (Option.not_mem_none t)) interrupts
  have closes : Run.Closes (p.task text) none
      (Run.tokensAhead (p.task text) interrupts none).reverse
      (Run.outcome (p.task text) interrupts (p.oldRoot none)) := Run.closes_outcome _ _ _
  rw [value_parse] at quiet rooted start ⊢
  generalize Run.outcome (p.task text) interrupts (p.oldRoot none) = outcome
    at account closes quiet rooted start ⊢
  have quiet : outcome.run.warnings = [] := List.reverse_eq_nil_iff.mp quiet
  obtain ⟨gain, detours, run, best⟩ := closes.best founded apart quiet
  have order : ((p.task text).language.terminals
      (Run.tokensAhead (p.task text) interrupts none).reverse).reverse =
        p.language.terminals (Run.tokensAhead (p.task text) interrupts none) := by
    rw [Language.terminals, List.map_reverse, List.filter_reverse, List.reverse_reverse]
    rfl
  rw [order] at run best
  -- Without warnings there are no errors, so the root is the derivation of its own sentence.
  have correct : outcome.root.hasError = false := by
    refine Bool.eq_false_iff.mpr fun error => ?_
    obtain ⟨w, hw, -⟩ := account.errors.mp error
    rw [quiet] at hw
    exact List.not_mem_nil hw
  obtain ⟨-, id, production⟩ := start correct
  have sentence := (rooted.forest production correct).yields_eq
  exact ⟨sentence.symm.trans run.yields_eq, gain, detours, run, best⟩

end Parser

namespace FlatGrammar

/-! ## Two readings of one letter -/

/-- An `a` may be an `x` before no `y`, and rather is a `y` behind no `x`.  There may be blanks. -/
def twofold : Grammar where
  name := "twofold"
  rules := [⟨"s", .seq [.ref "x", .ref "y"]⟩, ⟨"x", .optional (.literal "a")⟩,
    ⟨"y", .optional (.precDynamic 1 (.literal "a"))⟩]
  extras := [.literal " "]
  word := none
  conflicts := []
  externals := []
  strict := false

def twofoldFlat : FlatGrammar where
  name := "twofold"
  symbols := #[⟨"end", true, false, false, false⟩, ⟨"ERROR", true, true, true, false⟩,
    ⟨" ", true, false, true, true⟩, ⟨"a", true, false, true, false⟩,
    ⟨"s", false, true, true, false⟩, ⟨"x", false, true, true, false⟩,
    ⟨"y", false, true, true, false⟩]
  tokens := [⟨2, .literal " "⟩, ⟨3, .literal "a"⟩]
  productions := #[⟨4, [5, 6], 0, .neither, 0⟩, ⟨5, [], 0, .neither, 0⟩, ⟨5, [3], 0, .neither, 0⟩,
    ⟨6, [], 0, .neither, 0⟩, ⟨6, [3], 0, .neither, 1⟩]
  start := 4
  extras := [2]
  word := none
  externals := []
  conflicts := []
  origin := #[0, 1, 2, 3, 4, 5, 6]

def twofoldTables : Tables where
  name := "twofold"
  symbols := twofoldFlat.symbols
  productions := #[⟨4, 2, 0, .neither, 0⟩, ⟨5, 0, 0, .neither, 0⟩, ⟨5, 1, 0, .neither, 0⟩,
    ⟨6, 0, 0, .neither, 0⟩, ⟨6, 1, 0, .neither, 1⟩]
  states := #[⟨[(0, [.reduce 1]), (3, [.shift 1, .reduce 1])], [(4, 2), (5, 3)], 0⟩,
    ⟨[(0, [.reduce 2]), (3, [.reduce 2])], [], 0⟩,
    ⟨[(0, [.accept])], [], 1⟩,
    ⟨[(0, [.reduce 3]), (3, [.shift 4])], [(6, 5)], 0⟩,
    ⟨[(0, [.reduce 4])], [], 1⟩,
    ⟨[(0, [.reduce 0])], [], 1⟩]
  lexModes := #[[3], []]
  tokens := twofoldFlat.tokens
  extras := [2]
  wordToken := none
  externalTokens := []
  startSymbol := 4

def twofoldLanguage : Language where
  version := 14
  tables := twofoldTables
  matcher := ⟨[⟨2, true, .chars ⟨[(32, 32)]⟩⟩, ⟨3, true, .chars ⟨[(97, 97)]⟩⟩]⟩
  validSets := #[⟨#[false, false, false, true, false, false, false]⟩,
    ⟨#[false, false, false, false, false, false, false]⟩]
  recoveryTerminals := ⟨#[false, false, true, true, false, false, false]⟩
  extras := ⟨#[false, false, true, false, false, false, false]⟩
  keywords := ⟨#[false, false, false, false, false, false, false]⟩
  externals := ⟨#[false, false, false, false, false, false, false]⟩
  scanner := none

theorem twofold_lower : twofold.lower = .ok twofoldFlat := by cbv

theorem twofoldFlat_tables : twofoldFlat.tables false = .ok twofoldTables :=
  ok_of_toOption (by decide +kernel)

theorem twofoldLanguage_compiled : twofoldLanguage.Compiled twofold := by
  have matcher : Matcher.ofTokens twofoldTables.tokens (Language.nameIn twofoldTables) =
      .ok twofoldLanguage.matcher := by cbv
  exact .of_tables twofold_lower twofoldFlat_tables (by decide +kernel)
    (Language.prepare_eq_ok.mpr ⟨_, matcher, by cbv⟩)

end FlatGrammar

namespace Parser

/-- The second reading of the letter has taken an action at a later place, but has gained more.  The
blank behind it makes no difference. -/
theorem twofold_best :
    let p : Parser := ⟨FlatGrammar.twofoldLanguage, {}⟩
    let root := (p.parse #[97, 32] none .never).value.tree.root
    p.language.isExtra 2 = true ∧ root.length = 2 ∧ root.sentence = [3] ∧
      root.dynamicPrecedence = 1 ∧ ∃ gain detours,
      p.language.tables.AcceptsWith [3] [root.skeleton] gain detours ∧
        ∀ trees gain' detours', p.language.tables.AcceptsWith [3] trees gain' detours' →
          gain' < gain ∨ gain' = gain ∧ detours ≤ detours' := by
  intro p root
  have quiet : (p.parse #[97, 32] none .never).value.warnings = [] := by cbv
  have apart : ∀ s, p.language.isExtra s = true → ∀ i, p.language.actions i s = [] := by
    intro s isExtra i
    have mem : (SymbolSet.ofList 7 [2]).contains s = true := isExtra
    obtain rfl := List.mem_singleton.mp (SymbolSet.contains_ofList.mp mem).1
    rw [Language.actions]
    split
    · next row found =>
      have rows : ∀ row ∈ p.language.tables.states.toList, row.actionsOn 2 = [] := by decide
      exact rows row (Array.mem_toList_iff.mpr (Array.mem_of_getElem? found))
    · rfl
  have read : p.language.terminals (Run.tokensAhead (p.task #[97, 32]) .never none) = [3] := by
    cbv
  have length : (p.parse #[97, 32] none .never).value.tree.root.length = 2 := by cbv
  have precedence : (p.parse #[97, 32] none .never).value.tree.root.dynamicPrecedence = 1 := by
    cbv
  obtain ⟨sentence, best⟩ := parse_best FlatGrammar.twofoldLanguage_compiled apart .never quiet
  rw [read] at sentence best
  exact ⟨rfl, length, sentence, precedence, best⟩

end Parser

end Glr
