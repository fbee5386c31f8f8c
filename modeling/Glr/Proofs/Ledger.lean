import Glr.Proofs.Faults
import Glr.Proofs.Reached
import Glr.Proofs.Reparse

/-!
# What a parse reports

A parse repairs a text while it goes, and says so in three places: in the tree, where a repair
leaves an error or a missing token, in the warnings, and in a count.  The three agree at the end
(`reports_agree`), and they do since they agree after every turn (`Ledger`).

The tree is not there yet between two turns, but the live stacks are, and all of them have an error
flag on them or none has.  A reduction moves flags up and loses none.  A token without a repair has
none, and a repair puts one on all the stacks it leaves, which are all that a token no pattern
matches is pushed on, or the one stack that was repaired.  Whichever of the stacks are merged or
dropped later, the others say the same.

A stack that accepts holds the start symbol and extras, so its root is not made an error at the last
moment, of which no warning would tell.
-/

namespace Glr

namespace Problem

theorem kind_eq_limit_iff {p : Problem} :
    p.kind = "InternalLimitExceeded" ↔ ∃ l, p = .limit l := by
  cases p <;> simp [kind]

theorem kind_eq_cancelled_iff {p : Problem} : p.kind = "Cancelled" ↔ p = .cancelled := by
  cases p <;> simp [kind]

theorem severity_eq_error_iff {p : Problem} :
    p.severity = .error ↔ (∀ l, p ≠ .limit l) ∧ p ≠ .cancelled := by
  cases p <;> simp [severity]

end Problem

/-- The ends of a span are in order and in a text. -/
def Span.Within (text : Text) (s : Span) : Prop := s.start ≤ s.stop ∧ s.stop ≤ text.size

/-- Whether there is an error flag on some entries. -/
def anyError (es : List StackEntry) : Bool := es.any (·.node.hasError)

theorem anyError_cons (e : StackEntry) (es : List StackEntry) :
    anyError (e :: es) = (e.node.hasError || anyError es) := rfl

variable {g : FlatGrammar} {a : Automaton} {task : ParseTask} {old : Option Green} {r r' : Run}
  {la : Lookahead} {root : Green}

/-! ## Flags on stacks -/

theorem any_nodesOf (es : List StackEntry) : (nodesOf es).any (·.hasError) = anyError es := by
  rw [nodesOf, List.any_reverse, List.any_map]
  rfl

/-- A reduction keeps the flags. -/
theorem Stack.Reduces.anyError_eq {l : Language} (founded : l.Founded g a) {id : ProductionId}
    {es es' : List StackEntry} (reduces : Stack.Reduces l id es es') :
    anyError es' = anyError es := by
  cases reduces with
  | @intro trailing taken below p target lookahead fragile known extras counted top bottom goto =>
    have symbol : (p.lhs == Symbol.error) = false := by
      have unreserved := founded.unreserved_of_nonterminal (founded.lhs_nonterminal known)
      exact beq_eq_false_iff_ne.mpr fun same => absurd (same ▸ unreserved) (by decide)
    have moved : (trailing.map fun e => { e with state := target }).any (·.node.hasError) =
        trailing.any (·.node.hasError) := List.any_map
    simp only [anyError, List.any_append, List.any_cons, moved, Green.hasError_node, symbol,
      any_nodesOf]
    simp [NodeFlags.fragileIf, NodeFlags.none]

theorem Repair.anyError_wrap {l : Language} {s : Stack} {t : Symbol} {allowed : Nat}
    {c : Checked (Stack × Nat)} (wrapped : wrap l s t allowed = some c) :
    anyError c.value.1.entries = true := by
  obtain ⟨taken, below, -, -, result⟩ := wrap_spec wrapped
  rw [result, anyError_cons, hasError_errorNode, Bool.true_or]

theorem Repair.anyError_skip (s : Stack) (leaf : Green) (stop : Position) (cost : Nat) :
    anyError (skip s leaf stop cost).value.entries = true := by
  obtain ⟨taken, below, children, -, -, result⟩ := skip_spec s leaf stop cost
  rw [result, anyError_cons, hasError_errorNode, Bool.true_or]

/-- The leaf of a token that something matched has no error flag, and that of another has. -/
theorem Ahead.hasError_leaf (founded : task.language.Founded g a)
    (rooted : ∀ root ∈ old, root.Rooted g) (ahead : Ahead task old la) (r : Run) (state : StateId)
    {flags : NodeFlags} (clean : flags.hasError = false) (present : flags.missing = false)
    (free : la.token.isError = true ∨ la.token.symbol ≠ Symbol.endOfText) :
    (r.makeLeaf la state flags).1.hasError = la.token.isError := by
  cases ahead with
  | @reused place leaf held isLeaf nonempty undamaged correct =>
    obtain ⟨root, hroot, held⟩ := held
    have shaped := ((rooted root hroot).of_holds held).1.shaped
    rw [Run.makeLeaf]
    dsimp only [Run.reusedLookahead, Checked.value_bind, Checked.value_pure]
    split
    · rw [Green.hasError, Green.flags_withFlags, NodeFlags.union_hasError, clean, Bool.or_false]
      exact correct
    · rw [Green.hasError_leaf, clean, present, Bool.or_false, Bool.false_or]
      exact shaped.correct correct
  | lexed place valid mode =>
    have placed := task.language.placed_nextTokenIn task.text place.offset valid mode
    show (Green.leaf _).hasError = (task.language.nextTokenIn _ _ _ _).isError
    rw [Green.hasError_leaf, clean, present, Bool.or_false, Bool.false_or]
    cases matched : (task.language.nextTokenIn task.text place.offset valid mode).isError with
    | true => exact beq_iff_eq.mpr (placed.wrong matched)
    | false =>
      have notEnd := free.resolve_left fun wrong => Bool.eq_false_iff.mp matched wrong
      have unreserved := founded.unreserved_of_placed placed matched notEnd
      exact beq_eq_false_iff_ne.mpr (Nat.ne_of_gt unreserved)

/-- A stack that accepts has its flags at the root. -/
theorem hasError_accept (founded : task.language.Founded g a) {s : Stack}
    (sprouting : Sprouting g a s.entries) {t : Symbol}
    (accepts : .accept ∈ task.language.actions s.state t) :
    (Run.accept task.language s).value.hasError = anyError s.entries := by
  rw [Stack.state_eq] at accepts
  obtain ⟨before, main, after, entries, extras, plain, start⟩ :=
    exists_of_symbolsOf (sprouting.laid.symbols_of_accept founded accepts).1
  rw [← founded.startSymbol_eq] at start
  have known : ∀ e ∈ before ++ main :: after, e ∈ s.entries := fun e he =>
    List.mem_reverse.mp (entries ▸ he)
  have mem := known main (List.mem_append_right _ List.mem_cons_self)
  have inherits : main.node.children.any (·.hasError) = true → main.node.hasError = true := by
    intro inside
    obtain ⟨c, hc, error⟩ := List.any_eq_true.mp inside
    exact (sprouting.sprouted main mem).grown.shaped.inherits c hc error
  have flags : anyError s.entries =
      (before.any (·.node.hasError) || (main.node.hasError || after.any (·.node.hasError))) := by
    rw [anyError, ← List.any_reverse, entries, List.any_append, List.any_cons]
  rcases Run.accept_of_single task.language entries extras plain start with ⟨none, root⟩ | root
  · rw [List.append_eq_nil_iff] at none
    rw [root, flags, none.1, none.2]
    simp
  · have clean : NodeFlags.onlyFragile.hasError = false := rfl
    rw [root, flags, Green.hasError_withChildren, clean, Bool.false_or]
    simp only [List.any_append, List.any_map, Function.comp_def]
    cases inside : main.node.children.any (·.hasError) with
    | true => simp [inherits inside]
    | false => rw [Bool.or_false, Bool.or_left_comm]

/-! ## Warnings and counts -/

namespace Run

/-- The old tree is of a text as long as this one, and a word can hold that length. -/
structure Sized (task : ParseTask) (old : Option Green) : Prop where
  fits : Green.Fits task.text old
  small : task.text.size ≤ Size.largest

/-- Whether something was repaired or given up. -/
def erred (r : Run) : Bool := r.warnings.any (·.severity == .error)

/-- What holds of the warnings until the parse ends. -/
structure Books (task : ParseTask) (old : Option Green) (r : Run) : Prop where
  counted : r.metrics.errorsRecovered = r.warnings.countP (·.severity == .error)
  going : ∀ w ∈ r.warnings, w.problem ≠ .cancelled
  spans : Sized task old → ∀ w ∈ r.warnings, w.span.Within task.text

theorem Books.of_same (books : Books task old r) (warnings : r'.warnings = r.warnings)
    (recovered : r'.metrics.errorsRecovered = r.metrics.errorsRecovered) : Books task old r' where
  counted := by rw [recovered, warnings, books.counted]
  going := warnings ▸ books.going
  spans := warnings ▸ books.spans

/-- A limit is no error. -/
theorem Books.reports (books : Books task old r) (reports : Reports r r')
    (inside : Sized task old → r.position.offset ≤ task.text.size) : Books task old r' := by
  obtain ⟨ws, same, limits⟩ := reports.limits
  refine ⟨?_, fun w hw => ?_, fun sized w hw => ?_⟩
  · have none : ws.countP (·.severity == .error) = 0 := by
      refine List.countP_eq_zero.mpr fun w hw => ?_
      obtain ⟨l, rfl⟩ := limits w hw
      exact fun h => nomatch h
    rw [reports.recovered, same, List.countP_append, none, Nat.zero_add, books.counted]
  · rw [same] at hw
    rcases List.mem_append.mp hw with hw | hw
    · obtain ⟨l, rfl⟩ := limits w hw
      exact fun h => nomatch h
    · exact books.going w hw
  · rw [same] at hw
    rcases List.mem_append.mp hw with hw | hw
    · obtain ⟨l, rfl⟩ := limits w hw
      exact ⟨Nat.le_refl _, inside sized⟩
    · exact books.spans sized w hw

theorem erred_of_reports (reports : Reports r r') : r'.erred = r.erred := by
  obtain ⟨ws, same, limits⟩ := reports.limits
  have none : ws.any (·.severity == .error) = false := by
    refine List.any_eq_false.mpr fun w hw => ?_
    obtain ⟨l, rfl⟩ := limits w hw
    exact fun h => nomatch h
  rw [erred, same, List.any_append, none, Bool.false_or]
  rfl

theorem erred_noteRepair {problem : Problem} (severity : problem.severity = .error) (span : Span) :
    (r.noteRepair problem span).erred = true :=
  List.any_eq_true.mpr ⟨⟨problem, span⟩, List.mem_cons_self, beq_iff_eq.mpr severity⟩

/-- A repair is an error and is counted. -/
theorem Books.noteRepair (books : Books task old r) {problem : Problem}
    (severity : problem.severity = .error) (span : Span)
    (within : Sized task old → span.Within task.text) :
    Books task old (r.noteRepair problem span) := by
  refine ⟨?_, fun w hw => ?_, fun sized w hw => ?_⟩
  · show r.metrics.errorsRecovered + 1 = List.countP _ (⟨problem, span⟩ :: r.warnings)
    have here : (Warning.severity ⟨problem, span⟩ == .error) = true := beq_iff_eq.mpr severity
    rw [books.counted, List.countP_cons, if_pos here]
  · rcases List.mem_cons.mp hw with rfl | hw
    · exact (Problem.severity_eq_error_iff.mp severity).2
    · exact books.going w hw
  · rcases List.mem_cons.mp hw with rfl | hw
    · exact within sized
    · exact books.spans sized w hw

/-- The errors are what is neither a limit nor the end of a cancelled parse. -/
theorem Books.erred_iff (books : Books task old r) :
    r.erred = true ↔ ∃ w ∈ r.warnings, ∀ l, w.problem ≠ .limit l := by
  rw [erred, List.any_eq_true]
  refine exists_congr fun w => and_congr_right fun hw => ?_
  rw [beq_iff_eq, Warning.severity, Problem.severity_eq_error_iff]
  exact and_iff_left (books.going w hw)

/-- The warnings and the flags on the live stacks agree. -/
structure Ledger (task : ParseTask) (old : Option Green) (r : Run) : Prop extends
    Books task old r where
  flags : ∀ s ∈ r.live, anyError s.entries = r.erred

/-- The warnings, the counts and the flags at the end of a parse agree. -/
structure Account (task : ParseTask) (old : Option Green) (root : Green) (r : Run)
    (cancelled : Bool) : Prop where
  counted : r.metrics.errorsRecovered = r.warnings.countP (·.severity == .error)
  spans : Sized task old → ∀ w ∈ r.warnings, w.span.Within task.text
  errors : root.hasError = true ↔ ∃ w ∈ r.warnings, ∀ l, w.problem ≠ .limit l
  cancelled : cancelled = true ↔ ∃ w ∈ r.warnings, w.problem = .cancelled

/-- The same of a parse that goes on or ends. -/
def Balanced (task : ParseTask) (old : Option Green) : Flow → Prop
  | .more r => Ledger task old r
  | .done root r => Account task old root r false

/-! ## The ends of a parse -/

theorem Books.account (books : Books task old r) (same : root.hasError = r.erred) :
    Account task old root r false where
  counted := books.counted
  spans := books.spans
  errors := same ▸ books.erred_iff
  cancelled := ⟨fun h => (nomatch h), fun ⟨w, hw, h⟩ => absurd h (books.going w hw)⟩

section Ends

variable (books : Books task old r)
  (inside : Sized task old → r.position.offset ≤ task.text.size)

include inside

/-- The rest of a text is within the text. -/
theorem within_rest (sized : Sized task old) :
    Span.Within task.text ⟨r.position.offset, Size.ofText task.text⟩ := by
  have same : Size.ofText task.text = task.text.size := Nat.min_eq_left sized.small
  rw [same]
  exact ⟨inside sized, Nat.le_refl _⟩

include books

theorem account_abandon : Account task old (r.abandon task).1 (r.abandon task).2 false := by
  have severity : Problem.incomplete.severity = .error := rfl
  have noted := books.noteRepair severity _ (within_rest inside)
  refine Books.account (noted.of_same rfl rfl) ?_
  exact (Repair.hasError_errorNode _).trans (erred_noteRepair severity _).symm

theorem account_cancel :
    Account task old (r.cancel task).root (r.cancel task).run (r.cancel task).cancelled where
  counted := books.counted
  spans sized w hw := by
    rcases List.mem_cons.mp hw with rfl | hw
    · exact within_rest inside sized
    · exact books.spans sized w hw
  errors := ⟨fun _ => ⟨_, List.mem_cons_self, fun _ h => nomatch h⟩,
    fun _ => Repair.hasError_errorNode _⟩
  cancelled := ⟨fun _ => ⟨_, List.mem_cons_self, rfl⟩, fun _ => rfl⟩

theorem account_exceed :
    Account task old (r.exceed task).root (r.exceed task).run (r.exceed task).cancelled := by
  have reports := Reports.report (r := r) (.steps (task.config.stepBudget task.text.size))
  refine account_abandon ?_ (reports.position ▸ inside)
  exact (books.reports reports inside).of_same rfl rfl

end Ends

/-! ## Turns -/

/-- Reading ahead reports nothing. -/
theorem lookahead_reports (task : ParseTask) (r : Run) :
    Reports r (r.lookahead task).2 ∧ (r.lookahead task).2.live = r.live := by
  obtain ⟨reuse, same⟩ : ∃ reuse, (r.reusableLeaf task.language).2 = { r with reuse } := by
    rw [reusableLeaf]
    split
    · exact ⟨_, rfl⟩
    · exact ⟨r.reuse, rfl⟩
  rw [lookahead]
  generalize r.reusableLeaf task.language = result at same ⊢
  obtain ⟨leaf, r'⟩ := result
  obtain rfl : r' = { r with reuse } := same
  cases leaf with
  | none => exact ⟨.of_same rfl rfl rfl rfl, rfl⟩
  | some leaf => exact ⟨.of_same rfl rfl rfl rfl, rfl⟩

theorem watchAmbiguity_reports (config : ParserConfig) (r : Run) :
    Reports r (r.watchAmbiguity config) ∧ ((r.watchAmbiguity config).live = r.live ∨
      (r.watchAmbiguity config).live = Frontier.collapse r.live) := by
  rw [watchAmbiguity]
  split
  · split
    · have reports := Reports.report (r := r) (.ambiguity config.maxAmbiguityDepth)
      have live := (Keeps.report (r := r) (.ambiguity config.maxAmbiguityDepth)).live
      exact ⟨reports.trans (.of_same rfl rfl rfl rfl), Or.inr (congrArg Frontier.collapse live)⟩
    · exact ⟨.of_same rfl rfl rfl rfl, Or.inl rfl⟩
  · exact ⟨.of_same rfl rfl rfl rfl, Or.inl rfl⟩

/-- The stacks that are left of some when they are merged and pruned. -/
def sifted (config : ParserConfig) (live : List Stack) : List Stack :=
  Frontier.prune (Frontier.merge (live.map fun s => { s with forked := false })) config.maxStacks

/-- A stack that is left was there before, but for whether it forked. -/
theorem mem_sifted {config : ParserConfig} {live : List Stack} {s : Stack}
    (h : s ∈ sifted config live) : ∃ t ∈ live, s.entries = t.entries := by
  obtain ⟨t, ht, rfl⟩ := List.mem_map.mp (Frontier.mem_of_mem_merge (Frontier.mem_of_mem_prune h))
  exact ⟨t, ht, rfl⟩

/-- Thinning out the stacks reports limits, and what is left of the stacks may be cut down to the
best. -/
theorem settle_sifts (config : ParserConfig) (r : Run) : Reports r (r.settle config) ∧
    ((r.settle config).live = sifted config r.live ∨
      (r.settle config).live = Frontier.collapse (sifted config r.live)) := by
  rw [settle, sifted]
  dsimp only
  generalize Frontier.merge (r.live.map fun s => { s with forked := false }) = merged
  generalize cutting : (if Frontier.isCrowded merged config.maxStacks = true then
      report { r with live := Frontier.prune merged config.maxStacks } (.parallel config.maxStacks)
    else { r with live := Frontier.prune merged config.maxStacks }) = cut
  have pruned : Reports r { r with live := Frontier.prune merged config.maxStacks } :=
    .of_same rfl rfl rfl rfl
  obtain ⟨reports, live⟩ : Reports r cut ∧ cut.live = Frontier.prune merged config.maxStacks := by
    rw [← cutting]
    split
    · exact ⟨pruned.trans (.report _), (Keeps.report _).live⟩
    · exact ⟨pruned, rfl⟩
  obtain ⟨watched, kept⟩ := watchAmbiguity_reports config
    { cut with metrics.maxStackCount := max cut.metrics.maxStackCount cut.live.length }
  have counted : Reports cut
      { cut with metrics.maxStackCount := max cut.metrics.maxStackCount cut.live.length } :=
    .of_same rfl rfl rfl rfl
  exact ⟨(reports.trans counted).trans watched, live ▸ kept⟩

/-- Thinning out the stacks reports limits and changes no entries. -/
theorem settle_reports (config : ParserConfig) (r : Run) : Reports r (r.settle config) ∧
    ∀ s ∈ (r.settle config).live, ∃ t ∈ r.live, s.entries = t.entries := by
  obtain ⟨reports, live | live⟩ := settle_sifts config r
  · exact ⟨reports, fun s hs => mem_sifted (live ▸ hs)⟩
  · exact ⟨reports, fun s hs => mem_sifted (Frontier.mem_of_mem_collapse (live ▸ hs))⟩

/-- The leaf that is pushed as an extra has a state and flags, and which does not matter. -/
theorem shiftExtra_eq (r : Run) (la : Lookahead) (cost : Nat) :
    ∃ state flags, flags.hasError = false ∧ flags.missing = false ∧
      r.shiftExtra la cost = consume { (r.makeLeaf la state flags).2 with
        live := (r.makeLeaf la state flags).2.live.map fun s =>
          (s.push ⟨s.state, (r.makeLeaf la state flags).1, la.stop, true⟩).charge cost } la :=
  ⟨_, _, rfl, rfl, rfl⟩

theorem pushToken_eq (r : Run) (la : Lookahead) (shifts : List (Stack × StateId)) :
    ∃ state flags, flags.hasError = false ∧ flags.missing = false ∧
      r.pushToken la shifts = consume { (r.makeLeaf la state flags).2 with
        live := shifts.map fun m =>
          m.1.push ⟨m.2, (r.makeLeaf la state flags).1, la.stop, false⟩ } la :=
  ⟨_, _, rfl, rfl, rfl⟩

/-- A subtree is pushed on a stack that could shift the token. -/
theorem mem_of_subtree {l : Language} {shifts : List (Stack × StateId)} {s : Stack} {n : Green}
    {target : StateId} (found : (r.subtree l la shifts).1 = some (s, n, target)) :
    ∃ next, (s, next) ∈ shifts := by
  rw [subtree.eq_def] at found
  split at found
  · split at found
    · cases found
    · dsimp only at found
      obtain ⟨m, -, same⟩ := Option.map_eq_some_iff.mp found
      cases same
      exact ⟨_, List.mem_singleton_self _⟩
  · cases found

/-- What a repair is, if there is one: it is noted, and the stack that goes on has a flag. -/
def Mended (task : ParseTask) (old : Option Green) (place : Position) :
    Option Stack × Run → Prop
  | (some s, r) => Books task old r ∧ r.erred = true ∧ anyError s.entries = true
  | (none, r) => Books task old r ∧ r.position = place

section Turn

variable (founded : task.language.Founded g a) (rooted : ∀ root ∈ old, root.Rooted g)
  (ahead : Ahead task old la) (books : Books task old r)
  (inside : Sized task old → r.position.offset ≤ task.text.size)

include founded ahead in
theorem within_token (here : la.start = r.position)
    (inside : Sized task old → r.position.offset ≤ task.text.size) (sized : Sized task old) :
    la.token.span.Within task.text := by
  have proper := ahead.proper founded sized.fits (here ▸ inside sized)
  rw [Span.Within, proper.start, proper.stop]
  exact ⟨proper.le_stop, proper.stop_le⟩

include founded in
theorem Good.within (good : r.Good task old) (sized : Sized task old) :
    r.position.offset ≤ task.text.size := by
  obtain ⟨s, hs⟩ := List.exists_mem_of_ne_nil _ good.alive
  exact (built_spread founded sized.fits sized.small (good.built s hs)).1

include inside in
theorem Ledger.settle {config : ParserConfig} (ledger : Ledger task old r) :
    Ledger task old (r.settle config) := by
  obtain ⟨reports, kept⟩ := settle_reports config r
  refine ⟨ledger.reports reports inside, fun s hs => ?_⟩
  obtain ⟨t, ht, same⟩ := kept s hs
  rw [same, erred_of_reports reports]
  exact ledger.flags t ht

section Tokens

include founded rooted ahead books inside

/-- A token is pushed on every stack as an extra. -/
theorem ledger_shiftExtra (cost : Nat)
    (free : la.token.isError = true ∨ la.token.symbol ≠ Symbol.endOfText)
    (flags : ∀ s ∈ r.live, (la.token.isError || anyError s.entries) = r.erred) :
    Ledger task old (r.shiftExtra la cost) := by
  obtain ⟨state, f, clean, present, same⟩ := shiftExtra_eq r la cost
  have reports := Reports.makeLeaf (r := r) la state f
  rw [same]
  refine ⟨(books.reports reports inside).of_same rfl rfl, fun s hs => ?_⟩
  obtain ⟨t, ht, rfl⟩ := List.mem_map.mp hs
  rw [(Keeps.makeLeaf la state f).live] at ht
  show (Green.hasError _ || anyError t.entries) = erred _
  rw [ahead.hasError_leaf founded rooted r state clean present free, flags t ht]
  exact (erred_of_reports reports).symm

theorem ledger_pushToken {shifts : List (Stack × StateId)} (matched : la.token.isError = false)
    (notEnd : la.token.symbol ≠ Symbol.endOfText)
    (flags : ∀ m ∈ shifts, anyError m.1.entries = r.erred) :
    Ledger task old (r.pushToken la shifts) := by
  obtain ⟨state, f, clean, present, same⟩ := pushToken_eq r la shifts
  have reports := Reports.makeLeaf (r := r) la state f
  rw [same]
  refine ⟨(books.reports reports inside).of_same rfl rfl, fun s hs => ?_⟩
  obtain ⟨m, hm, rfl⟩ := List.mem_map.mp hs
  show (Green.hasError _ || anyError m.1.entries) = erred _
  rw [ahead.hasError_leaf founded rooted r state clean present (Or.inr notEnd), matched,
    Bool.false_or, flags m hm]
  exact (erred_of_reports reports).symm

theorem ledger_shiftAll {shifts : List (Stack × StateId)}
    (known : ∀ m ∈ shifts, Built task old la.start.offset m.1.entries ∧
      .shift m.2 ∈ task.language.actions m.1.state la.token.symbol)
    (reuse : r.reuse.Inside old) (after : (r.shiftAll task la shifts).Good task old)
    (matched : la.token.isError = false) (notEnd : la.token.symbol ≠ Symbol.endOfText)
    (flags : ∀ m ∈ shifts, anyError m.1.entries = r.erred) :
    Ledger task old (r.shiftAll task la shifts) := by
  have within := after.within founded
  obtain ⟨-, same, fitting⟩ := subtree_spec known (r := { r with recovery.skipped := 0 }) reuse
  have mem : ∀ {s n target},
      (subtree task.language { r with recovery.skipped := 0 } la shifts).1 = some (s, n, target) →
      ∃ next, (s, next) ∈ shifts := mem_of_subtree
  rw [shiftAll] at within ⊢
  dsimp only at within ⊢
  generalize subtree task.language { r with recovery.skipped := 0 } la shifts = result
    at same fitting mem within ⊢
  obtain ⟨found, r'⟩ := result
  dsimp only at same fitting mem within ⊢
  have reports : Reports r r' := by
    rw [same]
    exact .of_same rfl rfl rfl rfl
  have books' := books.reports reports inside
  rw [← erred_of_reports reports] at flags
  cases found with
  | none =>
    have pushed := ledger_pushToken founded rooted ahead books' (reports.position ▸ inside) matched
      notEnd flags
    exact Ledger.settle ((settle_reports task.config _).1.position ▸ within) pushed
  | some m =>
    obtain ⟨s, n, target⟩ := m
    obtain ⟨next, mem⟩ := mem rfl
    have correct := (fitting s n target rfl).2.correct
    have pushed : Ledger task old (r'.pushSubtree la s n target) := by
      refine ⟨books'.of_same rfl rfl, fun t ht => ?_⟩
      rw [List.mem_singleton.mp ht]
      show (n.hasError || anyError s.entries) = r'.erred
      rw [correct, Bool.false_or, flags _ mem]
    exact Ledger.settle ((settle_reports task.config _).1.position ▸ within) pushed

end Tokens

/-! ## Repairs -/

theorem anyError_pushMissing (l : Language) (s : Stack) (t : Symbol) (target : StateId)
    (place : Position) : anyError (pushMissing l s t target place).entries = true := by
  show (Green.hasError (Green.leaf _) || _) = true
  rw [Green.hasError_leaf]
  simp [NodeFlags.onlyMissing]

theorem anyError_insertMissing {l : Language} {s : Stack} :
    ∀ (terminals : List Symbol) {r : Run} {s' : Stack} {t : Symbol},
      (insertMissing l la s r terminals).1 = some (s', t) → anyError s'.entries = true := by
  intro terminals
  induction terminals with
  | nil => exact fun h => nomatch h
  | cons t ts ih =>
    intro r s' t' found
    rw [insertMissing] at found
    split at found
    · exact ih found
    · split at found
      · split at found
        · cases found
          exact anyError_pushMissing _ _ _ _ _
        · exact ih found
      · exact ih found

section Repairs

variable {s : Stack} (built : Built task old la.start.offset s.entries)

include books inside

theorem mended_tryMissing (here : la.start = r.position) :
    Mended task old r.position (tryMissing task.language la s r) := by
  have idles := (insertMissing_mends task la s
    ((task.language.stateActions s.state).map (·.1)) (r := r)).1
  have books' := books.reports idles.toReports inside
  rw [tryMissing]
  split
  · next repaired missing r' eq =>
    rw [eq] at books'
    have flag := anyError_insertMissing _ (congrArg Prod.fst eq)
    have severity : (Problem.insertedMissing (task.language.symbolName missing)
        (task.language.symbolName la.token.symbol)).severity = .error := rfl
    refine ⟨books'.noteRepair severity _ fun sized => ?_, erred_noteRepair severity _, flag⟩
    exact ⟨Nat.le_refl _, here ▸ inside sized⟩
  · next r' eq =>
    rw [eq] at books' idles
    exact ⟨books', idles.position⟩

include founded built in
theorem mended_tryWrap (here : la.start = r.position) (allowed : Nat) :
    Mended task old r.position (tryWrap task.language la s allowed r) := by
  rw [tryWrap]
  split
  · next wrapped eq =>
    have severity : (Problem.wrapped (task.language.symbolName la.token.symbol)).severity =
      .error := rfl
    have noted : Books task old (r.noting wrapped) := books.of_same rfl rfl
    refine ⟨noted.noteRepair severity _ fun sized => ?_, erred_noteRepair severity _,
      Repair.anyError_wrap eq⟩
    obtain ⟨taken, below, entries, start, -⟩ := Repair.wrap_spec eq
    have stops := built_stops founded sized.fits sized.small built
    rw [entries] at stops
    refine ⟨?_, here ▸ inside sized⟩
    show wrapped.value.2 ≤ la.start.offset
    rw [start]
    exact placeOver_le fun e he => stops e (List.mem_append_right _ he)
  · exact ⟨books, rfl⟩

include founded built in
theorem mended_tryInPlace (here : la.start = r.position) :
    Mended task old r.position (tryInPlace task la s r) := by
  rw [tryInPlace]
  split
  · dsimp only
    have missing := mended_tryMissing (s := s)
      (r := { r with recovery.attempts := r.recovery.attempts + 1 }) (books.of_same rfl rfl)
      inside here
    split
    · next repaired r' eq =>
      rw [eq] at missing
      exact missing
    · next r' eq =>
      rw [eq] at missing
      obtain ⟨books', position⟩ := missing
      have position : r'.position = r.position := position
      have wrapped := mended_tryWrap founded books' (position ▸ inside) built
        (here.trans position.symm)
        (if la.token.isEnd then s.depth else task.config.maxRecoveryDepth)
      rwa [position] at wrapped
  · exact ⟨books, rfl⟩

omit inside in
theorem balanced_resume (erred : r.erred = true) (flag : anyError s.entries = true) :
    Balanced task old (resume r s) := by
  refine ⟨books.of_same rfl rfl, fun t ht => ?_⟩
  rw [List.mem_singleton.mp ht, flag]
  exact erred.symm

theorem balanced_giveUp : Balanced task old (giveUp task r) := account_abandon books inside

theorem balanced_sealRest (here : la.start = r.position) :
    Balanced task old (sealRest task la s r) := by
  rw [sealRest]
  generalize hspan : Span.ofLengthChecked la.start.offset _ = span
  have severity : (Problem.gaveUp r.recovery.skipped).severity = .error := rfl
  have noted : Books task old (r.noting span) := books.of_same rfl rfl
  have noted := noted.noteRepair severity span.value fun sized => ?_
  · refine balanced_resume ?_ ?_ (Repair.anyError_skip _ _ _ _)
    · exact noted.of_same rfl rfl
    · exact erred_noteRepair (r := r.noting span) severity span.value
  · have within := inside sized
    rw [← here] at within
    rw [← hspan]
    refine ⟨Nat.le_add_right _ _, ?_⟩
    show la.start.offset + Size.ofText _ ≤ task.text.size
    rw [Size.ofText, Array.size_extract]
    omega

include founded ahead in
theorem balanced_skipToken (here : la.start = r.position) :
    Balanced task old (skipToken task.language la s r) := by
  obtain ⟨problem, same, severity⟩ : ∃ problem,
      problem = Problem.skipped (task.language.symbolName la.token.symbol) ∧
        problem.severity = .error := ⟨_, rfl, rfl⟩
  rw [skipToken, ← same]
  have counted : Books task old { r with recovery.skipped := r.recovery.skipped + 1 } :=
    books.of_same rfl rfl
  have noted := counted.noteRepair severity la.token.span fun sized => ?_
  · have erred := erred_noteRepair (r := { r with recovery.skipped := r.recovery.skipped + 1 })
      severity la.token.span
    have reports := Reports.makeLeaf (r := noteRepair
      { r with recovery.skipped := r.recovery.skipped + 1 } problem la.token.span) la s.state
      NodeFlags.none
    refine balanced_resume ?_ ?_ (Repair.anyError_skip _ _ _ _)
    · exact (noted.reports reports inside).of_same rfl rfl
    · exact (erred_of_reports reports).trans erred
  · exact within_token founded ahead here inside sized

include founded ahead built in
theorem balanced_giveWay (here : la.start = r.position) :
    Balanced task old (giveWay task la s r) := by
  rw [giveWay]
  split
  · have wrapped := mended_tryWrap founded books inside built here s.depth
    split
    · next repaired r' eq =>
      rw [eq] at wrapped
      exact balanced_resume wrapped.1 wrapped.2.1 wrapped.2.2
    · next r' eq =>
      rw [eq] at wrapped
      obtain ⟨books', position⟩ := wrapped
      have position : r'.position = r.position := position
      exact balanced_giveUp (r := { r' with live := [s] }) (books'.of_same rfl rfl)
        (position ▸ inside)
  · split
    · exact balanced_sealRest books inside here
    · exact balanced_skipToken founded ahead books inside here

end Repairs

include founded ahead books inside in
theorem balanced_recover (here : la.start = r.position) {failed : List Stack}
    (known : ∀ s ∈ failed, Built task old la.start.offset s.entries) :
    Balanced task old (r.recover task la failed) := by
  rw [recover]
  split
  · exact balanced_giveUp books inside
  · next s best =>
    have built := known s (Frontier.mem_of_best? best)
    have placed : Reports r (r.atPlace la.start.offset) := by
      rw [atPlace]
      split
      · exact .refl r
      · exact .of_same rfl rfl rfl rfl
    have mended := mended_tryInPlace founded (books.reports placed inside)
      (placed.position ▸ inside) built (here.trans placed.position.symm)
    split
    · next s' r' eq =>
      rw [eq] at mended
      exact balanced_resume mended.1 mended.2.1 mended.2.2
    · next r' eq =>
      rw [eq] at mended
      obtain ⟨books', position⟩ := mended
      have position : r'.position = r.position := position.trans placed.position
      exact balanced_giveWay founded ahead books' (position ▸ inside) built
        (here.trans position.symm)

end Turn

/-! ## A whole parse -/

/-- Reductions leave what stacks have of errors. -/
theorem Ledger.reduced (founded : task.language.Founded g a) (ledger : Ledger task old r)
    (la : Lookahead) :
    Phase.From task la (fun s => anyError s.entries = r.erred) (r.reduceAll task la).1 := by
  refine reduceAll_from (fun flag takes => ?_) ledger.flags
  obtain ⟨id, b, c, branches, reduced, rfl⟩ := takes
  rw [(Stack.reduces_of_reduce? reduced).anyError_eq founded, branches.entries, flag]

section Parse

variable (founded : task.language.Founded g a) (rooted : ∀ root ∈ old, root.Rooted g)

include founded rooted

theorem ledger_takeUnknown {text : Text} (ahead : Ahead task old la) (books : Books task old r)
    (inside : Sized task old → r.position.offset ≤ task.text.size) (here : la.start = r.position)
    (wrong : la.token.isError = true) : Ledger task old (r.takeUnknown text la) := by
  obtain ⟨problem, same, severity⟩ : ∃ problem,
      problem = Problem.unrecognized
        (Utf8.decodeLossy (text.extract la.token.span.start la.token.span.stop)) ∧
        problem.severity = .error := ⟨_, rfl, rfl⟩
  have noted := books.noteRepair severity la.token.span fun sized => ?_
  · rw [takeUnknown, ← same]
    refine ledger_shiftExtra founded rooted ahead noted inside Repair.skipCost (Or.inl wrong)
      fun s _ => ?_
    rw [wrong, Bool.true_or, erred_noteRepair severity]
  · exact within_token founded ahead here inside sized

theorem balanced_step (ahead : Ahead task old la) (good : r.Good task old)
    (here : la.start = r.position) (ledger : Ledger task old r) :
    Balanced task old (r.step task la) := by
  have inside := good.within founded
  rw [step]
  split
  · next wrong =>
    exact ledger_takeUnknown founded rooted ahead ledger.toBooks inside here wrong
  · next matched =>
    have matched : la.token.isError = false := Bool.eq_false_iff.mpr matched
    split
    · next free =>
      simp only [isPlainExtra, Bool.and_eq_true, Bool.not_eq_true'] at free
      have notEnd : la.token.symbol ≠ Symbol.endOfText := bne_iff_ne.mp
        (by rw [bne, Bool.not_eq_true']; exact free.1.1)
      refine ledger_shiftExtra founded rooted ahead ledger.toBooks inside 0 (Or.inr notEnd)
        fun s hs => ?_
      rw [matched, Bool.false_or]
      exact ledger.flags s hs
    · have live : ∀ s ∈ r.live, Built task old la.start.offset s.entries :=
        fun s hs => here ▸ good.built s hs
      obtain ⟨sound, keeps⟩ := reduceAll_sound ahead live
      have flags := ledger.reduced founded la
      have reports : Reports r (r.reduceAll task la).2 := reduceAll_reports r
      generalize r.reduceAll task la = result at sound keeps flags reports ⊢
      obtain ⟨phase, r'⟩ := result
      dsimp only at sound keeps flags reports ⊢
      have books := ledger.reports reports inside
      have inside' : Sized task old → r'.position.offset ≤ task.text.size :=
        reports.position ▸ inside
      rw [← erred_of_reports reports] at flags
      split
      · next s found =>
        split at found
        · have mem := Frontier.mem_of_best? found
          obtain ⟨built, accepts⟩ := sound.accepted s mem
          obtain ⟨t, flag, branches⟩ := flags.accepted s mem
          refine Books.account (books.of_same rfl rfl) ?_
          rw [hasError_accept founded (built_sprouting founded rooted built) accepts,
            branches.entries, flag]
          rfl
        · cases found
      · split
        · exact balanced_recover founded ahead books inside' (here.trans keeps.position.symm)
            sound.failed
        · next some =>
          have some : phase.shifts ≠ [] := fun nil => some (List.isEmpty_iff.mpr nil)
          obtain ⟨m, hm⟩ := List.exists_mem_of_ne_nil _ some
          have reuse := keeps.inside good.inside
          have after := good_shiftAll ahead sound.shifts reuse (keeps.quiet good.quiet) some
          refine ledger_shiftAll founded rooted ahead books inside' sound.shifts reuse after matched
            (founded.shift_ne_end (sound.shifts m hm).2) fun m hm => ?_
          obtain ⟨t, flag, branches⟩ := flags.shifts m hm
          rw [branches.entries, flag]

theorem balanced_turn (good : r.Good task old) (ledger : Ledger task old r) :
    Balanced task old (r.turn task) := by
  obtain ⟨ahead, here, good'⟩ := lookahead_spec good
  obtain ⟨reports, live⟩ := lookahead_reports task r
  have ledger' : Ledger task old (r.lookahead task).2 := by
    refine ⟨ledger.reports reports (good.within founded), fun s hs => ?_⟩
    rw [erred_of_reports reports]
    exact ledger.flags s (live ▸ hs)
  exact balanced_step founded rooted ahead good' here ledger'

theorem Reached.ledger {tokens : List Lookahead} (reached : Reached task old tokens r) :
    Ledger task old r := by
  induction reached with
  | initial =>
    refine ⟨⟨rfl, fun _ h => absurd h List.not_mem_nil, fun _ _ h => absurd h List.not_mem_nil⟩,
      fun s hs => ?_⟩
    rw [List.mem_singleton.mp hs]
    rfl
  | turn reached more ih =>
    have balanced := balanced_turn founded rooted reached.good ih
    rw [more] at balanced
    exact balanced

/-- However a parse ends, what it reports agrees with its root. -/
theorem Closes.account {tokens : List Lookahead} {outcome : Outcome}
    (closes : Closes task old tokens outcome) :
    Account task old outcome.root outcome.run outcome.cancelled := by
  cases closes with
  | @cancelled r _ reached =>
    exact account_cancel (reached.ledger founded rooted).toBooks (reached.good.within founded)
  | @exceeded r _ reached =>
    exact account_exceed (reached.ledger founded rooted).toBooks (reached.good.within founded)
  | done reached done =>
    have balanced := balanced_turn founded rooted reached.good (reached.ledger founded rooted)
    rw [done] at balanced
    exact balanced

end Parse

end Run

namespace Parser

variable {G : Grammar} {p : Parser} {text : Text} {oldTree : Option Tree}

theorem account_outcome (compiled : p.language.Compiled G) (text : Text)
    (obtained : ∀ t ∈ oldTree, t.Obtained G) (interrupts : Interrupts) :
    let outcome := Run.outcome (p.task text) interrupts (p.oldRoot oldTree)
    Run.Account (p.task text) (p.oldRoot oldTree) outcome.root outcome.run outcome.cancelled ∧
      (outcome.root.hasError = true ↔ outcome.root.Faulty) := by
  obtain ⟨g, a, lowered, founded⟩ := compiled.founded
  have founded : (p.task text).language.Founded g a := founded
  have rooted : ∀ root ∈ p.oldRoot oldTree, root.Rooted g := by
    intro root hroot
    obtain ⟨t, ht, rfl⟩ := exists_of_mem_oldRoot hroot
    exact (obtained t ht).rooted lowered
  have closes := Run.closes_outcome (p.task text) interrupts (p.oldRoot oldTree)
  have ending := Run.ending_outcome (p.task text) interrupts (p.oldRoot oldTree)
  generalize Run.outcome (p.task text) interrupts (p.oldRoot oldTree) = outcome at closes ending ⊢
  exact ⟨closes.account founded rooted,
    (rooted_of_ending founded rooted ending).1.hasError_iff
      (caused_of_ending founded rooted ending)⟩

/-- There are errors just if some node is an error or missing, and just if something is reported
that is not a limit.  A parse was cancelled just if that is reported, the count of errors is that of
the reported errors, and all that is reported is somewhere in the text. -/
theorem reports_agree (compiled : p.language.Compiled G) (obtained : ∀ t ∈ oldTree, t.Obtained G)
    (length : ∀ t ∈ oldTree, t.textLength = text.size) (interrupts : Interrupts) :
    let result := (p.parse text oldTree interrupts).value
    (result.hasErrors = true ↔ ∃ start n, result.tree.root.Holds start n ∧
        (n.isError = true ∨ n.isMissing = true)) ∧
      (result.hasErrors = true ↔
        ∃ w ∈ result.warnings, w.problem.kind ≠ "InternalLimitExceeded") ∧
      (result.cancelled = true ↔ ∃ w ∈ result.warnings, w.problem.kind = "Cancelled") ∧
      result.metrics.errorsRecovered =
        (result.warnings.filter (·.severity == .error)).length ∧
      (text.size ≤ Size.largest → ∀ w ∈ result.warnings,
        w.span.start ≤ w.span.stop ∧ w.span.stop ≤ text.size) := by
  obtain ⟨account, faulty⟩ := account_outcome compiled text obtained interrupts
  have fits : Green.Fits text (p.oldRoot oldTree) := by
    intro root hroot
    obtain ⟨t, ht, rfl⟩ := exists_of_mem_oldRoot hroot
    exact ⟨(obtained t ht).measured, length t ht⟩
  rw [value_parse]
  generalize Run.outcome (p.task text) interrupts (p.oldRoot oldTree) = outcome at account faulty ⊢
  simp only [List.mem_reverse, List.filter_reverse, List.length_reverse]
  refine ⟨faulty, account.errors.trans (exists_congr fun w => and_congr_right fun _ => ?_),
    account.cancelled.trans (exists_congr fun w => and_congr_right fun _ => ?_), ?_,
    fun small => account.spans ⟨fits, small⟩⟩
  · rw [ne_eq, Problem.kind_eq_limit_iff, not_exists]
  · exact Problem.kind_eq_cancelled_iff.symm
  · rw [account.counted, List.countP_eq_length_filter]

/-- A letter that is missing behind an edit is a flag in the tree and a warning. -/
theorem nested_reports_agree :
    let p : Parser := ⟨FlatGrammar.nestedLanguage, {}⟩
    let old := (p.parse #[97, 98] none .never).value.tree
    let edited := (old.edit (.replace #[97, 98] 1 1 #[97])).value
    let result := (p.parse #[97, 97, 98] (some edited) .never).value
    result.hasErrors = true ∧
      (∃ start n, result.tree.root.Holds start n ∧ (n.isError = true ∨ n.isMissing = true)) ∧
      ∃ w ∈ result.warnings, w.problem.kind ≠ "InternalLimitExceeded" := by
  intro p old edited result
  have first : old.Obtained FlatGrammar.nested :=
    .parse FlatGrammar.nestedLanguage_compiled _ (fun t ht => absurd ht (Option.not_mem_none t)) _
  have obtained : ∀ t ∈ some edited, t.Obtained FlatGrammar.nested := by
    intro t ht
    rw [← Option.some.inj ht]
    exact first.edit _
  have length : ∀ t ∈ some edited, t.textLength = (#[97, 97, 98] : Text).size := by
    intro t ht
    rw [← Option.some.inj ht]
    decide +kernel
  have wrong : result.hasErrors = true := by decide +kernel
  obtain ⟨faulty, noted, -⟩ := reports_agree (p := p) FlatGrammar.nestedLanguage_compiled
    obtained length .never
  exact ⟨wrong, faulty.mp wrong, noted.mp wrong⟩

end Parser

end Glr
