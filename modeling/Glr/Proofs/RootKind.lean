import Glr.Proofs.Coverage
import Glr.Proofs.Deeds
import Glr.Proofs.Ledger
import Glr.Proofs.Limits
import Glr.Proofs.Tracks

/-!
# The kind of the root

Where a repeated rule is at the top of a grammar, even the empty text is a sentence, or at least the
end of the text calls for a reduction in the first state.  Then a parse need not ever give up: at
the end of the text a stack that can go no further is wrapped in an error down to a state that can,
and at the bottom there is one.  As long as no limit cuts a branch off, every parse therefore ends
with a stack that accepts, and over that is a node of the start symbol (`root_keeps_kind`).

A parse that may be wrapped up without accepting is one that was cancelled, that ran into a limit,
or that has nothing left to repair.  The last is what is excluded here, in its two forms: the work
on a token leaves nothing behind (`reduceAll_alive`), or the end of the text finds no state that
can go on (`Repair.exists_wrap`).  The first alone is how text can be lost, so a parse that is
neither cancelled nor short of reductions or turns holds all of its text (`not_stranded`).
-/

namespace Glr

variable {g : FlatGrammar} {a : Automaton} {task : ParseTask} {old : Option Green} {r r' : Run}
  {la : Lookahead} {root : Green}

/-- Where the bottom of a stack has an action, wrapping all of the stack comes to a state that has
one. -/
theorem Repair.exists_wrap {l : Language} {s : Stack} {t : Symbol}
    (bottom : l.hasActions 0 t = true) (some : s.entries ≠ []) :
    ∃ c, wrap l s t s.depth = .some c := by
  have walk : ∀ (entries : List StackEntry) (wrapped : List Green) (depth : Nat), entries ≠ [] →
      depth + entries.length ≤ s.depth →
      ∃ c, wrapFrom l s t wrapped depth s.depth entries = .some c := by
    intro entries
    induction entries with
    | nil => exact fun _ _ some _ => absurd rfl some
    | cons e below ih =>
      intro wrapped depth _ room
      rw [List.length_cons] at room
      rw [wrapFrom, if_neg (by omega)]
      dsimp only
      split
      · exact ⟨_, rfl⟩
      · next inactive =>
        refine ih _ _ (fun nil => ?_) (by omega)
        -- Below the lowest entry is state zero.
        rw [nil] at inactive
        exact inactive bottom
  exact walk s.entries [] 0 some (Nat.le_of_eq (Nat.zero_add _))

namespace Run

section Founded

variable (founded : task.language.Founded g a)

include founded

/-- On compiled tables every reduction that a stack calls for can be made, and the stack behind it
follows the tables again. -/
theorem reducible_of_tracked {s : Stack} (tracked : Tracked task.language s.entries) :
    Reducible task la s := by
  intro id action b fragile same
  rw [Stack.state_eq, ← same, ← Stack.state_eq] at action
  exact Tracked.reduce?_isSome founded (same ▸ tracked) action la fragile

omit founded in
theorem tracked_of_takes {ambiguous : Bool} {s s' : Stack}
    (tracked : Tracked task.language s.entries) (takes : Takes task la ambiguous s s') :
    Tracked task.language s'.entries := by
  obtain ⟨id, b, c, branches, reduced, rfl⟩ := takes
  rw [← branches.entries] at tracked
  exact tracked.reduces (Stack.reduces_of_reduce? reduced)

/-- Some stack is left to accept, to shift the token or to be repaired. -/
theorem exists_outcome (la : Lookahead) (good : r.Good task old) (candid : r.Candid)
    (thrifty : (r.reduceAll task la).2.Untold (.reductions task.config.maxReductionsPerToken)) :
    (r.reduceAll task la).1.shifts ≠ [] ∨ (r.reduceAll task la).1.accepted ≠ [] ∨
      (r.reduceAll task la).1.failed ≠ [] :=
  reduceAll_alive (P := fun s => Tracked task.language s.entries) tracked_of_takes
    (fun _ => reducible_of_tracked founded) (fun s hs => tracked_of_built (good.built s hs))
    good.alive candid thrifty

omit founded in
/-- A stack that fails at the end of the text can be wrapped, if the bottom has an action there. -/
theorem wraps_of_failed (bottom : task.language.hasActions 0 la.token.symbol = true) {s : Stack}
    (failed : s ∈ (r.reduceAll task la).1.failed) (r₁ : Run) :
    (tryWrap task.language la s s.depth r₁).1 ≠ none := by
  have inactive := reduceAll_failed r s failed
  have some : s.entries ≠ [] := by
    intro nil
    rw [Stack.state_eq, nil] at inactive
    rw [Language.hasActions, show task.language.actions 0 la.token.symbol = [] from inactive]
      at bottom
    cases bottom
  obtain ⟨c, wraps⟩ := Repair.exists_wrap bottom some
  rw [tryWrap, wraps]
  exact Option.some_ne_none _

/-- A stack accepts at the end of the text only. -/
theorem atEnd_of_accepted {phase : Phase} (sound : Phase.Sound task old la phase)
    (some : phase.accepted ≠ []) : la.token.isEnd = true := by
  obtain ⟨s, hs⟩ := List.exists_mem_of_ne_nil _ some
  have laid := (tracked_of_built (sound.accepted s hs).1).laid founded
  have accepts := (sound.accepted s hs).2
  rw [Stack.state_eq] at accepts
  exact beq_iff_eq.mpr (laid.symbols_of_accept founded accepts).2

/-- Where enough reductions were allowed, the work on a token does not end a parse. -/
theorem not_dead (good : r.Good task old) (candid : r.Candid)
    (thrifty : ((r.lookahead task).2.reduceAll task (r.lookahead task).1).2.Untold
      (.reductions task.config.maxReductionsPerToken))
    (unaccepted : (r.lookahead task).1.token.isEnd = true → Frontier.best?
      ((r.lookahead task).2.reduceAll task (r.lookahead task).1).1.accepted = none)
    (unshifted : ((r.lookahead task).2.reduceAll task
      (r.lookahead task).1).1.shifts.isEmpty = true) :
    Frontier.best? ((r.lookahead task).2.reduceAll task (r.lookahead task).1).1.failed ≠ none := by
  intro unfailed
  obtain ⟨ahead, here, good'⟩ := lookahead_spec good
  have candid' := (tells_lookahead task r).candid candid
  obtain ⟨sound, -⟩ := reduceAll_sound ahead fun s hs => here ▸ good'.built s hs
  -- No stack accepts or shifts, so one would be left to repair.
  rcases exists_outcome founded _ good' candid' thrifty with shifts | accepted | failed
  · exact absurd (List.isEmpty_iff.mp unshifted) shifts
  · obtain ⟨s, best⟩ := Frontier.exists_best? accepted
    rw [unaccepted (atEnd_of_accepted founded sound accepted)] at best
    cases best
  · obtain ⟨s, best⟩ := Frontier.exists_best? failed
    rw [unfailed] at best
    cases best

/-- A turn that ends a parse, without a limit, ends it with a stack that accepts. -/
theorem accepts_of_done (bottom : task.language.hasActions 0 Symbol.endOfText = true)
    (good : r.Good task old) (candid : r.Candid) (done : r.turn task = .done root r')
    (unlimited : r'.Unlimited) :
    ∃ s, Tracked task.language s.entries ∧
      .accept ∈ task.language.actions s.state Symbol.endOfText ∧
      root = (accept task.language s).value := by
  obtain ⟨ahead, here, good'⟩ := lookahead_spec good
  obtain ⟨sound, -⟩ := reduceAll_sound ahead fun s hs => here ▸ good'.built s hs
  cases ends_of_turn done with
  | @accept s atEnd best =>
    obtain ⟨built, accepts⟩ := sound.accepted s (Frontier.mem_of_best? best)
    rw [beq_iff_eq.mp atEnd] at accepts
    exact ⟨s, tracked_of_built built, accepts, rfl⟩
  | dead unaccepted unshifted unfailed =>
    have unlimited := (tells_abandon task _).unlimited unlimited
    exact absurd unfailed
      (not_dead founded good candid (unlimited.untold _) unaccepted unshifted)
  | @stuck s r₁ r₂ atEnd best unrepaired unwrapped =>
    have wrapped := wraps_of_failed (beq_iff_eq.mp atEnd ▸ bottom) (Frontier.mem_of_best? best) r₁
    rw [unwrapped] at wrapped
    exact absurd rfl wrapped

/-- Over a stack that accepts is a node of the start symbol. -/
theorem symbol_accept {s : Stack} (tracked : Tracked task.language s.entries)
    (accepts : .accept ∈ task.language.actions s.state Symbol.endOfText) :
    (accept task.language s).value.symbol = task.language.startSymbol := by
  rw [Stack.state_eq] at accepts
  obtain ⟨before, main, after, entries, extras, plain, start⟩ :=
    exists_of_symbolsOf ((tracked.laid founded).symbols_of_accept founded accepts).1
  rw [← founded.startSymbol_eq] at start
  rcases accept_of_single task.language entries extras plain start with ⟨-, root⟩ | root
  · rw [root, start]
  · rw [root, Green.symbol_withChildren, start]

variable {tokens : List Lookahead} {outcome : Outcome}

theorem symbol_of_closes
    (bottom : task.language.hasActions 0 Symbol.endOfText = true)
    (closes : Closes task old tokens outcome) (ran : outcome.cancelled = false)
    (unlimited : outcome.run.Unlimited) :
    outcome.root.symbol = task.language.startSymbol := by
  cases closes with
  | cancelled reached => cases ran
  | exceeded reached =>
    have limited := reached.candid.not_untold_report
      (.steps (task.config.stepBudget task.text.size))
    exact absurd (((tells_abandon task _).unlimited unlimited).untold _) limited
  | done reached done =>
    obtain ⟨s, tracked, accepts, rfl⟩ :=
      accepts_of_done founded bottom reached.good reached.candid done unlimited
    exact symbol_accept founded tracked accepts

/-- No stack is lost in a parse that comes to its end and runs out of no reductions. -/
theorem not_stranded (closes : Closes task old tokens outcome) (ran : outcome.cancelled = false)
    (thrifty : outcome.run.Untold (.reductions task.config.maxReductionsPerToken))
    (brief : outcome.run.Untold (.steps (task.config.stepBudget task.text.size))) :
    ¬ outcome.run.Stranded := by
  intro stranded
  cases closes with
  | cancelled reached => cases ran
  | exceeded reached =>
    exact reached.candid.not_untold_report _ ((tells_abandon task _).untold brief)
  | @done r r' tokens root reached done =>
    have good := reached.good
    cases ends_of_turn done with
    | @accept s atEnd best =>
      -- Nothing is incomplete where a stack accepts.
      obtain ⟨ahead, here, good'⟩ := lookahead_spec good
      obtain ⟨-, keeps⟩ := reduceAll_sound ahead fun s hs => here ▸ good'.built s hs
      obtain ⟨w, hw, incomplete⟩ := stranded.noted
      exact keeps.quiet good'.quiet w hw incomplete
    | dead unaccepted unshifted unfailed =>
      exact not_dead founded good reached.candid ((tells_abandon task _).untold thrifty) unaccepted
        unshifted unfailed
    | @stuck s r₁ r₂ atEnd best unrepaired unwrapped =>
      exact absurd stranded.lost (List.cons_ne_nil _ _)

end Founded

end Run

namespace Parser

variable {G : Grammar} {p : Parser}

/-- Where the end of the text has an action in the first state, every parse that is not cancelled
and reports no limit has a root of the start symbol, whatever the text is. -/
theorem root_keeps_kind (compiled : p.language.Compiled G)
    (bottom : p.language.hasActions 0 Symbol.endOfText = true) (text : Text)
    (oldTree : Option Tree) (interrupts : Interrupts)
    (ran : (p.parse text oldTree interrupts).value.cancelled = false)
    (unlimited : ∀ w ∈ (p.parse text oldTree interrupts).value.warnings,
      w.problem.kind ≠ "InternalLimitExceeded") :
    (p.parse text oldTree interrupts).value.tree.root.symbol = p.language.startSymbol ∧
      (p.parse text oldTree interrupts).value.tree.root.isError = false := by
  obtain ⟨g, a, -, founded⟩ := compiled.founded
  have closes := Run.closes_outcome (p.task text) interrupts (p.oldRoot oldTree)
  rw [value_parse] at ran unlimited ⊢
  dsimp only at ran unlimited ⊢
  generalize Run.outcome (p.task text) interrupts (p.oldRoot oldTree) = outcome
    at closes ran unlimited ⊢
  have silent : outcome.run.Unlimited := fun w hw l same =>
    unlimited w (List.mem_reverse.mpr hw) (Problem.kind_eq_limit_iff.mpr ⟨l, same⟩)
  have ofTask : (p.task text).language.Founded g a := founded
  have symbol : outcome.root.symbol = p.language.startSymbol :=
    Run.symbol_of_closes ofTask bottom closes ran silent
  refine ⟨symbol, ?_⟩
  have unreserved := founded.unreserved_of_nonterminal founded.wf.start_nonterminal
  rw [Green.isError, symbol, founded.startSymbol_eq]
  exact beq_eq_false_iff_ne.mpr fun same => absurd (same ▸ unreserved) (by decide)

/-- An `a` too few, bytes that are no token, and an edited old tree. -/
theorem nested_root_kept :
    let p : Parser := ⟨FlatGrammar.nestedLanguage, {}⟩
    let old :=
      ((p.parse #[97, 98] none .never).value.tree.edit (.replace #[97, 98] 0 1 #[98])).value
    let parsed := (p.parse #[98, 98, 63] (some old) .never).value
    p.language.hasActions 0 Symbol.endOfText = true ∧ parsed.cancelled = false ∧
      parsed.hasErrors = true ∧ parsed.tree.root.symbol = 4 := by
  intro p old parsed
  have bottom : p.language.hasActions 0 Symbol.endOfText = true := by decide
  have ran : parsed.cancelled = false := by decide +kernel
  have unlimited : ∀ w ∈ parsed.warnings, w.problem.kind ≠ "InternalLimitExceeded" := by
    decide +kernel
  exact ⟨bottom, ran, by decide +kernel, (root_keeps_kind FlatGrammar.nestedLanguage_compiled bottom
    _ (some old) .never ran unlimited).1⟩

end Parser

end Glr
