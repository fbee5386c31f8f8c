import Glr.Proofs.Built
import Glr.Proofs.Frontier

/-!
# From the first turn to the last

A parse is `Good` between two turns: some stack is live, all live stacks can be built over the text
up to the position, the cursor is inside the old tree, and nothing has been reported incomplete.  A
turn keeps that or ends the parse, and there are three ways to end (`Ending`).  A stack accepts, or
what is live is wrapped up with the rest of the text, or no stack is left to wrap up.

The last one is no way that a parse is meant to end, and it is the reason that the three are kept
apart here.
-/

namespace Glr

namespace Run

variable {task : ParseTask} {old : Option Green} {r r' : Run} {la : Lookahead}

/-- What holds between two turns. -/
structure Good (task : ParseTask) (old : Option Green) (r : Run) : Prop where
  built : ∀ s ∈ r.live, Built task old r.position.offset s.entries
  alive : r.live ≠ []
  inside : r.reuse.Inside old
  quiet : ∀ w ∈ r.warnings, w.problem ≠ .incomplete

theorem Good.keeps (good : r.Good task old) (keeps : Keeps r r') : r'.Good task old where
  built s hs := by
    rw [keeps.position]
    exact good.built s (keeps.live ▸ hs)
  alive := keeps.live ▸ good.alive
  inside := keeps.inside good.inside
  quiet := keeps.quiet good.quiet

/-- The root and the state that a parse ends with. -/
inductive Ending (task : ParseTask) (old : Option Green) : Green → Run → Prop where
  | accepted {s : Stack} {la : Lookahead} {r : Run} (ahead : Ahead task old la)
      (atEnd : la.token.isEnd = true) (built : Built task old la.start.offset s.entries)
      (accepts : .accept ∈ task.language.actions s.state la.token.symbol)
      (quiet : ∀ w ∈ r.warnings, w.problem ≠ .incomplete) :
      Ending task old (accept task.language s).value r
  | wrapped {r : Run} {problem : Problem}
      (built : ∀ s ∈ r.live, Built task old r.position.offset s.entries) (alive : r.live ≠ []) :
      Ending task old (r.wrapRemains task problem).1 (r.wrapRemains task problem).2
  | stranded {r : Run} {entries : List StackEntry} (none : r.live = [])
      (built : Built task old r.position.offset entries) :
      Ending task old (r.abandon task).1 (r.abandon task).2

/-! ## What remains -/

/-- The nodes of the best live stack. -/
def standing (live : List Stack) : List Green :=
  match Frontier.best? live with
  | some s => s.nodes
  | none => []

theorem remains_eq : r.remains task =
    if min r.position.offset task.text.size < task.text.size then
      standing r.live ++ [Repair.errorLeaf
        (task.text.extract (min r.position.offset task.text.size) task.text.size)]
    else standing r.live := rfl

/-- What remains at the end is a node of a live stack, or the rest of the text. -/
theorem mem_remains {c : Green} (h : c ∈ r.remains task) :
    (∃ s ∈ r.live, ∃ e ∈ s.entries, e.node = c) ∨ ∃ text, c = Repair.errorLeaf text := by
  have ofStack : ∀ c ∈ standing r.live, ∃ s ∈ r.live, ∃ e ∈ s.entries, e.node = c := by
    intro c hc
    rw [standing] at hc
    split at hc
    · next s best =>
      obtain ⟨e, he, same⟩ := List.mem_map.mp (List.mem_reverse.mp hc)
      exact ⟨s, Frontier.mem_of_best? best, e, he, same⟩
    · exact absurd hc List.not_mem_nil
  rw [remains_eq] at h
  split at h
  · rcases List.mem_append.mp h with h | h
    · exact Or.inl (ofStack c h)
    · exact Or.inr ⟨_, List.mem_singleton.mp h⟩
  · exact Or.inl (ofStack c h)

/-! ## Going on and ending -/

/-- A parse goes on well or ends. -/
def GoesWell (task : ParseTask) (old : Option Green) : Flow → Prop
  | .more r => r.Good task old
  | .done root r => Ending task old root r

theorem good_start (old : Option Green) :
    (start (match old with
      | some root => ReuseCursor.ofTree root
      | none => ReuseCursor.exhausted)).Good task old where
  built s hs := by
    rw [List.mem_singleton.mp hs]
    exact .start
  alive := List.cons_ne_nil _ _
  inside := by
    cases old with
    | none => exact ReuseCursor.inside_exhausted
    | some root => exact ReuseCursor.inside_ofTree root
  quiet := fun _ h => absurd h List.not_mem_nil

/-! ## The token ahead -/

theorem reusableLeaf_spec {l : Language} (h : r.reuse.Inside old) :
    (r.reusableLeaf l).2.reuse.Inside old ∧
      (r.reusableLeaf l).2 = { r with reuse := (r.reusableLeaf l).2.reuse } ∧
      ∀ leaf, (r.reusableLeaf l).1 = some leaf →
        (∃ root ∈ old, root.Holds r.position.offset leaf) ∧ leaf.isLeaf = true ∧
          0 < leaf.length ∧ leaf.isDamaged = false ∧ leaf.hasError = false := by
  rw [reusableLeaf]
  split
  · refine ⟨ReuseCursor.inside_seek _ h, rfl, fun leaf found => ?_⟩
    rw [Option.filter_eq_some_iff] at found
    obtain ⟨found, usable⟩ := found
    obtain ⟨g, hg, first⟩ := Option.bind_eq_some_iff.mp found
    obtain ⟨root, hroot, held⟩ := ReuseCursor.holds_of_seek h hg
    obtain ⟨held, isLeaf, nonempty⟩ := Green.holds_firstLeaf g held first
    simp only [Bool.and_eq_true, Bool.not_eq_true'] at usable
    exact ⟨⟨root, hroot, held⟩, isLeaf, nonempty, usable.1.1.1, usable.1.1.2⟩
  · exact ⟨h, rfl, fun _ found => nomatch found⟩

/-- Stacks that share a mode lex with the terminals of that. -/
theorem lexSet_spec (l : Language) (live : List Stack) :
    (lexSet l live).2 = LexMode.union ∨
      (lexSet l live).1 = l.validSet (lexSet l live).2 := by
  rw [lexSet]
  split
  · exact Or.inr rfl
  · exact Or.inl rfl

/-- Reading ahead moves nothing but the cursor. -/
theorem lookahead_spec (good : r.Good task old) :
    Ahead task old (r.lookahead task).1 ∧
      (r.lookahead task).1.start = (r.lookahead task).2.position ∧
      (r.lookahead task).2.Good task old := by
  obtain ⟨inside, same, found⟩ := reusableLeaf_spec (l := task.language) good.inside
  rw [lookahead]
  generalize hleaf : (r.reusableLeaf task.language) = result at inside same found ⊢
  obtain ⟨leaf, r'⟩ := result
  dsimp only at inside same found
  have good' : r'.Good task old := by
    rw [same]
    exact ⟨good.built, good.alive, inside, good.quiet⟩
  have position : r'.position = r.position := by rw [same]
  cases leaf with
  | none =>
    exact ⟨.lexed r'.position _ _ (lexSet_spec _ _), rfl, good'.built, good'.alive, good'.inside,
      good'.quiet⟩
  | some leaf =>
    obtain ⟨held, isLeaf, nonempty, undamaged, correct⟩ := found leaf rfl
    rw [← position] at held
    exact ⟨.reused held isLeaf nonempty undamaged correct, rfl, good'.built, good'.alive,
      good'.inside, good'.quiet⟩

/-! ## Extras -/

/-- The state that the leaf of an extra is made for. -/
def firstState (r : Run) : Nat :=
  match r.live with
  | s :: _ => s.state
  | [] => 0

/-- A token pushed on every stack as an extra. -/
theorem good_shiftExtra (cost : Nat) (ahead : Ahead task old la) (good : r.Good task old)
    (here : la.start = r.position) (free : la.token.isError = true ∨ la.token.isEnd = false) :
    (r.shiftExtra la cost).Good task old := by
  have keeps := Keeps.makeLeaf (r := r) la r.firstState
    { NodeFlags.onlyExtra with fragile := r.live.length > 1 }
  refine ⟨fun s hs => ?_, fun nil => ?_, ?_, ?_⟩
  · obtain ⟨t, ht, rfl⟩ := List.mem_map.mp hs
    exact .extra r _ _ ahead (here ▸ good.built t (keeps.live ▸ ht)) free
  · exact good.alive (keeps.live ▸ List.map_eq_nil_iff.mp nil)
  · exact keeps.inside good.inside
  · exact keeps.quiet good.quiet

theorem good_takeUnknown {text : Text} (ahead : Ahead task old la) (good : r.Good task old)
    (here : la.start = r.position) (wrong : la.token.isError = true) :
    (r.takeUnknown text la).Good task old := by
  refine good_shiftExtra Repair.skipCost ahead (good.keeps ?_) here (Or.inl wrong)
  exact .noteRepair (by simp) _

/-! ## Shifts -/

theorem good_watchAmbiguity {config : ParserConfig} (good : r.Good task old) :
    (r.watchAmbiguity config).Good task old := by
  rw [watchAmbiguity]
  split
  · split
    · have reported := good.keeps (.report (.ambiguity config.maxAmbiguityDepth))
      exact ⟨fun s hs => reported.built s (Frontier.mem_of_mem_collapse hs),
        Frontier.collapse_ne_nil reported.alive, reported.inside, reported.quiet⟩
    · exact ⟨good.built, good.alive, good.inside, good.quiet⟩
  · exact ⟨good.built, good.alive, good.inside, good.quiet⟩

/-- Thinning out the stacks changes none of them. -/
theorem good_settle {config : ParserConfig} (good : r.Good task old) :
    (r.settle config).Good task old := by
  have fresh : ∀ s ∈ r.live.map fun s => { s with forked := false },
      Built task old r.position.offset s.entries := by
    intro s hs
    obtain ⟨t, ht, rfl⟩ := List.mem_map.mp hs
    exact good.built t ht
  have some : (r.live.map fun s => { s with forked := false }) ≠ [] :=
    fun nil => good.alive (List.map_eq_nil_iff.mp nil)
  rw [settle]
  dsimp only
  generalize hlive : (r.live.map fun s : Stack => { s with forked := false }) = live at fresh some ⊢
  have pruned : Good task old
      { r with live := Frontier.prune (Frontier.merge live) config.maxStacks } :=
    ⟨fun s hs => fresh s (Frontier.mem_of_mem_merge (Frontier.mem_of_mem_prune hs)),
      Frontier.prune_ne_nil (Frontier.merge_ne_nil some), good.inside, good.quiet⟩
  have reported : Good task old
      (if Frontier.isCrowded (Frontier.merge live) config.maxStacks then
        { r with live := Frontier.prune (Frontier.merge live) config.maxStacks }.report
          (.parallel config.maxStacks)
      else { r with live := Frontier.prune (Frontier.merge live) config.maxStacks }) := by
    split
    · exact pruned.keeps (.report _)
    · exact pruned
  exact good_watchAmbiguity
    ⟨reported.built, reported.alive, reported.inside, reported.quiet⟩

section Shifts

variable {shifts : List (Stack × StateId)} (ahead : Ahead task old la)
  (known : ∀ m ∈ shifts, Built task old la.start.offset m.1.entries ∧
    .shift m.2 ∈ task.language.actions m.1.state la.token.symbol)
  (inside : r.reuse.Inside old) (quiet : ∀ w ∈ r.warnings, w.problem ≠ .incomplete)

include ahead known inside quiet

theorem good_pushToken (some : shifts ≠ []) : (r.pushToken la shifts).Good task old := by
  refine ⟨fun s hs => ?_, fun nil => ?_, ?_, ?_⟩
  · obtain ⟨⟨t, target⟩, ht, rfl⟩ := List.mem_map.mp hs
    obtain ⟨built, action⟩ := known _ ht
    exact .shift r _ _ ahead built action
  · exact some (List.map_eq_nil_iff.mp nil)
  · exact (Keeps.makeLeaf la _ _).inside inside
  · exact (Keeps.makeLeaf la _ _).quiet quiet

omit ahead quiet in
/-- A subtree is found for a stack that could shift the token as well. -/
theorem subtree_spec :
    (r.subtree task.language la shifts).2.reuse.Inside old ∧
      (r.subtree task.language la shifts).2 =
        { r with reuse := (r.subtree task.language la shifts).2.reuse } ∧
      ∀ s g target, (r.subtree task.language la shifts).1 = some (s, g, target) →
        Built task old la.start.offset s.entries ∧
          Fitting task.language old s.state la.start.offset g target := by
  rw [subtree.eq_def]
  split
  · next s target =>
    split
    · exact ⟨inside, rfl, fun _ _ _ h => nomatch h⟩
    · obtain ⟨inside', fitting⟩ := reusableNode_fitting task.language s.state la.start.offset inside
      dsimp only
      refine ⟨inside', rfl, fun s' g target' same => ?_⟩
      obtain ⟨⟨g', target''⟩, found, same⟩ := Option.map_eq_some_iff.mp same
      cases same
      exact ⟨(known _ (List.mem_singleton_self _)).1, fitting _ _ found⟩
  · exact ⟨inside, rfl, fun _ _ _ h => nomatch h⟩

theorem good_shiftAll (some : shifts ≠ []) : (r.shiftAll task la shifts).Good task old := by
  obtain ⟨inside', same, fitting⟩ := subtree_spec known
    (r := { r with recovery.skipped := 0 }) inside
  rw [shiftAll]
  dsimp only
  generalize subtree task.language { r with recovery.skipped := 0 } la shifts = result
    at inside' same fitting ⊢
  obtain ⟨found, r'⟩ := result
  dsimp only at inside' same fitting
  have quiet' : ∀ w ∈ r'.warnings, w.problem ≠ .incomplete := by
    rw [same]
    exact quiet
  cases found with
  | none => exact good_settle (good_pushToken ahead known inside' quiet' some)
  | some m =>
    obtain ⟨s, g, target⟩ := m
    obtain ⟨built, fitting⟩ := fitting s g target rfl
    refine good_settle ⟨fun t ht => ?_, List.cons_ne_nil _ _, inside', quiet'⟩
    rw [List.mem_singleton.mp ht]
    exact .subtree ahead built fitting

end Shifts

/-! ## Repairs -/

section Repairs

variable {s : Stack} (ahead : Ahead task old la)
  (built : Built task old la.start.offset s.entries) (here : la.start = r.position)
  (inside : r.reuse.Inside old) (quiet : ∀ w ∈ r.warnings, w.problem ≠ .incomplete)

include built inside quiet

omit built in
theorem goesWell_resume (built : Built task old r.position.offset s.entries) :
    GoesWell task old (resume r s) := by
  refine ⟨fun t ht => ?_, List.cons_ne_nil _ _, inside, quiet⟩
  rw [List.mem_singleton.mp ht]
  exact built

include ahead in
theorem goesWell_sealRest : GoesWell task old (sealRest task la s r) := by
  rw [sealRest]
  generalize hspan : Span.ofLengthChecked la.start.offset _ = span
  have noted : Keeps r ((r.noting span).noteRepair (.gaveUp r.recovery.skipped) span.value) :=
    (Keeps.noting span).trans (.noteRepair (by simp) span.value)
  refine goesWell_resume ?_ ?_ (.rest Repair.skipCost ahead built rfl)
  · exact noted.inside inside
  · exact noted.quiet quiet

include ahead in
theorem goesWell_skipToken (notEnd : la.token.isEnd = false) :
    GoesWell task old (skipToken task.language la s r) := by
  have counted : Keeps r { r with recovery.skipped := r.recovery.skipped + 1 } :=
    ⟨rfl, rfl, rfl, fun _ h => Or.inl h⟩
  have noted : Keeps r (noteRepair { r with recovery.skipped := r.recovery.skipped + 1 }
      (.skipped (task.language.symbolName la.token.symbol)) la.token.span) :=
    counted.trans (.noteRepair (by simp) _)
  have keeps := noted.trans (.makeLeaf la s.state NodeFlags.none)
  refine goesWell_resume ?_ ?_ (.skip _ s.state Repair.skipCost ahead built notEnd)
  · exact keeps.inside inside
  · exact keeps.quiet quiet

include ahead here in
theorem goesWell_giveWay : GoesWell task old (giveWay task la s r) := by
  rw [giveWay]
  split
  · obtain ⟨keeps, wrapped⟩ := tryWrap_mends task la s s.depth r
    split
    · next repaired r' eq =>
      rw [eq] at keeps wrapped
      refine goesWell_resume (keeps.inside inside) (keeps.quiet quiet) ?_
      rw [keeps.position, ← here]
      exact built_of_mends ahead built (wrapped repaired rfl)
    · next r' eq =>
      rw [eq] at keeps
      refine Ending.wrapped (r := countRecovered { r' with live := [s] }) (fun t ht => ?_)
        (List.cons_ne_nil _ _)
      rw [List.mem_singleton.mp ht]
      show Built task old r'.position.offset s.entries
      rw [keeps.position, ← here]
      exact built
  · split
    · exact goesWell_sealRest ahead built inside quiet
    · next notEnd _ =>
      exact goesWell_skipToken ahead built inside quiet (Bool.eq_false_iff.mpr notEnd)

end Repairs

theorem goesWell_recover {failed : List Stack} {entries : List StackEntry}
    (ahead : Ahead task old la) (here : la.start = r.position) (none : r.live = [])
    (inside : r.reuse.Inside old) (quiet : ∀ w ∈ r.warnings, w.problem ≠ .incomplete)
    (before : Built task old la.start.offset entries)
    (known : ∀ s ∈ failed, Built task old la.start.offset s.entries) :
    GoesWell task old (r.recover task la failed) := by
  rw [recover]
  split
  · exact .stranded none (here ▸ before)
  · next s best =>
    have built := known s (Frontier.mem_of_best? best)
    have placed : Keeps r (r.atPlace la.start.offset) := by
      rw [atPlace]
      split
      · exact .refl r
      · exact ⟨rfl, rfl, rfl, fun _ h => Or.inl h⟩
    obtain ⟨keeps, repaired⟩ := tryInPlace_mends task la s (r.atPlace la.start.offset)
    have keeps := placed.trans keeps
    split
    · next s' r' eq =>
      rw [eq] at keeps repaired
      refine goesWell_resume (keeps.inside inside) (keeps.quiet quiet) ?_
      rw [keeps.position, ← here]
      exact built_of_mends ahead built (repaired s' rfl)
    · next r' eq =>
      rw [eq] at keeps
      exact goesWell_giveWay ahead built (keeps.position ▸ here) (keeps.inside inside)
        (keeps.quiet quiet)

/-! ## Turns -/

theorem goesWell_step (ahead : Ahead task old la) (good : r.Good task old)
    (here : la.start = r.position) : GoesWell task old (r.step task la) := by
  rw [step]
  split
  · next wrong => exact good_takeUnknown ahead good here wrong
  · split
    · next free =>
      refine good_shiftExtra 0 ahead good here (Or.inr ?_)
      simp only [isPlainExtra, Bool.and_eq_true, Bool.not_eq_true'] at free
      exact free.1.1
    · obtain ⟨s, hs⟩ := List.exists_mem_of_ne_nil _ good.alive
      obtain ⟨sound, keeps⟩ := reduceAll_sound ahead (r := r) fun s hs => here ▸ good.built s hs
      generalize r.reduceAll task la = result at sound keeps ⊢
      obtain ⟨phase, r'⟩ := result
      dsimp only at sound keeps ⊢
      have inside := keeps.inside good.inside
      have quiet := keeps.quiet good.quiet
      split
      · next s found =>
        split at found
        · next atEnd =>
          obtain ⟨built, accepts⟩ := sound.accepted s (Frontier.mem_of_best? found)
          exact .accepted ahead atEnd built accepts quiet
        · cases found
      · split
        · exact goesWell_recover ahead (here.trans keeps.position.symm) keeps.live inside quiet
            (here ▸ good.built s hs) sound.failed
        · next some =>
          refine good_shiftAll ahead sound.shifts inside quiet fun nil => ?_
          rw [nil] at some
          exact some rfl

theorem goesWell_turn (good : r.Good task old) : GoesWell task old (r.turn task) := by
  obtain ⟨ahead, here, good'⟩ := lookahead_spec good
  exact goesWell_step ahead good' here

/-- A parse ends in one of the three ways. -/
theorem ending_loop (interrupts : Interrupts) :
    ∀ (fuel turns : Nat) {r : Run}, r.Good task old →
      Ending task old (loop task interrupts fuel turns r).root
        (loop task interrupts fuel turns r).run := by
  intro fuel
  induction fuel with
  | zero =>
    intro turns r good
    rw [loop.eq_def]
    dsimp only
    split
    · exact .wrapped good.built good.alive
    · have reported := (Keeps.report (r := r) (.steps (task.config.stepBudget task.text.size))).trans
        (.noting (Checked.demand (task.config.stepBudget task.text.size < ParserConfig.largestCount)))
      have good' := good.keeps reported
      exact .wrapped (r := countRecovered (noting (r.report _) _)) good'.built good'.alive
  | succ fuel ih =>
    intro turns r good
    rw [loop.eq_def]
    dsimp only
    split
    · exact .wrapped good.built good.alive
    · have well := goesWell_turn good
      split
      · next root r' eq =>
        rw [eq] at well
        exact well
      · next r' eq =>
        rw [eq] at well
        exact ih (turns + 1) well

theorem ending_outcome (task : ParseTask) (interrupts : Interrupts) (old : Option Green) :
    Ending task old (outcome task interrupts old).root (outcome task interrupts old).run := by
  unfold outcome
  exact ending_loop interrupts _ 0 (good_start old)

end Run

namespace Parser

/-- The task of a parse. -/
def task (p : Parser) (text : Text) : ParseTask := ⟨p.language, p.config, text⟩

/-- The old root is that of the old tree. -/
theorem exists_of_mem_oldRoot {p : Parser} {old : Option Tree} {root : Green}
    (h : root ∈ p.oldRoot old) : ∃ t ∈ old, t.root = root := by
  obtain ⟨t, ht, same⟩ := Option.map_eq_some_iff.mp h
  exact ⟨t, (Option.filter_eq_some_iff.mp ht).1, same⟩

theorem tree_parse (p : Parser) (text : Text) (old : Option Tree) (interrupts : Interrupts) :
    (p.parse text old interrupts).value.tree =
      ⟨(Run.outcome (p.task text) interrupts (p.oldRoot old)).root, p.language⟩ := rfl

theorem value_parse (p : Parser) (text : Text) (old : Option Tree) (interrupts : Interrupts) :
    (p.parse text old interrupts).value =
      let outcome := Run.outcome (p.task text) interrupts (p.oldRoot old)
      { tree := ⟨outcome.root, p.language⟩
        warnings := outcome.run.warnings.reverse
        metrics := outcome.run.metrics
        cancelled := outcome.cancelled } := by
  simp only [parse, task, Checked.value_bind, Checked.value_pure]

end Parser

end Glr
