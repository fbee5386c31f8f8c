import Glr.Proofs.Reparse
import Glr.Proofs.TextEnd

/-!
# A parse gets on

Recovery keeps two counts, and forgets them at different places: the repairs made where the parse
is, when it is anywhere else, and the tokens skipped, when one is shifted.  What the counts say of a
parse is said here of its turns (`Run.History`): the state counts the skips since the last shift,
and no fewer repairs than were made where it is (`Run.Tallied`).

So at each place before the end the turns are repairs up to the last, which moves on, and they are
limited in number, and so are the tokens that are skipped between two shifts (`Orderly`).  The
number of all turns before the end is then limited too, and the budget for all turns is larger than
that, or as large as a word can count.  In the first case it is not used up before the end, and in
the second the count of the turns would overflow first: so it never stops a parse that gives a
result (`Parser.recovery_progresses`).
-/

namespace Glr

/-! ## Languages built from a grammar -/

namespace Language.Compiled

variable {l : Language} {G : Grammar}

/-- A grammar defines no token for the end of the text. -/
theorem reservesEnd (compiled : l.Compiled G) : l.tables.ReservesEnd := by
  obtain ⟨g, a, -, founded⟩ := compiled.founded
  intro d hd isEnd
  have unreserved := (founded.wf.token d (founded.tab.lexical.1 ▸ hd)).1
  rw [isEnd] at unreserved
  cases unreserved

end Language.Compiled

theorem Green.Measured.endsEmpty {g : Green} (measured : g.Measured) : g.EndsEmpty := by
  induction measured with
  | intro _ _ symbol ih => exact .intro ih fun _ isEnd => absurd isEnd symbol

/-! ## Turns -/

/-- A turn of a parse: the place where it starts, what it does, and the place it leads to. -/
structure Turn where
  start : Nat
  deed : Deed
  stop : Nat

/-- The number of tokens skipped since the last shift.  Here and in all that follows the latest turn
comes first. -/
def skipsSince (turns : List Turn) : Nat :=
  (turns.takeWhile (·.deed ≠ .shift)).countP (·.deed = .skip)

/-- The turns that start at a place. -/
def turnsAt (turns : List Turn) (q : Nat) : List Turn := turns.filter (·.start = q)

theorem skipsSince_cons (t : Turn) (turns : List Turn) : skipsSince (t :: turns) =
    if t.deed = .shift then 0
    else if t.deed = .skip then skipsSince turns + 1 else skipsSince turns := by
  unfold skipsSince
  by_cases shifts : t.deed = .shift
  · rw [if_pos shifts, List.takeWhile_cons_of_neg (by simpa using shifts)]
    rfl
  · rw [if_neg shifts, List.takeWhile_cons_of_pos (by simpa using shifts), List.countP_cons]
    by_cases skips : t.deed = .skip <;> simp [skips]

theorem turnsAt_cons_self {t : Turn} {turns : List Turn} {q : Nat} (here : t.start = q) :
    turnsAt (t :: turns) q = t :: turnsAt turns q :=
  List.filter_cons_of_pos (decide_eq_true here)

theorem turnsAt_cons_of_ne {t : Turn} {turns : List Turn} {q : Nat} (elsewhere : t.start ≠ q) :
    turnsAt (t :: turns) q = turnsAt turns q :=
  List.filter_cons_of_neg (by simpa using elsewhere)

/-- The turns of a parse keep to the limits of recovery.  Each starts where the one before has led.
Before the end of the text a repair stays where it is and all else but the end of the parse moves
on, and at each place the turns are few and repairs up to the last.  The tokens skipped since the
last shift are never more than allowed, and all the rest of the text is one error just where they
are as many. -/
structure Orderly (task : ParseTask) (turns : List Turn) : Prop where
  joined : turns.IsChain fun later earlier => later.start = earlier.stop
  stays : ∀ t ∈ turns, t.deed = .repair → t.stop = t.start
  moves : ∀ t ∈ turns, t.start < task.text.size → t.deed ≠ .repair → t.deed ≠ .finish →
    t.start < t.stop
  few : ∀ q < task.text.size, (turnsAt turns q).length ≤ task.config.maxRecoveryAttempts + 1
  repairs : ∀ q < task.text.size, ∀ t ∈ (turnsAt turns q).tail, t.deed = .repair
  skips : ∀ earlier, earlier <:+ turns → skipsSince earlier ≤ task.config.maxSkipTokens
  seals : ∀ t earlier, t :: earlier <:+ turns → t.deed = .sealRest →
    skipsSince earlier = task.config.maxSkipTokens ∧
      (task.text.size ≤ Size.largest → t.stop = max t.start task.text.size)

namespace Orderly

variable {task : ParseTask} {turns : List Turn}

theorem nil (task : ParseTask) : Orderly task [] where
  joined := .nil
  stays _ h := absurd h List.not_mem_nil
  moves _ h := absurd h List.not_mem_nil
  few _ _ := Nat.zero_le _
  repairs _ _ _ h := absurd h List.not_mem_nil
  skips earlier h := by
    rw [List.suffix_nil.mp h]
    exact Nat.zero_le _
  seals t earlier h := by cases List.suffix_nil.mp h

/-- One more turn keeps to the limits if what is before it at its place and since the last shift
leaves room for it. -/
theorem cons (orderly : Orderly task turns) {t : Turn}
    (joined : ∀ u ∈ turns.head?, t.start = u.stop)
    (stays : t.deed = .repair → t.stop = t.start)
    (moves : t.start < task.text.size → t.deed ≠ .repair → t.deed ≠ .finish → t.start < t.stop)
    (few : t.start < task.text.size →
      (turnsAt turns t.start).length ≤ task.config.maxRecoveryAttempts)
    (repairs : t.start < task.text.size → ∀ u ∈ turnsAt turns t.start, u.deed = .repair)
    (skips : t.deed = .skip → skipsSince turns < task.config.maxSkipTokens)
    (seals : t.deed = .sealRest → task.config.maxSkipTokens ≤ skipsSince turns ∧
      (task.text.size ≤ Size.largest → t.stop = max t.start task.text.size)) :
    Orderly task (t :: turns) := by
  have most := orderly.skips turns List.suffix_rfl
  refine ⟨List.isChain_cons.mpr ⟨joined, orderly.joined⟩,
    List.forall_mem_cons.mpr ⟨stays, orderly.stays⟩,
    List.forall_mem_cons.mpr ⟨moves, orderly.moves⟩,
    fun q before => ?_, fun q before => ?_, fun earlier h => ?_, fun u earlier h sealed => ?_⟩
  · by_cases here : t.start = q
    · subst here
      rw [turnsAt_cons_self rfl, List.length_cons]
      exact Nat.succ_le_succ (few before)
    · rw [turnsAt_cons_of_ne here]
      exact orderly.few q before
  · by_cases here : t.start = q
    · subst here
      rw [turnsAt_cons_self rfl, List.tail_cons]
      exact repairs before
    · rw [turnsAt_cons_of_ne here]
      exact orderly.repairs q before
  · rcases List.suffix_cons_iff.mp h with rfl | h
    · rw [skipsSince_cons]
      split
      · exact Nat.zero_le _
      · split
        · next skipped => exact skips skipped
        · exact most
    · exact orderly.skips earlier h
  · rcases List.suffix_cons_iff.mp h with same | h
    · cases same
      obtain ⟨many, stop⟩ := seals sealed
      exact ⟨Nat.le_antisymm most many, stop⟩
    · exact orderly.seals u earlier h sealed

end Orderly

/-- The budget for all turns is larger than what the repairs and the moves before the end of a text
need, as long as it is one that can be exceeded. -/
theorem ParserConfig.lt_stepBudget (c : ParserConfig) {size : Nat}
    (counted : c.stepBudget size < largestCount) :
    (c.maxRecoveryAttempts + 1) * size < c.stepBudget size := by
  have larger : (c.maxRecoveryAttempts + 1) * size ≤
      (size + 1) * (max c.maxRecoveryAttempts 2 + 2) := by
    rw [Nat.mul_comm]
    exact Nat.mul_le_mul (Nat.le_succ _) (by omega)
  rw [stepBudget] at counted ⊢
  omega

namespace Run

variable {task : ParseTask} {old : Option Green} {r r' : Run} {turns : List Turn} {la : Lookahead}

/-- The turns that lead to a state. -/
inductive History (task : ParseTask) (old : Option Green) : List Turn → Run → Prop where
  | initial : History task old [] (initial old)
  | turn {turns : List Turn} {r r' : Run} {d : Deed} (before : History task old turns r)
      (more : r.turn task = .more r')
      (does : Does task (r.lookahead task).1 (r.lookahead task).2 d r') :
      History task old (⟨r.position.offset, d, r'.position.offset⟩ :: turns) r'

/-- The turns of a parse that is not cancelled.  It ends in a turn, or when it has taken as many as
its budget allows. -/
inductive Completes (task : ParseTask) (old : Option Green) : List Turn → Outcome → Prop where
  | done {turns : List Turn} {r r' : Run} {root : Green} (before : History task old turns r)
      (done : r.turn task = .done root r') :
      Completes task old (⟨r.position.offset, .finish, r.position.offset⟩ :: turns)
        ⟨root, r', false⟩
  | exceeded {turns : List Turn} {r : Run} (before : History task old turns r)
      (spent : turns.length = task.config.stepBudget task.text.size) :
      Completes task old turns (r.exceed task)

theorem History.reached (history : History task old turns r) :
    ∃ tokens, Reached task old tokens r ∧
      tokens.map (·.start.offset) = turns.map (·.start) := by
  induction history with
  | initial => exact ⟨[], .initial, rfl⟩
  | @turn turns r r' d before more does ih =>
    obtain ⟨tokens, reached, same⟩ := ih
    have here := (lookahead_spec reached.good).2.1.trans (Steady.lookahead task r).position
    exact ⟨_, .turn reached more, by rw [List.map_cons, List.map_cons, same, here]⟩

/-- A parse that is not cancelled has its turns. -/
theorem completes_loop (interrupts : Interrupts) :
    ∀ (fuel n : Nat) {r : Run} {turns : List Turn}, History task old turns r →
      turns.length + fuel = task.config.stepBudget task.text.size →
      (loop task interrupts fuel n r).cancelled = false →
      ∃ turns, Completes task old turns (loop task interrupts fuel n r) := by
  intro fuel
  induction fuel with
  | zero =>
    intro n r turns history spent
    rw [loop.eq_def]
    dsimp only
    split
    · exact fun ran => by cases ran
    · exact fun _ => ⟨turns, .exceeded history spent⟩
  | succ fuel ih =>
    intro n r turns history spent
    rw [loop.eq_def]
    dsimp only
    split
    · exact fun ran => by cases ran
    · split
      · next root r' done => exact fun _ => ⟨_, .done history done⟩
      · next r' more =>
        obtain ⟨d, does⟩ := does_of_turn more
        refine ih (n + 1) (.turn history more does) ?_
        rw [List.length_cons, ← spent]
        omega

theorem completes_outcome {interrupts : Interrupts}
    (ran : (outcome task interrupts old).cancelled = false) :
    ∃ turns, Completes task old turns (outcome task interrupts old) := by
  have completes := completes_loop interrupts (task.config.stepBudget task.text.size) 0
    (.initial : History task old [] (Run.initial old))
    (by rw [List.length_nil, Nat.zero_add])
  exact completes ran

/-- A parse that ends with its budget used up has counted the turn that finds it so. -/
theorem counted_of_exceed (fits : (r.exceed task).run.fits = true) :
    task.config.stepBudget task.text.size < ParserConfig.largestCount := by
  simp only [exceed, abandon, wrapRemains, warn, countRecovered, noting, Checked.demand,
    Bool.and_eq_true, decide_eq_true_eq] at fits
  exact fits.1.2

/-! ## The counts -/

section Does

variable {d : Deed}

theorem skipped_lt_of_does (does : Does task la r .skip r') :
    r.recovery.skipped < task.config.maxSkipTokens := by
  cases does with
  | skip yields few skipped => exact skipped_of_tried yields.unrepaired ▸ few

theorem le_skipped_of_does (does : Does task la r .sealRest r') :
    task.config.maxSkipTokens ≤ r.recovery.skipped := by
  cases does with
  | sealRest yields many sealed => exact skipped_of_tried yields.unrepaired ▸ many

/-- When the rest of the text is made one error, the parse is at the end. -/
theorem stop_of_sealRest (does : Does task la r .sealRest r')
    (small : task.text.size ≤ Size.largest) :
    r'.position.offset = max la.start.offset task.text.size := by
  cases does with
  | sealRest yields many sealed =>
    cases sealed
    show la.start.offset + (Repair.errorLeaf (task.text.extract
      (min la.start.offset task.text.size) task.text.size)).length =
        max la.start.offset task.text.size
    rw [Repair.length_errorLeaf, Size.ofText, Array.size_extract]
    omega

end Does

/-- What the turns so far say of the state that they lead to. -/
structure Tallied (task : ParseTask) (turns : List Turn) (r : Run) : Prop where
  led : ∀ t ∈ turns.head?, t.stop = r.position.offset
  skipped : r.recovery.skipped = skipsSince turns
  behind : r.position.offset < task.text.size → ∀ t ∈ turns, t.start ≤ r.position.offset
  spent : r.position.offset < task.text.size →
    (turnsAt turns r.position.offset).length ≤ r.spent
  repaired : r.position.offset < task.text.size →
    ∀ t ∈ turnsAt turns r.position.offset, t.deed = .repair
  left : ∀ q < task.text.size, q ≠ r.position.offset →
    ∀ t ∈ (turnsAt turns q).head?, q < t.stop

theorem tallied_initial (task : ParseTask) (old : Option Green) :
    Tallied task [] (initial old) where
  led _ h := by cases h
  skipped := rfl
  behind _ _ h := absurd h List.not_mem_nil
  spent _ := Nat.zero_le _
  repaired _ _ h := absurd h List.not_mem_nil
  left _ _ _ _ h := by cases h

section Turn

variable {d : Deed} (tallied : Tallied task turns r)
  (does : Does task (r.lookahead task).1 (r.lookahead task).2 d r')

include tallied

theorem Tallied.skipped_cons
    (does : Does task (r.lookahead task).1 (r.lookahead task).2 d r') :
    r'.recovery.skipped = skipsSince (⟨r.position.offset, d, r'.position.offset⟩ :: turns) := by
  rw [skipped_of_does does, skipsSince_cons, ← tallied.skipped,
    (Steady.lookahead task r).recovery]

/-- A repair is one more turn where the parse is. -/
theorem Tallied.stays (does : Does task (r.lookahead task).1 (r.lookahead task).2 d r')
    (repairs : d = .repair) (stays : Stays task r r') :
    Tallied task (⟨r.position.offset, d, r'.position.offset⟩ :: turns) r' where
  led t h := by cases h; rfl
  skipped := tallied.skipped_cons does
  behind before := by
    rw [stays.same] at before ⊢
    exact List.forall_mem_cons.mpr ⟨Nat.le_refl _, tallied.behind before⟩
  spent before := by
    rw [stays.same] at before ⊢
    rw [turnsAt_cons_self rfl, List.length_cons, stays.spent_eq]
    exact Nat.succ_le_succ (tallied.spent before)
  repaired before := by
    rw [stays.same] at before ⊢
    rw [turnsAt_cons_self rfl]
    exact List.forall_mem_cons.mpr ⟨repairs, tallied.repaired before⟩
  left q before elsewhere := by
    rw [stays.same] at elsewhere ⊢
    rw [turnsAt_cons_of_ne (Ne.symm elsewhere)]
    exact tallied.left q before elsewhere

/-- All else leaves the place, and no turn has started at the new one. -/
theorem Tallied.passes (does : Does task (r.lookahead task).1 (r.lookahead task).2 d r')
    (passes : Passes task r r') :
    Tallied task (⟨r.position.offset, d, r'.position.offset⟩ :: turns) r' := by
  have back (before' : r'.position.offset < task.text.size) :
      r.position.offset < task.text.size :=
    Nat.lt_of_not_le fun after => absurd (passes.behind after) (Nat.not_le_of_lt before')
  have new (before' : r'.position.offset < task.text.size) :
      turnsAt (⟨r.position.offset, d, r'.position.offset⟩ :: turns) r'.position.offset = [] := by
    have moved := passes.moved (back before')
    refine List.filter_eq_nil_iff.mpr (List.forall_mem_cons.mpr ⟨?_, fun t ht => ?_⟩)
    · simpa using Nat.ne_of_lt moved
    · have behind := tallied.behind (back before') t ht
      simpa using Nat.ne_of_lt (Nat.lt_of_le_of_lt behind moved)
  refine ⟨fun t h => by cases h; rfl, tallied.skipped_cons does, fun before' => ?_,
    fun before' => ?_, fun before' => ?_, fun q before elsewhere => ?_⟩
  · have moved := passes.moved (back before')
    exact List.forall_mem_cons.mpr ⟨Nat.le_of_lt moved, fun t ht =>
      Nat.le_trans (tallied.behind (back before') t ht) (Nat.le_of_lt moved)⟩
  · rw [new before']
    exact Nat.zero_le _
  · rw [new before']
    exact fun t h => absurd h List.not_mem_nil
  · by_cases here : r.position.offset = q
    · rw [turnsAt_cons_self here]
      intro t h
      cases h
      exact here ▸ passes.moved (here ▸ before)
    · rw [turnsAt_cons_of_ne here]
      exact tallied.left q before (Ne.symm here)

/-- A turn that goes on keeps to the limits. -/
theorem Tallied.goesOn (orderly : Orderly task turns)
    (allowed : r.position.offset < task.text.size → r.spent ≤ task.config.maxRecoveryAttempts)
    (here : (r.lookahead task).1.start = r.position)
    (does : Does task (r.lookahead task).1 (r.lookahead task).2 d r')
    (passes : d ≠ .repair → Passes task r r') (stays : d = .repair → Stays task r r') :
    Orderly task (⟨r.position.offset, d, r'.position.offset⟩ :: turns) := by
  have read : (r.lookahead task).2.recovery.skipped = skipsSince turns := by
    rw [(Steady.lookahead task r).recovery, tallied.skipped]
  refine orderly.cons (fun t ht => (tallied.led t ht).symm)
    (fun repairs => congrArg Position.offset (stays repairs).same)
    (fun before other _ => (passes other).moved before)
    (fun before => Nat.le_trans (tallied.spent before) (allowed before)) tallied.repaired
    (fun skips => ?_) fun seals => ?_
  · obtain rfl : d = .skip := skips
    exact read ▸ skipped_lt_of_does does
  · obtain rfl : d = .sealRest := seals
    exact ⟨read ▸ le_skipped_of_does does, fun small => here ▸ stop_of_sealRest does small⟩

/-- The turn that ends a parse keeps to the limits. -/
theorem Tallied.finishes (orderly : Orderly task turns)
    (allowed : r.position.offset < task.text.size → r.spent ≤ task.config.maxRecoveryAttempts) :
    Orderly task (⟨r.position.offset, .finish, r.position.offset⟩ :: turns) :=
  orderly.cons (fun t ht => (tallied.led t ht).symm) (fun h => by cases h)
    (fun _ _ h => absurd rfl h)
    (fun before => Nat.le_trans (tallied.spent before) (allowed before)) tallied.repaired
    (fun h => by cases h) fun h => by cases h

end Turn

section Forward

variable (forward : ∀ la, Ahead task old la → la.Forward task.text)

include forward

/-- The turns of a parse keep to the limits, and the state counts what they say. -/
theorem History.tallied (history : History task old turns r) :
    Tallied task turns r ∧ Orderly task turns := by
  induction history with
  | initial => exact ⟨tallied_initial task old, .nil task⟩
  | @turn turns r r' d before more does ih =>
    obtain ⟨tallied, orderly⟩ := ih
    obtain ⟨tokens, reached, -⟩ := before.reached
    obtain ⟨passes, stays⟩ := goesOn_of_does reached.good forward does
    have here := (lookahead_spec reached.good).2.1.trans (Steady.lookahead task r).position
    refine ⟨?_, tallied.goesOn orderly (reached.paced forward).allowed here does passes stays⟩
    by_cases repairs : d = .repair
    · exact tallied.stays does repairs (stays repairs)
    · exact tallied.passes does (passes repairs)

/-- Where the budget for all turns is used up and the turns are still counted, the parse is at the
end of the text. -/
theorem History.atEnd (history : History task old turns r)
    (spent : turns.length = task.config.stepBudget task.text.size)
    (fits : (r.exceed task).run.fits = true) : task.text.size ≤ r.position.offset := by
  refine Nat.le_of_not_lt fun before => ?_
  obtain ⟨tokens, reached, same⟩ := history.reached
  have behind := (history.tallied forward).1.behind before
  have total := (reached.paced forward).total
  have all : tokens.countP (fun la => la.start.offset < task.text.size) = turns.length := by
    rw [← List.length_map (f := Turn.start), ← same, List.length_map, List.countP_eq_length]
    intro la mem
    have started : la.start.offset ∈ turns.map Turn.start :=
      same ▸ List.mem_map_of_mem (f := fun la : Lookahead => la.start.offset) mem
    obtain ⟨t, ht, start⟩ := List.mem_map.mp started
    exact decide_eq_true (start ▸ Nat.lt_of_le_of_lt (behind t ht) before)
  rw [all, spent] at total
  exact Nat.not_lt_of_le total (task.config.lt_stepBudget (counted_of_exceed fits))

/-- In a parse that is not cancelled and counts its turns, the last turn at a place before the end
of the text moves on or ends the parse. -/
theorem Completes.orderly {outcome : Outcome} (completes : Completes task old turns outcome) :
    Orderly task turns ∧ (outcome.run.fits = true →
      ∀ q < task.text.size, ∀ t ∈ (turnsAt turns q).head?, q < t.stop ∨ t.deed = .finish) := by
  cases completes with
  | @done turns r r' root before done =>
    obtain ⟨tallied, orderly⟩ := before.tallied forward
    obtain ⟨tokens, reached, -⟩ := before.reached
    refine ⟨tallied.finishes orderly (reached.paced forward).allowed, fun _ q inside => ?_⟩
    by_cases here : r.position.offset = q
    · rw [turnsAt_cons_self here]
      intro t h
      cases h
      exact Or.inr rfl
    · rw [turnsAt_cons_of_ne here]
      exact fun t h => Or.inl (tallied.left q inside (Ne.symm here) t h)
  | @exceeded _ r before spent =>
    obtain ⟨tallied, orderly⟩ := before.tallied forward
    refine ⟨orderly, fun fits q inside t h => Or.inl (tallied.left q inside ?_ t h)⟩
    have atEnd := before.atEnd forward spent fits
    omega

/-- A parse that counts its turns ends in the last of them, or its budget ends it at the end of the
text. -/
theorem Completes.ends {outcome : Outcome} (completes : Completes task old turns outcome)
    (fits : outcome.run.fits = true) :
    (∃ t ∈ turns.head?, t.deed = .finish) ∨
      ∃ r, History task old turns r ∧ outcome = r.exceed task ∧
        task.text.size ≤ r.position.offset := by
  cases completes with
  | done before done => exact Or.inl ⟨_, rfl, rfl⟩
  | @exceeded _ r before spent => exact Or.inr ⟨r, before, rfl, before.atEnd forward spent fits⟩

end Forward

/-! ## Giving up the rest -/

/-- All the text from a place on has become one leaf.  It comes last in the error on top of the one
stack that is left. -/
structure Sealed (task : ParseTask) (start : Nat) (r : Run) : Prop where
  stop : task.text.size ≤ Size.largest → r.position.offset = max start task.text.size
  leaf : ∃ s e below, r.live = [s] ∧ s.entries = e :: below ∧ e.node.isError = true ∧
    e.node.children.getLast? = some (Repair.errorLeaf
      (task.text.extract (min start task.text.size) task.text.size))

theorem getLast?_flatten {leaf : Green} (isLeaf : leaf.isLeaf = true) (gs : List Green) :
    (Repair.flatten (gs ++ [leaf])).getLast? = some leaf := by
  have last : Repair.flatten [leaf] = [leaf] := by
    rw [Repair.flatten, isLeaf, Bool.not_true, Bool.and_false, if_neg Bool.false_ne_true]
    rfl
  induction gs with
  | nil => rw [List.nil_append, last, List.getLast?_singleton]
  | cons g gs ih =>
    rw [List.cons_append, Repair.flatten]
    split
    · rw [List.getLast?_append, ih, Option.some_or]
    · rw [List.getLast?_cons, ih, Option.getD_some]

theorem sealed_of_does (does : Does task la r .sealRest r') :
    r'.Sealed task la.start.offset := by
  refine ⟨stop_of_sealRest does, ?_⟩
  cases does with
  | @sealRest s r₁ _ yields many sealed =>
    cases sealed
    obtain ⟨taken, below, children, -, -, result⟩ := Repair.skip_spec s
      (Repair.errorLeaf (task.text.extract (min la.start.offset task.text.size) task.text.size))
      (la.start.advance (Repair.errorLeaf (task.text.extract
        (min la.start.offset task.text.size) task.text.size))).value Repair.skipCost
    exact ⟨_, _, below, rfl, result, rfl, getLast?_flatten rfl children⟩

/-- Where nothing else can be done the token is skipped, unless as many were skipped as allowed:
then all the rest is one error. -/
theorem History.yields (forward : ∀ la, Ahead task old la → la.Forward task.text)
    (history : History task old turns r) {s : Stack}
    (yields : Yields task (r.lookahead task).1 (r.lookahead task).2 s r') :
    (skipsSince turns < task.config.maxSkipTokens →
      r.turn task = skipToken task.language (r.lookahead task).1 s r') ∧
    (task.config.maxSkipTokens ≤ skipsSince turns →
      ∃ r'', r.turn task = .more r'' ∧ r''.Sealed task r.position.offset) := by
  obtain ⟨tokens, reached, -⟩ := history.reached
  have here := (lookahead_spec reached.good).2.1.trans (Steady.lookahead task r).position
  have count : r'.recovery.skipped = skipsSince turns := by
    rw [skipped_of_tried yields.unrepaired, (Steady.lookahead task r).recovery,
      (history.tallied forward).1.skipped]
  have turned : r.turn task = _ := yields.step_eq
  rw [count] at turned
  refine ⟨fun few => turned.trans (if_neg (Nat.not_le_of_lt few)), fun many => ?_⟩
  rw [if_pos many] at turned
  refine ⟨_, turned, here ▸ sealed_of_does (.sealRest yields (count ▸ many) rfl)⟩

end Run

namespace Parser

variable {p : Parser} {old : Option Tree} {G : Grammar}

/-- A parse that gives a result has found every quantity in range. -/
theorem fits_outcome_of_parse {text : Text} {interrupts : Interrupts}
    (fits : (p.parse text old interrupts).fits = true) :
    (Run.outcome (p.task text) interrupts (p.oldRoot old)).run.fits = true := by
  simp only [parse, Checked.fits_bind, Checked.demand, Bool.and_eq_true] at fits
  simpa only [task] using fits.2.1

end Parser

end Glr
