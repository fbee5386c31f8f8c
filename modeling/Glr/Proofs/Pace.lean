import Glr.Proofs.Building
import Glr.Proofs.Deeds
import Glr.Proofs.Frames

/-!
# How fast a parse goes

Before the end of the text every turn that goes on either moves the parse forward (`Passes`), or
repairs a stack where the parse is and counts that (`Stays`).  The repairs in place are limited, and
they are counted anew only behind the place, so the number of turns before the end is bounded by the
length of the text (`Paced`).

All this is a matter of the tokens ahead alone.  They have to cover some of the text before its end,
and must not be the end of the text there (`Lookahead.Forward`).
-/

namespace Glr

/-- A token ahead that covers some of the text, unless the text is at its end. -/
structure Lookahead.Forward (text : Text) (la : Lookahead) : Prop where
  atEnd : la.token.isEnd = true → text.size ≤ la.start.offset
  moves : la.start.offset < text.size → la.start.offset < la.stop.offset
  behind : text.size ≤ la.start.offset → text.size ≤ la.stop.offset

namespace Run

variable {task : ParseTask} {old : Option Green} {r r' : Run} {la : Lookahead}

/-! ## What stays where it is -/

/-- The parse is where it was, and has repaired as much. -/
structure Steady (r r' : Run) : Prop where
  position : r'.position = r.position
  recovery : r'.recovery = r.recovery

namespace Steady

theorem refl (r : Run) : Steady r r := ⟨rfl, rfl⟩

theorem trans {r'' : Run} (h : Steady r r') (h' : Steady r' r'') : Steady r r'' :=
  ⟨h'.position.trans h.position, h'.recovery.trans h.recovery⟩

theorem report (r : Run) (l : Limit) : Steady r (r.report l) := by
  rw [Run.report]
  split
  · exact refl r
  · exact ⟨rfl, rfl⟩

theorem makeLeaf (r : Run) (la : Lookahead) (state : StateId) (flags : NodeFlags) :
    Steady r (r.makeLeaf la state flags).2 := by
  rw [Run.makeLeaf]
  split
  · split
    · exact ⟨rfl, rfl⟩
    · exact ⟨rfl, rfl⟩
  · exact ⟨rfl, rfl⟩

theorem framing : Framing Steady where
  refl := refl
  trans := trans
  report := report
  reduce r l s id la fragile := by
    rw [Run.reduce]
    split
    · exact refl r
    · exact ⟨rfl, rfl⟩

theorem reduceAll (task : ParseTask) (r : Run) (la : Lookahead) :
    Steady r (r.reduceAll task la).2 :=
  have all := framing.reduceAll task la r
  ⟨all.position, all.recovery⟩

theorem lookahead (task : ParseTask) (r : Run) : Steady r (r.lookahead task).2 := by
  have leaf : Steady r (r.reusableLeaf task.language).2 := by
    rw [reusableLeaf]
    split
    · exact ⟨rfl, rfl⟩
    · exact refl r
  rw [Run.lookahead]
  generalize r.reusableLeaf task.language = found at leaf ⊢
  obtain ⟨leaf?, r'⟩ := found
  cases leaf? with
  | none => exact ⟨leaf.position, leaf.recovery⟩
  | some leaf' => exact ⟨leaf.position, leaf.recovery⟩

theorem watchAmbiguity (config : ParserConfig) (r : Run) : Steady r (r.watchAmbiguity config) := by
  rw [Run.watchAmbiguity]
  split
  · split
    · have reported := report r (.ambiguity config.maxAmbiguityDepth)
      exact ⟨reported.position, reported.recovery⟩
    · exact ⟨rfl, rfl⟩
  · exact ⟨rfl, rfl⟩

theorem settle (config : ParserConfig) (r : Run) : Steady r (r.settle config) := by
  rw [Run.settle]
  dsimp only
  generalize Frontier.merge _ = merged
  have crowded : Steady r
      (if Frontier.isCrowded merged config.maxStacks then
        { r with live := Frontier.prune merged config.maxStacks }.report
          (.parallel config.maxStacks)
      else { r with live := Frontier.prune merged config.maxStacks }) := by
    split
    · have reported := report { r with live := Frontier.prune merged config.maxStacks }
        (.parallel config.maxStacks)
      exact ⟨reported.position, reported.recovery⟩
    · exact ⟨rfl, rfl⟩
  refine trans ?_ (watchAmbiguity config _)
  exact ⟨crowded.position, crowded.recovery⟩

theorem tryMissing (l : Language) (la : Lookahead) (s : Stack) (r : Run) :
    Steady r (Run.tryMissing l la s r).2 := by
  have inserted := framing.insertMissing l la s ((l.stateActions s.state).map (·.1)) r
  rw [Run.tryMissing]
  split
  · next eq =>
    rw [eq] at inserted
    exact ⟨inserted.position, inserted.recovery⟩
  · next eq =>
    rw [eq] at inserted
    exact inserted

theorem tryWrap (l : Language) (la : Lookahead) (s : Stack) (allowed : Nat) (r : Run) :
    Steady r (Run.tryWrap l la s allowed r).2 := by
  rw [Run.tryWrap]
  split
  · exact ⟨rfl, rfl⟩
  · exact refl r

end Steady

/-! ## One turn -/

/-- A parse goes forward, after which the repairs made where it was are forgotten. -/
structure Passes (task : ParseTask) (r r' : Run) : Prop where
  moved : r.position.offset < task.text.size → r.position.offset < r'.position.offset
  behind : task.text.size ≤ r.position.offset → task.text.size ≤ r'.position.offset
  place : r'.recovery.place = r.recovery.place ∨ r'.recovery.place = r.position.offset

/-- A parse does not go on at all, after a repair that was counted. -/
structure Stays (task : ParseTask) (r r' : Run) : Prop where
  same : r'.position = r.position
  place : r'.recovery.place = r.position.offset
  counted : r'.recovery.attempts = (r.atPlace r.position.offset).recovery.attempts + 1
  allowed : r'.recovery.attempts ≤ task.config.maxRecoveryAttempts

/-- A token is left behind. -/
theorem passes_of_stop (forward : la.Forward task.text) (here : la.start = r.position)
    (stop : r'.position = la.stop)
    (place : r'.recovery.place = r.recovery.place ∨ r'.recovery.place = r.position.offset) :
    Passes task r r' where
  moved before := by
    rw [stop, ← here]
    exact forward.moves (here ▸ before)
  behind after := by
    rw [stop]
    exact forward.behind (here ▸ after)
  place := place

/-- Some text is left behind. -/
theorem passes_of_node {g : Green} (here : la.start = r.position)
    (wide : r.position.offset < task.text.size → 0 < g.length)
    (stop : r'.position = (la.start.advance g).value)
    (place : r'.recovery.place = r.recovery.place ∨ r'.recovery.place = r.position.offset) :
    Passes task r r' := by
  have offset : r'.position.offset = r.position.offset + g.length := by
    rw [stop, here]
    rfl
  refine ⟨fun before => ?_, fun after => ?_, place⟩
  · rw [offset]
    exact Nat.lt_add_of_pos_right (wide before)
  · rw [offset]
    exact Nat.le_trans after (Nat.le_add_right _ _)

theorem passes_shiftExtra (forward : la.Forward task.text) (here : la.start = r.position)
    (cost : Nat) : Passes task r (r.shiftExtra la cost) := by
  have leaf := Steady.makeLeaf r la r.firstState
    { NodeFlags.onlyExtra with fragile := r.live.length > 1 }
  exact passes_of_stop forward here rfl (Or.inl (congrArg RecoveryState.place leaf.recovery))

/-- A node that can be taken over whole is not empty. -/
theorem Fitting.nonempty {l : Language} {state : StateId} {offset : Nat} {g : Green}
    {target : StateId} (h : Fitting l old state offset g target) : 0 < g.length := by
  have reusable := h.reusable
  rw [isReusable, Bool.and_eq_true] at reusable
  obtain ⟨data, cs⟩ := g
  refine Nat.pos_of_ne_zero fun (empty : data.length = 0) => ?_
  rw [Green.firstLeaf?, if_pos empty] at reusable
  exact absurd reusable.2 Bool.false_ne_true

theorem passes_shiftAll {shifts : List (Stack × StateId)} (forward : la.Forward task.text)
    (here : la.start = r.position)
    (known : ∀ m ∈ shifts, Built task old la.start.offset m.1.entries ∧
      .shift m.2 ∈ task.language.actions m.1.state la.token.symbol)
    (inside : r.reuse.Inside old) : Passes task r (r.shiftAll task la shifts) := by
  obtain ⟨-, same, fitting⟩ := subtree_spec known (r := { r with recovery.skipped := 0 }) inside
  rw [shiftAll]
  dsimp only
  generalize subtree task.language { r with recovery.skipped := 0 } la shifts = result
    at same fitting ⊢
  obtain ⟨found, r'⟩ := result
  dsimp only at same fitting ⊢
  have place : r'.recovery.place = r.recovery.place := by rw [same]
  cases found with
  | none =>
    dsimp only
    have settled := Steady.settle task.config (r'.pushToken la shifts)
    refine passes_of_stop forward here settled.position (Or.inl ?_)
    rw [settled.recovery]
    exact (congrArg RecoveryState.place (Steady.makeLeaf r' la _ _).recovery).trans place
  | some m =>
    obtain ⟨s, g, target⟩ := m
    have settled := Steady.settle task.config (r'.pushSubtree la s g target)
    refine passes_of_node here (fun _ => (fitting s g target rfl).2.nonempty) settled.position
      (Or.inl ?_)
    rw [settled.recovery]
    exact place

/-! ## Repairs -/

theorem atPlace_spec (r : Run) (place : Nat) :
    (r.atPlace place).position = r.position ∧ (r.atPlace place).recovery.place = place ∧
      (r.atPlace place).recovery.skipped = r.recovery.skipped := by
  rw [atPlace]
  split
  · next same => exact ⟨rfl, same, rfl⟩
  · exact ⟨rfl, rfl, rfl⟩

/-- A repair in place is counted, and nothing else moves. -/
theorem tryInPlace_spec (task : ParseTask) (la : Lookahead) (s : Stack) (r : Run) :
    (tryInPlace task la s r).2.position = r.position ∧
      (tryInPlace task la s r).2.recovery.place = r.recovery.place ∧
      (tryInPlace task la s r).2.recovery.skipped = r.recovery.skipped ∧
      ((tryInPlace task la s r).1.isSome = true →
        (tryInPlace task la s r).2.recovery.attempts = r.recovery.attempts + 1 ∧
          r.recovery.attempts < task.config.maxRecoveryAttempts) := by
  rw [tryInPlace]
  split
  · next allowed =>
    dsimp only
    have missing := Steady.tryMissing task.language la s
      { r with recovery.attempts := r.recovery.attempts + 1 }
    split
    · next eq =>
      rw [eq] at missing
      have place := congrArg RecoveryState.place missing.recovery
      have skipped := congrArg RecoveryState.skipped missing.recovery
      have attempts := congrArg RecoveryState.attempts missing.recovery
      exact ⟨missing.position, place, skipped, fun _ => ⟨attempts, allowed⟩⟩
    · next r' eq =>
      rw [eq] at missing
      have both := missing.trans (Steady.tryWrap task.language la s
        (if la.token.isEnd then s.depth else task.config.maxRecoveryDepth) r')
      have place := congrArg RecoveryState.place both.recovery
      have skipped := congrArg RecoveryState.skipped both.recovery
      have attempts := congrArg RecoveryState.attempts both.recovery
      exact ⟨both.position, place, skipped, fun _ => ⟨attempts, allowed⟩⟩
  · exact ⟨rfl, rfl, rfl, fun h => by cases h⟩

theorem atPlace_of_steady (steady : Steady r r') (place : Nat) :
    (r'.atPlace place).recovery = (r.atPlace place).recovery := by
  rw [atPlace, atPlace, steady.recovery]
  split
  · exact steady.recovery
  · rfl

/-- What is known of a state holds of another one that is where it is. -/
theorem Passes.before {r'' : Run} (steady : Steady r r') (h : Passes task r' r'') :
    Passes task r r'' where
  moved := steady.position ▸ h.moved
  behind := steady.position ▸ h.behind
  place := by
    have place := h.place
    rwa [steady.recovery, steady.position] at place

/-! ## Turns -/

section Turns

variable {d : Deed} (here : la.start = r.position) (does : Does task la r d r')

include here does

theorem stays_of_does (repairs : d = .repair) : Stays task r r' := by
  cases does with
  | @repair s s' r₁ best repaired =>
    have reduced := Steady.reduceAll task r la
    obtain ⟨position, place, -⟩ := atPlace_spec (r.reduceAll task la).2 la.start.offset
    obtain ⟨position', place', -, counted⟩ :=
      tryInPlace_spec task la s ((r.reduceAll task la).2.atPlace la.start.offset)
    rw [repaired] at position' place' counted
    obtain ⟨counted, allowed⟩ := counted rfl
    rw [atPlace_of_steady reduced, here] at counted
    rw [atPlace_of_steady reduced, here] at allowed
    exact ⟨position'.trans (position.trans reduced.position),
      place'.trans (place.trans (congrArg Position.offset here)), counted, counted ▸ allowed⟩
  | _ => cases repairs

theorem passes_of_does (good : r.Good task old) (ahead : Ahead task old la)
    (forward : la.Forward task.text) (passes : d ≠ .repair) : Passes task r r' := by
  have reduced := Steady.reduceAll task r la
  have here' := here.trans reduced.position.symm
  -- Where a repair in place has failed, the place is still noted.
  have tried {s : Stack} {r₁ : Run}
      (unrepaired : tryInPlace task la s ((r.reduceAll task la).2.atPlace la.start.offset) =
        (none, r₁)) : r₁.position = r.position ∧ r₁.recovery.place = r.position.offset := by
    obtain ⟨position, place, -⟩ := atPlace_spec (r.reduceAll task la).2 la.start.offset
    obtain ⟨position', place', -, -⟩ :=
      tryInPlace_spec task la s ((r.reduceAll task la).2.atPlace la.start.offset)
    rw [unrepaired] at position' place'
    exact ⟨position'.trans (position.trans reduced.position),
      place'.trans (place.trans (congrArg Position.offset here))⟩
  cases does with
  | unknown wrong =>
    have noted : Steady r (r.noteRepair (.unrecognized
        (Utf8.decodeLossy (task.text.extract la.token.span.start la.token.span.stop)))
        la.token.span) := ⟨rfl, rfl⟩
    exact (passes_shiftExtra (r := r.noteRepair _ _) forward here Repair.skipCost).before noted
  | extra free => exact passes_shiftExtra forward here 0
  | shift some =>
    obtain ⟨sound, keeps⟩ := reduceAll_sound ahead (r := r) fun s hs => here ▸ good.built s hs
    exact (passes_shiftAll forward here' sound.shifts (keeps.inside good.inside)).before reduced
  | repair best repaired => exact absurd rfl passes
  | @wrap s s' r₁ r₂ atEnd best unrepaired wrapped =>
    obtain ⟨position, place⟩ := tried unrepaired
    have steady := Steady.tryWrap task.language la s s.depth r₁
    rw [wrapped] at steady
    have after := here ▸ forward.atEnd atEnd
    refine ⟨fun h => absurd h (Nat.not_lt_of_le after), fun _ => ?_,
      Or.inr (place ▸ congrArg RecoveryState.place steady.recovery)⟩
    show _ ≤ Position.offset _
    rw [steady.position, position]
    exact after
  | @skip s r₁ _ yields few skipped =>
    obtain ⟨-, place⟩ := tried yields.unrepaired
    cases skipped
    refine passes_of_stop forward here rfl (Or.inr ?_)
    exact (congrArg RecoveryState.place
      (Steady.makeLeaf _ la s.state NodeFlags.none).recovery).trans place
  | @sealRest s r₁ _ yields many sealed =>
    obtain ⟨-, place⟩ := tried yields.unrepaired
    cases sealed
    refine passes_of_node here (fun inside => ?_) rfl (Or.inr place)
    rw [← here] at inside
    rw [Repair.length_errorLeaf, Size.ofText, Array.size_extract, Nat.min_self,
      Nat.min_eq_left (Nat.le_of_lt inside)]
    exact Nat.lt_min.mpr ⟨Nat.sub_pos_of_lt inside, by decide⟩

end Turns

/-! ## Skipping -/

/-- To try a repair skips nothing. -/
theorem skipped_of_tried {s : Stack} {repaired : Option Stack}
    (tried : tryInPlace task la s ((r.reduceAll task la).2.atPlace la.start.offset) =
      (repaired, r')) : r'.recovery.skipped = r.recovery.skipped := by
  obtain ⟨-, -, skipped, -⟩ :=
    tryInPlace_spec task la s ((r.reduceAll task la).2.atPlace la.start.offset)
  rw [tried] at skipped
  exact skipped.trans ((atPlace_spec _ _).2.2.trans
    (congrArg RecoveryState.skipped (Steady.reduceAll task r la).recovery))

/-- After a shift no token counts as skipped. -/
theorem skipped_shiftAll (task : ParseTask) (r : Run) (la : Lookahead)
    (shifts : List (Stack × StateId)) : (r.shiftAll task la shifts).recovery.skipped = 0 := by
  have taken : Steady { r with recovery.skipped := 0 }
      (subtree task.language { r with recovery.skipped := 0 } la shifts).2 := by
    rw [subtree.eq_def]
    split
    · split <;> exact ⟨rfl, rfl⟩
    · exact ⟨rfl, rfl⟩
  rw [shiftAll]
  dsimp only
  generalize subtree task.language { r with recovery.skipped := 0 } la shifts = result at taken ⊢
  obtain ⟨found, r'⟩ := result
  have none : r'.recovery.skipped = 0 := congrArg RecoveryState.skipped taken.recovery
  cases found with
  | none =>
    have settled := Steady.settle task.config (r'.pushToken la shifts)
    have leaf := Steady.makeLeaf r' la
    exact (congrArg RecoveryState.skipped (settled.recovery.trans (leaf _ _).recovery)).trans none
  | some m =>
    obtain ⟨s, g, target⟩ := m
    have settled := Steady.settle task.config (r'.pushSubtree la s g target)
    exact (congrArg RecoveryState.skipped settled.recovery).trans none

/-- Tokens are counted as skipped until the next shift. -/
theorem skipped_of_does {d : Deed} (does : Does task la r d r') : r'.recovery.skipped =
    if d = .shift then 0
    else if d = .skip then r.recovery.skipped + 1 else r.recovery.skipped := by
  have extra (r : Run) (cost : Nat) :
      (r.shiftExtra la cost).recovery.skipped = r.recovery.skipped :=
    congrArg RecoveryState.skipped (Steady.makeLeaf r la r.firstState
      { NodeFlags.onlyExtra with fragile := r.live.length > 1 }).recovery
  cases does with
  | unknown wrong => exact extra _ Repair.skipCost
  | extra free => exact extra r 0
  | shift some => exact skipped_shiftAll task _ la _
  | repair best repaired =>
    have kept := skipped_of_tried repaired
    exact kept
  | @wrap s s' r₁ r₂ atEnd best unrepaired wrapped =>
    have steady := Steady.tryWrap task.language la s s.depth r₁
    rw [wrapped] at steady
    exact (congrArg RecoveryState.skipped steady.recovery).trans (skipped_of_tried unrepaired)
  | @skip s r₁ _ yields few skipped =>
    cases skipped
    have leaf := Steady.makeLeaf (noteRepair { r₁ with recovery.skipped := r₁.recovery.skipped + 1 }
      (.skipped (task.language.symbolName la.token.symbol)) la.token.span) la s.state NodeFlags.none
    exact (congrArg RecoveryState.skipped leaf.recovery).trans
      (congrArg (· + 1) (skipped_of_tried yields.unrepaired))
  | sealRest yields many sealed =>
    have kept := skipped_of_tried yields.unrepaired
    cases sealed
    exact kept

/-! ## Going on -/

/-- A turn moves the parse forward, unless what it does is a repair in place. -/
theorem goesOn_of_does {d : Deed} (good : r.Good task old)
    (forward : ∀ la, Ahead task old la → la.Forward task.text)
    (does : Does task (r.lookahead task).1 (r.lookahead task).2 d r') :
    (d ≠ .repair → Passes task r r') ∧ (d = .repair → Stays task r r') := by
  obtain ⟨ahead, here, good'⟩ := lookahead_spec good
  have steady := Steady.lookahead task r
  refine ⟨fun passes => ?_, fun repairs => ?_⟩
  · exact (passes_of_does here does good' ahead (forward _ ahead) passes).before steady
  · obtain ⟨same, place, counted, allowed⟩ := stays_of_does here does repairs
    rw [steady.position] at same place counted
    exact ⟨same, place, atPlace_of_steady steady r.position.offset ▸ counted, allowed⟩

/-- A turn that ends a parse has the end of the text ahead, unless the parse cannot be
completed. -/
theorem done_turn {root : Green} (done : r.turn task = .done root r') :
    (∃ w ∈ r'.warnings, w.problem = .incomplete) ∨
      (r.lookahead task).1.token.isEnd = true ∧ r'.position = r.position := by
  cases ends_of_turn done with
  | accept atEnd best =>
    exact Or.inr ⟨atEnd, ((Steady.lookahead task r).trans (Steady.reduceAll task _ _)).position⟩
  | dead unaccepted unshifted unfailed => exact Or.inl ⟨_, List.mem_cons_self, rfl⟩
  | stuck atEnd best unrepaired unwrapped => exact Or.inl ⟨_, List.mem_cons_self, rfl⟩

/-! ## All turns -/

/-- The repairs made in place where a parse is now. -/
def spent (r : Run) : Nat :=
  if r.recovery.place = r.position.offset then r.recovery.attempts else 0

theorem attempts_atPlace (r : Run) :
    (r.atPlace r.position.offset).recovery.attempts = r.spent := by
  rw [atPlace, spent]
  split <;> rfl

theorem Stays.spent_eq (stays : Stays task r r') : r'.spent = r.spent + 1 := by
  rw [Run.spent, stays.same, if_pos stays.place, stays.counted, attempts_atPlace]

/-- Nothing is spent on a place that is new. -/
theorem Passes.spent_eq (passes : Passes task r r') (before : r.position.offset < task.text.size)
    (placeLe : r.recovery.place ≤ r.position.offset) :
    r'.recovery.place < r'.position.offset ∧ r'.spent = 0 := by
  have moved := passes.moved before
  have left : r'.recovery.place < r'.position.offset := by
    rcases passes.place with same | here <;> omega
  exact ⟨left, if_neg (Nat.ne_of_lt left)⟩

/-- A parse that has taken a number of turns before the end of the text, and what it has spent on
the place where it is. -/
structure Paced (task : ParseTask) (turns : Nat) (r : Run) : Prop where
  place_le : r.position.offset < task.text.size → r.recovery.place ≤ r.position.offset
  allowed : r.position.offset < task.text.size →
    r.spent ≤ task.config.maxRecoveryAttempts
  paid : r.position.offset < task.text.size →
    turns ≤ (task.config.maxRecoveryAttempts + 1) * r.position.offset + r.spent
  total : turns ≤ (task.config.maxRecoveryAttempts + 1) * task.text.size

theorem Paced.before {turns : Nat} (paced : Paced task turns r)
    (before : r.position.offset < task.text.size)
    (goesOn : Passes task r r' ∨ Stays task r r') : Paced task (turns + 1) r' := by
  obtain ⟨placeLe, allowed, paid, total⟩ := paced
  generalize hfactor : task.config.maxRecoveryAttempts + 1 = factor at paid total
  have spare : r.spent < factor := hfactor ▸ Nat.lt_succ_of_le (allowed before)
  have room {offset : Nat} (le : r.position.offset + 1 ≤ offset) :
      factor * r.position.offset + factor ≤ factor * offset := by
    rw [← Nat.mul_succ]
    exact Nat.mul_le_mul_left _ le
  have whole := room before
  have paid := paid before
  rcases goesOn with passes | stays
  · have further := room (passes.moved before)
    obtain ⟨left, none⟩ := passes.spent_eq before (placeLe before)
    refine ⟨fun _ => Nat.le_of_lt left, fun _ => ?_, fun _ => ?_, ?_⟩
    · rw [none]
      exact Nat.zero_le _
    · rw [hfactor]
      omega
    · rw [hfactor]
      omega
  · have spent := stays.spent_eq
    have counted := stays.counted
    rw [attempts_atPlace] at counted
    refine ⟨fun _ => Nat.le_of_eq (stays.place.trans (congrArg _ stays.same.symm)), fun _ => ?_,
      fun _ => ?_, ?_⟩
    · rw [spent, ← counted]
      exact stays.allowed
    · rw [hfactor, stays.same]
      omega
    · rw [hfactor]
      omega

theorem Paced.behind {turns : Nat} (paced : Paced task turns r)
    (after : task.text.size ≤ r.position.offset) (goesOn : Passes task r r' ∨ Stays task r r') :
    Paced task turns r' := by
  have after' : task.text.size ≤ r'.position.offset := by
    rcases goesOn with passes | stays
    · exact passes.behind after
    · exact stays.same ▸ after
  have never {P : Prop} (h : r'.position.offset < task.text.size) : P :=
    absurd h (Nat.not_lt_of_le after')
  exact ⟨never, never, never, paced.total⟩

/-- A parse takes no more turns before the end of a text than its length and the limit of repairs at
one place allow. -/
theorem Reached.paced {tokens : List Lookahead} (reached : Reached task old tokens r)
    (forward : ∀ la, Ahead task old la → la.Forward task.text) :
    Paced task (tokens.countP fun la => la.start.offset < task.text.size) r := by
  induction reached with
  | initial => exact ⟨fun _ => Nat.le_refl _, fun _ => Nat.zero_le _, fun _ => Nat.zero_le _,
      Nat.zero_le _⟩
  | @turn r r' tokens reached more ih =>
    have here := (lookahead_spec reached.good).2.1.trans (Steady.lookahead task r).position
    obtain ⟨d, does⟩ := does_of_turn more
    obtain ⟨passes, stays⟩ := goesOn_of_does reached.good forward does
    have goesOn : Passes task r r' ∨ Stays task r r' := by
      by_cases repairs : d = .repair
      · exact Or.inr (stays repairs)
      · exact Or.inl (passes repairs)
    rw [List.countP_cons, here]
    rcases Nat.lt_or_ge r.position.offset task.text.size with before | after
    · rw [decide_eq_true before, if_pos rfl]
      exact ih.before before goesOn
    · rw [decide_eq_false (Nat.not_lt_of_le after), if_neg Bool.false_ne_true]
      exact ih.behind after goesOn

end Run

end Glr
