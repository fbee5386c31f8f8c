import Glr.Proofs.Alike
import Glr.Proofs.Quiet
import Glr.Proofs.TextEnd
import Glr.Proofs.Vetted

/-!
# What a fresh tree vouches for

A parse without an old tree keeps its stacks vouched for (`Run.Assured`): each turn pushes what the
automaton would push, or marks what it pushes.  While one stack is alive the state that the next
token is read in is the state of that stack; while there are more, the trees on top of all of them
are marked, and the state need not be known.

So everything that stands in its tree, and that is not marked, can be made again by the automaton
from the text that the tree was made from (`Parser.vouches_parse`).
-/

namespace Glr

open Green

namespace Run

variable {task : ParseTask} {r r' : Run} {la : Lookahead} {s : Stack}

/-! ## The token ahead -/

/-- The state that the token behind some stacks is read in, if it is read in one. -/
def reading : List Stack → Option StateId
  | [s] => some s.state
  | _ => none

/-- The token ahead as the lexer reads it for some stacks. -/
def lexed (task : ParseTask) (live : List Stack) (place : Position) : Lookahead :=
  (lexedLookahead place (task.language.nextTokenIn task.text place.offset
    (lexSet task.language live).1 (lexSet task.language live).2)).value

theorem lookahead_fresh (inside : r.reuse.Inside none) :
    (r.lookahead task).1 = lexed task r.live r.position := by
  obtain ⟨-, same, found⟩ := reusableLeaf_spec (l := task.language) inside
  rw [lookahead]
  generalize r.reusableLeaf task.language = result at same found ⊢
  obtain ⟨_ | leaf, r'⟩ := result
  · have same : r' = { r with reuse := r'.reuse } := same
    rw [same]
    rfl
  · obtain ⟨⟨root, hroot, -⟩, -⟩ := found leaf rfl
    cases hroot

theorem lookahead_alike (task : ParseTask) (r : Run) : Alike r (r.lookahead task).2 := by
  have leaf : Alike r (r.reusableLeaf task.language).2 := by
    rw [reusableLeaf]
    split
    · exact ⟨rfl, rfl, rfl, rfl⟩
    · exact .refl r
  rw [lookahead]
  generalize r.reusableLeaf task.language = result at leaf ⊢
  obtain ⟨_ | leaf', r'⟩ := result
  · exact ⟨leaf.live, leaf.position, leaf.ambiguousFor, leaf.recovery⟩
  · exact ⟨leaf.live, leaf.position, leaf.ambiguousFor, leaf.recovery⟩

theorem lexSet_single (l : Language) (s : Stack) :
    lexSet l [s] = (l.validSet (l.lexMode s.state), l.lexMode s.state) := rfl

/-- The leaf of a token that was lexed. -/
theorem leaf_lexed (live : List Stack) (place : Position) (r : Run) (state : StateId)
    (flags : NodeFlags) :
    ((r.makeLeaf (lexed task live place) state flags).1).gist =
      (((r.makeLeaf (lexed task live place) state flags).1).asToken flags).gist :=
  gist_leaf _

/-- A token that is not wrong and not the end covers some text, and its leaf is what is read there
in the state that it is read in. -/
structure Lexes (task : ParseTask) (live : List Stack) (place : Position) : Prop where
  nonempty : ∀ (r : Run) (state : StateId) (flags : NodeFlags),
    0 < (r.makeLeaf (lexed task live place) state flags).1.length
  sees : ∀ o ∈ reading live, ∀ (r : Run) (state : StateId) (flags : NodeFlags),
    task.language.Sees task.text o place.offset
      (r.makeLeaf (lexed task live place) state flags).1

theorem lexes (loaded : task.language.Loaded) {live : List Stack} {place : Position}
    (inside : place.offset ≤ task.text.size)
    (right : (lexed task live place).token.isError = false)
    (notEnd : (lexed task live place).token.symbol ≠ Symbol.endOfText) :
    Lexes task live place := by
  have extends_ := Language.extends_nextTokenIn loaded inside (lexSet task.language live).1
    (lexSet task.language live).2
  generalize lexed_eq : task.language.nextTokenIn task.text place.offset
    (lexSet task.language live).1 (lexSet task.language live).2 = t at extends_
  have token : (lexed task live place).token = t := lexed_eq
  rw [token] at right notEnd
  have before : place.offset < task.text.size := by
    refine Nat.lt_of_le_of_ne inside fun atEnd => ?_
    exact notEnd (extends_.exhausted.mpr atEnd).1
  have covers := extends_.covers before
  have start := extends_.start
  refine ⟨fun r state flags => ?_, fun o ho r state flags => ?_⟩
  · show 0 < (lexed task live place).token.span.stop - (lexed task live place).token.span.start
    rw [token]
    omega
  · obtain ⟨s, rfl, rfl⟩ : ∃ s, live = [s] ∧ s.state = o := by
      rw [reading.eq_def] at ho
      split at ho
      · exact ⟨_, rfl, Option.some.inj ho⟩
      · cases ho
    show (task.language.nextTokenIn task.text place.offset _ _).sight = _
    rw [lexSet_single] at lexed_eq
    rw [lexed_eq]
    let u := (lexed task [s] place).token
    show Token.sight t = ⟨u.symbol, ⟨place.offset, place.offset + (u.span.stop - u.span.start)⟩,
      u.extent, u.lookahead, 0, false⟩
    rw [show u = t from token, start, Nat.add_sub_cancel' (Nat.le_of_lt covers), ← start, ← right]
    rfl

/-! ## Turns -/

/-- Every live stack is vouched for. -/
def Assured (task : ParseTask) (r : Run) : Prop :=
  ∀ s ∈ r.live, Vouched task.language task.text (fun _ => True) (reading r.live) s.entries

/-- What is known of a stack while a token is dealt with. -/
structure Holding (task : ParseTask) (la : Lookahead) (o : Option StateId) (s : Stack) : Prop where
  vouched : Vouched task.language task.text (fun t => t = la.token.symbol) o s.entries
  built : Built task none la.start.offset s.entries

theorem Holding.takes {ambiguous : Bool} {o : Option StateId} {s' : Stack}
    (ahead : Ahead task none la) (h : Holding task la o s) (takes : Takes task la ambiguous s s') :
    Holding task la o s' := by
  have built := built_of_takes ahead h.built takes
  obtain ⟨id, b, c, branches, reduced, rfl⟩ := takes
  refine ⟨Vouched.reduce (branches.entries ▸ h.vouched) reduced fun sturdy => ?_, built⟩
  rw [Bool.or_eq_false_iff] at sturdy
  refine ⟨branches.entries ▸ tracked_of_built h.built, fun t ht => ?_⟩
  rw [ht]
  exact branches.single sturdy.2

theorem reading_map {f : Stack → Stack} (same : ∀ s, (f s).state = s.state) (live : List Stack) :
    reading (live.map f) = reading live := by
  match live with
  | [] => rfl
  | [s] => exact congrArg some (same s)
  | s :: t :: live => rfl

theorem ahead_lexed (live : List Stack) (place : Position) :
    Ahead task none (lexed task live place) :=
  .lexed place _ _ (lexSet_spec task.language live)

/-- The leaf of a token that is wrong is wrong. -/
theorem isMarked_of_wrong (live : List Stack) (place : Position)
    (wrong : (lexed task live place).token.isError = true) (r : Run) (state : StateId)
    (flags : NodeFlags) : (r.makeLeaf (lexed task live place) state flags).1.isMarked = true := by
  have symbol : (lexed task live place).token.symbol = Symbol.error :=
    (task.language.placed_nextTokenIn task.text place.offset _ _).wrong wrong
  rw [isMarked, Bool.or_eq_true]
  refine Or.inl ?_
  show (flags.hasError || ((lexed task live place).token.symbol == Symbol.error || flags.missing)) =
    true
  rw [symbol, beq_self_eq_true, Bool.true_or, Bool.or_true]

/-- The leaf of a token that is shifted is marked, or there was no choice. -/
theorem alone_of_unmarked {shifts : List (Stack × StateId)} {m : Stack × StateId} {leaf : Green}
    (fragile : leaf.isFragile = (decide (shifts.length > 1) || shifts.any fun m => m.1.forked))
    (unmarked : leaf.isMarked = false) (hm : m ∈ shifts) : shifts = [m] ∧ m.1.forked = false := by
  rw [isMarked, fragile] at unmarked
  obtain ⟨few, unforked⟩ := Bool.or_eq_false_iff.mp (Bool.or_eq_false_iff.mp unmarked).2
  obtain ⟨m', single⟩ := List.length_eq_one_iff.mp
    (Nat.le_antisymm (Nat.le_of_not_lt (of_decide_eq_false few)) (List.length_pos_of_mem hm))
  obtain rfl : m = m' := List.mem_singleton.mp (single ▸ hm)
  exact ⟨single, Bool.eq_false_iff.mpr (List.any_eq_false.mp unforked m hm)⟩

section Does

variable {g : FlatGrammar} {a : Automaton} (founded : task.language.Founded g a)
  (loaded : task.language.Loaded) (small : task.text.size ≤ Size.largest)
  (good : r.Good task none) (assured : r.Assured task)

include good assured

theorem holding_live : ∀ s ∈ r.live,
    Holding task (lexed task r.live r.position) (reading r.live) s := fun s hs =>
  ⟨(assured s hs).weaken fun _ _ => trivial, good.built s hs⟩

theorem holding_phase : Phase.From task (lexed task r.live r.position)
    (Holding task (lexed task r.live r.position) (reading r.live))
    (r.reduceAll task (lexed task r.live r.position)).1 :=
  reduceAll_from (Holding.takes (ahead_lexed r.live r.position)) (holding_live good assured)

omit good in
/-- What is pushed on every stack as an extra is marked, or can be read again. -/
theorem assured_extras {leaf : Green} {stop : Position} {cost : Nat}
    (live : r'.live = r.live.map fun s => (s.push ⟨s.state, leaf, stop, true⟩).charge cost)
    (noChildren : leaf.children = [])
    (vetted : leaf.isMarked = true ∨ ∀ s ∈ r.live, Vetted task.language task.text (fun _ => True)
      (reading r.live) (⟨s.state, leaf, stop, true⟩ :: s.entries)) : r'.Assured task := by
  intro t ht
  have same := reading_map
    (f := fun s => (s.push ⟨s.state, leaf, stop, true⟩).charge cost) (fun _ => rfl) r.live
  rw [live, same]
  rw [live] at ht
  obtain ⟨s, hs, rfl⟩ := List.mem_map.mp ht
  have below := assured s hs
  rcases vetted with marked | vetted
  · exact below.push_marked marked (noChildren.symm ▸ .nil) (.of_leaf noChildren)
  · exact below.push_leaf (vetted s hs) noChildren

omit good in
/-- A token that is wrong is pushed marked. -/
theorem assured_takeUnknown (wrong : (lexed task r.live r.position).token.isError = true) :
    (r.takeUnknown task.text (lexed task r.live r.position)).Assured task := by
  exact assured_extras assured rfl rfl (Or.inl (isMarked_of_wrong r.live r.position wrong r 0 _))

include founded loaded small

theorem assured_shiftExtra
    (free : r.isPlainExtra task.language (lexed task r.live r.position) = true) :
    (r.shiftExtra (lexed task r.live r.position) 0).Assured task := by
  refine assured_extras assured rfl rfl ?_
  cases right : (lexed task r.live r.position).token.isError with
  | true => exact Or.inl (isMarked_of_wrong r.live r.position right r 0 _)
  | false =>
    by_cases several : r.live.length > 1
    · refine Or.inl ?_
      rw [isMarked, Bool.or_eq_true]
      exact Or.inr (decide_eq_true several)
    · refine Or.inr fun s hs => ?_
      obtain ⟨t, single⟩ := List.length_eq_one_iff.mp
        (Nat.le_antisymm (Nat.le_of_not_lt several) (List.length_pos_of_mem hs))
      obtain rfl : s = t := List.mem_singleton.mp (single ▸ hs)
      simp only [isPlainExtra, Bool.and_eq_true, Bool.not_eq_true'] at free
      obtain ⟨⟨notEnd, extra⟩, idle⟩ := free
      have notEnd : (lexed task r.live r.position).token.symbol ≠ Symbol.endOfText :=
        fun same => by
          rw [Token.isEnd, same] at notEnd
          cases notEnd
      obtain ⟨inside, spread⟩ := built_spread founded
        (fun root hroot => absurd hroot (Option.not_mem_none root)) small (good.built s hs)
      have lexes := lexes loaded inside right notEnd
      have vetted := (assured s hs).vetted
      have few : decide (r.live.length > 1) = false := decide_eq_false several
      rw [few]
      rw [s.state_eq]
      refine vetted.push_extra (leaf_lexed r.live r.position r _ _) (lexes.nonempty r _ _) notEnd
        extra fun o ho => ⟨spread.symm ▸ lexes.sees o ho r _ _, ?_⟩
      obtain rfl : s.state = o := by
        rw [single] at ho
        exact Option.some.inj ho
      exact Bool.eq_false_iff.mpr (List.any_eq_false.mp idle s hs)

/-- A token that one stack has nothing else to do with is pushed as the automaton would push it, and
any other is marked. -/
theorem assured_shiftAll :
    ((r.reduceAll task (lexed task r.live r.position)).2.shiftAll task
      (lexed task r.live r.position)
      (r.reduceAll task (lexed task r.live r.position)).1.shifts).Assured task := by
  have held := (holding_phase good assured).shifts
  generalize (r.reduceAll task (lexed task r.live r.position)).1.shifts = shifts at held ⊢
  generalize (r.reduceAll task (lexed task r.live r.position)).2 = r'
  rw [shiftAll_eq rfl]
  generalize ({ r' with recovery.skipped := 0 } : Run) = r'
  obtain ⟨state, pushed⟩ := pushToken_live r' (lexed task r.live r.position) shifts
  generalize hflags : NodeFlags.fragileIf (shifts.length > 1 || shifts.any fun m => m.1.forked) =
    flags at pushed
  generalize hleaf : (r'.makeLeaf (lexed task r.live r.position) state flags).1 = leaf at pushed
  have noChildren : leaf.children = [] := hleaf ▸ rfl
  have fragile : leaf.isFragile =
      (decide (shifts.length > 1) || shifts.any fun m => m.1.forked) := hleaf ▸ hflags ▸ rfl
  intro t ht
  obtain ⟨u, hu, entries⟩ := (settle_reports task.config _).2 t ht
  rw [pushed] at hu
  obtain ⟨m, hm, rfl⟩ := List.mem_map.mp hu
  obtain ⟨s, holding, branches⟩ := held m hm
  have entries : t.entries = ⟨m.2, leaf, (lexed task r.live r.position).stop, false⟩ :: s.entries :=
    branches.entries ▸ entries
  rw [entries]
  cases marked : leaf.isMarked with
  | true => exact holding.vouched.push_marked marked (noChildren.symm ▸ .nil) (.of_leaf noChildren)
  | false =>
    obtain ⟨rfl, unforked⟩ := alone_of_unmarked fragile marked hm
    have single := branches.single unforked
    have flagless : flags = NodeFlags.none := by
      rw [← hflags, List.any_cons, unforked]
      rfl
    have action : .shift m.2 ∈ task.language.actions m.1.state
        (lexed task r.live r.position).token.symbol := single ▸ List.mem_singleton_self _
    have right : (lexed task r.live r.position).token.isError = false := by
      rw [Bool.eq_false_iff]
      intro wrong
      have symbol : (lexed task r.live r.position).token.symbol = Symbol.error :=
        (task.language.placed_nextTokenIn task.text r.position.offset _ _).wrong wrong
      have bound := founded.unreserved_of_shift action
      rw [symbol] at bound
      exact absurd bound (by decide)
    obtain ⟨inside, spread⟩ := built_spread founded
      (fun root hroot => absurd hroot (Option.not_mem_none root)) small holding.built
    have lexes := lexes loaded inside right (founded.shift_ne_end action)
    rw [(settle_single task.config pushed).1, reading]
    refine holding.vouched.push_leaf ?_ noChildren
    have symbol : leaf.symbol = (lexed task r.live r.position).token.symbol := hleaf ▸ rfl
    refine Vetted.push_token (symbol ▸ holding.vouched.vetted) ?_ ?_ ?_ ?_
    · rw [← hleaf, flagless]
      exact leaf_lexed _ _ _ _ _
    · rw [← hleaf]
      exact lexes.nonempty _ _ _
    · rw [← hleaf, spread]
      exact fun o ho => lexes.sees o ho _ _ _
    · rw [symbol, ← branches.entries, ← Stack.state_eq]
      exact single

theorem assured_does {d : Deed} (does : Does task (lexed task r.live r.position) r d r') :
    r'.Assured task := by
  have single {s : Stack} {r : Run} (h : ∀ o, Vouched task.language task.text (fun _ => True) o
      s.entries) : Assured task { r with live := [s] } := by
    intro t ht
    rw [List.mem_singleton.mp ht]
    exact h _
  have failed := (holding_phase good assured).failed
  cases does with
  | unknown wrong => exact assured_takeUnknown assured wrong
  | extra free => exact assured_shiftExtra founded loaded small good assured free
  | shift some => exact assured_shiftAll founded loaded small good assured
  | @repair s s' r' best repaired =>
    have mends := (tryInPlace_mends task _ s _).2 s' (by rw [repaired])
    exact single fun o => (failed s (Frontier.mem_of_best? best)).vouched.mends mends
  | @wrap s s' r' r'' atEnd best unrepaired wrapped =>
    have mends := (tryWrap_mends task _ s _ _).2 s' (by rw [wrapped])
    exact single fun o => (failed s (Frontier.mem_of_best? best)).vouched.mends mends
  | @skip s r' r'' yields few skipped =>
    have held := (failed s (Frontier.mem_of_best? yields.best)).vouched
    rw [skipToken] at skipped
    cases skipped
    exact single fun o => held.skip rfl rfl _ _
  | @sealRest s r' r'' yields many sealed =>
    have held := (failed s (Frontier.mem_of_best? yields.best)).vouched
    rw [sealRest] at sealed
    cases sealed
    exact single fun o => held.skip rfl rfl _ _

end Does

/-! ## Ends -/

section Ends

variable {l : Language} {text : Text} {P : Symbol → Prop} {o : Option StateId} {gs : List Green}

theorem joined_nodesOf {es : List StackEntry} (joined : ∀ e ∈ es, e.node.Joined) :
    ∀ g ∈ nodesOf es, g.Joined := by
  intro g hg
  obtain ⟨e, he, rfl⟩ := mem_nodesOf.mp hg
  exact joined e he

section Marked

variable {ok : Nat → Green → Prop} (marked : ∀ {x : Nat} {g : Green}, g.isMarked = true → ok x g)

include marked

theorem everywhere_errorNode (inside : Everywhere ok 0 gs) (summed : ∀ g ∈ gs, g.Summed) :
    Everywhere ok 0 [(Repair.errorNode gs).value] := by
  rw [Everywhere.singleton]
  exact ⟨marked (by simp [isMarked, Repair.errorNode, hasError_node]), inside.flatten summed⟩

/-- A root that extras were put into is fragile. -/
theorem everywhere_accept {g : FlatGrammar} {a : Automaton}
    (founded : task.language.Founded g a) (whole : ∀ e ∈ s.entries, e.Whole g)
    (inside : Everywhere ok 0 (nodesOf s.entries)) :
    Everywhere ok 0 [(accept task.language s).value] := by
  rcases accept_cases task.language s with
    error | ⟨before, main, after, entries, -, plain, start, shape⟩
  · rw [error]
    refine everywhere_errorNode marked inside fun g hg => ?_
    obtain ⟨e, he, rfl⟩ := mem_nodesOf.mp hg
    exact (whole e he).measured.summed
  · have nodes : nodesOf s.entries =
        before.map (·.node) ++ ([main.node] ++ after.map (·.node)) := by
      rw [nodesOf, ← List.map_reverse, entries, List.map_append, List.map_cons]
      rfl
    have here : main ∈ s.entries := by
      rw [← List.mem_reverse, entries]
      simp
    rw [nodes] at inside
    rcases shape with ⟨none, root⟩ | root
    · rw [List.append_eq_nil_iff] at none
      rw [none.1, none.2] at inside
      rw [root]
      exact inside
    · have spread := spread_start founded (whole main here) plain start
      rw [Everywhere.append, Everywhere.append, Everywhere.singleton, spread_cons, spread_nil,
        Nat.add_zero, ← spread] at inside
      rw [root, Everywhere.singleton, children_withChildren, Everywhere.append, Everywhere.append,
        spread_append, ← Nat.add_assoc]
      refine ⟨marked ?_, ⟨inside.1, inside.2.1.2⟩, inside.2.2⟩
      rw [isMarked, Bool.or_eq_true]
      exact Or.inr rfl

end Marked

theorem everywhere_wrapRemains
    (vouched : ∀ s ∈ r.live, ∃ P o, Vouched task.language task.text P o s.entries)
    (problem : Problem) :
    Everywhere (Vouches task.language task.text) 0 [(r.wrapRemains task problem).1] := by
  have best : Everywhere (Vouches task.language task.text) 0 (standing r.live) ∧
      ∀ g ∈ standing r.live, g.Joined := by
    rw [standing]
    split
    · next s best =>
      obtain ⟨P, o, vouched⟩ := vouched s (Frontier.mem_of_best? best)
      exact ⟨vouched.inside, joined_nodesOf vouched.joined⟩
    · exact ⟨.nil, by simp⟩
  have all : Everywhere (Vouches task.language task.text) 0 (r.remains task) ∧
      ∀ g ∈ r.remains task, g.Joined := by
    rw [remains_eq]
    split
    · refine ⟨Everywhere.append.mpr ⟨best.1, Everywhere.singleton.mpr ⟨.of_token rfl, .nil⟩⟩, ?_⟩
      exact List.forall_mem_append.mpr ⟨best.2, List.forall_mem_singleton.mpr (.of_leaf rfl)⟩
    · exact best
  exact everywhere_errorNode .of_marked all.1 fun g hg => (all.2 g hg).summed

end Ends

section Parse

variable {g : FlatGrammar} {a : Automaton} (founded : task.language.Founded g a)
  (loaded : task.language.Loaded) (small : task.text.size ≤ Size.largest)
  {tokens : List Lookahead} {outcome : Outcome}

include founded loaded small

theorem assured_reached (reached : Reached task none tokens r) : r.Assured task := by
  induction reached with
  | initial =>
    intro s hs
    rw [List.mem_singleton.mp hs]
    exact .nil
  | @turn r r' tokens reached more ih =>
    obtain ⟨d, does⟩ := does_of_turn more
    obtain ⟨-, -, good⟩ := lookahead_spec reached.good
    obtain ⟨reports, live⟩ := lookahead_reports task r
    rw [lookahead_fresh reached.good.inside, ← live, ← reports.position] at does
    exact assured_does founded loaded small good (fun s hs => live ▸ ih s (live ▸ hs)) does

/-- Whichever way it ends, all that stands in the tree of a parse without an old tree and is not
marked can be made again. -/
theorem everywhere_of_closes (closes : Closes task none tokens outcome) :
    Everywhere (Vouches task.language task.text) 0 [outcome.root] := by
  have of_assured {r : Run} (assured : r.Assured task) :
      ∀ s ∈ r.live, ∃ P o, Vouched task.language task.text P o s.entries :=
    fun s hs => ⟨_, _, assured s hs⟩
  cases closes with
  | cancelled reached =>
    exact everywhere_wrapRemains
      (of_assured (assured_reached founded loaded small reached)) .cancelled
  | @exceeded r _ reached =>
    have live : (r.report (.steps (task.config.stepBudget task.text.size))).live = r.live := by
      rw [report]
      split <;> rfl
    refine everywhere_wrapRemains (fun s hs => ?_) .incomplete
    exact of_assured (assured_reached founded loaded small reached) s (live ▸ hs)
  | @done r r' tokens root reached done =>
    have ends := ends_of_turn done
    obtain ⟨-, -, good⟩ := lookahead_spec reached.good
    obtain ⟨reports, live⟩ := lookahead_reports task r
    have assured := assured_reached founded loaded small reached
    rw [lookahead_fresh reached.good.inside, ← live, ← reports.position] at ends
    have phase := holding_phase good fun s hs => live ▸ assured s (live ▸ hs)
    cases ends with
    | accept atEnd best =>
      obtain ⟨s, holding, branches⟩ := phase.accepted _ (Frontier.mem_of_best? best)
      have whole := built_whole founded
        (fun root hroot => absurd hroot (Option.not_mem_none root)) holding.built
      exact everywhere_accept .of_marked founded (branches.entries ▸ whole)
        (branches.entries ▸ holding.vouched.inside)
    | dead unaccepted unshifted unfailed =>
      refine everywhere_wrapRemains (fun s hs => ?_) .incomplete
      rw [countRecovered, (reduceAll_idles _).live] at hs
      cases hs
    | @stuck s r₁ r₂ atEnd best unrepaired unwrapped =>
      refine everywhere_wrapRemains (fun t ht => ?_) .incomplete
      rw [List.mem_singleton.mp ht]
      exact ⟨_, _, (phase.failed s (Frontier.mem_of_best? best)).vouched⟩

end Parse

end Run

/-- Every node of the tree of a parse without an old tree, unless it is marked, can be made again by
itself from the text. -/
theorem Parser.vouches_parse {G : Grammar} {p : Parser} {text : Text}
    (compiled : p.language.Compiled G) (unaided : p.language.scanner = none)
    (small : text.size ≤ Size.largest) (interrupts : Interrupts) {o : Nat} {n : Green}
    (held : (p.parse text none interrupts).value.tree.root.Holds o n) :
    Vouches p.language text o n := by
  obtain ⟨g, a, -, founded⟩ := compiled.founded
  have closes := Run.closes_outcome (p.task text) interrupts (p.oldRoot none)
  rw [tree_parse] at held
  generalize Run.outcome (p.task text) interrupts (p.oldRoot none) = outcome at closes held
  have all := Run.everywhere_of_closes founded (compiled.loaded unaided) small closes
  have here := (Everywhere.cons.mp all).1 o n held
  rwa [Nat.zero_add] at here

end Glr
