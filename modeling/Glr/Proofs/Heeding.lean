import Glr.Proofs.Edges
import Glr.Proofs.Handover

/-!
# Trees without errors heed their text

As long as a parse comes upon no error, its stacks wait for the token that is to close the trees on
top of them (`Run.Awaiting`): it is read in the state that is known of the edge of the stack, or in
one that sees the same.  So a turn that deals with that token leaves all trees of the stacks heeding
the text (`Run.attentive_turn`), and what is accepted in the end heeds it everywhere
(`Run.heeds_of_closes`).

Of an old tree this asks that the trees that can be taken over heed the text, and that the states
before and behind the last reductions of each see the same (`Run.Leans`).
-/

namespace Glr

open Green

/-! ## The top of a stack -/

section Top

variable {l : Language} {text : Text} {t : Symbol} {e : StackEntry} {es : List StackEntry}

/-- A token heeds any text. -/
theorem heeds_token {g : Green} (token : g.production = none) (leafless : g.children = [])
    (x : Nat) : Everywhere (Heeds l text) x [g] := by
  rw [Everywhere.singleton, leafless]
  refine ⟨fun _ inner => ?_, .nil⟩
  rw [token] at inner
  cases inner

/-- Where the tree on top heeds the text and starts with a token, it is closed by the token that is
read behind it. -/
theorem closed_of_heeds {place : Nat} (guided : Guided l es)
    (heeds : Everywhere (Heeds l text) 0 (nodesOf es))
    (starts : ∀ e ∈ (es.dropWhile (·.extra)).head?, e.node.isMarked = false →
      e.node.first?.isSome = true)
    (passed : ∀ o ∈ edge l es,
      l.Passes text o (spread (nodesOf (es.dropWhile (·.extra)))) place ∧
        (l.reads text o place).symbol = t ∧ l.setsAside o (l.reads text o place) = false) :
    Closed l t es := by
  have shown := List.takeWhile_append_dropWhile (p := (·.extra)) (l := es)
  have extras : ∀ e ∈ es.takeWhile (·.extra), e.extra = true :=
    fun e he => List.all_eq_true.mp List.all_takeWhile e he
  have plain := List.head?_dropWhile_not (·.extra) es
  generalize es.takeWhile (·.extra) = trailing at shown extras
  generalize es.dropWhile (·.extra) = rest at shown plain starts passed
  subst shown
  rw [closed_extras extras]
  rw [edge_extras extras] at passed
  cases rest with
  | nil => exact trivial
  | cons e below =>
    have plain : e.extra = false := by simpa using plain
    have guided : Guided l (e :: below) := guided.of_append
    rw [closed_plain plain]
    intro unmarked
    have first := starts e rfl unmarked
    refine ⟨?_, fun none => by rw [none] at first; cases first⟩
    cases inner : e.node.production with
    | none => exact closes_token inner
    | some id =>
      have here := guided.1 unmarked
      have inner : e.node.production.isSome = true := inner ▸ rfl
      obtain ⟨o, opened⟩ := Option.isSome_iff_exists.mp
        (isSome_opened_past l (.of (stateOver below)) e.node first)
      have known : o ∈ edge l (e :: below) := by
        rw [edge_solid plain unmarked, opened]
        exact Option.mem_some_self o
      obtain ⟨passes, symbol, taken⟩ := passed o known
      rw [nodesOf_append, Everywhere.append, nodesOf_cons, Everywhere.append,
        Everywhere.singleton] at heeds
      rw [nodesOf_cons, spread_append, spread_cons, spread_nil, Nat.add_zero] at passes
      have closing := heeds.1.2.1 unmarked inner o (by rw [here.parseState inner]; exact opened)
      rw [Nat.zero_add] at closing
      cases closing.behind passes with
      | pass aside =>
        rw [aside] at taken
        cases taken
      | meet _ closes _ =>
        rw [symbol, here.parseState inner] at closes
        exact closes

end Top

namespace Run

variable {task : ParseTask} {old : Option Green} {root : Green} {r r' : Run} {la : Lookahead}
  {s : Stack} {tokens : List Lookahead}

/-- What a parse relies on of an old tree: the token ahead is the one that is read, what can be
taken over heeds the text, and behind it the states before and after its last reductions see the
same. -/
structure Leans (task : ParseTask) (old : Option Green) : Prop where
  fits : Green.Fits task.text old
  recalls : task.language.Recalls task.text old
  reads : ∀ {tokens : List Lookahead} {r : Run}, Reached task old tokens r →
    (r.lookahead task).1.token = (lexed task r.live r.position).token ∧
      (r.lookahead task).1.Alike (lexed task r.live r.position)
  takes : ∀ {state target : StateId} {o : Nat} {g : Green},
    Fitting task.language old state o g target → g.production.isSome = true ∧
      g.isExtra = false ∧ g.first?.isSome = true ∧
      Everywhere (Heeds task.language task.text) o [g]
  hands : ∀ {tokens : List Lookahead} {r : Run}, Reached task old tokens r →
    ∀ {s : Stack} {g : Green} {target : StateId}, r.takenOver? task = some (s, g, target) →
      ∀ opened ∈ (task.language.past (.of g.parseState) g).opened,
        task.language.Handover task.text (fun _ => true) opened target
          (r.position.offset + g.length)

/-- What is known of a stack between two turns.  While there are others, no state is known of its
edge. -/
structure Awaiting (task : ParseTask) (r : Run) (s : Stack) : Prop where
  guided : Guided task.language s.entries
  heeds : Everywhere (Heeds task.language task.text) 0 (nodesOf s.entries)
  starts : ∀ e ∈ (s.entries.dropWhile (·.extra)).head?, e.node.isMarked = false →
    e.node.first?.isSome = true
  passed : ∀ o ∈ edge task.language s.entries, r.live.length = 1 ∧
    task.language.Passes task.text o (spread (nodesOf (s.entries.dropWhile (·.extra))))
      r.position.offset ∧
    (o = s.state ∨
      task.language.Handover task.text (fun _ => true) o s.state r.position.offset)

/-- Every live stack without an error waits for the next token. -/
def Attentive (task : ParseTask) (r : Run) : Prop :=
  ∀ s ∈ r.live, anyError s.entries = false → Awaiting task r s

theorem anyError_mends {s' : Stack} (mends : Mends task la s s') : anyError s'.entries = true := by
  cases mends with
  | missing => exact anyError_pushMissing _ _ _ _ _
  | wrap wrapped => exact Repair.anyError_wrap wrapped

theorem attentive_of_error (wrong : ∀ s ∈ r.live, anyError s.entries = true) :
    r.Attentive task := by
  intro s hs right
  rw [wrong s hs] at right
  cases right

section Stacks

variable {tokens : List Lookahead}

/-- The token ahead is read in the state of the one stack. -/
theorem Leans.reads_single (leans : Leans task old) (reached : Reached task old tokens r)
    (single : r.live = [s]) : (r.lookahead task).1.token =
      task.language.reads task.text s.state r.position.offset := by
  have token := (leans.reads reached).1
  rw [single] at token
  exact token

theorem lookahead_start (good : r.Good task old) : (r.lookahead task).1.start = r.position :=
  (lookahead_spec good).2.1.trans (lookahead_reports task r).1.position

/-- A leaf that is made of the token ahead is a token. -/
theorem Leans.leaf_ahead (leans : Leans task old) (reached : Reached task old tokens r) (q : Run)
    (state : StateId) {flags : NodeFlags} (present : flags.missing = false) :
    ((q.makeLeaf (r.lookahead task).1 state flags).1).production = none ∧
      ((q.makeLeaf (r.lookahead task).1 state flags).1).isExtra = flags.extra ∧
      ((q.makeLeaf (r.lookahead task).1 state flags).1).isFragile = flags.fragile := by
  have same := (leans.reads reached).2.leaf q q state state flags present
  exact ⟨production_congr same, isExtra_congr same, isFragile_congr same⟩

/-- A token that calls for a look at the tables is met by all stacks that wait for it. -/
theorem Awaiting.attending (awaiting : Awaiting task r s) (leans : Leans task old)
    (reached : Reached task old tokens r) (hs : s ∈ r.live)
    (right : (r.lookahead task).1.token.isError = false)
    (needed : (r.lookahead task).2.isPlainExtra task.language (r.lookahead task).1 = false) :
    Attending task (r.lookahead task).1 s.entries := by
  have start : (r.lookahead task).1.start.offset = r.position.offset :=
    congrArg (·.offset) (lookahead_start reached.good)
  have passed : ∀ o ∈ edge task.language s.entries,
      task.language.Passes task.text o (spread (nodesOf (s.entries.dropWhile (·.extra))))
        (r.lookahead task).1.start.offset ∧
      (task.language.reads task.text o (r.lookahead task).1.start.offset).sight =
        (r.lookahead task).1.token.sight ∧
      task.language.setsAside o
        (task.language.reads task.text o (r.lookahead task).1.start.offset) = false := by
    intro o ho
    obtain ⟨sole, passes, sees⟩ := awaiting.passed o ho
    obtain ⟨t, single⟩ := List.length_eq_one_iff.mp sole
    obtain rfl : s = t := List.mem_singleton.mp (single ▸ hs)
    have token := leans.reads_single reached single
    have taken : task.language.setsAside s.state
        (task.language.reads task.text s.state r.position.offset) = false := by
      rw [← token, ← isPlainExtra_single ((lookahead_reports task r).2.trans single) _ right]
      exact needed
    rw [start, token]
    refine ⟨passes, ?_⟩
    rcases sees with rfl | handover
    · exact ⟨rfl, taken⟩
    · cases handover with
      | pass _ _ aside =>
        rw [aside] at taken
        cases taken
      | meet same taken' => exact ⟨same, taken'⟩
  exact ⟨awaiting.guided, awaiting.heeds, passed, closed_of_heeds awaiting.guided awaiting.heeds
    awaiting.starts fun o ho =>
      ⟨(passed o ho).1, congrArg (·.symbol) (passed o ho).2.1, (passed o ho).2.2⟩⟩

/-- A tree that starts with a token is pushed while a token is dealt with. -/
theorem Awaiting.push {t : Stack} {n : Green} {target : StateId} {stop : Position}
    {es : List StackEntry} (attending : Attending task la es)
    (entries : t.entries = ⟨target, n, stop, false⟩ :: es)
    (place : spread (nodesOf t.entries) = r.position.offset)
    (guided : n.isMarked = false → StackEntry.Guided task.language es ⟨target, n, stop, false⟩)
    (heeds : Everywhere (Heeds task.language task.text) (spread (nodesOf es)) [n])
    (starts : n.first?.isSome = true)
    (sole : n.isMarked = false → r.live.length = 1)
    (sees : n.isMarked = false → ∀ o ∈ (task.language.past (.of (stateOver es)) n).opened,
      o = t.state ∨ task.language.Handover task.text (fun _ => true) o t.state r.position.offset) :
    Awaiting task r t := by
  rw [entries] at place
  have top : t.entries.dropWhile (·.extra) = ⟨target, n, stop, false⟩ :: es := by
    rw [entries, List.dropWhile_cons_of_neg Bool.false_ne_true]
  refine ⟨entries ▸ ⟨guided, attending.guided⟩, ?_, fun e he _ => ?_, fun o ho => ?_⟩
  · rw [entries, nodesOf_cons, Everywhere.append, Nat.zero_add]
    exact ⟨attending.heeds, heeds⟩
  · rw [top] at he
    obtain rfl := Option.some.inj he
    exact starts
  · rw [entries] at ho
    cases marked : n.isMarked with
    | true =>
      rw [edge_marked rfl marked] at ho
      cases ho
    | false =>
      obtain ⟨o', opened⟩ := Option.isSome_iff_exists.mp
        (isSome_opened_past task.language (.of (stateOver es)) n starts)
      have ho : o ∈ (task.language.past (.of (stateOver es)) n).opened := by
        rw [edge_solid rfl marked, opened, Option.some_or] at ho
        rw [opened]
        exact ho
      rw [top, place]
      exact ⟨sole marked, .here, sees marked o ho⟩

end Stacks

section Turn

variable {g : FlatGrammar} {a : Automaton} (founded : task.language.Founded g a)
  (unaided : task.language.scanner = none) (small : task.text.size ≤ Size.largest)
  (leans : Leans task old) (rooted : ∀ root ∈ old, root.Rooted g)
  (reached : Reached task old tokens r) (attentive : r.Attentive task)

include founded unaided small leans reached attentive in
/-- All that comes of the reductions on a token has gone along with it. -/
theorem attending_phase (right : (r.lookahead task).1.token.isError = false)
    (needed : (r.lookahead task).2.isPlainExtra task.language (r.lookahead task).1 = false) :
    Phase.From task (r.lookahead task).1 (fun s =>
      Built task old (r.lookahead task).1.start.offset s.entries ∧
        (anyError s.entries = false → Attending task (r.lookahead task).1 s.entries))
      ((r.lookahead task).2.reduceAll task (r.lookahead task).1).1 := by
  have live := (lookahead_reports task r).2
  have start := lookahead_start reached.good
  refine reduceAll_from (fun {s s'} known takes => ?_) fun s hs => ?_
  · obtain ⟨built, attending⟩ := known
    refine ⟨built_of_takes (lookahead_spec reached.good).1 built takes, fun right => ?_⟩
    obtain ⟨id, b, c, branches, reduced, rfl⟩ := takes
    rw [(Stack.reduces_of_reduce? reduced).anyError_eq founded, branches.entries] at right
    rw [← branches.entries] at built attending
    refine (attending (branches.entries ▸ right)).reduce (tracked_of_built built)
      (built_truthful founded unaided small leans.fits leans.recalls built).tiled small reduced
      fun sturdy => ?_
    rw [Bool.or_eq_false_iff] at sturdy
    exact branches.single sturdy.2
  · rw [live] at hs
    exact ⟨start ▸ reached.good.built s hs, fun correct =>
      (attentive s hs correct).attending leans reached hs right needed⟩

include leans reached attentive in
/-- What the one stack sets aside is one token more that is passed. -/
theorem attentive_shiftExtra (right : (r.lookahead task).1.token.isError = false)
    (free : (r.lookahead task).2.isPlainExtra task.language (r.lookahead task).1 = true) :
    ((r.lookahead task).2.shiftExtra (r.lookahead task).1 0).Attentive task := by
  have live := (lookahead_reports task r).2
  have ahead := (lookahead_spec reached.good).1
  generalize moved : (r.lookahead task).2.shiftExtra (r.lookahead task).1 0 = r'
  obtain ⟨state, flags, present, extra, pushed, position⟩ : ∃ state flags,
      flags.missing = false ∧ flags.extra = true ∧
      r'.live = r.live.map (fun s => (s.push ⟨s.state, ((r.lookahead task).2.makeLeaf
        (r.lookahead task).1 state flags).1, (r.lookahead task).1.stop, true⟩).charge 0) ∧
      r'.position = (r.lookahead task).1.stop := by
    subst moved
    exact ⟨_, { NodeFlags.onlyExtra with fragile := (r.lookahead task).2.live.length > 1 }, rfl,
      rfl, congrArg (List.map _) ((Keeps.makeLeaf _ _ _).live.trans live), rfl⟩
  obtain ⟨token, isExtra, -⟩ := leans.leaf_ahead reached (r.lookahead task).2 state present
  have leafless := (ahead.leaf_spec (r.lookahead task).2 state flags).1
  generalize ((r.lookahead task).2.makeLeaf (r.lookahead task).1 state flags).1 = leaf
    at pushed token isExtra leafless
  intro t ht correct
  rw [pushed] at ht
  obtain ⟨s, hs, rfl⟩ := List.mem_map.mp ht
  have correct : (leaf.hasError || anyError s.entries) = false := correct
  have awaiting := attentive s hs (Bool.or_eq_false_iff.mp correct).2
  refine ⟨⟨fun _ => ⟨?_, (isExtra.trans extra).symm, fun _ => token, fun inner => ?_⟩,
    awaiting.guided⟩, ?_, awaiting.starts, fun o ho => ?_⟩
  · rw [past_extra token (isExtra.trans extra)]
    exact s.state_eq
  · rw [token] at inner
    cases inner
  · show Everywhere _ 0 (nodesOf (_ :: s.entries))
    rw [nodesOf_cons, Everywhere.append]
    exact ⟨awaiting.heeds, heeds_token token leafless _⟩
  · have ho : o ∈ edge task.language s.entries := ho
    obtain ⟨sole, passes, sees⟩ := awaiting.passed o ho
    obtain ⟨t, single⟩ := List.length_eq_one_iff.mp sole
    obtain rfl : s = t := List.mem_singleton.mp (single ▸ hs)
    have stop : r'.position.offset =
        (task.language.reads task.text s.state r.position.offset).span.stop := by
      rw [position, (leans.reads reached).2.stop, single]
      rfl
    have aside : task.language.setsAside s.state
        (task.language.reads task.text s.state r.position.offset) = true := by
      rw [← leans.reads_single reached single, ← isPlainExtra_single (live.trans single) _ right]
      exact free
    refine ⟨by rw [pushed, List.length_map]; exact sole, ?_⟩
    show task.language.Passes task.text o (spread (nodesOf (s.entries.dropWhile (·.extra))))
      r'.position.offset ∧ (o = s.state ∨ task.language.Handover task.text (fun _ => true) o s.state
        r'.position.offset)
    rw [stop]
    rcases sees with rfl | handover
    · exact ⟨passes.on aside, Or.inl rfl⟩
    · cases handover with
      | pass same aside' _ rest =>
        exact ⟨congrArg (·.span.stop) same ▸ passes.on aside', Or.inr rest⟩
      | meet _ _ taken =>
        rw [aside] at taken
        cases taken

end Turn

section Pushes

variable {g : FlatGrammar} {a : Automaton} (founded : task.language.Founded g a)
  (small : task.text.size ≤ Size.largest) (leans : Leans task old)

include founded small leans

/-- A token that is shifted is marked or stands alone. -/
theorem attentive_pushToken {shifts : List (Stack × StateId)} (ahead : Ahead task old la)
    (leaf : ∀ (state : StateId) (flags : NodeFlags), flags.missing = false →
      (r.makeLeaf la state flags).1.production = none ∧
        (r.makeLeaf la state flags).1.isExtra = flags.extra ∧
        (r.makeLeaf la state flags).1.isFragile = flags.fragile)
    (came : ∀ m ∈ shifts, ∃ s, (anyError s.entries = false → Attending task la s.entries) ∧
      Branches task la s (.shift m.2) m.1)
    (after : ((r.pushToken la shifts).settle task.config).Good task old) :
    ((r.pushToken la shifts).settle task.config).Attentive task := by
  obtain ⟨state, pushed⟩ := pushToken_live r la shifts
  generalize hflags : NodeFlags.fragileIf (shifts.length > 1 || shifts.any fun m => m.1.forked) =
    flags at pushed
  obtain ⟨token, plain, fragile⟩ := leaf state flags (hflags ▸ rfl)
  obtain ⟨leafless, symbol, -⟩ := ahead.leaf_spec r state flags
  generalize (r.makeLeaf la state flags).1 = n at pushed token plain fragile leafless symbol
  have plain : n.isExtra = false := plain.trans (hflags ▸ rfl)
  intro t ht correct
  obtain ⟨u, hu, entries⟩ := (settle_reports task.config _).2 t ht
  rw [pushed] at hu
  obtain ⟨m, hm, rfl⟩ := List.mem_map.mp hu
  have entries : t.entries = ⟨m.2, n, la.stop, false⟩ :: m.1.entries := entries
  have alone (unmarked : n.isMarked = false) : shifts = [m] ∧ m.1.forked = false :=
    alone_of_unmarked (fragile.trans (hflags ▸ rfl)) unmarked hm
  obtain ⟨s, attending, branches⟩ := came m hm
  rw [entries, anyError_cons, Bool.or_eq_false_iff] at correct
  have attending := attending (branches.entries ▸ correct.2)
  rw [← branches.entries] at attending
  have state (unmarked : n.isMarked = false) : m.2 =
      task.language.shifted (stateOver m.1.entries) n.symbol := by
    rw [Language.shifted, symbol, ← Stack.state_eq, branches.single (alone unmarked).2]
  refine .push attending entries (built_spread founded leans.fits small (after.built t ht)).2
    (fun unmarked => ⟨?_, plain.symm, (absurd · Bool.false_ne_true), fun inner => ?_⟩)
    (heeds_token token leafless _) (by rw [first?_token token plain]; rfl) (fun unmarked => ?_)
    fun unmarked o ho => Or.inl ?_
  · rw [past_token token plain]
    exact state unmarked
  · rw [token] at inner
    cases inner
  · obtain ⟨rfl, -⟩ := alone unmarked
    rw [(settle_single task.config pushed).1]
    rfl
  · rw [past_token token plain] at ho
    rw [← Option.some.inj ho, t.state_eq, entries]
    exact (state unmarked).symm

/-- A subtree that is taken over hands over to the state behind it. -/
theorem attentive_pushSubtree {n : Green} {target : StateId}
    (attending : anyError s.entries = false → Attending task la s.entries)
    (place : spread (nodesOf s.entries) = la.start.offset)
    (fitting : Fitting task.language old s.state la.start.offset n target)
    (hands : ∀ opened ∈ (task.language.past (.of n.parseState) n).opened,
      task.language.Handover task.text (fun _ => true) opened target (la.start.offset + n.length))
    (after : ((r.pushSubtree la s n target).settle task.config).Good task old) :
    ((r.pushSubtree la s n target).settle task.config).Attentive task := by
  obtain ⟨inner, plain, starts, heeds⟩ := leans.takes fitting
  obtain ⟨id, production⟩ := Option.isSome_iff_exists.mp inner
  obtain ⟨live, position, -⟩ := settle_single task.config (r := r.pushSubtree la s n target) rfl
  intro t ht correct
  have here := (built_spread founded leans.fits small (after.built t ht)).2
  have alone : ((r.pushSubtree la s n target).settle task.config).live.length = 1 := by
    rw [live]
    rfl
  rw [live] at ht
  obtain rfl := List.mem_singleton.mp ht
  have correct : anyError (⟨target, n, _, false⟩ :: s.entries) = false := correct
  rw [anyError_cons, Bool.or_eq_false_iff] at correct
  refine .push (attending correct.2) rfl here (fun _ => ⟨?_, plain.symm,
    (absurd · Bool.false_ne_true), fun _ => fitting.parseState.trans s.state_eq⟩) (place ▸ heeds)
    starts (fun _ => alone) fun _ o ho => Or.inr ?_
  · rw [past_node production]
    show target = (task.language.goto? (stateOver s.entries) n.symbol).getD 0
    rw [← Stack.state_eq, fitting.goto]
    rfl
  · have ends : ((r.pushSubtree la s n target).settle task.config).position.offset =
        la.start.offset + n.length := by
      rw [← here]
      show spread (nodesOf (_ :: s.entries)) = _
      rw [nodesOf_cons, spread_append, place, spread_cons, spread_nil, Nat.add_zero]
    rw [ends]
    rw [fitting.parseState, Stack.state_eq] at hands
    exact hands o ho

end Pushes

section Turn

variable {g : FlatGrammar} {a : Automaton} (founded : task.language.Founded g a)
  (unaided : task.language.scanner = none) (small : task.text.size ≤ Size.largest)
  (leans : Leans task old) (rooted : ∀ root ∈ old, root.Rooted g)
  (reached : Reached task old tokens r) (attentive : r.Attentive task)

include founded unaided small leans reached attentive

theorem attentive_shiftAll (right : (r.lookahead task).1.token.isError = false)
    (needed : (r.lookahead task).2.isPlainExtra task.language (r.lookahead task).1 = false)
    (after : (((r.lookahead task).2.reduceAll task (r.lookahead task).1).2.shiftAll task
      (r.lookahead task).1
      ((r.lookahead task).2.reduceAll task (r.lookahead task).1).1.shifts).Good task old) :
    (((r.lookahead task).2.reduceAll task (r.lookahead task).1).2.shiftAll task
      (r.lookahead task).1
      ((r.lookahead task).2.reduceAll task (r.lookahead task).1).1.shifts).Attentive task := by
  have ahead := (lookahead_spec reached.good).1
  have start := congrArg (·.offset) (lookahead_start reached.good)
  have came := (attending_phase founded unaided small leans reached attentive right needed).shifts
  cases taken : r.takenOver? task with
  | none =>
    rw [takenOver?_eq] at taken
    obtain ⟨reuse, pushes⟩ := shiftAll_of_none taken
    rw [pushes] at after ⊢
    refine attentive_pushToken founded small leans ahead
      (fun state flags => leans.leaf_ahead reached _ state) (fun m hm => ?_) after
    obtain ⟨s, known, branches⟩ := came m hm
    exact ⟨s, known.2, branches⟩
  | some m =>
    obtain ⟨s, n, target⟩ := m
    obtain ⟨⟨next, shifts⟩, unforked, -, fitting⟩ := takenOver_spec reached.good taken
    have hands := leans.hands reached taken
    rw [takenOver?_eq] at taken
    obtain ⟨reuse, pushes⟩ := shiftAll_of_some taken
    rw [pushes] at after ⊢
    obtain ⟨s', known, branches⟩ := came (s, next) (shifts ▸ List.mem_singleton_self _)
    obtain rfl := branches.same unforked
    exact attentive_pushSubtree founded small leans known.2
      (built_spread founded leans.fits small known.1).2 fitting (start ▸ hands) after

include rooted

/-- A repair leaves an error on every stack, and so does a token that nothing matches. -/
theorem attentive_turn (more : r.turn task = .more r') : r'.Attentive task := by
  have ahead := (lookahead_spec reached.good).1
  have after := (reached.turn more).good
  have single {s : Stack} {r : Run} (wrong : anyError s.entries = true) :
      Attentive task { r with live := [s] } :=
    attentive_of_error (List.forall_mem_singleton.mpr wrong)
  obtain ⟨d, does⟩ := does_of_turn more
  rw [Run.turn] at more
  dsimp only at more
  rw [step_eq] at more
  cases wrong : (r.lookahead task).1.token.isError with
  | true =>
    rw [if_pos wrong] at more
    cases more
    refine attentive_of_error fun s hs => ?_
    rw [takeUnknown] at hs
    obtain ⟨state, flags, clean, present, same⟩ := shiftExtra_eq _ (r.lookahead task).1 _
    rw [same] at hs
    obtain ⟨t, -, rfl⟩ := List.mem_map.mp hs
    show (Green.hasError _ || anyError t.entries) = true
    rw [ahead.hasError_leaf founded rooted _ state clean present (Or.inl wrong), wrong,
      Bool.true_or]
  | false =>
    rw [if_neg (Bool.eq_false_iff.mp wrong)] at more
    cases free : (r.lookahead task).2.isPlainExtra task.language (r.lookahead task).1 with
    | true =>
      rw [if_pos free] at more
      cases more
      exact attentive_shiftExtra leans reached attentive wrong free
    | false =>
      cases does with
      | unknown wrong' =>
        rw [wrong] at wrong'
        cases wrong'
      | extra free' =>
        rw [free] at free'
        cases free'
      | shift some =>
        exact attentive_shiftAll founded unaided small leans reached attentive wrong free after
      | @repair s s' r' best repaired =>
        exact single (anyError_mends ((tryInPlace_mends task _ s _).2 s' (by rw [repaired])))
      | @wrap s s' r' r'' atEnd best unrepaired wrapped =>
        exact single (anyError_mends ((tryWrap_mends task _ s _ _).2 s' (by rw [wrapped])))
      | @skip s r' r'' yields few skipped =>
        rw [skipToken] at skipped
        cases skipped
        exact single (Repair.anyError_skip _ _ _ _)
      | @sealRest s r' r'' yields many sealed =>
        rw [sealRest] at sealed
        cases sealed
        exact single (Repair.anyError_skip _ _ _ _)

omit attentive reached

theorem attentive_reached (reached : Reached task old tokens r) : r.Attentive task := by
  induction reached with
  | initial =>
    intro s hs _
    obtain rfl := List.mem_singleton.mp hs
    exact ⟨trivial, .nil, fun _ he => absurd he (Option.not_mem_none _),
      fun o ho => absurd ho (Option.not_mem_none o)⟩
  | turn reached more ih =>
    exact attentive_turn founded unaided small leans rooted reached ih more

/-- A tree without errors heeds the text everywhere. -/
theorem heeds_of_closes {outcome : Outcome} (closes : Closes task old tokens outcome)
    (right : outcome.root.hasError = false) :
    Everywhere (Heeds task.language task.text) 0 [outcome.root] := by
  have wrapped {gs : List Green} (right : (Repair.errorNode gs).value.hasError = false) :
      False := by
    rw [Repair.hasError_errorNode] at right
    cases right
  cases closes with
  | cancelled => exact (wrapped right).elim
  | exceeded => exact (wrapped right).elim
  | @done r r' tokens root reached done =>
    have attentive := attentive_reached founded unaided small leans rooted reached
    have ends := ends_of_turn done
    rw [Run.turn] at done
    dsimp only at done
    rw [step_eq] at done
    have matched : (r.lookahead task).1.token.isError = false := by
      rw [Bool.eq_false_iff]
      intro wrong
      rw [if_pos wrong] at done
      cases done
    rw [if_neg (Bool.eq_false_iff.mp matched)] at done
    have needed : (r.lookahead task).2.isPlainExtra task.language (r.lookahead task).1 = false := by
      rw [Bool.eq_false_iff]
      intro free
      rw [if_pos free] at done
      cases done
    cases ends with
    | dead => exact (wrapped right).elim
    | stuck => exact (wrapped right).elim
    | @accept s atEnd best =>
      have phase := attending_phase founded unaided small leans reached attentive matched needed
      obtain ⟨s', ⟨built, attending⟩, branches⟩ := phase.accepted s (Frontier.mem_of_best? best)
      rw [← branches.entries] at built attending
      have correct := hasError_accept founded (built_sprouting founded rooted built) branches.mem
      have whole := built_whole founded (fun root hroot => (leans.fits root hroot).1) built
      exact everywhere_accept (fun marked unmarked => by rw [marked] at unmarked; cases unmarked)
        founded whole (attending (correct.symm.trans right)).heeds

end Turn

/-! ## What a parse can lean on -/

/-- Without an old tree all is read. -/
theorem Leans.fresh (task : ParseTask) : Leans task none where
  fits root hroot := absurd hroot (Option.not_mem_none root)
  recalls root hroot := absurd hroot (Option.not_mem_none root)
  reads reached := by
    rw [lookahead_fresh reached.good.inside]
    exact ⟨rfl, lexed_alike task _ _⟩
  takes fitting := by
    obtain ⟨root, hroot, -⟩ := fitting.held
    exact absurd hroot (Option.not_mem_none root)
  hands reached _ _ _ taken := by
    obtain ⟨-, -, -, fitting⟩ := takenOver_spec reached.good taken
    obtain ⟨root, hroot, -⟩ := fitting.held
    exact absurd hroot (Option.not_mem_none root)

section Legacy

variable {g : FlatGrammar} {a : Automaton} (legacy : Legacy task root)
  (heeds : ∀ o n, root.Holds o n → n.isDamaged = false →
    Everywhere (Heeds task.language task.text) o [n])
  (hands : HandsOver task root true)

include legacy heeds hands

theorem leans_of_legacy (founded : task.language.Founded g a) : Leans task (some root) where
  fits := legacy.fits
  recalls := legacy.recalls
  reads reached := lookahead_reads legacy reached.good.inside (states_known founded reached)
  takes fitting := by
    obtain ⟨inner, alone⟩ := legacy.retraces fitting
    obtain ⟨_, hroot, held⟩ := fitting.held
    obtain rfl := Option.mem_some_iff.mp hroot
    exact ⟨inner, alone.isExtra_eq_false inner, legacy.first?_isSome fitting,
      heeds _ _ held fitting.undamaged⟩
  hands reached _ _ _ taken := hands _ _ reached _ _ _ taken

/-- What heeds the text and sees the same behind it is closed by what is there. -/
theorem HandsOver.closes : HandsOver task root false := by
  intro tokens r reached s n target taken opened isOpened
  obtain ⟨-, -, -, fitting⟩ := takenOver_spec reached.good taken
  obtain ⟨inner, -⟩ := legacy.retraces fitting
  obtain ⟨_, hroot, held⟩ := fitting.held
  obtain rfl := Option.mem_some_iff.mp hroot
  have unmarked : n.isMarked = false := by
    rw [isMarked, fitting.correct, fitting.sturdy, Bool.or_false]
  have here := (Everywhere.singleton.mp (heeds _ _ held fitting.undamaged)).1
  rw [lookahead_start reached.good] at here
  exact (here unmarked inner opened isOpened).handover
    (hands tokens r reached s n target taken opened isOpened)

end Legacy

end Run

end Glr
