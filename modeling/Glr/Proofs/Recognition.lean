import Glr.Proofs.Lowered
import Glr.Proofs.Rows
import Mathlib

/-!
# The tables recognise the grammar

The tables are read here as what they are on paper: a nondeterministic machine with a stack of
states.  On the terminal ahead it takes any action of its cell, and it accepts where a cell says so.
The machine accepts only what the grammar derives, and everything it derives unless settling the
cells threw an action away (`tables_recognise`).

Soundness walks back.  The stack is a path through the automaton (`Path`), so the states below an
item with its dot at the end were entered by the symbols of its right side, and a reduction replaces
these by the left side.  Completeness walks forward, by induction over a forest of the text: an item
whose lookahead has what comes after it is carried over the symbols right of its dot.  The machine
that walks notes down on its way what it has built (`Reads`), so it is known to end not just
anywhere, but with the very forest it was led by.
-/

namespace Glr

/-- The states so far, the latest first, and the terminals that remain. -/
structure Configuration where
  stack : List StateId
  rest : List Symbol

namespace Configuration

/-- The terminal ahead, which after the text is its end. -/
def ahead (c : Configuration) : Symbol := c.rest.headD Symbol.endOfText

/-- Before a text. -/
def start (w : List Symbol) : Configuration := ⟨[0], w⟩

end Configuration

/-- The same with what was built, the latest first: a derivation for each symbol that led to a
state. -/
structure Reading where
  stack : List StateId
  trees : List Skeleton
  rest : List Symbol

def Reading.configuration (r : Reading) : Configuration := ⟨r.stack, r.rest⟩

namespace Tables

/-- One action of the cell for the terminal ahead. -/
inductive Step (t : Tables) : Configuration → Configuration → Prop where
  | shift {i j : StateId} {stack : List StateId} {s : Symbol} {rest : List Symbol}
      (action : .shift j ∈ t.actions i s) :
      Step t ⟨i :: stack, s :: rest⟩ ⟨j :: i :: stack, rest⟩
  | reduce {i j k : StateId} {stack below : List StateId} {rest : List Symbol} {p : ProductionId}
      {production : Production}
      (action : .reduce p ∈ t.actions i (Configuration.ahead ⟨i :: stack, rest⟩))
      (found : t.productions[p]? = some production)
      (uncovered : (i :: stack).drop production.length = k :: below)
      (goto : t.goto? k production.lhs = some j) :
      Step t ⟨i :: stack, rest⟩ ⟨j :: k :: below, rest⟩

/-- Any number of actions. -/
def Runs (t : Tables) : Configuration → Configuration → Prop := Relation.ReflTransGen t.Step

/-- A step that keeps what was built: a shift puts a token on it, and a reduction a node over as
many trees as its right side has symbols. -/
inductive Reads (t : Tables) : Reading → Reading → Prop where
  | shift {i j : StateId} {stack : List StateId} {trees : List Skeleton} {s : Symbol}
      {rest : List Symbol} (action : .shift j ∈ t.actions i s) :
      Reads t ⟨i :: stack, trees, s :: rest⟩ ⟨j :: i :: stack, .token s :: trees, rest⟩
  | reduce {i j k : StateId} {stack below : List StateId} {trees : List Skeleton}
      {rest : List Symbol} {p : ProductionId} {production : Production}
      (action : .reduce p ∈ t.actions i (Configuration.ahead ⟨i :: stack, rest⟩))
      (found : t.productions[p]? = some production)
      (uncovered : (i :: stack).drop production.length = k :: below)
      (goto : t.goto? k production.lhs = some j) :
      Reads t ⟨i :: stack, trees, rest⟩ ⟨j :: k :: below,
        .node p (trees.take production.length).reverse :: trees.drop production.length, rest⟩

theorem Reads.step {t : Tables} {r r' : Reading} (h : t.Reads r r') :
    t.Step r.configuration r'.configuration := by
  cases h with
  | shift action => exact .shift action
  | reduce action found uncovered goto => exact .reduce action found uncovered goto

/-- Some run reaches a cell that accepts. -/
def Accepts (t : Tables) (w : List Symbol) : Prop :=
  ∃ i stack rest, t.Runs (.start w) ⟨i :: stack, rest⟩ ∧
    .accept ∈ t.actions i (Configuration.ahead ⟨i :: stack, rest⟩)

end Tables

namespace Automaton

variable {g : FlatGrammar} {a : Automaton} {i : StateId} {stack : List StateId}
  {ss : List Symbol} {state : LrState}

/-- States that moves lead through, with the symbols of the moves; the latest first. -/
inductive Path (a : Automaton) : List StateId → List Symbol → Prop where
  | start : Path a [0] []
  | move {i j : StateId} {stack : List StateId} {s : Symbol} {ss : List Symbol} {state : LrState}
      (path : Path a (i :: stack) ss) (found : a.states[i]? = some state)
      (moves : state.moves.lookup s = some j) : Path a (j :: i :: stack) (s :: ss)

/-- Behind the first symbol a path is not in the first state again. -/
theorem Path.symbols_eq_nil (co : Coherent g a) (path : Path a (0 :: stack) ss) : ss = [] := by
  cases path with
  | start => rfl
  | move _ found moves => exact absurd rfl (co.target_ne_zero found moves)

/-- Below an item stand the symbols left of its dot. -/
theorem Path.unwind (co : Coherent g a) {p : ProductionId} :
    ∀ {n : Nat} {i : StateId} {stack : List StateId} {ss : List Symbol} {state : LrState},
      Path a (i :: stack) ss → a.states[i]? = some state → (⟨p, n⟩ : Item) ∈ state.items →
      ∃ j below before from', (i :: stack).drop n = j :: below ∧ Path a (j :: below) before ∧
        a.states[j]? = some from' ∧ Item.start p ∈ from'.items ∧
        ss.reverse = before.reverse ++ (g.rhs p).take n := by
  intro n
  induction n with
  | zero =>
    intro i stack ss state path hi mem
    refine ⟨i, stack, ss, state, rfl, path, hi, mem, ?_⟩
    rw [List.take_zero, List.append_nil]
  | succ n ih =>
    intro i stack ss state path hi mem
    cases path with
    | start => exact absurd (co.dot_eq_zero hi mem) (Nat.succ_ne_zero n)
    | @move k _ below s before from' path found moves =>
      obtain ⟨prev, hs⟩ := co.retreat found moves hi mem
      obtain ⟨j, below', before', from'', hdrop, path', hj, start, hss⟩ := ih path found prev
      refine ⟨j, below', before', from'', hdrop, path', hj, start, ?_⟩
      have take : (g.rhs p).take (n + 1) = (g.rhs p).take n ++ [s] := by
        rw [List.take_add_one, ← List.head?_drop, ← Option.toList_some]
        exact congrArg _ (congrArg Option.toList hs)
      rw [List.reverse_cons, hss, take, List.append_assoc]

end Automaton

namespace FlatGrammar

namespace Tabulated

variable {g : FlatGrammar} {t : Tables} {a : Automaton} (tab : Tabulated g t a)
  (wf : g.WellFormed)

include tab wf

/-! ## Soundness -/

/-- What a run has read so far is what the symbols of its path yield. -/
def Explained (g : FlatGrammar) (a : Automaton) (w : List Symbol) (c : Configuration) : Prop :=
  ∃ ss u, a.Path c.stack ss ∧ g.Yields ss.reverse u ∧ w = u ++ c.rest

theorem explained_step {w : List Symbol} {c c' : Configuration} (step : t.Step c c')
    (h : Explained g a w c) : Explained g a w c' := by
  have co := Automaton.coherent_ofGrammar tab.automaton
  obtain ⟨ss, u, path, yields, rfl⟩ := h
  cases step with
  | @shift i j stack s rest action =>
    obtain ⟨state, hi, moves⟩ := tab.shift_sound action
    have terminal := tab.isTerminal_of_mem wf action
    refine ⟨s :: ss, u ++ [s], .move path hi moves, ?_, ?_⟩
    · rw [List.reverse_cons]
      exact yields.append (.terminal terminal .nil)
    · rw [List.append_assoc, List.singleton_append]
  | @reduce i j k stack below rest p production action found uncovered goto =>
    obtain ⟨state, flat, hi, hp, mem⟩ := tab.reduce_sound action
    rw [tab.production hp] at found
    cases found
    obtain ⟨k', below', before, from', hdrop, path', hk, start, hss⟩ := path.unwind co hi mem
    obtain ⟨rfl, rfl⟩ := List.cons.inj (uncovered.symm.trans hdrop)
    have nonterminal := wf.lhs_nonterminal flat (Array.mem_of_getElem? hp)
    rw [tab.goto hk nonterminal] at goto
    refine ⟨flat.lhs :: before, u, .move path' hk goto, ?_, rfl⟩
    -- The right side is on top of the path, and what it yields is what the left side now yields.
    rw [hss, rhs_eq hp, List.take_length] at yields
    obtain ⟨x, y, rfl, hx, hy⟩ := yields.split
    have reduced := Yields.production (Array.mem_of_getElem? hp) hy .nil
    rw [List.append_nil] at reduced
    rw [List.reverse_cons]
    exact hx.append reduced

theorem explained_run {w : List Symbol} {c : Configuration} (run : t.Runs (.start w) c) :
    Explained g a w c := by
  induction run with
  | refl => exact ⟨[], [], .start, .nil, rfl⟩
  | tail _ step ih => exact tab.explained_step wf step ih

theorem derives_of_accepts {w : List Symbol} (hw : Symbol.endOfText ∉ w) (h : t.Accepts w) :
    g.Derives [g.start] w := by
  have co := Automaton.coherent_ofGrammar tab.automaton
  obtain ⟨i, stack, rest, run, accept⟩ := h
  obtain ⟨ss, u, path, yields, rfl⟩ := tab.explained_run wf run
  obtain ⟨atEnd, state, hi, mem⟩ := tab.accept_sound accept
  obtain ⟨j, below, before, from', -, path', hj, start, hss⟩ := path.unwind co hi mem
  obtain rfl := co.eq_zero_of_start_mem hj start
  rw [path'.symbols_eq_nil co, rhs_augmented, List.reverse_nil, List.nil_append] at hss
  rw [hss] at yields
  cases rest with
  | nil =>
    rw [List.append_nil]
    exact yields.derives
  | cons s rest =>
    have : s = Symbol.endOfText := atEnd
    exact absurd (List.mem_append_right u (this ▸ List.mem_cons_self)) hw

/-! ## Completeness -/

/-- A state has an item, with what follows its end ahead. -/
structure Awaits (g : FlatGrammar) (a : Automaton) (i : StateId) (item : Item) (v : List Symbol) :
    Prop where
  mem : ∃ state, a.states[i]? = some state ∧ item ∈ state.items
  ahead : ((g.lookaheads a).ofItem g a i item).contains (v.headD Symbol.endOfText) = true

/-- Where an item is awaited, its dot moves on with the symbol right of it. -/
theorem awaits_advance {i : StateId} {item : Item} {v : List Symbol} {s : Symbol}
    (h : Awaits g a i item v) (hs : item.next? g = some s) :
    ∃ state j, a.states[i]? = some state ∧ item ∈ state.items ∧
      state.moves.lookup s = some j ∧ Awaits g a j item.advance v := by
  have co := Automaton.coherent_ofGrammar tab.automaton
  have within := FirstSets.within_ofGrammar wf
  obtain ⟨⟨state, hi, mem⟩, ahead⟩ := h
  obtain ⟨j, next, moves, hj, kernel⟩ := co.advance wf hi mem hs
  exact ⟨state, j, hi, mem, moves, ⟨next, hj, co.kernel_subset hj kernel⟩,
    Lookaheads.advance_closed co within (Lookaheads.fit_ofAutomaton wf within)
      (Lookaheads.settled_ofAutomaton wf within) hi mem hs moves hj ahead⟩

/-- Where an item is awaited, so are the productions of the nonterminal right of its dot, with what
is left of the item behind them. -/
theorem awaits_predict {i : StateId} {item : Item} {u v : List Symbol} {p : ProductionId}
    {production : FlatProduction} (h : Awaits g a i item v)
    (hp : g.productions[p]? = some production) (hs : item.next? g = some production.lhs)
    (yields : g.Yields (item.advance.rest g) u) : Awaits g a i (Item.start p) (u ++ v) := by
  have co := Automaton.coherent_ofGrammar tab.automaton
  have within := FirstSets.within_ofGrammar wf
  obtain ⟨⟨state, hi, mem⟩, ahead⟩ := h
  refine ⟨⟨state, hi, ?_⟩, ?_⟩
  · rw [co.items hi] at mem ⊢
    exact Automaton.start_mem_closure wf mem hp hs
  · exact Lookaheads.predict_closed wf co within (Lookaheads.fit_ofAutomaton wf within)
      (Lookaheads.settled_ofAutomaton wf within) hi mem hp hs
      (FirstSets.contains_ofList_ahead wf yields ahead)

/-- Symbols right of a dot are read, and what is built is the forest they were derived by. -/
theorem reads_of_forest (keeps : g.DiscardsNothing) {ss u : List Symbol} {ts : List Skeleton}
    (forest : g.Forest ss ts u) :
    ∀ {i : StateId} (stack : List StateId) (trees : List Skeleton) {item : Item} {v : List Symbol},
      Awaits g a i item v → item.rest g = ss →
      ∃ j above, Relation.ReflTransGen t.Reads ⟨i :: stack, trees, u ++ v⟩
          ⟨j :: above, ts.reverse ++ trees, v⟩ ∧
        (j :: above).drop ss.length = i :: stack ∧
        Awaits g a j ⟨item.production, item.dot + ss.length⟩ v := by
  have next : ∀ {item : Item} {s : Symbol} {ss : List Symbol}, item.rest g = s :: ss →
      item.next? g = some s ∧ item.advance.rest g = ss := by
    intro item s ss h
    have hs : item.next? g = some s := by rw [Item.next?, h, List.head?_cons]
    rw [Item.rest_eq_cons hs] at h
    exact ⟨hs, (List.cons.inj h).2⟩
  induction forest with
  | nil => exact fun {i} stack trees {item v} awaits _ => ⟨i, stack, .refl, rfl, awaits⟩
  | @token s ss w ts isTerminal _ ih =>
    intro i stack trees item v awaits hrest
    obtain ⟨hs, hrest⟩ := next hrest
    obtain ⟨state, j, hi, mem, moves, awaits'⟩ := tab.awaits_advance wf awaits hs
    have shift := tab.shift_complete keeps hi wf mem hs isTerminal moves
    obtain ⟨k, above, run, uncovered, awaits''⟩ :=
      ih (i :: stack) (.token s :: trees) awaits' hrest
    refine ⟨k, above, .head (.shift shift) ?_, ?_, ?_⟩
    · rw [List.reverse_cons, List.append_assoc]
      exact run
    · rw [List.length_cons, ← List.drop_drop, uncovered]
      rfl
    · rw [List.length_cons, Nat.add_comm ss.length, ← Nat.add_assoc]
      exact awaits''
  | @node id p ss u w below ts hid body rest ihBody ihRest =>
    intro i stack trees item v awaits hrest
    have mem := Array.mem_of_getElem? hid
    obtain ⟨hs, hrest⟩ := next hrest
    have begins := tab.awaits_predict wf awaits hid hs (hrest ▸ rest.yields)
    obtain ⟨j, above, run, uncovered, ends⟩ :=
      ihBody stack trees begins (rhs_eq hid)
    obtain ⟨state, k, hi, -, moves, awaits'⟩ := tab.awaits_advance wf awaits hs
    obtain ⟨m, above', run', uncovered', awaits''⟩ :=
      ihRest (i :: stack) (.node id below :: trees) awaits' hrest
    -- Between the two runs the right side is on top of the stack and is reduced.
    have goto : t.goto? i p.lhs = some k := by
      rw [tab.goto hi (wf.lhs_nonterminal p mem), moves]
    obtain ⟨last, hj, complete⟩ := ends.mem
    have atEnd : (⟨id, 0 + p.rhs.length⟩ : Item).next? g = none := by
      rw [Item.next?, Item.rest, rhs_eq hid, Nat.zero_add, List.drop_length, List.head?_nil]
    have ne : id ≠ g.augmented := Nat.ne_of_lt (Array.getElem?_eq_some_iff.mp hid).1
    have reduce := tab.reduce_complete keeps hj wf complete atEnd ne ends.ahead
    have count : below.reverse.length = p.rhs.length :=
      (List.length_reverse).trans body.length_eq
    have step : t.Reads ⟨j :: above, below.reverse ++ trees, w ++ v⟩
        ⟨k :: i :: stack, .node id below :: trees, w ++ v⟩ := by
      have : t.Reads ⟨j :: above, below.reverse ++ trees, w ++ v⟩ _ :=
        .reduce reduce (tab.production hid) uncovered goto
      rwa [List.take_left' count, List.drop_left' count, List.reverse_reverse] at this
    refine ⟨m, above', ?_, ?_, ?_⟩
    · rw [List.append_assoc, List.reverse_cons, List.append_assoc]
      exact (run.tail step).trans run'
    · rw [List.length_cons, ← List.drop_drop, uncovered']
      rfl
    · rw [List.length_cons, Nat.add_comm ss.length, ← Nat.add_assoc]
      exact awaits''

/-- A forest of the start symbol is what the machine builds on its way to a cell that accepts. -/
theorem accepts_of_forest (keeps : g.DiscardsNothing) {w : List Symbol} {ts : List Skeleton}
    (forest : g.Forest [g.start] ts w) :
    ∃ j above, Relation.ReflTransGen t.Reads ⟨[0], [], w⟩ ⟨j :: above, ts.reverse, []⟩ ∧
      .accept ∈ t.actions j Symbol.endOfText := by
  have co := Automaton.coherent_ofGrammar tab.automaton
  have within := FirstSets.within_ofGrammar wf
  obtain ⟨state, hi, hkernel⟩ := co.start
  have awaits : Awaits g a 0 (Item.start g.augmented) [] :=
    ⟨⟨state, hi, co.kernel_subset hi (hkernel ▸ List.mem_singleton_self _)⟩,
      Lookaheads.contains_end co (Lookaheads.fit_ofAutomaton wf within)
        (Lookaheads.above_ofAutomaton wf within)⟩
  obtain ⟨j, above, run, -, ⟨last, hj, mem⟩, -⟩ :=
    tab.reads_of_forest wf keeps forest [] [] awaits rhs_augmented
  rw [List.append_nil, List.append_nil] at run
  refine ⟨j, above, run, tab.accept_complete keeps hj wf mem ?_ rfl⟩
  show ((g.rhs g.augmented).drop 1).head? = none
  rw [rhs_augmented]
  rfl

theorem accepts_of_derives (keeps : g.DiscardsNothing) {w : List Symbol}
    (hw : ∀ s ∈ w, g.isTerminal s = true) (h : g.Derives [g.start] w) : t.Accepts w := by
  obtain ⟨ts, forest⟩ := ((derives_iff_yields hw).mp h).exists_forest
  obtain ⟨j, above, run, accept⟩ := tab.accepts_of_forest wf keeps forest
  exact ⟨j, above, [], run.lift Reading.configuration fun _ _ => Tables.Reads.step, accept⟩

end Tabulated

/-- The machine of the tables accepts only what the start symbol derives, and all of it where
settling the cells discarded nothing. -/
theorem tables_recognise {G : Grammar} {g : FlatGrammar} {strict : Bool} {t : Tables}
    (lowered : G.lower = .ok g) (built : g.tables strict = .ok t) {w : List Symbol}
    (hw : ∀ s ∈ w, g.isTerminal s = true ∧ s ≠ Symbol.endOfText) :
    (t.Accepts w → g.Derives [g.start] w) ∧
      (g.DiscardsNothing → g.Derives [g.start] w → t.Accepts w) := by
  have wf := Grammar.wellFormed_of_lower lowered
  obtain ⟨a, tab⟩ := tabulated_of_tables built
  exact ⟨tab.derives_of_accepts wf fun mem => (hw _ mem).2 rfl,
    fun keeps => tab.accepts_of_derives wf keeps fun s hs => (hw s hs).1⟩

/-- Any number of `a`s and as many `b`s behind them. -/
def nested : Grammar where
  name := "nested"
  rules := [⟨"s", .choice [.blank, .seq [.literal "a", .ref "s", .literal "b"]]⟩]
  extras := []
  word := none
  conflicts := []
  externals := []
  strict := false

/-- The same, flat: the tokens are 2 and 3, and the rule is 4. -/
def nestedFlat : FlatGrammar where
  name := "nested"
  symbols := #[⟨"end", true, false, false, false⟩, ⟨"ERROR", true, true, true, false⟩,
    ⟨"a", true, false, true, false⟩, ⟨"b", true, false, true, false⟩,
    ⟨"s", false, true, true, false⟩]
  tokens := [⟨2, .literal "a"⟩, ⟨3, .literal "b"⟩]
  productions := #[⟨4, [], 0, .neither, 0⟩, ⟨4, [2, 4, 3], 0, .neither, 0⟩]
  start := 4
  extras := []
  word := none
  externals := []
  conflicts := []
  origin := #[0, 1, 2, 3, 4]

theorem nested_lower : nested.lower = .ok nestedFlat := by cbv

theorem nested_recognised : ∃ t, nested.lower = .ok nestedFlat ∧ nestedFlat.tables false = .ok t ∧
    nestedFlat.DiscardsNothing ∧ nestedFlat.Derives [4] [2, 3] ∧ t.Accepts [2, 3] := by
  have keeps : nestedFlat.DiscardsNothing := by decide +kernel
  have outer : ⟨4, [2, 4, 3], 0, .neither, 0⟩ ∈ nestedFlat.productions :=
    Array.mem_of_getElem? (i := 1) rfl
  have inner : ⟨4, [], 0, .neither, 0⟩ ∈ nestedFlat.productions :=
    Array.mem_of_getElem? (i := 0) rfl
  have derives : nestedFlat.Derives [4] [2, 3] :=
    .tail (.single (.intro [] [] outer)) (.intro [2] [3] inner)
  have succeeds : (nestedFlat.tables false).toOption.isSome = true := by decide +kernel
  cases built : nestedFlat.tables false with
  | error e =>
    rw [built] at succeeds
    cases succeeds
  | ok t =>
    have accepts := (tables_recognise nested_lower built (by decide)).2 keeps derives
    exact ⟨t, nested_lower, rfl, keeps, derives, accepts⟩

end FlatGrammar

end Glr
