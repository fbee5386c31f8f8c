import Glr.Proofs.Compiled
import Glr.Proofs.Moves

/-!
# Stacks as paths

The tables keep of a production only how long it is.  That the nodes a reduction takes off a stack
are those of the right side is a matter of the automaton: the entries of a stack that are no extras
are moves of it, from the first state on, and below an item of a state a path has the symbols left
of its dot.  Extras stand between the moves and repeat the state they stand on.

`Laid` says so of the entries of a stack.  It is kept by everything that pushes an entry over the
rest of a stack, since any rest of a stack is laid as well.
-/

namespace Glr

/-- Entries are moves of an automaton, with extras between. -/
inductive Laid (a : Automaton) : List StackEntry → Prop where
  | bottom : Laid a []
  | extra {e : StackEntry} {es : List StackEntry} (below : Laid a es) (extra : e.extra = true)
      (state : e.state = stateOver es) : Laid a (e :: es)
  | move {e : StackEntry} {es : List StackEntry} {state : LrState} (below : Laid a es)
      (plain : e.extra = false) (found : a.states[stateOver es]? = some state)
      (moves : state.moves.lookup e.node.symbol = some e.state) : Laid a (e :: es)

/-- The symbols of the moves, the latest first. -/
def symbolsOf (es : List StackEntry) : List Symbol :=
  (es.filter (!·.extra)).map (·.node.symbol)

theorem symbolsOf_append (es fs : List StackEntry) :
    symbolsOf (es ++ fs) = symbolsOf es ++ symbolsOf fs := by
  rw [symbolsOf, List.filter_append, List.map_append]
  rfl

theorem symbolsOf_extra {e : StackEntry} (extra : e.extra = true) (es : List StackEntry) :
    symbolsOf (e :: es) = symbolsOf es := by
  rw [symbolsOf, List.filter_cons_of_neg (by simp [extra])]
  rfl

theorem symbolsOf_move {e : StackEntry} (plain : e.extra = false) (es : List StackEntry) :
    symbolsOf (e :: es) = e.node.symbol :: symbolsOf es := by
  rw [symbolsOf, List.filter_cons_of_pos (by simp [plain])]
  rfl

/-- Where there is one move, all else are extras. -/
theorem exists_of_symbolsOf {es : List StackEntry} {s : Symbol} (h : symbolsOf es = [s]) :
    ∃ before main after, es.reverse = before ++ main :: after ∧
      (∀ e ∈ before ++ after, e.extra = true) ∧ main.extra = false ∧ main.node.symbol = s := by
  obtain ⟨main, none, moves, rfl, nil⟩ := List.map_eq_cons_iff.mp h
  rw [List.map_eq_nil_iff] at nil
  obtain ⟨above, below, rfl, extras, plain, rest⟩ := List.filter_eq_cons_iff.mp (nil ▸ moves)
  rw [List.filter_eq_nil_iff] at rest
  refine ⟨below.reverse, main, above.reverse, by simp, fun e he => ?_, by simpa using plain, rfl⟩
  rcases List.mem_append.mp he with he | he
  · simpa using rest e (List.mem_reverse.mp he)
  · simpa using extras e (List.mem_reverse.mp he)

namespace Laid

variable {a : Automaton} {es taken below : List StackEntry}

theorem of_append : ∀ {taken : List StackEntry}, Laid a (taken ++ below) → Laid a below
  | [], laid => laid
  | _ :: _, .extra laid _ _ => of_append laid
  | _ :: _, .move laid _ _ _ => of_append laid

theorem stateOver_extras : ∀ {taken : List StackEntry}, Laid a (taken ++ below) →
    (∀ e ∈ taken, e.extra = true) → stateOver (taken ++ below) = stateOver below
  | [], _, _ => rfl
  | e :: _, .extra laid _ state, extras =>
    state.trans (stateOver_extras laid fun f hf => extras f (List.mem_cons_of_mem e hf))
  | e :: _, .move _ plain _ _, extras => by
    rw [extras e List.mem_cons_self] at plain
    cases plain

/-- Extras may stand on any laid stack, once they repeat its state. -/
theorem restate (laid : Laid a below) : ∀ {taken : List StackEntry},
    (∀ e ∈ taken, e.extra = true) →
    Laid a (taken.map (fun e => { e with state := stateOver below }) ++ below)
  | [], _ => laid
  | e :: taken, extras => by
    have rest := restate laid fun f hf => extras f (List.mem_cons_of_mem e hf)
    refine .extra rest (extras e List.mem_cons_self) (stateOver_extras rest fun f hf => ?_).symm
    obtain ⟨f', hf', rfl⟩ := List.mem_map.mp hf
    exact extras f' (List.mem_cons_of_mem e hf')

/-- The moves are a path to the state on top. -/
theorem path (laid : Laid a es) : ∃ stack, a.Path (stateOver es :: stack) (symbolsOf es) := by
  induction laid with
  | bottom => exact ⟨[], .start⟩
  | extra below extra state ih =>
    obtain ⟨stack, path⟩ := ih
    refine ⟨stack, ?_⟩
    rw [stateOver, state, symbolsOf_extra extra]
    exact path
  | move below plain found moves ih =>
    obtain ⟨stack, path⟩ := ih
    rw [symbolsOf_move plain]
    exact ⟨_, .move path found moves⟩

variable {g : FlatGrammar} {p : ProductionId} {state : LrState}

/-- The state on top is one of the automaton. -/
theorem stateOver_lt (co : a.Coherent g) (laid : Laid a es) : stateOver es < a.states.size := by
  induction laid with
  | bottom =>
    obtain ⟨first, found, -⟩ := co.start
    exact (Array.getElem?_eq_some_iff.mp found).1
  | extra below extra state ih => exact Nat.lt_of_le_of_lt (Nat.le_of_eq state) ih
  | move below plain found moves ih =>
    obtain ⟨-, next, found', -⟩ := co.move found moves
    exact (Array.getElem?_eq_some_iff.mp found').1

/-- Below an item, as many moves as its dot is behind the front have the symbols left of it. -/
theorem spells (co : a.Coherent g) (laid : Laid a (taken ++ below))
    (found : a.states[stateOver (taken ++ below)]? = some state)
    (mem : (⟨p, (symbolsOf taken).length⟩ : Item) ∈ state.items) :
    (symbolsOf taken).reverse = (g.rhs p).take (symbolsOf taken).length := by
  obtain ⟨stack, path⟩ := laid.path
  obtain ⟨-, -, before, -, -, -, -, -, symbols⟩ := path.unwind co found mem
  have enough : (symbolsOf taken).length ≤ (g.rhs p).length := co.dot_le found mem
  rw [symbolsOf_append, List.reverse_append] at symbols
  refine (List.append_inj' symbols ?_).2
  rw [List.length_reverse, List.length_take, Nat.min_eq_left enough]

/-- Under a state that accepts there is the start symbol and nothing else. -/
theorem symbols_of_accept {l : Language} (founded : l.Founded g a) (laid : Laid a es) {t : Symbol}
    (accepts : .accept ∈ l.actions (stateOver es) t) :
    symbolsOf es = [g.start] ∧ t = Symbol.endOfText := by
  have co := Automaton.coherent_ofGrammar founded.tab.automaton
  obtain ⟨atEnd, state, found, mem⟩ := founded.tab.accept_sound accepts
  obtain ⟨stack, path⟩ := laid.path
  obtain ⟨j, below, before, from', -, path', hj, start, symbols⟩ := path.unwind co found mem
  obtain rfl := co.eq_zero_of_start_mem hj start
  rw [path'.symbols_eq_nil co, FlatGrammar.rhs_augmented] at symbols
  exact ⟨List.reverse_eq_iff.mp symbols, atEnd⟩

end Laid

end Glr
