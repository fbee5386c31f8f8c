import Glr.Proofs.Closing
import Glr.Proofs.Tracks

/-!
# What a stack waits for

On top of a stack may be trees that no token has been read behind of yet but extras.  They make up
its edge, and the next token is read in the state that is known of the edge, or must look just the
same in the state that the stack is in (`edge`).  While that token is dealt with, all trees on the
edge call for it to close them (`Closed`), and a node that a reduction puts over some of them notes
how far the text was looked at for it.  So all nodes heed the text if those before did, and that is
an invariant of a reduction (`Attending.reduce`).

Nothing is said of trees that are marked, and of what is below them nothing but what is in the trees
themselves.  So there is no case for stacks that have forked: what they push is marked.
-/

namespace Glr

open Green

variable {l : Language} {f : Front} {g h : Green} {gs hs : List Green} {t : Symbol}

/-! ## Fronts of which the state is known and nothing else -/

/-- The front of an automaton in a state, as far as that goes. -/
def Front.of (state : StateId) : Front := ⟨state, none, false⟩

theorem Front.blurs_of (f : Front) : (Front.of f.closed).Blurs f :=
  ⟨rfl, fun _ h => absurd h (Option.not_mem_none _), (absurd · Bool.false_ne_true)⟩

/-- The state behind a tree is a matter of the state before it. -/
theorem closed_past (l : Language) (f : Front) (g : Green) :
    (l.past f g).closed = (l.past (.of f.closed) g).closed :=
  ((Front.blurs_of f).past l g).closed.symm

mutual

/-- The next token is read in a state that the tree tells, or in that from before. -/
theorem opened_past (l : Language) : ∀ (f : Front) (g : Green),
    (l.past f g).opened = (l.past (.of f.closed) g).opened.or f.opened
  | f, .mk d cs => by
    rw [Language.past, Language.past]
    split
    · exact opened_pastAll l f cs
    · split
      · rfl
      · rfl

theorem opened_pastAll (l : Language) : ∀ (f : Front) (gs : List Green),
    (l.pastAll f gs).opened = (l.pastAll (.of f.closed) gs).opened.or f.opened
  | f, [] => by
    rw [pastAll_nil, pastAll_nil]
    rfl
  | f, g :: gs => by
    rw [pastAll_cons, pastAll_cons, opened_pastAll l (l.past f g), opened_past l f g,
      opened_pastAll l (l.past (.of f.closed) g), closed_past l f g, Option.or_assoc]

end

mutual

theorem isSome_opened_past (l : Language) : ∀ (f : Front) (g : Green), g.first?.isSome = true →
    (l.past f g).opened.isSome = true
  | f, .mk d cs, found => by
    rw [first?] at found
    rw [Language.past]
    split
    · next inner =>
      rw [inner] at found
      exact isSome_opened_pastAll l f cs found
    · next token =>
      rw [token] at found
      split
      · next extra =>
        dsimp only at found
        rw [extra] at found
        cases found
      · rfl

theorem isSome_opened_pastAll (l : Language) : ∀ (f : Front) (gs : List Green),
    (firstIn? gs).isSome = true → (l.pastAll f gs).opened.isSome = true
  | f, [], found => by
    rw [firstIn?_nil] at found
    cases found
  | f, g :: gs, found => by
    rw [firstIn?_cons, Option.isSome_or, Bool.or_eq_true] at found
    rw [pastAll_cons]
    rcases found with here | later
    · rw [opened_pastAll, Option.isSome_or, isSome_opened_past l f g here, Bool.or_true]
    · exact isSome_opened_pastAll l _ gs later

end

mutual

/-- Which symbols close a tree is a matter of the state before it. -/
theorem closes_of (l : Language) (t : Symbol) : ∀ (f : Front) (g : Green),
    g.closes l t f = g.closes l t (.of f.closed)
  | f, .mk d cs => by
    rw [closes, closes]
    split
    · rw [closesIn_of l t f cs, ((Front.blurs_of f).pastAll l cs).closed]
    · rfl

theorem closesIn_of (l : Language) (t : Symbol) : ∀ (f : Front) (gs : List Green),
    closesIn l t f gs = closesIn l t (.of f.closed) gs
  | f, [] => by rw [closesIn, closesIn]
  | f, g :: gs => by
    rw [closesIn, closesIn, closes_of l t f g, closesIn_of l t (l.past f g) gs,
      closesIn_of l t (l.past (.of f.closed) g) gs, closed_past l f g]

end

theorem closes_token (token : g.production = none) : g.closes l t f = true := by
  obtain ⟨d, cs⟩ := g
  have token : d.production = none := token
  rw [closes, token]

theorem closes_node {id : ProductionId} (inner : g.production = some id) : g.closes l t f =
    (closesIn l t f g.children && l.actions (l.pastAll f g.children).closed t == [.reduce id]) := by
  obtain ⟨d, cs⟩ := g
  have inner : d.production = some id := inner
  rw [closes, inner]
  rfl

/-- A tree behind others is closed, and so are they unless it starts with a token. -/
theorem closesIn_concat : closesIn l t f (gs ++ [g]) =
    ((g.first?.isSome || closesIn l t f gs) && g.closes l t (l.pastAll f gs)) := by
  induction gs generalizing f with
  | nil => simp [closesIn]
  | cons h gs ih =>
    rw [List.cons_append, closesIn, closesIn, ih, pastAll_cons, firstIn?_append, firstIn?_cons,
      firstIn?_nil, Option.or_none, Option.isSome_or]
    cases g.first?.isSome <;> simp [Bool.and_assoc]

/-! ## Edges -/

/-- The state that the token behind some entries is read in as long as no reduction is made, if that
is known. -/
def edge (l : Language) : List StackEntry → Option StateId
  | [] => none
  | e :: es =>
    if e.extra then edge l es
    else if e.node.isMarked then none
    else (l.past (.of (stateOver es)) e.node).opened.or (edge l es)

/-- An entry goes from the state below where the automaton goes with its tree. -/
structure StackEntry.Guided (l : Language) (below : List StackEntry) (e : StackEntry) : Prop where
  state : e.state = (l.past (.of (stateOver below)) e.node).closed
  extra : e.extra = e.node.isExtra
  token : e.extra = true → e.node.production = none
  parseState : e.node.production.isSome = true → e.node.parseState = stateOver below

/-- All entries that are not marked go where the automaton goes. -/
def Guided (l : Language) : List StackEntry → Prop
  | [] => True
  | e :: es => (e.node.isMarked = false → e.Guided l es) ∧ Guided l es

/-- A symbol closes all trees on the edge, up to one that is marked. -/
def Closed (l : Language) (t : Symbol) : List StackEntry → Prop
  | [] => True
  | e :: es =>
    if e.extra then Closed l t es
    else e.node.isMarked = false → e.node.closes l t (.of (stateOver es)) = true ∧
      (e.node.first? = none → Closed l t es)

variable {e : StackEntry} {es es' taken below trailing : List StackEntry}

theorem edge_extra (extra : e.extra = true) : edge l (e :: es) = edge l es := by
  rw [edge, if_pos extra]

theorem edge_marked (plain : e.extra = false) (marked : e.node.isMarked = true) :
    edge l (e :: es) = none := by
  rw [edge, if_neg (Bool.eq_false_iff.mp plain), if_pos marked]

theorem edge_solid (plain : e.extra = false) (solid : e.node.isMarked = false) :
    edge l (e :: es) = (l.past (.of (stateOver es)) e.node).opened.or (edge l es) := by
  rw [edge, if_neg (Bool.eq_false_iff.mp plain), if_neg (Bool.eq_false_iff.mp solid)]

theorem edge_extras (extras : ∀ e ∈ trailing, e.extra = true) :
    edge l (trailing ++ es) = edge l es := by
  induction trailing with
  | nil => rfl
  | cons e trailing ih =>
    obtain ⟨own, rest⟩ := List.forall_mem_cons.mp extras
    rw [List.cons_append, edge_extra own, ih rest]

theorem closed_extra (extra : e.extra = true) : Closed l t (e :: es) ↔ Closed l t es := by
  rw [Closed, if_pos extra]

theorem closed_plain (plain : e.extra = false) : Closed l t (e :: es) ↔
    (e.node.isMarked = false → e.node.closes l t (.of (stateOver es)) = true ∧
      (e.node.first? = none → Closed l t es)) := by
  rw [Closed, if_neg (Bool.eq_false_iff.mp plain)]

theorem closed_extras (extras : ∀ e ∈ trailing, e.extra = true) :
    Closed l t (trailing ++ es) ↔ Closed l t es := by
  induction trailing with
  | nil => exact .rfl
  | cons e trailing ih =>
    obtain ⟨own, rest⟩ := List.forall_mem_cons.mp extras
    rw [List.cons_append, closed_extra own, ih rest]

theorem dropWhile_plain (top : ∀ e ∈ es.head?, e.extra = false) :
    es.dropWhile (·.extra) = es := by
  cases es with
  | nil => rfl
  | cons e es => exact List.dropWhile_cons_of_neg (Bool.eq_false_iff.mp (top e rfl))

theorem dropWhile_extras (extras : ∀ e ∈ trailing, e.extra = true)
    (top : ∀ e ∈ es.head?, e.extra = false) :
    (trailing ++ es).dropWhile (·.extra) = es := by
  induction trailing with
  | nil => exact dropWhile_plain top
  | cons e trailing ih =>
    obtain ⟨own, rest⟩ := List.forall_mem_cons.mp extras
    rw [List.cons_append, List.dropWhile_cons_of_pos own, ih rest]

namespace Guided

theorem of_append (guided : Guided l (taken ++ below)) : Guided l below := by
  induction taken with
  | nil => exact guided
  | cons e taken ih => exact ih guided.2

/-- Extras may stand on any stack, once they repeat its state. -/
theorem restate (guided : Guided l (trailing ++ es)) (lower : Guided l es')
    (extras : ∀ e ∈ trailing, e.extra = true) :
    Guided l (trailing.map (fun e => { e with state := stateOver es' }) ++ es') := by
  induction trailing with
  | nil => exact lower
  | cons e trailing ih =>
    obtain ⟨own, rest⟩ := List.forall_mem_cons.mp extras
    refine ⟨fun solid => ?_, ih guided.2 rest⟩
    have before := guided.1 solid
    have token := before.token own
    have isExtra : e.node.isExtra = true := before.extra ▸ own
    refine ⟨?_, before.extra, fun _ => token, fun inner => ?_⟩
    · rw [past_extra token isExtra]
      cases trailing <;> rfl
    · rw [token] at inner
      cases inner

/-- Over entries that are not marked the automaton goes along their trees. -/
theorem along (guided : Guided l (taken ++ below)) (solid : ∀ e ∈ taken, e.node.isMarked = false) :
    (l.pastAll (.of (stateOver below)) (nodesOf taken)).closed = stateOver (taken ++ below) ∧
      (l.pastAll (.of (stateOver below)) (nodesOf taken)).opened.or (edge l below) =
        edge l (taken ++ below) := by
  induction taken with
  | nil => exact ⟨rfl, rfl⟩
  | cons e taken ih =>
    obtain ⟨own, rest⟩ := List.forall_mem_cons.mp solid
    obtain ⟨closed, opened⟩ := ih guided.2 rest
    have here := guided.1 own
    rw [nodesOf_cons, pastAll_append, pastAll_cons, pastAll_nil, closed_past, opened_past, closed,
      Option.or_assoc, opened]
    refine ⟨here.state.symm, ?_⟩
    cases extra : e.extra with
    | true =>
      rw [past_extra (here.token extra) (here.extra ▸ extra), List.cons_append, edge_extra extra]
      rfl
    | false => rw [List.cons_append, edge_solid extra own]

/-- What closes the edge closes the trees of entries that are not marked. -/
theorem closesIn (guided : Guided l (taken ++ below))
    (solid : ∀ e ∈ taken, e.node.isMarked = false) (closed : Closed l t (taken ++ below)) :
    Green.closesIn l t (.of (stateOver below)) (nodesOf taken) = true ∧
      (firstIn? (nodesOf taken) = none → Closed l t below) := by
  induction taken with
  | nil => exact ⟨by rw [nodesOf_nil, Green.closesIn], fun _ => closed⟩
  | cons e taken ih =>
    obtain ⟨own, rest⟩ := List.forall_mem_cons.mp solid
    have here := guided.1 own
    have state := (along guided.2 rest).1
    rw [nodesOf_cons, closesIn_concat, closes_of, state, firstIn?_append, firstIn?_cons,
      firstIn?_nil, Option.or_none, Option.or_eq_none_iff, Bool.and_eq_true, Bool.or_eq_true]
    cases extra : e.extra with
    | true =>
      have token := here.token extra
      rw [List.cons_append, closed_extra extra] at closed
      obtain ⟨closes, later⟩ := ih guided.2 rest closed
      exact ⟨⟨Or.inr closes, closes_token token⟩, fun none => later none.1⟩
    | false =>
      rw [List.cons_append, closed_plain extra] at closed
      obtain ⟨closes, later⟩ := closed own
      refine ⟨⟨?_, closes⟩, fun none => (ih guided.2 rest (later none.2)).2 none.1⟩
      cases first : e.node.first? with
      | some s => exact Or.inl rfl
      | none => exact Or.inr (ih guided.2 rest (later first)).1

end Guided

/-! ## Reductions -/

/-- What is known of a stack while a token is dealt with. -/
structure Attending (task : ParseTask) (la : Lookahead) (es : List StackEntry) : Prop where
  guided : Guided task.language es
  heeds : Everywhere (Heeds task.language task.text) 0 (nodesOf es)
  passed : ∀ o ∈ edge task.language es,
    task.language.Passes task.text o (spread (nodesOf (es.dropWhile (·.extra)))) la.start.offset ∧
      (task.language.reads task.text o la.start.offset).sight = la.token.sight ∧
      task.language.setsAside o (task.language.reads task.text o la.start.offset) = false
  closed : Closed task.language la.token.symbol es

namespace Attending

variable {task : ParseTask} {la : Lookahead} {s : Stack} {id : ProductionId} {fragile : Bool}

/-- What is known is a matter of what is below the extras on top. -/
theorem of_extras (attending : Attending task la (trailing ++ es))
    (extras : ∀ e ∈ trailing, e.extra = true) (top : ∀ e ∈ es.head?, e.extra = false) :
    Attending task la es where
  guided := attending.guided.of_append
  heeds := by
    have heeds := attending.heeds
    rw [nodesOf_append, Everywhere.append] at heeds
    exact heeds.1
  passed := by
    have passed := attending.passed
    rw [edge_extras extras, dropWhile_extras extras top] at passed
    rw [dropWhile_plain top]
    exact passed
  closed := (closed_extras extras).mp attending.closed

/-- The extras on top may go back on what has come of that below them. -/
theorem restate (attending : Attending task la (trailing ++ es))
    (extras : ∀ e ∈ trailing, e.extra = true) (lower : Attending task la es')
    (top : ∀ e ∈ es'.head?, e.extra = false)
    (same : spread (nodesOf es') = spread (nodesOf es)) :
    Attending task la (trailing.map (fun e => { e with state := stateOver es' }) ++ es') := by
  have extras' : ∀ e ∈ trailing.map (fun e => { e with state := stateOver es' }),
      e.extra = true := by
    intro e he
    obtain ⟨f, hf, rfl⟩ := List.mem_map.mp he
    exact extras f hf
  refine ⟨attending.guided.restate lower.guided extras, ?_, ?_,
    (closed_extras extras').mpr lower.closed⟩
  · have heeds := attending.heeds
    rw [nodesOf_append, Everywhere.append] at heeds
    rw [nodesOf_append, Everywhere.append, nodesOf_restate, same]
    exact ⟨lower.heeds, heeds.2⟩
  · have passed := lower.passed
    rw [dropWhile_plain top] at passed
    rw [edge_extras extras', dropWhile_extras extras' top]
    exact passed

/-- A node over the entries on top notes how far the text was looked at for the token that has
closed it. -/
theorem fold {p : Production} {target : StateId} {stop : Position}
    (attending : Attending task la (taken ++ below))
    (top : ∀ e ∈ (taken ++ below).head?, e.extra = false)
    (goto : task.language.goto? (stateOver below) p.lhs = some target)
    (place : (placeOver (taken ++ below)).offset = spread (nodesOf (taken ++ below)))
    (small : task.text.size ≤ Size.largest)
    (calls : fragile = false → task.language.actions (stateOver (taken ++ below)) la.token.symbol =
      [.reduce id]) :
    Attending task la (⟨target, (Green.node ⟨p.lhs, some id, stateOver below,
      (nodeLookahead la (placeOver (taken ++ below)).offset (nodesOf taken)).value,
      p.dynamicPrecedence, NodeFlags.fragileIf fragile⟩ (nodesOf taken)).value, stop, false⟩ ::
        below) := by
  have looked := value_nodeLookahead la (placeOver (taken ++ below)).offset (nodesOf taken)
  generalize (nodeLookahead la (placeOver (taken ++ below)).offset (nodesOf taken)).value =
    lookahead at looked ⊢
  generalize made : (Green.node ⟨p.lhs, some id, stateOver below, lookahead, p.dynamicPrecedence,
    NodeFlags.fragileIf fragile⟩ (nodesOf taken)).value = n
  have children : n.children = nodesOf taken := by rw [← made, children_node]
  have inner : n.production = some id := by rw [← made, production_node]
  have length : n.length = spread (nodesOf taken) := by rw [← made, length_node]
  have lookahead_eq : n.lookahead = lookahead := by rw [← made]; rfl
  have parseState : n.parseState = stateOver below := by rw [← made]; rfl
  have extra : n.isExtra = false := by rw [← made, isExtra_node]; rfl
  have symbol : n.symbol = p.lhs := by rw [← made, symbol_node]
  have ends : spread (nodesOf below) + n.length = spread (nodesOf (taken ++ below)) := by
    rw [length, nodesOf_append, spread_append]
  have passed := attending.passed
  rw [dropWhile_plain top] at passed
  -- A node that is not marked was made by the one action there was, over trees that are not marked.
  have solid (unmarked : n.isMarked = false) :
      fragile = false ∧ ∀ e ∈ taken, e.node.isMarked = false := by
    rw [← made, Green.isMarked, hasError_node, isFragile_node] at unmarked
    simp only [Bool.or_eq_false_iff, List.any_eq_false, mem_nodesOf] at unmarked
    obtain ⟨⟨⟨-, right⟩, -⟩, unforked, sturdy⟩ := unmarked
    refine ⟨unforked, fun e he => ?_⟩
    rw [Green.isMarked, Bool.or_eq_false_iff]
    exact ⟨Bool.eq_false_iff.mpr (right _ ⟨e, he, rfl⟩),
      Bool.eq_false_iff.mpr (sturdy _ ⟨e, he, rfl⟩)⟩
  have opened (unmarked : n.isMarked = false) :
      (task.language.past (.of (stateOver below)) n).opened.or (edge task.language below) =
        edge task.language (taken ++ below) := by
    rw [past_node inner, children]
    exact (attending.guided.along (solid unmarked).2).2
  have closes (unmarked : n.isMarked = false) :
      n.closes task.language la.token.symbol (.of (stateOver below)) = true ∧
        (n.first? = none → Closed task.language la.token.symbol below) := by
    obtain ⟨unforked, sturdy⟩ := solid unmarked
    obtain ⟨inside, later⟩ := attending.guided.closesIn sturdy attending.closed
    rw [closes_node inner, first?_node inner, children, inside, Bool.true_and, beq_iff_eq,
      (attending.guided.along sturdy).1]
    exact ⟨calls unforked, later⟩
  refine ⟨⟨fun unmarked => ⟨?_, extra.symm, (absurd · Bool.false_ne_true), fun _ => parseState⟩,
    attending.guided.of_append⟩, ?_, fun o ho => ?_, ?_⟩
  · rw [past_node inner, symbol]
    show target = (task.language.goto? (stateOver below) p.lhs).getD 0
    rw [goto]
    rfl
  · have heeds := attending.heeds
    rw [nodesOf_append, Everywhere.append] at heeds
    rw [nodesOf_cons, Everywhere.append, Everywhere.singleton, children, Nat.zero_add]
    refine ⟨heeds.1, fun unmarked _ o ho => ?_, Nat.zero_add (spread (nodesOf below)) ▸ heeds.2⟩
    rw [parseState] at ho
    have ho : o ∈ (task.language.past (.of (stateOver below)) n).opened := ho
    have known : o ∈ edge task.language (taken ++ below) := by
      rw [← opened unmarked, Option.mem_def.mp ho]
      rfl
    obtain ⟨passes, sight, isTaken⟩ := passed o known
    rw [ends]
    refine Language.Closing.before (.meet isTaken ?_ fun before => ?_) passes
    · rw [show (task.language.reads task.text o la.start.offset).symbol = la.token.symbol from
        congrArg (·.symbol) sight, parseState]
      exact (closes unmarked).1
    · have reach : (task.language.reads task.text o la.start.offset).reach =
          la.token.span.stop + la.token.lookahead := by
        have stop := congrArg (·.span.stop) sight
        have looked := congrArg (·.lookahead) sight
        exact congrArg₂ (· + ·) stop looked
      have furthest := le_reachOver (la.token.span.stop + la.token.lookahead)
        ((placeOver (taken ++ below)).offset - spread (nodesOf taken)) (nodesOf taken)
      rw [place] at looked furthest
      have bound : spread (nodesOf (taken ++ below)) + n.lookahead < task.text.size := before
      show _ ≤ spread (nodesOf (taken ++ below)) + n.lookahead
      rw [lookahead_eq] at bound ⊢
      omega
  · cases marked : n.isMarked with
    | true =>
      rw [edge_marked rfl marked] at ho
      cases ho
    | false =>
      rw [edge_solid rfl marked, opened marked] at ho
      rw [List.dropWhile_cons_of_neg Bool.false_ne_true, spread_push, ends]
      exact passed o ho
  · rw [closed_plain rfl]
    exact closes

/-- A reduction that is made while there is no choice, or is marked as made under one. -/
theorem reduce {c : Checked Stack} (attending : Attending task la s.entries)
    (tracked : Tracked task.language s.entries) (tiled : Tiled s.entries)
    (small : task.text.size ≤ Size.largest)
    (reduced : s.reduce? task.language id la fragile = some c)
    (calls : fragile = false → task.language.actions s.state la.token.symbol = [.reduce id]) :
    Attending task la c.value.entries := by
  obtain ⟨trailing, taken, below, p, target, known, extras, counted, top, bottom, goto, before,
    after⟩ := Stack.reduce?_spec reduced
  rw [s.state_eq, before] at calls
  rw [before] at attending tracked tiled
  rw [after]
  have place := tiled.of_append.here
  refine attending.restate extras ((attending.of_extras extras top).fold top goto place small
    fun sturdy => ?_) (fun e he => Option.some.inj he ▸ rfl) ?_
  · rw [← tracked.stateOver_extras extras]
    exact calls sturdy
  · rw [spread_push, length_node, nodesOf_append, spread_append]

end Attending

end Glr
