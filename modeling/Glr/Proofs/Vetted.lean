import Glr.Proofs.Hereditary
import Glr.Proofs.Retraces
import Glr.Proofs.Tracks

/-!
# Stacks that were built step by step

While one stack is alive and every cell holds one action, a parse without an old tree does just what
the automaton does when it makes trees again from their text.  So the trees on its stack can be made
again: each from where the ones below it lead to (`Vetted`).  Trees that were built otherwise are
marked, as wrong or as fragile, and nothing is said of them, but what is inside of them and is not
marked can be made again by itself (`Vouched`).

What is not known between two tokens is the token behind.  The reductions that it has called for
are known only while it is dealt with, so everything here is for the symbols of a set.
-/

namespace Glr

open Green

/-! ## What holds everywhere in trees -/

namespace Green

/-- All that stands in trees side by side, from an offset on, is what it should be. -/
def Everywhere (ok : Nat → Green → Prop) (start : Nat) (gs : List Green) : Prop :=
  ∀ o n, HoldsIn gs o n → ok (start + o) n

namespace Everywhere

variable {ok : Nat → Green → Prop} {start : Nat} {g : Green} {gs hs : List Green}

theorem nil : Everywhere ok start [] := fun _ _ held => nomatch held

theorem cons : Everywhere ok start (g :: gs) ↔
    (∀ o n, g.Holds o n → ok (start + o) n) ∧ Everywhere ok (start + g.length) gs := by
  refine ⟨fun all => ⟨fun o n held => all o n (.here held), fun o n held => ?_⟩,
    fun ⟨head, tail⟩ o n held => ?_⟩
  · rw [Nat.add_assoc]
    exact all _ n held.there
  · cases held with
    | here held => exact head o n held
    | there held => exact Nat.add_assoc .. ▸ tail _ n held

theorem append : Everywhere ok start (gs ++ hs) ↔
    Everywhere ok start gs ∧ Everywhere ok (start + spread gs) hs := by
  induction gs generalizing start with
  | nil => exact ⟨fun all => ⟨nil, by simpa using all⟩, fun all => by simpa using all.2⟩
  | cons g gs ih =>
    rw [List.cons_append, cons, ih, cons, spread_cons, and_assoc, Nat.add_assoc]

/-- What stands in a tree is the tree or stands in its children. -/
theorem singleton : Everywhere ok start [g] ↔ ok start g ∧ Everywhere ok start g.children := by
  rw [cons]
  refine ⟨fun all => ⟨all.1 0 g .root, fun o n held => all.1 o n held.holds⟩,
    fun all => ⟨fun o n held => ?_, nil⟩⟩
  rcases held.cases_root with ⟨rfl, rfl⟩ | held
  · exact all.1
  · exact all.2 o n held

theorem flatten (all : Everywhere ok start gs) (summed : ∀ g ∈ gs, g.Summed) :
    Everywhere ok start (Repair.flatten gs) := by
  induction gs generalizing start with
  | nil => exact all
  | cons g gs ih =>
    obtain ⟨own, rest⟩ := List.forall_mem_cons.mp summed
    obtain ⟨head, tail⟩ := append.mp (show Everywhere ok start ([g] ++ gs) from all)
    rw [spread_cons, spread_nil, Nat.add_zero] at tail
    rcases Repair.flatten_cons g gs with ⟨-, some, opened⟩ | kept
    · rw [opened, append, ← own.length_eq some]
      exact ⟨(singleton.mp head).2, ih tail rest⟩
    · rw [kept]
      exact cons.mpr ⟨(cons.mp head).1, ih tail rest⟩

end Everywhere

end Green

/-! ## Stacks -/

/-- Whether a tree is marked: it is wrong, or it was built while there was a choice. -/
def Green.isMarked (g : Green) : Bool := g.hasError || g.isFragile

theorem Green.isFragile_node (spec : NodeSpec) (cs : List Green) :
    (node spec cs).value.isFragile = (spec.flags.fragile || cs.any (·.isFragile)) := by
  have walk : ∀ (cs : List Green) (f : NodeFlags),
      (cs.foldl (fun f g => f.union g.flags.inherited) f).fragile =
        (f.fragile || cs.any (·.isFragile)) := by
    intro cs
    induction cs with
    | nil => exact fun f => (Bool.or_false _).symm
    | cons c cs ih =>
      intro f
      rw [List.foldl_cons, ih, List.any_cons, ← Bool.or_assoc]
      rfl
  show (spec.flags.fragile || (inheritedFlags cs).fragile) = _
  rw [inheritedFlags, walk]
  rfl

/-- Whether an extra is on top. -/
def isTrailing : List StackEntry → Bool
  | [] => false
  | e :: _ => e.extra

/-- Where the automaton is over the entries of a stack. -/
def frontOver (opened : Option StateId) (es : List StackEntry) : Front :=
  ⟨stateOver es, opened, isTrailing es⟩

/-- Each tree on a stack that is not marked can be made again from where the ones below it lead to,
with one of some symbols behind the stack.  The state that the next token is read in is noted, where
it is known. -/
inductive Vetted (l : Language) (text : Text) :
    (Symbol → Prop) → Option StateId → List StackEntry → Prop where
  | bottom {P : Symbol → Prop} {o : Option StateId} : Vetted l text P o []
  | solid {P : Symbol → Prop} {o : Option StateId} {e : StackEntry} {es : List StackEntry}
      (below : Vetted l text (Next [e.node] P) o es)
      (again : Retraces l text P (frontOver o es) (spread (nodesOf es)) [e.node])
      (state : e.state = (l.past (frontOver o es) e.node).closed)
      (extra : e.extra = e.node.isExtra) :
      Vetted l text P (l.past (frontOver o es) e.node).opened (e :: es)
  | marked {P : Symbol → Prop} {o o' : Option StateId} {e : StackEntry} {es : List StackEntry}
      (below : Vetted l text (fun _ => False) o es) (marked : e.node.isMarked = true) :
      Vetted l text P o' (e :: es)

namespace Retraces

variable {l : Language} {text : Text} {P : Symbol → Prop} {f f' : Front} {x : Nat} {g : Green}

theorem isExtra_of_made {id : ProductionId} {p : Production}
    (made : g.gist = (Green.node ⟨p.lhs, some id, f.closed, 0, p.dynamicPrecedence,
      NodeFlags.none⟩ g.children).value.gist) : g.isExtra = false := by
  rw [isExtra_congr made, isExtra_node]
  rfl

/-- Behind a tree an extra was pushed last if the tree is one. -/
theorem trailing_past (h : Retraces l text P f x [g]) : (l.past f g).trailing = g.isExtra := by
  cases h with
  | token leaf =>
    rw [past_token (production_of_asToken leaf) (isExtra_of_asToken leaf), isExtra_of_asToken leaf]
    rfl
  | extra leaf =>
    rw [past_extra (production_of_asToken leaf) (isExtra_of_asToken leaf), isExtra_of_asToken leaf]
    rfl
  | node known made =>
    rw [past_node (production_of_made made), isExtra_of_made made]

/-- An extra is made again wherever it is read in the same state. -/
theorem extra_anywhere (h : Retraces l text P f x [g]) (extra : g.isExtra = true)
    (same : f'.opened = f.opened) : Retraces l text P f' x [g] := by
  cases h with
  | token leaf =>
    rw [isExtra_of_asToken leaf] at extra
    cases extra
  | extra leaf nonempty notEnd extra reads => exact .extra leaf nonempty notEnd extra (same ▸ reads) .nil
  | node known made =>
    rw [isExtra_of_made made] at extra
    cases extra

end Retraces

namespace Vetted

variable {l : Language} {text : Text} {P Q : Symbol → Prop} {o o' : Option StateId}
  {e : StackEntry} {es taken below trailing : List StackEntry}

theorem weaken (h : Vetted l text P o es) (fewer : ∀ t, Q t → P t) : Vetted l text Q o es := by
  induction h generalizing Q with
  | bottom => exact .bottom
  | solid below again state extra ih =>
    exact .solid (ih fun _ => .mono fewer) (again.weaken (.refl _) fewer) state extra
  | marked below marked ih => exact .marked below marked

/-- Behind a tree that is marked any state may be noted. -/
theorem reopen (h : Vetted l text P o (e :: es)) (marked : e.node.isMarked = true) :
    Vetted l text Q o' (e :: es) := by
  cases h with
  | solid below => exact .marked (below.weaken fun _ contra => contra.elim) marked
  | marked below => exact .marked below marked

theorem of_append (h : Vetted l text P o (taken ++ below)) :
    ∃ o', Vetted l text (fun _ => False) o' below := by
  induction taken generalizing P o with
  | nil => exact ⟨o, h.weaken fun _ contra => contra.elim⟩
  | cons e taken ih =>
    cases h with
    | solid below => exact ih below
    | marked below => exact ih below

/-- Trees on top of a stack that are not marked can be made again one after the other. -/
theorem retraces (h : Vetted l text P o (taken ++ below))
    (solid : ∀ e ∈ taken, e.node.isMarked = false) :
    ∃ o', Vetted l text (Next (nodesOf taken) P) o' below ∧
      Retraces l text P (frontOver o' below) (spread (nodesOf below)) (nodesOf taken) ∧
      l.pastAll (frontOver o' below) (nodesOf taken) = frontOver o (taken ++ below) ∧
      ∀ e ∈ taken, e.extra = e.node.isExtra := by
  induction taken generalizing P o with
  | nil =>
    refine ⟨o, ?_, .nil, pastAll_nil, by simp⟩
    rw [nodesOf_nil, next_nil]
    exact h
  | cons e taken ih =>
    obtain ⟨own, rest⟩ := List.forall_mem_cons.mp solid
    cases h with
    | marked _ marked =>
      rw [own] at marked
      cases marked
    | @solid _ o _ _ lower again state extra =>
      obtain ⟨o', base, made, front, extras⟩ := ih lower rest
      refine ⟨o', ?_, ?_, ?_, List.forall_mem_cons.mpr ⟨extra, extras⟩⟩
      · rw [nodesOf_cons, next_append]
        exact base
      · rw [nodesOf_cons]
        refine made.append ?_
        rw [front, ← spread_append, ← nodesOf_append]
        exact again
      · rw [nodesOf_cons, pastAll_append, front, pastAll_cons, pastAll_nil]
        refine Front.mk.injEq .. ▸ ⟨state.symm, rfl, ?_⟩
        exact again.trailing_past.trans extra.symm

/-- The nodes of entries fill a production if the entries do. -/
theorem fills_nodesOf {p : Production} (extras : ∀ e ∈ taken, e.extra = e.node.isExtra)
    (counted : (taken.filter (!·.extra)).length = p.length)
    (bottom : ∀ e ∈ taken.getLast?, e.extra = false)
    (top : ∀ e ∈ taken.head?, e.extra = false) : Fills (nodesOf taken) p := by
  have same : taken.filter (fun e => !e.extra) = taken.filter fun e => !e.node.isExtra :=
    List.filter_congr fun e he => by rw [extras e he]
  refine ⟨?_, fun c hc => ?_, fun c hc => ?_⟩
  · rw [← counted, same, nodesOf, ← List.map_reverse, List.filter_map, List.length_map, Function.comp_def,
      List.filter_reverse, List.length_reverse]
  · rw [nodesOf, List.head?_reverse, List.getLast?_map] at hc
    obtain ⟨e, he, rfl⟩ := Option.map_eq_some_iff.mp hc
    rw [← extras e (List.mem_of_getLast? he)]
    exact bottom e he
  · rw [nodesOf, List.getLast?_reverse, List.head?_map] at hc
    obtain ⟨e, he, rfl⟩ := Option.map_eq_some_iff.mp hc
    rw [← extras e (List.mem_of_head? he)]
    exact top e he

/-- A reduction that a cell calls for alone makes a tree that can be made again. -/
theorem fold {id : ProductionId} {p : Production} {target : StateId} {lookahead : Nat}
    {fragile : Bool} {stop : Position} (h : Vetted l text P o (taken ++ below))
    (known : l.production? id = some p)
    (counted : (taken.filter (!·.extra)).length = p.length)
    (top : ∀ e ∈ (taken ++ below).head?, e.extra = false)
    (bottom : ∀ e ∈ taken.getLast?, e.extra = false)
    (goto : l.goto? (stateOver below) p.lhs = some target)
    (calls : fragile = false → ∀ t, P t →
      l.actions (stateOver (taken ++ below)) t = [.reduce id]) :
    Vetted l text P o (⟨target, (Green.node ⟨p.lhs, some id, stateOver below, lookahead,
      p.dynamicPrecedence, NodeFlags.fragileIf fragile⟩ (nodesOf taken)).value, stop, false⟩ ::
        below) := by
  generalize made : (Green.node ⟨p.lhs, some id, stateOver below, lookahead, p.dynamicPrecedence,
    NodeFlags.fragileIf fragile⟩ (nodesOf taken)).value = n
  cases marked : n.isMarked with
  | true =>
    obtain ⟨o', lower⟩ := h.of_append
    exact .marked lower marked
  | false =>
    rw [← made, Green.isMarked, hasError_node, isFragile_node] at marked
    simp only [Bool.or_eq_false_iff, List.any_eq_false, mem_nodesOf] at marked
    obtain ⟨⟨⟨-, right⟩, -⟩, unforked, sturdy⟩ := marked
    have solid : ∀ e ∈ taken, e.node.isMarked = false := fun e he => by
      rw [Green.isMarked, Bool.or_eq_false_iff]
      exact ⟨Bool.eq_false_iff.mpr (right _ ⟨e, he, rfl⟩),
        Bool.eq_false_iff.mpr (sturdy _ ⟨e, he, rfl⟩)⟩
    obtain rfl : fragile = false := unforked
    obtain ⟨o', base, again, front, extras⟩ := h.retraces solid
    have children : n.children = nodesOf taken := by rw [← made, children_node]
    have inner : n.production = some id := by rw [← made, production_node]
    have past : l.past (frontOver o' below) n = ⟨target, o, false⟩ := by
      rw [past_node inner, children, front, ← made, symbol_node]
      show Front.mk ((l.goto? (stateOver below) p.lhs).getD 0) o false = _
      rw [goto]
      rfl
    have next : Next [n] P = Next (nodesOf taken) P := by
      funext t
      rw [Next, Next, firstIn?_cons, firstIn?_nil, Option.or_none, first?_node inner, children]
    have single : Retraces l text P (frontOver o' below) (spread (nodesOf below)) [n] := by
      refine .node known ?_ (children ▸ fills_nodesOf extras counted bottom ?_) ?_ ?_ ?_ ?_ .nil
      · rw [children, ← made]
        exact @gist_node_lookahead ⟨p.lhs, some id, stateOver below, 0, p.dynamicPrecedence,
          NodeFlags.none⟩ rfl lookahead (nodesOf taken)
      · intro e he
        refine top e ?_
        rw [List.head?_append]
        exact Option.mem_def.mpr (by rw [he]; rfl)
      · intro none
        rw [children, nodesOf, List.reverse_eq_nil_iff, List.map_eq_nil_iff] at none
        subst none
        show isTrailing below = false
        cases below with
        | nil => rfl
        | cons e below => exact top e rfl
      · rw [children, next_nil]
        exact again
      · rw [children, front, next_nil]
        exact calls rfl
      · rw [past]
        exact goto
    have opened : (l.past (frontOver o' below) n).opened = o := by rw [past]
    have extra : false = n.isExtra := by
      rw [← made, isExtra_node]
      rfl
    have closed : target = (l.past (frontOver o' below) n).closed := by rw [past]
    rw [← next] at base
    have pushed : Vetted l text P (l.past (frontOver o' below) n).opened
        (⟨target, n, stop, false⟩ :: below) :=
      .solid (e := ⟨target, n, stop, false⟩) base single closed extra
    rwa [opened] at pushed

/-- Extras on top stay where they are when something is done below them. -/
theorem restate {es' : List StackEntry} (extras : ∀ e ∈ trailing, e.extra = true)
    (spread_eq : spread (nodesOf es') = spread (nodesOf es))
    (below : ∀ Q o, (∀ t, Q t → P t) → Vetted l text Q o es → Vetted l text Q o es')
    (h : Vetted l text P o (trailing ++ es)) :
    Vetted l text P o (trailing.map (fun e => { e with state := stateOver es' }) ++ es') := by
  induction trailing generalizing P o with
  | nil => exact below P o (fun _ => id) h
  | cons e trailing ih =>
    obtain ⟨own, rest⟩ := List.forall_mem_cons.mp extras
    cases h with
    | @solid _ o _ _ lower again state extra =>
      have isExtra : e.node.isExtra = true := extra ▸ own
      have token : e.node.production = none := by
        cases again with
        | token leaf => exact production_of_asToken leaf
        | extra leaf => exact production_of_asToken leaf
        | node known made =>
          rw [Retraces.isExtra_of_made made] at isExtra
          cases isExtra
      have same : Next [e.node] P = P := by
        funext t
        rw [Next, firstIn?_cons, first?_extra token isExtra, firstIn?_nil]
        rfl
      rw [same] at lower
      have moved := ih rest below lower
      have place : spread (nodesOf (trailing.map (fun e => { e with state := stateOver es' }) ++
          es')) = spread (nodesOf (trailing ++ es)) := by
        rw [nodesOf_append, spread_append, spread_eq, nodesOf_restate, nodesOf_append,
          spread_append]
      have opened : ∀ es : List StackEntry, (l.past (frontOver o es) e.node).opened = o := by
        intro es
        rw [past_extra token isExtra]
        rfl
      have pushed : Vetted l text P (l.past (frontOver o (trailing.map (fun e =>
          { e with state := stateOver es' }) ++ es')) e.node).opened
          ({ e with state := stateOver es' } :: (trailing.map (fun e =>
            { e with state := stateOver es' }) ++ es')) := by
        refine .solid (e := { e with state := stateOver es' }) (same.symm ▸ moved) ?_ ?_ extra
        · rw [place]
          exact again.extra_anywhere isExtra rfl
        · rw [past_extra token isExtra]
          cases trailing <;> rfl
      rw [opened] at pushed
      exact (opened _).symm ▸ pushed
    | @marked _ o _ _ _ lower marked =>
      refine .marked (e := { e with state := stateOver es' })
        (ih rest (fun Q o none lower => ?_) lower) marked
      exact below Q o (fun t contra => (none t contra).elim) lower

/-- A token that is shifted where nothing else can be done with it. -/
theorem push_token {g : Green} {target : StateId} {stop : Position}
    (h : Vetted l text (fun t => t = g.symbol) o es)
    (leaf : g.gist = (g.asToken NodeFlags.none).gist) (nonempty : 0 < g.length)
    (reads : ∀ state ∈ o, l.Sees text state (spread (nodesOf es)) g)
    (shift : l.actions (stateOver es) g.symbol = [.shift target]) :
    Vetted l text P (some target) (⟨target, g, stop, false⟩ :: es) := by
  have token := production_of_asToken leaf
  have plain := isExtra_of_asToken leaf
  have past : l.past (frontOver o es) g = ⟨target, some target, false⟩ := by
    rw [past_token token plain]
    show Front.mk (l.shifted (stateOver es) g.symbol) (some (l.shifted (stateOver es) g.symbol))
      false = _
    rw [Language.shifted, shift]
  have next : Next [g] P = fun t => t = g.symbol := by
    funext t
    rw [Next, firstIn?_cons, first?_token token plain]
    rfl
  have pushed : Vetted l text P (l.past (frontOver o es) g).opened
      (⟨target, g, stop, false⟩ :: es) := by
    refine .solid (e := ⟨target, g, stop, false⟩) (next ▸ h) (.token leaf nonempty reads ?_ .nil)
      ?_ plain.symm
    · rw [past]
      exact shift
    · rw [past]
  rwa [past] at pushed

/-- A token that is pushed as an extra. -/
theorem push_extra {g : Green} {stop : Position} (h : Vetted l text P o es)
    (leaf : g.gist = (g.asToken NodeFlags.onlyExtra).gist) (nonempty : 0 < g.length)
    (notEnd : g.symbol ≠ Symbol.endOfText) (extra : l.isExtra g.symbol = true)
    (reads : ∀ state ∈ o, l.Sees text state (spread (nodesOf es)) g ∧
      l.hasActions state g.symbol = false) :
    Vetted l text P o (⟨stateOver es, g, stop, true⟩ :: es) := by
  have token := production_of_asToken leaf
  have isExtra := isExtra_of_asToken leaf
  have past : l.past (frontOver o es) g = { frontOver o es with trailing := true } :=
    past_extra token isExtra
  have next : Next [g] P = P := by
    funext t
    rw [Next, firstIn?_cons, first?_extra token isExtra, firstIn?_nil]
    rfl
  have pushed : Vetted l text P (l.past (frontOver o es) g).opened
      (⟨stateOver es, g, stop, true⟩ :: es) := by
    refine .solid (e := ⟨stateOver es, g, stop, true⟩) (next.symm ▸ h)
      (.extra leaf nonempty notEnd extra reads .nil) ?_ isExtra.symm
    rw [past]
    rfl
  rwa [past] at pushed

end Vetted

/-- A tree at an offset can be made again by itself, unless it is marked or a token. -/
def Vouches (l : Language) (text : Text) (x : Nat) (g : Green) : Prop :=
  g.isMarked = false → g.production.isSome = true →
    Retraces l text (fun _ => False) ⟨g.parseState, none, false⟩ x [g]

namespace Vouches

variable {l : Language} {text : Text} {x : Nat} {g : Green}

theorem of_marked (marked : g.isMarked = true) : Vouches l text x g := fun unmarked => by
  rw [marked] at unmarked
  cases unmarked

theorem of_token (token : g.production = none) : Vouches l text x g := fun _ inner => by
  rw [token] at inner
  cases inner

theorem of_vetted {P : Symbol → Prop} {o : Option StateId} {e : StackEntry}
    {es : List StackEntry} (h : Vetted l text P o (e :: es)) :
    Vouches l text (spread (nodesOf es)) e.node := by
  cases h with
  | solid below again => exact fun _ inner => again.of_holds (.here .root) inner
  | marked below marked => exact of_marked marked

end Vouches

/-- What is known of a stack of a parse without an old tree: the trees on it that are not marked can
be made again, and so can all that stand in trees on it. -/
structure Vouched (l : Language) (text : Text) (P : Symbol → Prop) (o : Option StateId)
    (es : List StackEntry) : Prop where
  vetted : Vetted l text P o es
  inside : Everywhere (Vouches l text) 0 (nodesOf es)
  joined : ∀ e ∈ es, e.node.Joined

namespace Vouched

variable {l : Language} {text : Text} {P Q : Symbol → Prop} {o o' : Option StateId}
  {e : StackEntry} {es taken below : List StackEntry} {s s' : Stack}

theorem nil : Vouched l text P o [] := ⟨.bottom, .nil, by simp⟩

theorem weaken (h : Vouched l text P o es) (fewer : ∀ t, Q t → P t) : Vouched l text Q o es :=
  ⟨h.vetted.weaken fewer, h.inside, h.joined⟩

theorem reopen (h : Vouched l text P o (e :: es)) (marked : e.node.isMarked = true) :
    Vouched l text Q o' (e :: es) := ⟨h.vetted.reopen marked, h.inside, h.joined⟩

/-- An entry is pushed whose tree has its children from elsewhere. -/
theorem push (h : Vouched l text Q o' es) (vetted : Vetted l text P o (e :: es))
    (inside : Everywhere (Vouches l text) (spread (nodesOf es)) e.node.children)
    (joined : e.node.Joined) : Vouched l text P o (e :: es) := by
  refine ⟨vetted, ?_, List.forall_mem_cons.mpr ⟨joined, h.joined⟩⟩
  rw [nodesOf_cons, Everywhere.append, Everywhere.singleton, Nat.zero_add]
  exact ⟨h.inside, .of_vetted vetted, inside⟩

theorem push_leaf (h : Vouched l text Q o' es) (vetted : Vetted l text P o (e :: es))
    (leaf : e.node.children = []) : Vouched l text P o (e :: es) := by
  refine h.push vetted ?_ (.of_leaf leaf)
  rw [leaf]
  exact .nil

/-- A tree that is marked may be pushed on any stack. -/
theorem push_marked (h : Vouched l text Q o' es) (marked : e.node.isMarked = true)
    (inside : Everywhere (Vouches l text) (spread (nodesOf es)) e.node.children)
    (joined : e.node.Joined) : Vouched l text P o (e :: es) :=
  h.push (.marked (h.vetted.weaken fun _ contra => contra.elim) marked) inside joined

theorem of_append (h : Vouched l text P o (taken ++ below)) :
    ∃ o', Vouched l text (fun _ => False) o' below := by
  obtain ⟨o', vetted⟩ := h.vetted.of_append
  have inside := h.inside
  rw [nodesOf_append, Everywhere.append] at inside
  exact ⟨o', vetted, inside.1, fun e he => h.joined e (List.mem_append_right _ he)⟩

theorem inside_taken (h : Vouched l text P o (taken ++ below)) :
    Everywhere (Vouches l text) (spread (nodesOf below)) (nodesOf taken) := by
  have inside := h.inside
  rw [nodesOf_append, Everywhere.append, Nat.zero_add] at inside
  exact inside.2

/-- A reduction that is made while there is no choice, or is marked as made under one. -/
theorem reduce {id : ProductionId} {la : Lookahead} {fragile : Bool} {c : Checked Stack}
    (h : Vouched l text P o s.entries) (reduced : s.reduce? l id la fragile = some c)
    (calls : fragile = false → Tracked l s.entries ∧
      ∀ t, P t → l.actions s.state t = [.reduce id]) :
    Vouched l text P o c.value.entries := by
  obtain ⟨trailing, taken, below, p, target, known, extras, counted, top, bottom, goto, before,
    after⟩ := Stack.reduce?_spec reduced
  rw [s.state_eq, before] at calls
  rw [before] at h
  rw [after]
  generalize made : (Green.node ⟨p.lhs, some id, stateOver below, _, p.dynamicPrecedence,
    NodeFlags.fragileIf fragile⟩ (nodesOf taken)).value = n
  have children : n.children = nodesOf taken := by rw [← made, children_node]
  have length : n.length = spread (nodesOf taken) := by rw [← made, length_node]
  have extent : n.extent = stretch (nodesOf taken) := by rw [← made, extent_node]
  have fold : ∀ Q o, (∀ t, Q t → P t) → Vetted l text Q o (taken ++ below) →
      Vetted l text Q o (⟨target, n, placeOver (taken ++ below), false⟩ :: below) := by
    intro Q o fewer vetted
    rw [← made]
    refine vetted.fold known counted top bottom goto fun sturdy t ht => ?_
    obtain ⟨tracked, calls⟩ := calls sturdy
    rw [← tracked.stateOver_extras extras]
    exact calls t (fewer t ht)
  obtain ⟨o', base⟩ := h.of_append
  obtain ⟨o'', lower⟩ := base.of_append
  have own := lower.push (fold _ o' (fun _ contra => contra.elim) base.vetted)
    (children ▸ base.inside_taken) (hereditary_joined.up (fun c hc => ?_) ?_ ?_)
  · refine ⟨h.vetted.restate extras ?_ fold, ?_, ?_⟩
    · rw [nodesOf_cons, spread_append, spread_cons, spread_nil, length, nodesOf_append,
        spread_append]
      rfl
    · have above := h.inside_taken
      rw [nodesOf_append, Everywhere.append, nodesOf_restate, Nat.zero_add, spread_push, length,
        ← spread_append, ← nodesOf_append]
      exact ⟨own.inside, above⟩
    · intro e he
      rcases List.mem_append.mp he with he | he
      · obtain ⟨f, hf, rfl⟩ := List.mem_map.mp he
        exact h.joined f (List.mem_append_left _ hf)
      · exact own.joined e he
  · rw [children, mem_nodesOf] at hc
    obtain ⟨e, he, rfl⟩ := hc
    exact base.joined e (List.mem_append_left _ he)
  · rw [children]
    exact length
  · rw [children]
    exact extent

/-! ### Repairs -/

/-- An error is marked, whatever it is put over. -/
theorem push_error (h : Vouched l text Q o' es) {gs : List Green}
    (inside : Everywhere (Vouches l text) (spread (nodesOf es)) gs)
    (joined : ∀ g ∈ gs, g.Joined) (state : StateId) (stop : Position) (extra : Bool) :
    Vouched l text P o (⟨state, (Repair.errorNode gs).value, stop, extra⟩ :: es) :=
  h.push_marked (by simp [isMarked, Repair.errorNode, hasError_node])
    (inside.flatten fun g hg => (joined g hg).summed) (hereditary_joined.errorNode joined)

theorem drives {task : ParseTask} {la : Lookahead} {t : Symbol}
    (h : Vouched task.language text P o s.entries)
    (drives : Relation.ReflTransGen (Run.Drives task la t) s s') :
    Vouched task.language text P o s'.entries := by
  induction drives with
  | refl => exact h
  | tail _ drive ih =>
    obtain ⟨id, c, -, reduced, rfl⟩ := drive
    exact ih.reduce reduced fun sturdy => nomatch sturdy

theorem mends {task : ParseTask} {la : Lookahead} (h : Vouched task.language text P o s.entries)
    (mends : Run.Mends task la s s') : Vouched task.language text Q o' s'.entries := by
  cases mends with
  | missing drives action =>
    exact (h.drives drives).push_marked (by simp [isMarked, NodeFlags.onlyMissing]) .nil
      (.of_leaf rfl)
  | wrap wrapped =>
    obtain ⟨taken, below, entries, -, result⟩ := Repair.wrap_spec wrapped
    rw [entries] at h
    rw [result]
    obtain ⟨o', lower⟩ := h.of_append
    refine lower.push_error h.inside_taken (fun g hg => ?_) _ _ _
    obtain ⟨e, he, rfl⟩ := mem_nodesOf.mp hg
    exact h.joined e (List.mem_append_left _ he)

theorem skip (h : Vouched l text P o s.entries) {leaf : Green} (noChildren : leaf.children = [])
    (token : leaf.production = none) (stop : Position) (cost : Nat) :
    Vouched l text Q o' (Repair.skip s leaf stop cost).value.entries := by
  obtain ⟨taken, below, children, entries, takes, result⟩ := Repair.skip_spec s leaf stop cost
  rw [entries] at h
  rw [result]
  obtain ⟨o', lower⟩ := h.of_append
  have upper := h.inside_taken
  have own : leaf.Joined := .of_leaf noChildren
  have joined : ∀ e ∈ taken, e.node.Joined := fun e he => h.joined e (List.mem_append_left _ he)
  have inside : Everywhere (Vouches l text) (spread (nodesOf below)) children := by
    cases takes with
    | nothing => exact .nil
    | @error extras e plain extra wrong inner =>
      rw [nodesOf_append, nodesOf_cons, nodesOf_nil, List.nil_append, Everywhere.append,
        Everywhere.singleton, spread_cons, spread_nil, Nat.add_zero] at upper
      rw [Everywhere.append, ← (joined e (by simp)).summed.length_eq (children_ne_nil inner)]
      exact ⟨upper.1.2, upper.2⟩
  refine lower.push_error (Everywhere.append.mpr ⟨inside, Everywhere.singleton.mpr
    ⟨.of_token token, noChildren ▸ .nil⟩⟩) ?_ _ _ _
  exact List.forall_mem_append.mpr
    ⟨takes.forall_mem hereditary_joined.down joined, List.forall_mem_singleton.mpr own⟩

end Vouched

end Glr
