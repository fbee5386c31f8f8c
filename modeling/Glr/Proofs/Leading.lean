import Glr.Proofs.Alike
import Glr.Proofs.Vetted

/-!
# Stacks that lead to others

Two stacks may differ and yet come to the same once the token behind them is known: the one has made
the reductions that end a tree, and the other is about to (`Stack.Leads`).  A parse that has the
second stack alone does with a token that calls for these reductions, and for nothing else, what it
does with the first (`Run.reduceAll_leads`).

What trees leave on a stack once all reductions in them are made is laid out by `Stack.laid`, and
that is what a stack leads to whose automaton makes these trees again.
-/

namespace Glr

open Green

namespace Stack

/-! ## Reductions one after the other -/

/-- Reductions that a terminal calls for while nothing else can be done with it, on gists. -/
inductive Leads (l : Language) (t : Symbol) : Stack → Stack → Prop where
  | refl {s : Stack} : Leads l t s s
  | fold {s s' s'' : Stack} {id : ProductionId} (calls : l.actions s.state t = [.reduce id])
      (folded : s.folded? l id false = some s') (rest : Leads l t s' s'') : Leads l t s s''

variable {l : Language} {t : Symbol} {s s' s'' : Stack} {id : ProductionId} {fragile : Bool}

theorem Leads.trans (h : Leads l t s s') (h' : Leads l t s' s'') : Leads l t s s'' := by
  induction h with
  | refl => exact h'
  | fold calls folded rest ih => exact .fold calls folded (ih h')

/-- What a reduction of a gist needs, and what it comes to. -/
theorem folded?_eq_some : s.folded? l id fragile = some s' ↔ ∃ p children below target,
    l.production? id = some p ∧
    takeNodes [] p.length (s.entries.dropWhile (·.extra)) = some (children, below) ∧
    l.goto? (stateOver below) p.lhs = some target ∧ s' = { s with
      entries := (s.entries.takeWhile (·.extra)).map (fun e => { e with state := target }) ++
        ⟨target, (node ⟨p.lhs, some id, stateOver below, 0, p.dynamicPrecedence,
          NodeFlags.fragileIf fragile⟩ children).value.gist, Position.start, false⟩ :: below
      dynamicPrecedence := s.dynamicPrecedence + p.dynamicPrecedence } := by
  constructor
  · intro h
    obtain ⟨p, known, h⟩ := Option.bind_eq_some_iff.mp h
    obtain ⟨⟨children, below⟩, took, h⟩ := Option.bind_eq_some_iff.mp h
    obtain ⟨target, goto, same⟩ := Option.map_eq_some_iff.mp h
    exact ⟨p, children, below, target, known, took, goto, same.symm⟩
  · rintro ⟨p, children, below, target, known, took, goto, rfl⟩
    exact Option.bind_eq_some_iff.mpr ⟨p, known, Option.bind_eq_some_iff.mpr
      ⟨(children, below), took, Option.map_eq_some_iff.mpr ⟨target, goto, rfl⟩⟩⟩

theorem Leads.forked (h : Leads l t s s') : s'.forked = s.forked := by
  induction h with
  | refl => rfl
  | fold calls folded rest ih =>
    obtain ⟨_, _, _, _, -, -, -, rfl⟩ := folded?_eq_some.mp folded
    exact ih

/-- A stack with an extra on top. -/
def onExtra (s : Stack) (g : Green) (cost : Nat) : Stack :=
  (s.push ⟨s.state, g, Position.start, true⟩).charge cost

/-- An extra on top stays there. -/
theorem folded?_onExtra (h : s.folded? l id fragile = some s') (g : Green) (cost : Nat) :
    (s.onExtra g cost).folded? l id fragile = some (s'.onExtra g cost) := by
  obtain ⟨p, children, below, target, known, took, goto, rfl⟩ := folded?_eq_some.mp h
  refine folded?_eq_some.mpr ⟨p, children, below, target, known, took, goto, ?_⟩
  have state : ∀ {s : Stack} {es : List StackEntry} {e : StackEntry}, s.entries =
      es.map (fun e => { e with state := target }) ++ e :: below → e.state = target →
        s.state = target := by
    intro s es e entries top
    rw [state_eq, entries]
    cases es with
    | nil => exact top
    | cons => rfl
  rw [onExtra, state rfl rfl]
  rfl

theorem Leads.onExtra (h : Leads l t s s') (g : Green) (cost : Nat) :
    Leads l t (s.onExtra g cost) (s'.onExtra g cost) := by
  induction h with
  | refl => exact .refl
  | fold calls folded rest ih => exact .fold calls (folded?_onExtra folded g cost) ih

/-! ## Trees on a stack -/

/-- The nodes of entries are taken where they hold as many as are asked for. -/
theorem takeNodes_append {count : Nat} {taken below : List StackEntry} (nodes : List Green)
    (counted : (taken.filter (!·.extra)).length = count)
    (bottom : ∀ e ∈ taken.getLast?, e.extra = false) :
    takeNodes nodes count (taken ++ below) = some (nodesOf taken ++ nodes, below) := by
  induction taken generalizing nodes count with
  | nil =>
    subst counted
    rw [List.filter_nil, List.length_nil, List.nil_append, takeNodes]
    rfl
  | cons e taken ih =>
    have bottom' : ∀ f ∈ taken.getLast?, f.extra = false := by
      intro f hf
      refine bottom f ?_
      rw [List.getLast?_cons, Option.mem_def.mp hf]
      rfl
    rw [nodesOf_cons, List.append_assoc, List.singleton_append]
    cases extra : e.extra with
    | false =>
      rw [List.filter_cons_of_pos (by simp [extra]), List.length_cons] at counted
      subst counted
      rw [List.cons_append, takeNodes, if_neg (by simp [extra])]
      exact ih (e.node :: nodes) rfl bottom'
    | true =>
      -- An extra is not the last entry, so another is asked for.
      have more : count ≠ 0 := by
        intro none
        rw [none, List.filter_cons_of_neg (by simp [extra]), List.length_eq_zero_iff,
          List.filter_eq_nil_iff] at counted
        rcases List.eq_nil_or_concat taken with rfl | ⟨_, f, rfl⟩
        · rw [bottom e rfl] at extra
          cases extra
        · have plain := bottom' f (by simp)
          have := counted f (by simp)
          rw [plain] at this
          exact this rfl
      obtain ⟨count, rfl⟩ := Nat.exists_eq_succ_of_ne_zero more
      rw [List.cons_append, takeNodes, if_pos extra]
      refine ih (e.node :: nodes) ?_ bottom'
      rw [List.filter_cons_of_neg (by simp [extra])] at counted
      exact counted

/-- A stack with a tree on top that leads to a state. -/
def laidOn (s : Stack) (state : StateId) (g : Green) : Stack :=
  { s with
    entries := ⟨state, g.gist, Position.start, g.isExtra⟩ :: s.entries
    dynamicPrecedence := s.dynamicPrecedence + g.dynamicPrecedence }

/-- A stack with trees on top, all reductions made. -/
def laid (l : Language) (f : Front) (s : Stack) : List Green → Stack
  | [] => s
  | g :: gs => laid l (l.past f g) (s.laidOn (l.past f g).closed g) gs

variable {f : Front} {g : Green} {gs : List Green}

theorem state_laid (closed : s.state = f.closed) :
    (s.laid l f gs).state = (l.pastAll f gs).closed := by
  induction gs generalizing s f with
  | nil =>
    rw [laid, pastAll_nil]
    exact closed
  | cons g gs ih =>
    rw [laid, pastAll_cons]
    exact ih rfl

/-- What trees leave on a gist is one. -/
theorem gist_laid (own : s.gist = s) : (s.laid l f gs).gist = s.laid l f gs := by
  induction gs generalizing s f with
  | nil =>
    rw [laid]
    exact own
  | cons g gs ih =>
    rw [laid]
    refine ih ?_
    conv_rhs => rw [← own]
    show ({ s with
      entries := ⟨_, g.gist.gist, Position.start, g.isExtra⟩ :: s.entries.map StackEntry.gist
      dynamicPrecedence := _ } : Stack) = _
    rw [Green.gist_gist]
    rfl

/-- Of the trees a stack has their gists, and of itself all that was there. -/
theorem laid_spec (s : Stack) (l : Language) (f : Front) (gs : List Green) :
    ∃ es, s.laid l f gs = { s with
      entries := es ++ s.entries
      dynamicPrecedence := s.dynamicPrecedence + noted gs } ∧
    nodesOf es = gs.map Green.gist ∧ es.map (·.extra) = (gs.map isExtra).reverse := by
  induction gs generalizing s f with
  | nil =>
    refine ⟨[], ?_, rfl, rfl⟩
    rw [laid, noted_nil, Int.add_zero]
    rfl
  | cons g gs ih =>
    obtain ⟨es, same, nodes, extras⟩ := ih (s.laidOn (l.past f g).closed g) (l.past f g)
    refine ⟨es ++ [⟨(l.past f g).closed, g.gist, Position.start, g.isExtra⟩], ?_, ?_, ?_⟩
    · rw [laid, same, noted_cons, ← Int.add_assoc, List.append_assoc]
      rfl
    · rw [nodesOf_append, nodes]
      rfl
    · show _ = (g.isExtra :: gs.map isExtra).reverse
      rw [List.map_append, extras, List.reverse_cons]
      rfl

/-- The reduction that ends a tree puts it over its children. -/
theorem folded?_laid {p : Production} (known : l.production? id = some p)
    (made : g.gist = (node ⟨p.lhs, some id, f.closed, 0, p.dynamicPrecedence,
      NodeFlags.none⟩ g.children).value.gist)
    (fills : Fills g.children p) (onTop : g.children = [] → isTrailing s.entries = false)
    (goto : l.goto? f.closed p.lhs = some (l.past f g).closed) (closed : s.state = f.closed) :
    (s.laid l f g.children).folded? l id false = some (s.laid l f [g]) := by
  obtain ⟨es, same, nodes, extras⟩ := s.laid_spec l f g.children
  have counted : (es.filter (!·.extra)).length = p.length := by
    have count := congrArg (fun extras : List Bool => (extras.filter (!·)).length) extras
    simp only [List.filter_map, List.filter_reverse, List.length_map, List.length_reverse,
      Function.comp_def] at count
    exact count.trans fills.counted
  have bottom : ∀ e ∈ es.getLast?, e.extra = false := by
    intro e he
    have last := congrArg List.getLast? extras
    rw [List.getLast?_map, List.getLast?_reverse, List.head?_map, he] at last
    obtain ⟨c, hc, extra⟩ := Option.map_eq_some_iff.mp last.symm
    exact extra.symm.trans (fills.first c hc)
  have top : ∀ e ∈ (es ++ s.entries).head?, e.extra = false := by
    intro e he
    cases es with
    | nil =>
      have none : g.children = [] := by
        have := congrArg List.length nodes
        simpa using this.symm
      have trailing := onTop none
      rw [List.nil_append] at he
      cases entries : s.entries with
      | nil =>
        rw [entries] at he
        cases he
      | cons f es =>
        rw [entries] at he trailing
        obtain rfl := Option.some.inj he
        exact trailing
    | cons f es =>
      obtain rfl := Option.some.inj he
      have first := congrArg List.head? extras
      rw [List.map_cons, List.head?_cons, List.head?_reverse, List.getLast?_map] at first
      obtain ⟨c, hc, extra⟩ := Option.map_eq_some_iff.mp first.symm
      exact extra.symm.trans (fills.last c hc)
  have dropped : (es ++ s.entries).dropWhile (·.extra) = es ++ s.entries ∧
      (es ++ s.entries).takeWhile (·.extra) = [] := by
    cases entries : es ++ s.entries with
    | nil => exact ⟨rfl, rfl⟩
    | cons e rest =>
      have plain := top e (by rw [entries]; rfl)
      exact ⟨List.dropWhile_cons_of_neg (by simp [plain]),
        List.takeWhile_cons_of_neg (by simp [plain])⟩
  refine folded?_eq_some.mpr ⟨p, g.children.map Green.gist, s.entries, (l.past f g).closed, known, ?_,
    ?_, ?_⟩
  · rw [same]
    dsimp only
    rw [dropped.1, takeNodes_append [] counted bottom, nodes, List.append_nil]
  · rw [← state_eq, closed]
    exact goto
  · rw [same]
    dsimp only
    rw [dropped.2]
    have node : g.gist = (Green.node ⟨p.lhs, some id, stateOver s.entries, 0, p.dynamicPrecedence,
        NodeFlags.fragileIf false⟩ (g.children.map Green.gist)).value.gist := by
      rw [← state_eq, closed, made]
      refine gist_node_congr ?_
      rw [List.map_map]
      exact List.map_congr_left fun c _ => (Green.gist_gist c).symm
    have level : g.dynamicPrecedence = noted g.children + p.dynamicPrecedence := by
      rw [← dynamicPrecedence_gist g, made, dynamicPrecedence_gist, dynamicPrecedence_node,
        Int.add_comm]
    have plain := Retraces.isExtra_of_made made
    rw [laid, laid, laidOn, node, level, plain, ← Int.add_assoc]
    rfl

end Stack

namespace Run

open Stack

variable {task : ParseTask} {la la' : Lookahead} {r r' : Run} {s s' : Stack}

/-- What can be shifted without a fork was led to. -/
theorem leads_of_reduceAll {m : Stack × StateId} (single : r.live = [s])
    (hm : m ∈ (r.reduceAll task la).1.shifts) (unforked : m.1.forked = false) :
    Leads task.language la.token.symbol s.gist m.1.gist ∧
      task.language.actions m.1.state la.token.symbol = [.shift m.2] := by
  have from_ : Phase.From task la (fun t => t.forked = false →
      Leads task.language la.token.symbol s.gist t.gist) (r.reduceAll task la).1 := by
    refine reduceAll_from (fun {t t'} leads takes unforked => ?_) fun t ht _ => ?_
    · obtain ⟨id, b, c, branches, reduced, rfl⟩ := takes
      rw [single] at reduced
      have folded := folded?_gist task.language b id la (false || b.forked)
      rw [show b.reduce? task.language id la (false || b.forked) = some c from reduced] at folded
      obtain ⟨_, _, _, _, -, -, -, gist⟩ := folded?_eq_some.mp folded
      have own : b.forked = false := (congrArg Stack.forked gist).symm.trans unforked
      obtain rfl := branches.same own
      rw [own] at folded
      have calls := branches.single own
      rw [← state_gist] at calls
      exact (leads own).trans (.fold calls folded .refl)
    · rw [single] at ht
      rw [List.mem_singleton.mp ht]
      exact .refl
  obtain ⟨t, leads, branches⟩ := from_.shifts m hm
  have same := branches.same unforked
  exact ⟨same ▸ leads (same ▸ unforked), branches.single unforked⟩

/-- The same comes out of the reductions on a token for a stack and for one that it leads to. -/
theorem workOff_leads (symbol : la.token.symbol = la'.token.symbol) {x : Stack}
    (leads : Leads task.language la.token.symbol x s'.gist) :
    ∀ (fuel fuel' : Nat) {s : Stack} {w w' : Work} {r r' : Run}, s.gist = x → s.forked = false →
      w.queue = [s] → w'.queue = [s'] → w.phase.Alike w'.phase → w.budget ≤ w'.budget →
      w.budget + 1 ≤ fuel → w'.budget + 1 ≤ fuel' →
      (workOff task la false fuel (w, r)).2.reported.reductions = false →
      (workOff task la false fuel (w, r)).1.phase.Alike
        (workOff task la' false fuel' (w', r')).1.phase := by
  generalize gist : s'.gist = y at leads
  induction leads with
  | refl =>
    intro fuel fuel' s w w' r r' same _ queue queue' phase budget room room' enough
    refine workOff_congr symbol fuel fuel' ⟨?_, phase, budget⟩ ?_ ?_ enough
    · rw [queue, queue', List.map_singleton, List.map_singleton, same, gist]
    · rw [queue]
      exact room
    · rw [queue']
      exact room'
  | @fold x x' y id calls folded rest ih =>
    intro fuel fuel' s w w' r r' same unforked queue queue' phase budget room room' enough
    obtain ⟨fuel, rfl⟩ := Nat.exists_eq_add_of_lt (show 0 < fuel by omega)
    rw [Nat.zero_add] at enough room ⊢
    rw [workOff] at enough ⊢
    subst same
    rw [state_gist] at calls
    split at enough
    · next none =>
      rw [Work.dequeue_none none] at queue
      cases queue
    · next t w₁ taken =>
      obtain ⟨queue₁, budget₁, phase₁⟩ := Work.dequeue_spec taken
      rw [queue₁] at queue
      obtain ⟨rfl, empty⟩ := List.cons.inj queue
      dsimp only at enough ⊢
      rw [calls] at enough ⊢
      change (workOff task la false fuel
        (takeAction task la false t (w₁, r) (.reduce id))).2.reported.reductions = false at enough
      change (workOff task la false fuel
        (takeAction task la false t (w₁, r) (.reduce id))).1.phase.Alike _
      have before := framing_enough.workOff task la false fuel
        (takeAction task la false t (w₁, r) (.reduce id)).1
        (takeAction task la false t (w₁, r) (.reduce id)).2 enough
      rw [takeAction] at enough before ⊢
      dsimp only at enough before ⊢
      split at before
      · rw [reductions_report] at before
        cases before
      · next left =>
        rw [if_neg left] at enough ⊢
        have reduced := reduce_gist task.language r t id la (false || t.forked)
        rw [Bool.false_or, unforked, folded] at reduced
        rw [Bool.false_or, unforked] at enough ⊢
        generalize r.reduce task.language t id la false = result at reduced enough ⊢
        obtain ⟨_ | t', r₁⟩ := result
        · cases reduced
        · have here := Option.some.inj reduced
          have own : t'.forked = false := by
            obtain ⟨_, _, _, _, -, -, -, same⟩ := folded?_eq_some.mp folded
            rw [← forked_gist t', here, same]
            exact unforked
          refine ih gist fuel fuel' here own ?_ queue' ?_ ?_ ?_ room' enough
          · rw [Work.queue_enqueue]
            show w₁.queue ++ [t'] = [t']
            rw [empty]
            rfl
          · exact phase₁ ▸ phase
          · show w₁.budget - 1 ≤ w'.budget
            omega
          · show w₁.budget - 1 + 1 ≤ fuel
            omega

theorem reduceAll_leads (symbol : la.token.symbol = la'.token.symbol) (single : r.live = [s])
    (single' : r'.live = [s']) (unforked : s.forked = false)
    (leads : Leads task.language la.token.symbol s.gist s'.gist)
    (enough : (r.reduceAll task la).2.reported.reductions = false) :
    (r.reduceAll task la).1.Alike (r'.reduceAll task la').1 := by
  rw [reduceAll, single] at enough ⊢
  rw [reduceAll, single']
  exact Phase.Alike.reversed (workOff_leads symbol leads _ _ rfl unforked rfl rfl ⟨rfl, rfl, rfl⟩
    (Nat.le_refl _) (Nat.le_refl _) (Nat.le_refl _) enough)

/-- A stack that can shift the token and do nothing else does that. -/
theorem reduceAll_shift {target : StateId} (single : r.live = [s])
    (shift : task.language.actions s.state la.token.symbol = [.shift target]) :
    (r.reduceAll task la).1 = ⟨[(s, target)], [], []⟩ := by
  have worked : ∀ r : Run, (workOff task la false (task.config.maxReductionsPerToken + [s].length)
      (⟨[s], [], task.config.maxReductionsPerToken, ⟨[], [], []⟩⟩, r)).1 =
      ⟨[], [], task.config.maxReductionsPerToken, ⟨[(s, target)], [], []⟩⟩ := by
    intro r
    rw [List.length_singleton, workOff]
    show (if (task.language.actions s.state la.token.symbol).isEmpty then _ else _ :
      Work × Run).1 = _
    rw [shift]
    exact workOff_of_empty rfl _
  rw [reduceAll, single]
  show Phase.mk (workOff task la false _ _).1.phase.shifts.reverse
    (workOff task la false _ _).1.phase.accepted.reverse
    (workOff task la false _ _).1.phase.failed.reverse = _
  rw [worked]
  rfl

/-- A stack that leads to one that can shift the token and do nothing else shifts it there. -/
theorem reduceAll_leads_shift {base : Stack} {target : StateId} (single : r.live = [s])
    (unforked : s.forked = false) (leads : Leads task.language la.token.symbol s.gist base.gist)
    (shift : task.language.actions base.state la.token.symbol = [.shift target])
    (enough : (r.reduceAll task la).2.reported.reductions = false) :
    (r.reduceAll task la).1.Alike ⟨[(base, target)], [], []⟩ := by
  rw [← reduceAll_shift (r := { r with live := [base] }) rfl shift]
  exact reduceAll_leads rfl single rfl unforked leads enough

end Run

end Glr
