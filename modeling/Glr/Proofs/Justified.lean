import Glr.Proofs.Beginnings
import Glr.Proofs.Discovery

/-!
# Lookaheads are the justified ones

A terminal is in the lookahead of an item just if it reaches the item along some path from the first
state (`Along`): the end of the text is behind the start item, a predicted item gets what the rest
of the predicting item begins with, and its lookahead too where the rest can vanish, and a move of
the dot keeps what there is.  The lookaheads are the least family closed under these rules
(`Closed`).

Neither depends on the order in which lookaheads are let flow.  Letting one of them flow on, where
that adds something, is a step of its own (`Spreads`); nothing that is added breaks a closed family
(`Below.flow`), so whatever order the steps are taken in, they come to an end, and they end with the
same lookaheads (`contains_iff_along`).  The rounds that an automaton gets its lookaheads by are one
such order.
-/

namespace Glr

namespace Automaton

variable {g : FlatGrammar} {a : Automaton} {kernel : List Item}

/-! ## The items of a kernel -/

/-- The items that a kernel predicts, one from another. -/
inductive Predicts (g : FlatGrammar) (kernel : List Item) : Item → Prop where
  | kernel {item : Item} (mem : item ∈ kernel) : Predicts g kernel item
  | start {item : Item} {p : ProductionId} {production : FlatProduction}
      (before : Predicts g kernel item) (found : g.productions[p]? = some production)
      (next : item.next? g = some production.lhs) : Predicts g kernel (Item.start p)

/-- Every nonterminal of a set stands right of a dot of an item that is predicted. -/
def Traced (g : FlatGrammar) (kernel : List Item) (set : SymbolBits) : Prop :=
  ∀ s, set.contains s = true → ∃ item, Predicts g kernel item ∧ item.next? g = some s

theorem Traced.predictFrom {set : SymbolBits} (traced : Traced g kernel set) {item : Item}
    (predicts : Predicts g kernel item) : Traced g kernel (predictFrom g set item) := by
  rw [Automaton.predictFrom]
  split
  · next t next =>
    split
    · exact traced
    · intro s hs
      rw [SymbolBits.contains_insert, Bool.or_eq_true, decide_eq_true_eq] at hs
      rcases hs with hs | rfl
      · exact traced s hs
      · exact ⟨item, predicts, next⟩
  · exact traced

theorem Traced.predictStep {set : SymbolBits} (traced : Traced g kernel set) (p : ProductionId) :
    Traced g kernel (predictStep g set p) := by
  rw [Automaton.predictStep]
  split
  · next production found =>
    split
    · next mem =>
      obtain ⟨item, predicts, next⟩ := traced _ mem
      exact traced.predictFrom (.start predicts found next)
    · exact traced
  · exact traced

theorem traced_predicted : Traced g kernel (predicted g kernel) := by
  refine saturate_keeps (P := Traced g kernel) (fun set traced => ?_) ?_
  · rw [predictRound_eq]
    exact foldl_keeps (fun _ traced p _ => traced.predictStep p) traced
  · refine foldl_keeps (P := Traced g kernel)
      (fun _ traced item mem => traced.predictFrom (.kernel mem)) fun s hs => ?_
    rw [SymbolBits.contains_empty] at hs
    cases hs

/-- A closure holds what its kernel predicts. -/
theorem mem_closure_iff_predicts (wf : g.WellFormed) {item : Item} :
    item ∈ closure g kernel ↔ Predicts g kernel item := by
  constructor
  · intro mem
    rcases mem_closure.mp mem with mem | ⟨p, production, found, inSet, rfl⟩
    · exact .kernel mem
    · obtain ⟨item, predicts, next⟩ := traced_predicted _ inSet
      exact .start predicts found next
  · intro predicts
    induction predicts with
    | kernel mem => exact mem_closure.mpr (Or.inl mem)
    | start _ found next ih => exact start_mem_closure wf ih found next

/-! ## The rules -/

/-- A family of lookaheads that the rules lead nowhere out of. -/
structure Closed (g : FlatGrammar) (a : Automaton) (known : StateId → Item → Symbol → Prop) :
    Prop where
  start : known 0 (Item.start g.augmented) Symbol.endOfText
  begins : ∀ {i : StateId} {state : LrState} {item : Item} {p : ProductionId}
    {production : FlatProduction} {t : Symbol}, a.states[i]? = some state → item ∈ state.items →
    g.productions[p]? = some production → item.next? g = some production.lhs →
    g.Begins (item.advance.rest g) t → known i (Item.start p) t
  vanishes : ∀ {i : StateId} {state : LrState} {item : Item} {p : ProductionId}
    {production : FlatProduction} {t : Symbol}, a.states[i]? = some state → item ∈ state.items →
    g.productions[p]? = some production → item.next? g = some production.lhs →
    g.Derives (item.advance.rest g) [] → known i item t → known i (Item.start p) t
  advance : ∀ {i j : StateId} {state : LrState} {item : Item} {s t : Symbol},
    a.states[i]? = some state → item ∈ state.items → item.next? g = some s →
    state.moves.lookup s = some j → known i item t → known j item.advance t

/-- A terminal reaches an item along the states of a path, the latest of which comes first. -/
inductive Along (g : FlatGrammar) (a : Automaton) : List StateId → Item → Symbol → Prop where
  | start : Along g a [0] (Item.start g.augmented) Symbol.endOfText
  | begins {i : StateId} {stack : List StateId} {ss : List Symbol} {state : LrState} {item : Item}
      {p : ProductionId} {production : FlatProduction} {t : Symbol} (path : a.Path (i :: stack) ss)
      (here : a.states[i]? = some state) (mem : item ∈ state.items)
      (found : g.productions[p]? = some production) (next : item.next? g = some production.lhs)
      (first : g.Begins (item.advance.rest g) t) : Along g a (i :: stack) (Item.start p) t
  | vanishes {i : StateId} {stack : List StateId} {state : LrState} {item : Item}
      {p : ProductionId} {production : FlatProduction} {t : Symbol}
      (along : Along g a (i :: stack) item t) (here : a.states[i]? = some state)
      (mem : item ∈ state.items) (found : g.productions[p]? = some production)
      (next : item.next? g = some production.lhs)
      (empty : g.Derives (item.advance.rest g) []) : Along g a (i :: stack) (Item.start p) t
  | advance {i j : StateId} {stack : List StateId} {state : LrState} {item : Item} {s t : Symbol}
      (along : Along g a (i :: stack) item t) (here : a.states[i]? = some state)
      (mem : item ∈ state.items) (next : item.next? g = some s)
      (moves : state.moves.lookup s = some j) : Along g a (j :: i :: stack) item.advance t

theorem Along.path {stack : List StateId} {item : Item} {t : Symbol} (h : Along g a stack item t) :
    ∃ ss, a.Path stack ss := by
  induction h with
  | start => exact ⟨[], .start⟩
  | begins path => exact ⟨_, path⟩
  | vanishes _ _ _ _ _ _ ih => exact ih
  | @advance i j stack state item s t _ here _ _ moves ih =>
    obtain ⟨ss, path⟩ := ih
    exact ⟨s :: ss, .move path here moves⟩

/-- What reaches an item is in every closed family. -/
theorem Closed.of_along {known : StateId → Item → Symbol → Prop} (closed : Closed g a known)
    {stack : List StateId} {item : Item} {t : Symbol} (h : Along g a stack item t) :
    ∃ i below, stack = i :: below ∧ known i item t := by
  induction h with
  | start => exact ⟨0, [], rfl, closed.start⟩
  | @begins i stack _ _ _ _ _ _ _ here mem found next first =>
    exact ⟨i, stack, rfl, closed.begins here mem found next first⟩
  | @vanishes i stack _ _ _ _ _ _ here mem found next empty ih =>
    obtain ⟨_, _, same, own⟩ := ih
    obtain ⟨rfl, rfl⟩ := List.cons.inj same
    exact ⟨i, stack, rfl, closed.vanishes here mem found next empty own⟩
  | @advance i j stack _ _ _ _ _ here mem next moves ih =>
    obtain ⟨_, _, same, own⟩ := ih
    obtain ⟨rfl, rfl⟩ := List.cons.inj same
    exact ⟨j, i :: stack, rfl, closed.advance here mem next moves own⟩

/-- What reaches items is a closed family. -/
theorem closed_along (h : ofGrammar g = .ok a) :
    Closed g a fun i item t => ∃ stack, Along g a (i :: stack) item t where
  start := ⟨[], .start⟩
  begins here mem found next first := by
    obtain ⟨stack, ss, path⟩ := exists_path h here
    exact ⟨stack, .begins path here mem found next first⟩
  vanishes here mem found next empty := by
    rintro ⟨stack, along⟩
    exact ⟨stack, .vanishes along here mem found next empty⟩
  advance here mem next moves := by
    rintro ⟨stack, along⟩
    exact ⟨_, .advance along here mem next moves⟩

end Automaton

namespace StateLookaheads

variable {g : FlatGrammar} {state : LrState} {here : StateLookaheads} {item other : Item}
  {set : SymbolBits} {s t : Symbol}

/-- What is added to the items predicted for a symbol is added to no others. -/
theorem contains_addPredicted
    (h : ((addPredicted s set here).ofItem g state other).contains t = true) :
    (here.ofItem g state other).contains t = true ∨ other ∉ state.kernel ∧
      (∃ p, g.productions[other.production]? = some p ∧ p.lhs = s) ∧ set.contains t = true := by
  rw [ofItem] at h ⊢
  cases hk : state.kernel.idxOf? other with
  | some k =>
    rw [hk] at h
    exact Or.inl h
  | none =>
    rw [hk] at h
    have absent := List.idxOf?_eq_none_iff.mp hk
    cases hp : g.productions[other.production]? with
    | none =>
      rw [hp] at h
      exact Or.inl h
    | some p =>
      rw [hp] at h
      dsimp only [addPredicted] at h ⊢
      rcases SymbolBits.contains_of_modify h with before | ⟨same, added⟩
      · exact Or.inl before
      · exact Or.inr ⟨absent, ⟨p, rfl, same.symm⟩, added⟩

/-- What is added to an item of the kernel is added to no other. -/
theorem contains_addKernel
    (h : ((addKernel state item set here).ofItem g state other).contains t = true) :
    (here.ofItem g state other).contains t = true ∨ other = item ∧ set.contains t = true := by
  rw [addKernel] at h
  cases hk : state.kernel.idxOf? item with
  | none =>
    rw [hk] at h
    exact Or.inl h
  | some k =>
    rw [hk] at h
    rw [ofItem] at h ⊢
    cases ho : state.kernel.idxOf? other with
    | none =>
      rw [ho] at h
      exact Or.inl h
    | some o =>
      rw [ho] at h
      dsimp only at h ⊢
      rcases SymbolBits.contains_of_modify h with before | ⟨same, added⟩
      · exact Or.inl before
      · subst same
        obtain ⟨lt, atItem, -⟩ := List.idxOf?_eq_some_iff.mp hk
        obtain ⟨_, atOther, -⟩ := List.idxOf?_eq_some_iff.mp ho
        exact Or.inr ⟨atOther.symm.trans atItem, added⟩

end StateLookaheads

namespace Lookaheads

open Automaton

variable {g : FlatGrammar} {f : FirstSets} {a : Automaton} {known known' : Lookaheads}
  {i j : StateId} {state : LrState} {item other : Item} {s t : Symbol} {own : SymbolBits}

/-! ## One flow -/

/-- What a change of one state adds. -/
theorem contains_ofItem_modify {change : StateLookaheads → StateLookaheads} {Added : Prop}
    (h : (ofItem g a (known.modify i change) j other).contains t = true)
    (adds : ∀ {state here}, a.states[i]? = some state → j = i →
      ((change here).ofItem g state other).contains t = true →
      (here.ofItem g state other).contains t = true ∨ Added) :
    (ofItem g a known j other).contains t = true ∨ Added := by
  rw [ofItem] at h ⊢
  rw [Array.getElem?_modify] at h
  cases hj : a.states[j]? with
  | none =>
    rw [hj] at h
    exact Or.inl h
  | some state =>
    cases hk : known[j]? with
    | none =>
      rw [hj, hk, Option.map_none, ite_self] at h
      exact Or.inl h
    | some here =>
      rw [hj, hk] at h
      by_cases same : i = j
      · subst same
        rw [if_pos rfl, Option.map_some] at h
        exact adds hj rfl h
      · rw [if_neg same] at h
        exact Or.inl h

/-- What letting a lookahead flow on adds: to the items predicted what can follow them, and the
lookahead itself to the item moved on. -/
theorem contains_flow (next : item.next? g = some s)
    (h : (ofItem g a (flow g f a i state known item) j other).contains t = true) :
    (ofItem g a known j other).contains t = true ∨
    (j = i ∧ (∃ p, g.productions[other.production]? = some p ∧ p.lhs = s) ∧
      (∀ state, a.states[i]? = some state → other ∉ state.kernel) ∧
      (f.ofList (ofItem g a known i item) (item.advance.rest g)).contains t = true) ∨
    (state.moves.lookup s = some j ∧ other = item.advance ∧
      (ofItem g a known i item).contains t = true) := by
  rw [flow_eq next] at h
  have predicted (h : (ofItem g a (predict g f i s (item.advance.rest g)
      (ofItem g a known i item) known) j other).contains t = true) :
      (ofItem g a known j other).contains t = true ∨
      (j = i ∧ (∃ p, g.productions[other.production]? = some p ∧ p.lhs = s) ∧
        (∀ state, a.states[i]? = some state → other ∉ state.kernel) ∧
        (f.ofList (ofItem g a known i item) (item.advance.rest g)).contains t = true) := by
    rw [predict] at h
    split at h
    · exact Or.inl h
    · refine contains_ofItem_modify h fun {state here} hi same added => ?_
      refine (StateLookaheads.contains_addPredicted added).imp_right ?_
      rintro ⟨absent, production, first⟩
      refine ⟨same, production, fun state' hi' => ?_, first⟩
      rwa [Option.some.inj (hi'.symm.trans hi)]
  rw [moveOn] at h
  split at h
  · exact (predicted h).imp_right Or.inl
  · next target moves =>
    split at h
    · exact (predicted h).imp_right Or.inl
    · next next' hnext =>
      have moved : (ofItem g a (predict g f i s (item.advance.rest g) (ofItem g a known i item)
          known) j other).contains t = true ∨ j = target ∧ other = item.advance ∧
            (ofItem g a known i item).contains t = true := by
        refine contains_ofItem_modify h fun {state here} ht same added => ?_
        obtain rfl : next' = state := Option.some.inj (hnext.symm.trans ht)
        exact (StateLookaheads.contains_addKernel added).imp_right fun h => ⟨same, h⟩
      rcases moved with old | ⟨rfl, own⟩
      · exact (predicted old).imp_right Or.inl
      · exact Or.inr (Or.inr ⟨moves, own⟩)

/-- Nothing but what is in a family. -/
def Below (g : FlatGrammar) (a : Automaton) (family : StateId → Item → Symbol → Prop)
    (known : Lookaheads) : Prop :=
  ∀ {i : StateId} {state : LrState} {item : Item} {t : Symbol}, a.states[i]? = some state →
    item ∈ state.items → (ofItem g a known i item).contains t = true → family i item t

variable {family : StateId → Item → Symbol → Prop}

theorem contains_replicate {n k : Nat} {set : SymbolBits}
    (h : ((Array.replicate n set).getD k SymbolBits.empty).contains t = true) :
    set.contains t = true := by
  rw [Array.getD_eq_getD_getElem?, Array.getElem?_replicate] at h
  split at h
  · exact h
  · rw [Option.getD_none, SymbolBits.contains_empty] at h
    cases h

section Grammar

variable (wf : g.WellFormed) (co : Coherent g a)

include wf co

/-- What flows stays in a closed family. -/
theorem Below.flow (below : Below g a family known) (closed : Closed g a family)
    (hi : a.states[i]? = some state) (mem : item ∈ state.items) :
    Below g a family (flow g (FirstSets.ofGrammar g) a i state known item) := by
  cases next : item.next? g with
  | none => rwa [flow_of_complete next]
  | some s =>
    intro j state' other t hj inItems h
    rcases contains_flow next h with old | ⟨rfl, ⟨p, hp, left⟩, absent, first⟩ | ⟨moves, rfl, own⟩
    · exact below hj inItems old
    · -- An item beside the kernel has its dot in front.
      have start : other = Item.start other.production := by
        rw [co.items hj] at inItems
        rcases mem_closure.mp inItems with inKernel | ⟨q, _, _, _, rfl⟩
        · exact absurd inKernel (absent state' hj)
        · rfl
      subst left
      rw [start]
      rcases (FirstSets.contains_ofList_iff_begins wf).mp first with begins | ⟨empty, own⟩
      · exact closed.begins hi mem hp next begins
      · exact closed.vanishes hi mem hp next empty (below hi mem own)
    · exact closed.advance hi mem next moves (below hi mem own)

omit wf in
/-- What is known at the start is in every closed family. -/
theorem below_start (closed : Closed g a family) : Below g a family (start g a) := by
  intro i state item t hi mem h
  have here : (start g a)[i]? = some
      { kernel := Array.replicate state.kernel.length
          (if i = 0 then SymbolBits.single Symbol.endOfText else SymbolBits.empty)
        predicted := Array.replicate g.symbols.size SymbolBits.empty } := by
    rw [start, Array.getElem?_mapIdx, hi, Option.map_some]
  have nothing {t : Symbol} : SymbolBits.empty.contains t ≠ true := by
    rw [SymbolBits.contains_empty]
    exact Bool.false_ne_true
  rw [ofItem, hi, here] at h
  dsimp only at h
  rw [StateLookaheads.ofItem] at h
  split at h
  · next k hk =>
    have known := contains_replicate h
    by_cases first : i = 0
    · rw [if_pos first, SymbolBits.contains_single, decide_eq_true_eq] at known
      subst first known
      obtain ⟨state', hi', kernel⟩ := co.start
      obtain rfl : state = state' := Option.some.inj (hi.symm.trans hi')
      have inKernel : item ∈ state.kernel := List.isSome_idxOf?.mp (by rw [hk]; rfl)
      rw [kernel, List.mem_singleton] at inKernel
      exact inKernel ▸ closed.start
    · rw [if_neg first] at known
      exact absurd known nothing
  · split at h
    · exact absurd (contains_replicate h) nothing
    · exact absurd h nothing

end Grammar

/-! ## Any order -/

/-- Some lookahead flows on and adds something. -/
def Spreads (g : FlatGrammar) (a : Automaton) (known known' : Lookaheads) : Prop :=
  known' ≠ known ∧ ∃ (i : StateId) (state : LrState) (item : Item), a.states[i]? = some state ∧
    item ∈ state.items ∧ known' = flow g (FirstSets.ofGrammar g) a i state known item

/-- Lookaheads that came from those at the start, in any order. -/
def Spread (g : FlatGrammar) (a : Automaton) (known : Lookaheads) : Prop :=
  Relation.ReflTransGen (Spreads g a) (start g a) known

theorem Spread.flow (h : Spread g a known) (hi : a.states[i]? = some state)
    (mem : item ∈ state.items) :
    Spread g a (flow g (FirstSets.ofGrammar g) a i state known item) := by
  by_cases same : Lookaheads.flow g (FirstSets.ofGrammar g) a i state known item = known
  · rwa [same]
  · exact h.tail ⟨same, i, state, item, hi, mem, rfl⟩

/-- The rounds take such steps. -/
theorem spread_ofAutomaton : Spread g a (ofAutomaton g (FirstSets.ofGrammar g) a) := by
  refine saturate_keeps (P := Spread g a) (fun known spread => ?_) .refl
  refine foldl_keeps (P := Spread g a) (fun known spread i _ => ?_) spread
  rw [flowState]
  split
  · next state hi =>
    exact foldl_keeps (P := Spread g a) (fun _ spread item mem => spread.flow hi mem) spread
  · exact spread

/-- Nothing flows on where no step is left. -/
theorem settled_iff : Settled g (FirstSets.ofGrammar g) a known ↔
    ∀ known', ¬ Spreads g a known known' := by
  constructor
  · rintro settled _ ⟨more, i, state, item, hi, mem, rfl⟩
    exact more (settled hi item mem)
  · intro last i state hi item mem
    by_contra more
    exact last _ ⟨more, i, state, item, hi, mem, rfl⟩

section Grammar

variable (wf : g.WellFormed)

include wf

/-- What a step leaves: lookaheads that are more. -/
theorem Spreads.step (h : Spreads g a known known') (fit : Fit g a known) :
    Fit g a known' ∧ Grows g known known' := by
  obtain ⟨-, i, state, item, -, -, rfl⟩ := h
  exact flow_step (FirstSets.within_ofGrammar wf) fit i state item

theorem Spread.fit (h : Spread g a known) : Fit g a known := by
  induction h with
  | refl => exact fit_start wf
  | tail _ step ih => exact (step.step wf ih).1

theorem Spread.above (h : Spread g a known) : Grows g (start g a) known := by
  induction h with
  | refl => exact (growth g).refl _
  | tail before step ih => exact (growth g).trans ih (step.step wf (Spread.fit wf before)).2

theorem Spread.below (co : Coherent g a) (h : Spread g a known) (closed : Closed g a family) :
    Below g a family known := by
  induction h with
  | refl => exact below_start co closed
  | tail _ step ih =>
    obtain ⟨-, i, state, item, hi, mem, rfl⟩ := step
    exact ih.flow wf co closed hi mem

/-- No order of the steps goes on for ever. -/
theorem acc_of_fit (fit : Fit g a known) :
    Acc (fun known' known => Spreads g a known known') known := by
  generalize left : room g a - rank g known = n
  induction n using Nat.strongRecOn generalizing known with
  | ind n ih =>
    refine ⟨known, fun known' step => ?_⟩
    obtain ⟨fit', grows⟩ := step.step wf fit
    have rises : rank g known < rank g known' := by
      refine Nat.lt_of_not_le fun le => step.1 ?_
      exact ((growth g).eq_of_rank grows le).symm
    have bound := fit'.rank_le
    exact ih _ (by omega) fit' rfl

/-- Lookaheads from which nothing flows on are a closed family. -/
theorem closed_of_settled (co : Coherent g a) (fit : Fit g a known)
    (above : Grows g (start g a) known) (settled : Settled g (FirstSets.ofGrammar g) a known) :
    Closed g a fun i item t => (ofItem g a known i item).contains t = true where
  start := contains_end co fit above
  begins hi mem hp next begins :=
    predict_closed wf co (FirstSets.within_ofGrammar wf) fit settled hi mem hp next
      ((FirstSets.contains_ofList_iff_begins wf).mpr (Or.inl begins))
  vanishes hi mem hp next empty own :=
    predict_closed wf co (FirstSets.within_ofGrammar wf) fit settled hi mem hp next
      ((FirstSets.contains_ofList_iff_begins wf).mpr (Or.inr ⟨empty, own⟩))
  advance hi mem next moves own := by
    obtain ⟨-, target, hj, -⟩ := co.move hi moves
    exact advance_closed co (FirstSets.within_ofGrammar wf) fit settled hi mem next moves hj own

end Grammar

/-- Lookaheads that the rules justify, and no others: the least closed family, which has a terminal
where it reaches the item along some path from the first state. -/
structure Justified (g : FlatGrammar) (a : Automaton) (known : Lookaheads) : Prop where
  closed : Closed g a fun i item t => (ofItem g a known i item).contains t = true
  least : ∀ family, Closed g a family → Below g a family known
  along : ∀ {i : StateId} {state : LrState}, a.states[i]? = some state → ∀ item ∈ state.items,
    ∀ t, (ofItem g a known i item).contains t = true ↔
      ∃ stack ss, a.Path (i :: stack) ss ∧ Along g a (i :: stack) item t

/-- In whatever order lookaheads flow on, those from which none does any more are justified. -/
theorem Spread.justified (wf : g.WellFormed) (built : Automaton.ofGrammar g = .ok a)
    (spread : Spread g a known) (last : ∀ known', ¬ Spreads g a known known') :
    Justified g a known := by
  have co := coherent_ofGrammar built
  have closed := closed_of_settled wf co (spread.fit wf) (spread.above wf) (settled_iff.mpr last)
  refine ⟨closed, fun family => spread.below wf co, fun hi item mem t => ⟨fun own => ?_, ?_⟩⟩
  · obtain ⟨stack, along⟩ := spread.below wf co (closed_along built) hi mem own
    obtain ⟨ss, path⟩ := along.path
    exact ⟨stack, ss, path, along⟩
  · rintro ⟨stack, ss, -, along⟩
    obtain ⟨_, _, same, own⟩ := closed.of_along along
    exact (List.cons.inj same).1 ▸ own

end Lookaheads

namespace Automaton

/-- The states are those that moves lead to, each there once: a state has the items that its kernel
predicts, and the symbols right of a dot lead to the one state whose kernel is the items moved on
by them. -/
structure Canonical (g : FlatGrammar) (a : Automaton) : Prop where
  start : ∃ state, a.states[0]? = some state ∧ state.kernel = [Item.start g.augmented]
  reached : ∀ {i : StateId} {state : LrState}, a.states[i]? = some state →
    ∃ stack ss, a.Path (i :: stack) ss
  items : ∀ {i : StateId} {state : LrState}, a.states[i]? = some state →
    ∀ item, item ∈ state.items ↔ Predicts g state.kernel item
  move : ∀ {i : StateId} {state : LrState}, a.states[i]? = some state → ∀ item ∈ state.items,
    ∀ s, item.next? g = some s → ∃ j next, state.moves.lookup s = some j ∧
      a.states[j]? = some next ∧ ∀ moved, moved ∈ next.kernel ↔
        ∃ before ∈ state.items, before.next? g = some s ∧ moved = before.advance
  unique : ∀ {i j : StateId} {state state' : LrState}, a.states[i]? = some state →
    a.states[j]? = some state' → (∀ item, item ∈ state.kernel ↔ item ∈ state'.kernel) → i = j

variable {g : FlatGrammar} {a : Automaton}

theorem canonical_ofGrammar (wf : g.WellFormed) (built : ofGrammar g = .ok a) :
    Canonical g a where
  start := (coherent_ofGrammar built).start
  reached hi := exists_path built hi
  items hi item := by
    rw [(coherent_ofGrammar built).items hi]
    exact mem_closure_iff_predicts wf
  move hi item mem s next := by
    have co := coherent_ofGrammar built
    obtain ⟨j, moves⟩ := co.moves hi ((mem_nexts wf).mpr ⟨item, mem, next⟩)
    obtain ⟨-, target, hj, kernel⟩ := co.move hi moves
    exact ⟨j, target, moves, hj, fun moved => by rw [kernel, mem_core]⟩
  unique hi hj same := state_unique built hi hj same

/-- The lookaheads of an automaton are the justified ones, over the states of its cores.  Letting
lookaheads flow on comes to an end in any order, and always with justified ones; where an item
moves on, the state that it moves to has what it had. -/
theorem lookaheads_justified {G : Grammar} (lowered : G.lower = .ok g)
    (built : ofGrammar g = .ok a) :
    Canonical g a ∧ (g.lookaheads a).Justified g a ∧
    (∀ {i j : StateId} {state : LrState} {item : Item} {s t : Symbol}, a.states[i]? = some state →
      item ∈ state.items → item.next? g = some s → state.moves.lookup s = some j →
      ((g.lookaheads a).ofItem g a i item).contains t = true →
      ((g.lookaheads a).ofItem g a j item.advance).contains t = true) ∧
    Acc (fun known' known => Lookaheads.Spreads g a known known') (Lookaheads.start g a) ∧
    (∀ known, Lookaheads.Spread g a known → (∀ known', ¬ Lookaheads.Spreads g a known known') →
      known.Justified g a) ∧
    Lookaheads.Spread g a (g.lookaheads a) ∧
    ∀ known', ¬ Lookaheads.Spreads g a (g.lookaheads a) known' := by
  have wf := Grammar.wellFormed_of_lower lowered
  have spread : Lookaheads.Spread g a (g.lookaheads a) := Lookaheads.spread_ofAutomaton
  have last := Lookaheads.settled_iff.mp
    (Lookaheads.settled_ofAutomaton wf (a := a) (FirstSets.within_ofGrammar wf))
  have justified := spread.justified wf built last
  exact ⟨canonical_ofGrammar wf built, justified, justified.closed.advance,
    Lookaheads.acc_of_fit wf (Lookaheads.fit_start wf),
    fun _ spread last => spread.justified wf built last, spread, last⟩

end Automaton

namespace FlatGrammar

/-- A pair that an `a` begins may have a `b` behind it: that comes round to the state from
itself. -/
theorem nested_justified : ∃ a, nested.lower = .ok nestedFlat ∧
    Automaton.ofGrammar nestedFlat = .ok a ∧
    (∃ stack ss, a.Path (1 :: stack) ss ∧ a.Along nestedFlat (1 :: stack) ⟨1, 1⟩ 3) := by
  have holds : ((Automaton.ofGrammar nestedFlat).toOption.bind fun a =>
      a.states[1]?.map fun state => decide (⟨1, 1⟩ ∈ state.items) &&
        ((nestedFlat.lookaheads a).ofItem nestedFlat a 1 ⟨1, 1⟩).contains 3) = some true := by
    decide +kernel
  obtain ⟨a, built, holds⟩ := Option.bind_eq_some_iff.mp holds
  obtain ⟨state, hi, holds⟩ := Option.map_eq_some_iff.mp holds
  rw [Bool.and_eq_true, decide_eq_true_eq] at holds
  have built := ok_of_toOption built
  exact ⟨a, nested_lower, built,
    ((Automaton.lookaheads_justified nested_lower built).2.1.along hi _ holds.1 3).mp holds.2⟩

end FlatGrammar

end Glr
