import Glr.Proofs.FirstSets
import Glr.Proofs.States

/-!
# Lookaheads are closed under the flow

A lookahead flows from an item to the items predicted for the nonterminal right of its dot, and to
the item with its dot moved on.  The lookaheads of an automaton are the result of a saturation under
that flow, so nothing flows on from them (`Settled`), and lookaheads from which nothing flows on are
closed under both rules: `predict_closed` and `advance_closed`.  Together with the end of the text
behind the start item, this is the whole of what completeness needs.

The sets are kept in arrays parallel to the states, so the invariant of the saturation is a relation
between the two arrays (`Fit`): a set for each item of the kernel, a set for each symbol, and only
terminals of the grammar in them.
-/

namespace Glr

namespace StateLookaheads

variable {g : FlatGrammar} {here : StateLookaheads}

/-- Only terminals of the grammar. -/
def OfTerminals (g : FlatGrammar) (set : SymbolBits) : Prop :=
  ∀ t, set.contains t = true → g.isTerminal t = true

/-- The lookaheads of a state with a given kernel: a set for each item of it and one for each
symbol. -/
structure Fit (g : FlatGrammar) (state : LrState) (here : StateLookaheads) : Prop where
  kernel_size : here.kernel.size = state.kernel.length
  predicted_size : here.predicted.size = g.symbols.size
  kernel_terminals : ∀ (i : Nat) set, here.kernel[i]? = some set → OfTerminals g set
  predicted_terminals : ∀ (i : Nat) set, here.predicted[i]? = some set → OfTerminals g set

/-- Lookaheads grow in every part. -/
def Grows (g : FlatGrammar) (here there : StateLookaheads) : Prop :=
  List.Forall₂ (SymbolBits.Grows g.symbols.size) here.kernel.toList there.kernel.toList ∧
    List.Forall₂ (SymbolBits.Grows g.symbols.size) here.predicted.toList there.predicted.toList

/-- How many lookaheads are known. -/
def rank (g : FlatGrammar) (here : StateLookaheads) : Nat :=
  (here.kernel.toList.map (SymbolBits.rank g.symbols.size)).sum +
    (here.predicted.toList.map (SymbolBits.rank g.symbols.size)).sum

theorem growth (g : FlatGrammar) : Growth (Grows g) (rank g) :=
  ((SymbolBits.growth g.symbols.size).array.prod (SymbolBits.growth g.symbols.size).array).comap
    (f := fun here : StateLookaheads => (here.kernel, here.predicted)) fun {b c} h => by
      obtain ⟨hk, hp⟩ := Prod.mk.inj h
      cases b
      cases c
      exact congrArg₂ StateLookaheads.mk hk hp

theorem Fit.rank_le {state : LrState} (fit : Fit g state here) :
    rank g here ≤ (state.kernel.length + g.symbols.size) * g.symbols.size := by
  have slots : ∀ sets : Array SymbolBits,
      (sets.toList.map (SymbolBits.rank g.symbols.size)).sum ≤ sets.size * g.symbols.size :=
    fun sets => sum_map_le_length_mul fun a _ => SymbolBits.rank_le_bound _ a
  have hk := slots here.kernel
  have hp := slots here.predicted
  rw [fit.kernel_size] at hk
  rw [fit.predicted_size] at hp
  rw [rank, Nat.add_mul]
  exact Nat.add_le_add hk hp

theorem OfTerminals.union {a b : SymbolBits} (ha : OfTerminals g a) (hb : OfTerminals g b) :
    OfTerminals g (a.union b) := by
  intro t ht
  rw [SymbolBits.contains_union, Bool.or_eq_true] at ht
  exact ht.elim (ha t) (hb t)

theorem OfTerminals.union_up {set : SymbolBits} (h : OfTerminals g set) (old : SymbolBits) :
    SymbolBits.Grows g.symbols.size old (old.union set) :=
  SymbolBits.Grows.union old fun t ht => FlatGrammar.lt_of_isTerminal (h t ht)

theorem ofTerminals_empty : OfTerminals g SymbolBits.empty := by
  intro t ht
  rw [SymbolBits.contains_empty] at ht
  cases ht

/-- Joining a set of terminals to one slot leaves terminals in all slots. -/
theorem ofTerminals_modify {sets : Array SymbolBits} {set : SymbolBits}
    (hset : OfTerminals g set) {i : Nat}
    (h : ∀ (j : Nat) old, sets[j]? = some old → OfTerminals g old) :
    ∀ (j : Nat) new, (sets.modify i (·.union set))[j]? = some new → OfTerminals g new := by
  intro j new hj
  rw [Array.getElem?_modify] at hj
  split at hj
  · obtain ⟨old, hold, rfl⟩ := Option.map_eq_some_iff.mp hj
    exact (h j old hold).union hset
  · exact h j new hj

section Adding

variable {state : LrState} {set : SymbolBits} (fit : Fit g state here)
  (terminals : OfTerminals g set)

include fit terminals

theorem Fit.addKernel (item : Item) : Fit g state (addKernel state item set here) := by
  rw [StateLookaheads.addKernel]
  split
  · exact ⟨by rw [Array.size_modify, fit.kernel_size], fit.predicted_size,
      ofTerminals_modify terminals fit.kernel_terminals, fit.predicted_terminals⟩
  · exact fit

theorem Fit.addPredicted (s : Symbol) : Fit g state (addPredicted s set here) :=
  ⟨fit.kernel_size, by rw [StateLookaheads.addPredicted, Array.size_modify, fit.predicted_size],
    fit.kernel_terminals, ofTerminals_modify terminals fit.predicted_terminals⟩

omit fit in
theorem addKernel_up (item : Item) : Grows g here (addKernel state item set here) := by
  have grow := SymbolBits.growth g.symbols.size
  rw [StateLookaheads.addKernel]
  split
  · exact ⟨grow.modify fun old _ => terminals.union_up old, grow.array.refl _⟩
  · exact (growth g).refl here

omit fit in
theorem addPredicted_up (s : Symbol) : Grows g here (addPredicted s set here) := by
  have grow := SymbolBits.growth g.symbols.size
  exact ⟨grow.array.refl _, grow.modify fun old _ => terminals.union_up old⟩

end Adding

theorem Fit.ofItem {state : LrState} (fit : Fit g state here) (item : Item) :
    OfTerminals g (here.ofItem g state item) := by
  have getD : ∀ {sets : Array SymbolBits},
      (∀ (i : Nat) set, sets[i]? = some set → OfTerminals g set) → ∀ i : Nat,
      OfTerminals g (sets.getD i SymbolBits.empty) := by
    intro sets h i t ht
    rw [Array.getD_eq_getD_getElem?] at ht
    cases hi : sets[i]? with
    | none =>
      rw [hi, Option.getD_none, SymbolBits.contains_empty] at ht
      cases ht
    | some set =>
      rw [hi, Option.getD_some] at ht
      exact h i set hi t ht
  rw [StateLookaheads.ofItem]
  split
  · exact getD fit.kernel_terminals _
  · split
    · exact getD fit.predicted_terminals _
    · exact ofTerminals_empty

end StateLookaheads

namespace Lookaheads

variable {g : FlatGrammar} {f : FirstSets} {a : Automaton} {known : Lookaheads}

/-- Lookaheads for each state. -/
def Fit (g : FlatGrammar) (a : Automaton) (known : Lookaheads) : Prop :=
  List.Forall₂ (StateLookaheads.Fit g) a.states.toList known.toList

def Grows (g : FlatGrammar) (known known' : Lookaheads) : Prop :=
  List.Forall₂ (StateLookaheads.Grows g) known.toList known'.toList

def rank (g : FlatGrammar) (known : Lookaheads) : Nat :=
  (known.toList.map (StateLookaheads.rank g)).sum

theorem growth (g : FlatGrammar) : Growth (Grows g) (rank g) := (StateLookaheads.growth g).array

theorem Fit.rank_le (fit : Fit g a known) : rank g known ≤ room g a := by
  have start : ∀ (states : List LrState) (n : Nat),
      states.foldl (fun n state => n + (state.kernel.length + g.symbols.size)) n =
        n + (states.map fun state => state.kernel.length + g.symbols.size).sum := by
    intro states
    induction states with
    | nil => exact fun n => rfl
    | cons state states ih =>
      intro n
      rw [List.foldl_cons, ih, List.map_cons, List.sum_cons, Nat.add_assoc]
  rw [rank, room, ← Array.foldl_toList, start, Nat.zero_add]
  rw [Fit] at fit
  generalize a.states.toList = states, known.toList = heres at fit ⊢
  induction fit with
  | nil => exact Nat.zero_le _
  | cons h _ ih =>
    rw [List.map_cons, List.map_cons, List.sum_cons, List.sum_cons, Nat.add_mul]
    exact Nat.add_le_add h.rank_le ih

theorem Fit.ofItem (fit : Fit g a known) (i : StateId) (item : Item) :
    StateLookaheads.OfTerminals g (known.ofItem g a i item) := by
  rw [Lookaheads.ofItem]
  split
  · next state here hstate hhere =>
    obtain ⟨here', hhere', hfit⟩ := forall₂_getElem? fit hstate
    obtain rfl : here = here' := Option.some.inj (hhere.symm.trans hhere')
    exact hfit.ofItem item
  · exact StateLookaheads.ofTerminals_empty

section WellFormed

variable (wf : g.WellFormed)

include wf

theorem ofTerminals_end : StateLookaheads.OfTerminals g (SymbolBits.single Symbol.endOfText) := by
  intro t ht
  rw [SymbolBits.contains_single, decide_eq_true_eq] at ht
  exact ht ▸ wf.terminal_end

theorem fit_start : Fit g a (start g a) := by
  have fill : ∀ {n : Nat} {set : SymbolBits}, StateLookaheads.OfTerminals g set →
      ∀ (i : Nat) set', (Array.replicate n set)[i]? = some set' →
        StateLookaheads.OfTerminals g set' := by
    intro n set hset i set' hi
    rw [Array.getElem?_replicate] at hi
    split at hi
    · exact Option.some.inj hi ▸ hset
    · cases hi
  refine List.forall₂_iff_get.mpr ⟨by simp [start], fun i hx hy => ?_⟩
  simp only [List.get_eq_getElem, Array.getElem_toList, start, Array.getElem_mapIdx]
  refine ⟨Array.size_replicate, Array.size_replicate, fill ?_,
    fill StateLookaheads.ofTerminals_empty⟩
  split
  · exact ofTerminals_end wf
  · exact StateLookaheads.ofTerminals_empty

/-! ## A round -/

/-- Let a lookahead flow to the items predicted for a symbol. -/
def predict (g : FlatGrammar) (f : FirstSets) (i : StateId) (s : Symbol) (rest : List Symbol)
    (own : SymbolBits) (known : Lookaheads) : Lookaheads :=
  if g.isTerminal s then known
  else known.modify i (StateLookaheads.addPredicted s (f.ofList own rest))

/-- Let a lookahead flow to the item moved on by a symbol. -/
def moveOn (a : Automaton) (state : LrState) (s : Symbol) (item : Item) (own : SymbolBits)
    (known : Lookaheads) : Lookaheads :=
  match state.moves.lookup s with
  | none => known
  | some target =>
    match a.states[target]? with
    | none => known
    | some next => known.modify target (StateLookaheads.addKernel next item.advance own)

omit wf in
theorem flow_eq {i : StateId} {state : LrState} {item : Item} {s : Symbol}
    (hs : item.next? g = some s) :
    flow g f a i state known item =
      moveOn a state s item (ofItem g a known i item)
        (predict g f i s (item.advance.rest g) (ofItem g a known i item) known) := by
  rw [flow, Item.rest_eq_cons hs]
  rfl

omit wf in
theorem flow_of_complete {i : StateId} {state : LrState} {item : Item}
    (hs : item.next? g = none) : flow g f a i state known item = known := by
  rw [flow, List.head?_eq_none_iff.mp hs]

section Step

variable (i : StateId) (state : LrState) (item : Item) (s : Symbol) (rest : List Symbol)
  {own : SymbolBits} (terminals : StateLookaheads.OfTerminals g own)

include terminals

omit wf in
theorem predict_step (within : FirstSets.Within g f) (fit : Fit g a known) :
    Fit g a (predict g f i s rest own known) ∧ Grows g known (predict g f i s rest own known) := by
  have hset : StateLookaheads.OfTerminals g (f.ofList own rest) :=
    fun t ht => within.ofList terminals ht
  rw [predict]
  split
  · exact ⟨fit, (growth g).refl known⟩
  · exact ⟨forall₂_modify fit fun _ _ _ _ h => h.addPredicted hset s,
      (StateLookaheads.growth g).modify fun _ _ => StateLookaheads.addPredicted_up hset s⟩

omit wf in
theorem moveOn_step (fit : Fit g a known) :
    Fit g a (moveOn a state s item own known) ∧
      Grows g known (moveOn a state s item own known) := by
  rw [moveOn]
  split
  · exact ⟨fit, (growth g).refl known⟩
  · split
    · exact ⟨fit, (growth g).refl known⟩
    · next next hnext =>
      refine ⟨forall₂_modify fit fun state' _ hstate _ h => ?_,
        (StateLookaheads.growth g).modify fun _ _ => StateLookaheads.addKernel_up terminals _⟩
      obtain rfl : state' = next := Option.some.inj (hstate.symm.trans hnext)
      exact h.addKernel terminals _

end Step

omit wf in
theorem flow_step (within : FirstSets.Within g f) (fit : Fit g a known) (i : StateId)
    (state : LrState) (item : Item) :
    Fit g a (flow g f a i state known item) ∧ Grows g known (flow g f a i state known item) := by
  cases hs : item.next? g with
  | none =>
    rw [flow_of_complete hs]
    exact ⟨fit, (growth g).refl known⟩
  | some s =>
    rw [flow_eq hs]
    have terminals := fit.ofItem i item
    have first := predict_step i s (item.advance.rest g) terminals within fit
    have second := moveOn_step state item s terminals first.1
    exact ⟨second.1, (growth g).trans first.2 second.2⟩

omit wf in
theorem flowState_step (within : FirstSets.Within g f) (fit : Fit g a known) (i : StateId) :
    Fit g a (flowState g f a known i) ∧ Grows g known (flowState g f a known i) := by
  rw [flowState]
  split
  · next state _ =>
    have keep : ∀ known, Fit g a known → ∀ item ∈ state.items,
        Fit g a (flow g f a i state known item) :=
      fun _ h item _ => (flow_step within h i state item).1
    exact ⟨foldl_keeps keep fit,
      foldl_up (growth g) (fun _ h item _ => (flow_step within h i state item).2) keep fit⟩
  · exact ⟨fit, (growth g).refl known⟩

omit wf in
theorem round_step (within : FirstSets.Within g f) (fit : Fit g a known) :
    Fit g a (round g f a known) ∧ Grows g known (round g f a known) := by
  have keep : ∀ known, Fit g a known → ∀ i ∈ List.range a.states.size,
      Fit g a (flowState g f a known i) := fun _ h i _ => (flowState_step within h i).1
  exact ⟨foldl_keeps keep fit,
    foldl_up (growth g) (fun _ h i _ => (flowState_step within h i).2) keep fit⟩

theorem fit_ofAutomaton (within : FirstSets.Within g f) : Fit g a (ofAutomaton g f a) :=
  saturate_keeps (P := Fit g a) (fun _ h => (round_step within h).1) (fit_start wf)

/-- No lookahead flows on. -/
def Settled (g : FlatGrammar) (f : FirstSets) (a : Automaton) (known : Lookaheads) : Prop :=
  ∀ {i : StateId} {state : LrState}, a.states[i]? = some state → ∀ item ∈ state.items,
    flow g f a i state known item = known

theorem settled_ofAutomaton (within : FirstSets.Within g f) :
    Settled g f a (ofAutomaton g f a) := by
  intro i state hi item mem
  have fit := fit_ofAutomaton wf (a := a) within
  have fixed : round g f a (ofAutomaton g f a) = ofAutomaton g f a :=
    saturate_fixed (growth g) (P := Fit g a) (fun _ h => (round_step within h).2)
      (fun _ h => (round_step within h).1) (fun _ h => h.rank_le) (fit_start wf) (by omega)
  have hlt : i < a.states.size := (Array.getElem?_eq_some_iff.mp hi).1
  have stateFixed : flowState g f a (ofAutomaton g f a) i = ofAutomaton g f a :=
    foldl_fixed (growth g) (P := Fit g a) (fun _ h i _ => (flowState_step within h i).2)
      (fun _ h i _ => (flowState_step within h i).1) fit fixed i (List.mem_range.mpr hlt)
  rw [flowState, hi] at stateFixed
  exact foldl_fixed (growth g) (P := Fit g a)
    (fun _ h item _ => (flow_step within h i state item).2)
    (fun _ h item _ => (flow_step within h i state item).1) fit stateFixed item mem

theorem above_ofAutomaton (within : FirstSets.Within g f) :
    Grows g (start g a) (ofAutomaton g f a) :=
  saturate_above (growth g) (P := Fit g a) (fun _ h => (round_step within h).2)
    (fun _ h => (round_step within h).1) (fit_start wf)

/-! ## The lookaheads of an automaton -/

omit wf in
/-- The lookahead of an item of a kernel. -/
theorem ofItem_kernel {i : StateId} {state : LrState} {here : StateLookaheads} {item : Item}
    (hi : a.states[i]? = some state) (hhere : known[i]? = some here) {k : Nat}
    (hk : state.kernel.idxOf? item = some k) {set : SymbolBits}
    (hset : here.kernel[k]? = some set) :
    known.ofItem g a i item = set := by
  simp only [ofItem, hi, hhere, StateLookaheads.ofItem, hk, Array.getD_eq_getD_getElem?, hset,
    Option.getD_some]

omit wf in
/-- Items from the start of the productions of one nonterminal share their lookahead. -/
theorem ofItem_predicted {i : StateId} {state : LrState} {here : StateLookaheads}
    (hi : a.states[i]? = some state) (hhere : known[i]? = some here) {p : ProductionId}
    {production : FlatProduction} (hp : g.productions[p]? = some production)
    (absent : Item.start p ∉ state.kernel) {set : SymbolBits}
    (hset : here.predicted[production.lhs]? = some set) :
    known.ofItem g a i (Item.start p) = set := by
  have hk : state.kernel.idxOf? (Item.start p) = none := List.idxOf?_eq_none_iff.mpr absent
  have hprod : g.productions[(Item.start p).production]? = some production := hp
  simp only [ofItem, hi, hhere, StateLookaheads.ofItem, hk, hprod, Array.getD_eq_getD_getElem?,
    hset, Option.getD_some]

section Closed

variable (co : Automaton.Coherent g a) (within : FirstSets.Within g f) (fit : Fit g a known)
  (settled : Settled g f a known) {i j : StateId} {state next : LrState}
  (hi : a.states[i]? = some state) {item : Item}

include co within fit settled hi

/-- The items predicted for a symbol have what can follow it in the item that predicts them. -/
theorem predict_closed (mem : item ∈ state.items) {p : ProductionId}
    {production : FlatProduction} (hp : g.productions[p]? = some production)
    (hs : item.next? g = some production.lhs) {t : Symbol}
    (ht : (f.ofList (known.ofItem g a i item) (item.advance.rest g)).contains t = true) :
    (known.ofItem g a i (Item.start p)).contains t = true := by
  have terminals := fit.ofItem i item
  have fixed := settled hi item mem
  rw [flow_eq hs] at fixed
  -- The second half of the flow goes back to where the first half started, so neither adds
  -- anything.
  have up := predict_step i production.lhs (item.advance.rest g) terminals within fit
  have back := (moveOn_step state item production.lhs terminals up.1).2
  rw [fixed] at back
  have same := (growth g).antisymm back up.2
  have nonterminal := wf.lhs_nonterminal production (Array.mem_of_getElem? hp)
  rw [predict, nonterminal, if_neg Bool.false_ne_true] at same
  obtain ⟨here, hhere, hfit⟩ := forall₂_getElem? fit hi
  have slot : here.predicted.modify production.lhs (·.union
      (f.ofList (known.ofItem g a i item) (item.advance.rest g))) = here.predicted :=
    congrArg StateLookaheads.predicted (eq_of_modify_eq same hhere)
  have hlt : production.lhs < here.predicted.size := by
    rw [hfit.predicted_size]
    exact wf.lhs_lt production (Array.mem_of_getElem? hp)
  have hset := Array.getElem?_eq_getElem hlt
  have absent : Item.start p ∉ state.kernel := by
    intro hk
    rcases co.kernel hi _ hk with ⟨-, heq⟩ | ⟨-, h, -⟩
    · have hp' := (Array.getElem?_eq_some_iff.mp hp).1
      rw [show p = g.augmented from congrArg Item.production heq] at hp'
      exact Nat.lt_irrefl _ hp'
    · exact Nat.lt_irrefl 0 h
  rw [ofItem_predicted hi hhere hp absent hset]
  exact SymbolBits.contains_of_union_eq (eq_of_modify_eq slot hset) ht

omit wf in
/-- An item keeps its lookahead when its dot moves on. -/
theorem advance_closed (mem : item ∈ state.items) {s : Symbol} (hs : item.next? g = some s)
    (hj : state.moves.lookup s = some j) (hnext : a.states[j]? = some next) {t : Symbol}
    (ht : (known.ofItem g a i item).contains t = true) :
    (known.ofItem g a j item.advance).contains t = true := by
  have terminals := fit.ofItem i item
  have fixed := settled hi item mem
  rw [flow_eq hs] at fixed
  have up := predict_step i s (item.advance.rest g) terminals within fit
  have back := (moveOn_step state item s terminals up.1).2
  rw [fixed] at back
  rw [(growth g).antisymm back up.2, moveOn, hj] at fixed
  simp only [hnext] at fixed
  obtain ⟨here, hhere, hfit⟩ := forall₂_getElem? fit hnext
  have slot := eq_of_modify_eq fixed hhere
  have inKernel : item.advance ∈ next.kernel := by
    obtain ⟨-, next', hnext', hkernel⟩ := co.move hi hj
    obtain rfl : next = next' := Option.some.inj (hnext.symm.trans hnext')
    rw [hkernel]
    exact Automaton.mem_core.mpr ⟨item, mem, hs, rfl⟩
  obtain ⟨k, hk⟩ := Option.isSome_iff_exists.mp (List.isSome_idxOf?.mpr inKernel)
  have hlt : k < here.kernel.size := by
    rw [hfit.kernel_size]
    exact (List.idxOf?_eq_some_iff.mp hk).1
  have hset := Array.getElem?_eq_getElem hlt
  rw [StateLookaheads.addKernel, hk] at slot
  have slot : here.kernel.modify k (·.union (known.ofItem g a i item)) =
      here.kernel := congrArg StateLookaheads.kernel slot
  rw [ofItem_kernel hnext hhere hk hset]
  exact SymbolBits.contains_of_union_eq (eq_of_modify_eq slot hset) ht

end Closed

omit wf in
/-- The end of the text follows the start symbol. -/
theorem contains_end (co : Automaton.Coherent g a) (fit : Fit g a known)
    (above : Grows g (start g a) known) :
    (known.ofItem g a 0 (Item.start g.augmented)).contains Symbol.endOfText = true := by
  obtain ⟨state, hstate, hkernel⟩ := co.start
  obtain ⟨here, hhere, hfit⟩ := forall₂_getElem? fit hstate
  have hk : state.kernel.idxOf? (Item.start g.augmented) = some 0 := by
    rw [hkernel, List.idxOf?_singleton, if_pos (beq_self_eq_true _)]
  have hlt : 0 < here.kernel.size := by
    rw [hfit.kernel_size, hkernel]
    exact Nat.one_pos
  have hset := Array.getElem?_eq_getElem hlt
  rw [ofItem_kernel hstate hhere hk hset]
  -- The set was there from the start of the saturation.
  have first : (start g a)[0]? = some
      { kernel := Array.replicate 1 (SymbolBits.single Symbol.endOfText)
        predicted := Array.replicate g.symbols.size SymbolBits.empty } := by
    simp [start, Array.getElem?_mapIdx, hstate, hkernel]
  obtain ⟨here', hhere', hgrow⟩ := forall₂_getElem? above first
  obtain rfl : here = here' := Option.some.inj (hhere.symm.trans hhere')
  obtain ⟨set, hset', hsub⟩ := forall₂_getElem? hgrow.1
    (show (Array.replicate 1 (SymbolBits.single Symbol.endOfText))[0]? =
      some (SymbolBits.single Symbol.endOfText) from rfl)
  rw [hset] at hset'
  obtain rfl := Option.some.inj hset'
  exact hsub.1 _ (by rw [SymbolBits.contains_single, decide_eq_true rfl])

end WellFormed

end Lookaheads

end Glr
