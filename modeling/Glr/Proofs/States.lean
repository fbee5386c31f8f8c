import Glr.Proofs.Closure

/-!
# The states of an automaton

The states are found by a search that numbers kernels as it meets them.  What the parser relies on
is only what the search leaves behind, and `Coherent` lists it: the first state holds the start
item, a move exists for each symbol right of a dot and leads to the state of the advanced items, and
an item with its dot at the front is in no kernel but the first.

The search itself is a loop with two arrays, the kernels found and the states completed;
`Exploring` is its invariant.  It runs on a budget, which is never the reason to stop: every turn
completes a state, and there are no more kernels than the budget allows turns.
-/

namespace Glr

theorem getElem?_of_idxOf? {α : Type} [BEq α] [LawfulBEq α] {xs : Array α} {a : α} {i : Nat}
    (h : xs.idxOf? a = some i) : xs[i]? = some a := by
  obtain ⟨xs⟩ := xs
  rw [List.idxOf?_toArray, List.idxOf?_eq_some_iff] at h
  obtain ⟨hlt, heq, -⟩ := h
  rw [List.getElem?_toArray, List.getElem?_eq_getElem hlt, heq]

namespace Automaton

variable {g : FlatGrammar}

/-- An item as it may stand in the kernel of a state: at the front of its production only in the
first state, and never behind its end. -/
def KernelItem (g : FlatGrammar) (i : StateId) (item : Item) : Prop :=
  (i = 0 ∧ item = Item.start g.augmented) ∨
    (item.production ≤ g.augmented ∧ 0 < item.dot ∧ item.dot ≤ (g.rhs item.production).length)

/-- What the parser relies on in an automaton. -/
structure Coherent (g : FlatGrammar) (a : Automaton) : Prop where
  start : ∃ state, a.states[0]? = some state ∧ state.kernel = [Item.start g.augmented]
  items : ∀ {i : StateId} {state : LrState}, a.states[i]? = some state →
    state.items = closure g state.kernel
  kernel : ∀ {i : StateId} {state : LrState}, a.states[i]? = some state →
    ∀ item ∈ state.kernel, KernelItem g i item
  move : ∀ {i : StateId} {state : LrState} {s : Symbol} {j : StateId}, a.states[i]? = some state →
    state.moves.lookup s = some j → s ∈ nexts g state.items ∧
      ∃ next, a.states[j]? = some next ∧ next.kernel = core g state.items s
  moves : ∀ {i : StateId} {state : LrState} {s : Symbol}, a.states[i]? = some state →
    s ∈ nexts g state.items → ∃ j, state.moves.lookup s = some j
  keys : ∀ {i : StateId} {state : LrState}, a.states[i]? = some state →
    state.moves.map (·.1) = nexts g state.items
  size_le : a.states.size ≤ maxStates

/-! ## Following the symbols of a state -/

theorem mem_core {items : List Item} {s : Symbol} {item : Item} :
    item ∈ core g items s ↔ ∃ i ∈ items, i.next? g = some s ∧ item = i.advance := by
  rw [core, List.mem_mergeSort, List.mem_map]
  constructor
  · rintro ⟨i, hi, rfl⟩
    rw [List.mem_filter, beq_iff_eq] at hi
    exact ⟨i, hi.1, hi.2, rfl⟩
  · rintro ⟨i, hi, hs, rfl⟩
    exact ⟨i, List.mem_filter.mpr ⟨hi, beq_iff_eq.mpr hs⟩, rfl⟩

theorem KernelItem.production_le {i : StateId} {item : Item} (h : KernelItem g i item) :
    item.production ≤ g.augmented := by
  rcases h with ⟨-, rfl⟩ | ⟨h, -⟩
  · exact Nat.le_refl _
  · exact h

theorem kernelItem_of_mem_core {kernel : List Item} {i j : StateId} {s : Symbol} {item : Item}
    (known : ∀ item ∈ kernel, KernelItem g i item) (h : item ∈ core g (closure g kernel) s) :
    KernelItem g j item := by
  obtain ⟨before, mem, hs, rfl⟩ := mem_core.mp h
  have bound : before.production ≤ g.augmented := by
    rcases mem_closure.mp mem with mem | ⟨p, production, hp, -, rfl⟩
    · exact (known _ mem).production_le
    · exact Nat.le_of_lt (Array.getElem?_eq_some_iff.mp hp).1
  refine Or.inr ⟨bound, Nat.succ_pos before.dot, ?_⟩
  have hne : before.rest g ≠ [] := by
    rw [Item.rest_eq_cons hs]
    exact List.cons_ne_nil _ _
  exact Nat.lt_of_not_le fun hle => hne (List.drop_eq_nil_of_le hle)

/-- Looking for the state of a kernel: it has one, or the next number becomes its own. -/
inductive Entered (kernels : Array (List Item)) (kernel : List Item) :
    StateId → Array (List Item) → Prop where
  | known {target : StateId} (found : kernels.idxOf? kernel = some target) :
      Entered kernels kernel target kernels
  | new (absent : kernels.idxOf? kernel = none) (room : kernels.size < maxStates) :
      Entered kernels kernel kernels.size (kernels.push kernel)

/-- The first symbol is followed before the others. -/
theorem follow_cons {items : List Item} {s : Symbol} {symbols : List Symbol}
    {kernels kernels' : Array (List Item)} {moves : List (Symbol × StateId)}
    (h : follow g items kernels (s :: symbols) = .ok (moves, kernels')) :
    ∃ target mid rest, Entered kernels (core g items s) target mid ∧
      follow g items mid symbols = .ok (rest, kernels') ∧ moves = (s, target) :: rest := by
  rw [follow] at h
  split at h
  · next target found =>
    simp only [pure, Except.pure, bind, Except.bind] at h
    split at h
    · cases h
    · next v hv =>
      cases h
      exact ⟨target, kernels, v.1, .known found, hv, rfl⟩
  · next absent =>
    split at h
    · next room =>
      simp only [pure, Except.pure, bind, Except.bind] at h
      split at h
      · cases h
      · next v hv =>
        cases h
        exact ⟨kernels.size, kernels.push (core g items s), v.1, .new absent room, hv, rfl⟩
    · simp only [throw, throwThe, MonadExceptOf.throw, bind, Except.bind] at h
      cases h

/-- What following some symbols does: older kernels keep their numbers, every move leads to the
kernel of its symbol, and no other kernel is added. -/
structure Followed (g : FlatGrammar) (items : List Item) (kernels : Array (List Item))
    (symbols : List Symbol) (moves : List (Symbol × StateId)) (kernels' : Array (List Item)) :
    Prop where
  keys : moves.map (·.1) = symbols
  size_le : kernels.size ≤ kernels'.size
  bounded : kernels.size ≤ maxStates → kernels'.size ≤ maxStates
  old : ∀ (i : StateId) kernel, kernels[i]? = some kernel → kernels'[i]? = some kernel
  target : ∀ m ∈ moves, kernels'[m.2]? = some (core g items m.1)
  new : ∀ (i : StateId) kernel, kernels'[i]? = some kernel →
    kernels[i]? = some kernel ∨ ∃ s, kernel = core g items s

theorem Followed.nil {items : List Item} {kernels : Array (List Item)} :
    Followed g items kernels [] [] kernels :=
  ⟨rfl, Nat.le_refl _, id, fun _ _ h => h, fun _ h => absurd h List.not_mem_nil,
    fun _ _ h => Or.inl h⟩

theorem Followed.cons {items : List Item} {s : Symbol} {symbols : List Symbol}
    {kernels mid kernels' : Array (List Item)} {target : StateId}
    {moves : List (Symbol × StateId)} (entered : Entered kernels (core g items s) target mid)
    (later : Followed g items mid symbols moves kernels') :
    Followed g items kernels (s :: symbols) ((s, target) :: moves) kernels' := by
  cases entered with
  | known found =>
    refine ⟨by rw [List.map_cons, later.keys], later.size_le, later.bounded, later.old, ?_,
      later.new⟩
    exact List.forall_mem_cons.mpr ⟨later.old _ _ (getElem?_of_idxOf? found), later.target⟩
  | new absent room =>
    have size : (kernels.push (core g items s)).size = kernels.size + 1 := Array.size_push _
    refine ⟨by rw [List.map_cons, later.keys], ?_, fun _ => later.bounded (size ▸ room),
      fun i kernel hi => later.old i kernel (getElem?_pushed hi), ?_, ?_⟩
    · exact Nat.le_trans (size ▸ Nat.le_succ _) later.size_le
    · exact List.forall_mem_cons.mpr ⟨later.old _ _ (by simp), later.target⟩
    · intro i kernel hi
      rcases later.new i kernel hi with hi | hs
      · rw [Array.getElem?_push] at hi
        split at hi
        · exact Or.inr ⟨s, (Option.some.inj hi).symm⟩
        · exact Or.inl hi
      · exact Or.inr hs

theorem follow_followed {items : List Item} :
    ∀ {symbols : List Symbol} {kernels kernels' : Array (List Item)}
      {moves : List (Symbol × StateId)},
      follow g items kernels symbols = .ok (moves, kernels') →
      Followed g items kernels symbols moves kernels' := by
  intro symbols
  induction symbols with
  | nil =>
    intro kernels kernels' moves h
    rw [follow] at h
    cases h
    exact .nil
  | cons s symbols ih =>
    intro kernels kernels' moves h
    obtain ⟨target, mid, rest, entered, hrest, rfl⟩ := follow_cons h
    exact .cons entered (ih hrest)

/-! ## The search -/

/-- The invariant of the search: each completed state belongs to its kernel, and its moves lead to
kernels that were found. -/
structure Exploring (g : FlatGrammar) (kernels : Array (List Item)) (done : Array LrState) :
    Prop where
  first : kernels[0]? = some [Item.start g.augmented]
  done_le : done.size ≤ kernels.size
  kernels_le : kernels.size ≤ maxStates
  kernel : ∀ (i : StateId) kernel, kernels[i]? = some kernel → ∀ item ∈ kernel, KernelItem g i item
  state : ∀ (i : StateId) state, done[i]? = some state → kernels[i]? = some state.kernel ∧
    state.items = closure g state.kernel ∧
    state.moves.map (·.1) = nexts g state.items ∧
    ∀ m ∈ state.moves, kernels[m.2]? = some (core g state.items m.1)

theorem exploring_start : Exploring g #[[Item.start g.augmented]] #[] where
  first := rfl
  done_le := by simp
  kernels_le := by simp [maxStates]
  kernel := by
    intro i kernel hi item hitem
    have hlt : i < 1 := (Array.getElem?_eq_some_iff.mp hi).1
    obtain rfl : i = 0 := Nat.lt_one_iff.mp hlt
    cases hi
    exact Or.inl ⟨rfl, List.mem_singleton.mp hitem⟩
  state := by
    intro i state hi
    simp at hi

/-- A turn of the search keeps the invariant. -/
theorem Exploring.turn {kernels kernels' : Array (List Item)} {done : Array LrState}
    (inv : Exploring g kernels done) {kernel : List Item}
    (found : kernels[done.size]? = some kernel) {moves : List (Symbol × StateId)}
    (followed : Followed g (closure g kernel) kernels (nexts g (closure g kernel)) moves kernels') :
    Exploring g kernels' (done.push ⟨kernel, closure g kernel, moves⟩) where
  first := followed.old 0 _ inv.first
  done_le := by
    have := (Array.getElem?_eq_some_iff.mp found).1
    have := followed.size_le
    rw [Array.size_push]
    omega
  kernels_le := followed.bounded inv.kernels_le
  kernel := by
    intro i k hi item hitem
    rcases followed.new i k hi with old | ⟨s, rfl⟩
    · exact inv.kernel i k old item hitem
    · exact kernelItem_of_mem_core (inv.kernel _ _ found) hitem
  state := by
    intro i state hi
    rw [Array.getElem?_push] at hi
    split at hi
    · next here =>
      subst here
      cases hi
      exact ⟨followed.old _ _ found, rfl, followed.keys, followed.target⟩
    · obtain ⟨hk, hitems, hkeys, hmoves⟩ := inv.state i state hi
      exact ⟨followed.old _ _ hk, hitems, hkeys, fun m hm => followed.old _ _ (hmoves m hm)⟩

/-- The search ends when every kernel has its state, and what each of its turns keeps holds then. -/
theorem explore_complete {P : Array (List Item) → Array LrState → Prop}
    (keep : ∀ {kernels kernels' : Array (List Item)} {done : Array LrState} {kernel : List Item}
      {moves : List (Symbol × StateId)}, Exploring g kernels done → P kernels done →
      kernels[done.size]? = some kernel →
      follow g (closure g kernel) kernels (nexts g (closure g kernel)) = .ok (moves, kernels') →
      P kernels' (done.push ⟨kernel, closure g kernel, moves⟩)) :
    ∀ {fuel : Nat} {kernels : Array (List Item)} {done states : Array LrState},
      Exploring g kernels done → P kernels done → maxStates ≤ done.size + fuel →
      explore g kernels done fuel = .ok states →
      ∃ kernels', Exploring g kernels' states ∧ P kernels' states ∧
        kernels'.size = states.size := by
  intro fuel
  induction fuel with
  | zero =>
    intro kernels done states inv known enough h
    rw [explore] at h
    cases h
    have := inv.done_le
    have := inv.kernels_le
    exact ⟨kernels, inv, known, by omega⟩
  | succ n ih =>
    intro kernels done states inv known enough h
    rw [explore] at h
    split at h
    · next last =>
      cases h
      have := inv.done_le
      have : kernels.size ≤ done.size := Array.getElem?_eq_none_iff.mp last
      exact ⟨kernels, inv, known, by omega⟩
    · next kernel found =>
      simp only [bind, Except.bind] at h
      split at h
      · cases h
      · next v hv =>
        refine ih (inv.turn found (follow_followed hv)) (keep inv known found hv) ?_ h
        rw [Array.size_push]
        omega

theorem explored_ofGrammar {P : Array (List Item) → Array LrState → Prop}
    (keep : ∀ {kernels kernels' : Array (List Item)} {done : Array LrState} {kernel : List Item}
      {moves : List (Symbol × StateId)}, Exploring g kernels done → P kernels done →
      kernels[done.size]? = some kernel →
      follow g (closure g kernel) kernels (nexts g (closure g kernel)) = .ok (moves, kernels') →
      P kernels' (done.push ⟨kernel, closure g kernel, moves⟩))
    (start : P #[[Item.start g.augmented]] #[]) {a : Automaton} (h : ofGrammar g = .ok a) :
    ∃ kernels, Exploring g kernels a.states ∧ P kernels a.states ∧
      kernels.size = a.states.size := by
  simp only [ofGrammar, bind, Except.bind] at h
  split at h
  · cases h
  · next states hs =>
    cases h
    exact explore_complete keep exploring_start start (by simp) hs

theorem coherent_ofGrammar {a : Automaton} (h : ofGrammar g = .ok a) : Coherent g a := by
  obtain ⟨kernels, inv, -, hsize⟩ :=
    explored_ofGrammar (P := fun _ _ => True) (fun _ _ _ _ => trivial) trivial h
  -- There are as many states as kernels, so a kernel found is the kernel of a state.
  have stateOf : ∀ {j : StateId} {kernel : List Item}, kernels[j]? = some kernel →
      ∃ state, a.states[j]? = some state ∧ state.kernel = kernel := by
    intro j kernel hj
    have hlt : j < a.states.size := hsize ▸ (Array.getElem?_eq_some_iff.mp hj).1
    have hstate := Array.getElem?_eq_getElem hlt
    refine ⟨_, hstate, ?_⟩
    have := (inv.state j _ hstate).1
    rw [hj] at this
    exact (Option.some.inj this).symm
  refine ⟨stateOf inv.first, fun hi => (inv.state _ _ hi).2.1, fun hi => ?_, fun hi hs => ?_,
    fun hi hs => ?_, fun hi => (inv.state _ _ hi).2.2.1, hsize ▸ inv.kernels_le⟩
  · exact inv.kernel _ _ (inv.state _ _ hi).1
  · obtain ⟨-, -, hkeys, hmoves⟩ := inv.state _ _ hi
    have mem := mem_of_lookup hs
    refine ⟨?_, stateOf (hmoves _ mem)⟩
    rw [← hkeys]
    exact List.mem_map.mpr ⟨_, mem, rfl⟩
  · obtain ⟨-, -, hkeys, -⟩ := inv.state _ _ hi
    exact exists_lookup (hkeys ▸ hs)

/-! ## Items along a move -/

variable {a : Automaton} {i j : StateId} {state next : LrState} {s : Symbol} {item : Item}

theorem mem_nexts {items : List Item} (wf : g.WellFormed) :
    s ∈ nexts g items ↔ ∃ item ∈ items, item.next? g = some s := by
  rw [nexts, SymbolBits.mem_below, SymbolBits.contains_ofList, List.mem_filterMap]
  refine ⟨And.right, fun h => ⟨?_, h⟩⟩
  obtain ⟨item, -, hs⟩ := h
  exact Item.next?_lt wf hs

/-- An item moves on with the symbol right of its dot. -/
theorem Coherent.advance (co : Coherent g a) (wf : g.WellFormed) (hi : a.states[i]? = some state)
    (mem : item ∈ state.items) (hs : item.next? g = some s) :
    ∃ j next, state.moves.lookup s = some j ∧ a.states[j]? = some next ∧
      item.advance ∈ next.kernel := by
  obtain ⟨j, hj⟩ := co.moves hi ((mem_nexts wf).mpr ⟨item, mem, hs⟩)
  obtain ⟨-, next, hnext, hkernel⟩ := co.move hi hj
  refine ⟨j, next, hj, hnext, ?_⟩
  rw [hkernel]
  exact mem_core.mpr ⟨item, mem, hs, rfl⟩

theorem Coherent.kernel_subset (co : Coherent g a) (hi : a.states[i]? = some state)
    (mem : item ∈ state.kernel) : item ∈ state.items := by
  rw [co.items hi]
  exact mem_closure.mpr (Or.inl mem)

/-- Where a move leads, an item whose dot is not in front comes from the state moved from. -/
theorem Coherent.retreat (co : Coherent g a) (hi : a.states[i]? = some state)
    (hs : state.moves.lookup s = some j) (hj : a.states[j]? = some next)
    {p : ProductionId} {n : Nat} (mem : (⟨p, n + 1⟩ : Item) ∈ next.items) :
    (⟨p, n⟩ : Item) ∈ state.items ∧ (⟨p, n⟩ : Item).next? g = some s := by
  obtain ⟨-, next', hj', hkernel⟩ := co.move hi hs
  obtain rfl : next = next' := Option.some.inj (hj.symm.trans hj')
  rw [co.items hj, mem_closure] at mem
  rcases mem with mem | ⟨q, production, -, -, heq⟩
  · rw [hkernel, mem_core] at mem
    obtain ⟨⟨q, m⟩, hmem, hnext, heq⟩ := mem
    simp only [Item.advance, Item.mk.injEq, Nat.add_right_cancel_iff] at heq
    obtain ⟨rfl, rfl⟩ := heq
    exact ⟨hmem, hnext⟩
  · exact absurd (congrArg Item.dot heq) (Nat.succ_ne_zero n)

/-- No move leads to the first state. -/
theorem Coherent.target_ne_zero (co : Coherent g a) (hi : a.states[i]? = some state)
    (hs : state.moves.lookup s = some j) : j ≠ 0 := by
  rintro rfl
  obtain ⟨-, next, hnext, hkernel⟩ := co.move hi hs
  obtain ⟨first, hfirst, hstart⟩ := co.start
  obtain rfl : next = first := Option.some.inj (hnext.symm.trans hfirst)
  have mem : Item.start g.augmented ∈ core g state.items s := by
    rw [← hkernel, hstart]
    exact List.mem_singleton_self _
  obtain ⟨before, -, -, heq⟩ := mem_core.mp mem
  exact absurd (congrArg Item.dot heq) (Nat.succ_ne_zero before.dot).symm

/-- Only the first state has the start item with its dot in front. -/
theorem Coherent.eq_zero_of_start_mem (co : Coherent g a) (hi : a.states[i]? = some state)
    (mem : Item.start g.augmented ∈ state.items) : i = 0 := by
  rw [co.items hi, mem_closure] at mem
  rcases mem with mem | ⟨p, production, hp, -, heq⟩
  · rcases co.kernel hi _ mem with ⟨h, -⟩ | ⟨-, h, -⟩
    · exact h
    · exact absurd h (Nat.lt_irrefl 0)
  · have hlt := (Array.getElem?_eq_some_iff.mp hp).1
    have : p = g.augmented := (congrArg Item.production heq).symm
    exact absurd hlt (by rw [this]; exact Nat.lt_irrefl _)

/-- In the first state every dot is in front. -/
theorem Coherent.dot_eq_zero (co : Coherent g a) (h0 : a.states[0]? = some state)
    (mem : item ∈ state.items) : item.dot = 0 := by
  obtain ⟨first, hfirst, hstart⟩ := co.start
  obtain rfl : state = first := Option.some.inj (h0.symm.trans hfirst)
  rw [co.items h0, mem_closure, hstart] at mem
  rcases mem with mem | ⟨p, production, -, -, rfl⟩
  · rw [List.mem_singleton.mp mem]
    rfl
  · rfl

/-- A state with an item from the start of a production has a move on the left side. -/
theorem Coherent.goto (co : Coherent g a) (wf : g.WellFormed) (hi : a.states[i]? = some state)
    {p : ProductionId} {production : FlatProduction} (hp : g.productions[p]? = some production)
    (mem : Item.start p ∈ state.items) : ∃ j, state.moves.lookup production.lhs = some j := by
  rw [co.items hi, mem_closure] at mem
  rcases mem with mem | ⟨q, production', hq, hl, heq⟩
  · have hlt := (Array.getElem?_eq_some_iff.mp hp).1
    rcases co.kernel hi _ mem with ⟨-, heq⟩ | ⟨-, h, -⟩
    · have : p = g.augmented := congrArg Item.production heq
      exact absurd hlt (by rw [this]; exact Nat.lt_irrefl _)
    · exact absurd h (Nat.lt_irrefl 0)
  · obtain rfl : p = q := congrArg Item.production heq
    obtain rfl : production = production' := Option.some.inj (hp.symm.trans hq)
    refine co.moves hi ((mem_nexts wf).mpr ?_)
    rw [co.items hi]
    exact exists_next_of_predicted hl

/-- An item of a state is of one of the productions, or of the one that starts the text. -/
theorem Coherent.production_le (co : Coherent g a) (hi : a.states[i]? = some state)
    (mem : item ∈ state.items) : item.production ≤ g.augmented := by
  rw [co.items hi, mem_closure] at mem
  rcases mem with mem | ⟨p, production, hp, -, rfl⟩
  · exact (co.kernel hi _ mem).production_le
  · exact Nat.le_of_lt (Array.getElem?_eq_some_iff.mp hp).1

/-- The dot of an item in a state is not behind the end of its production. -/
theorem Coherent.dot_le (co : Coherent g a) (hi : a.states[i]? = some state)
    (mem : item ∈ state.items) : item.dot ≤ (g.rhs item.production).length := by
  rw [co.items hi, mem_closure] at mem
  rcases mem with mem | ⟨p, production, -, -, rfl⟩
  · rcases co.kernel hi _ mem with ⟨-, rfl⟩ | ⟨-, -, h⟩
    · exact Nat.zero_le _
    · exact h
  · exact Nat.zero_le _

end Automaton

end Glr
