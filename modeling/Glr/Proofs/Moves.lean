import Glr.Parser.Reduce
import Glr.Parser.Shift

/-!
# What a move does to a stack

A reduction and the repairs change a stack at its top only, and each of them replaces a run of
entries by one.  The lemmas here say which run and by what, in terms of the entries alone: what a
stack is charged and where its nodes end has no part in it.

`Reduces` is a relation and not an equation because few proofs have a use for the lookahead of a new
node, and none for the token ahead that it was made with.
-/

namespace Glr

/-- The state over some entries; under the lowest it is state zero. -/
def stateOver : List StackEntry → StateId
  | [] => 0
  | e :: _ => e.state

/-- The place behind some entries; under the lowest it is the start of the text. -/
def placeOver : List StackEntry → Position
  | [] => Position.start
  | e :: _ => e.stop

/-- The nodes of some entries from the bottom up. -/
def nodesOf (entries : List StackEntry) : List Green := (entries.map (·.node)).reverse

@[simp] theorem nodesOf_nil : nodesOf [] = [] := rfl

@[simp] theorem nodesOf_cons (e : StackEntry) (es : List StackEntry) :
    nodesOf (e :: es) = nodesOf es ++ [e.node] := by
  rw [nodesOf, List.map_cons, List.reverse_cons]
  rfl

@[simp] theorem nodesOf_append (es fs : List StackEntry) :
    nodesOf (es ++ fs) = nodesOf fs ++ nodesOf es := by
  rw [nodesOf, List.map_append, List.reverse_append]
  rfl

@[simp] theorem nodesOf_restate (es : List StackEntry) (state : StateId) :
    nodesOf (es.map fun e => { e with state }) = nodesOf es := by
  rw [nodesOf, List.map_map]
  rfl

theorem mem_nodesOf {g : Green} {es : List StackEntry} :
    g ∈ nodesOf es ↔ ∃ e ∈ es, e.node = g := by
  rw [nodesOf, List.mem_reverse, List.mem_map]

theorem forall_mem_nodesOf {P : Green → Prop} {es : List StackEntry} :
    (∀ c ∈ nodesOf es, P c) ↔ ∀ e ∈ es, P e.node := by
  simp only [nodesOf, List.mem_reverse, List.forall_mem_map]

namespace Stack

theorem state_eq (s : Stack) : s.state = stateOver s.entries := by
  rw [state]
  split
  · next h =>
    rw [h]
    rfl
  · next h =>
    rw [h]
    rfl

theorem position_eq (s : Stack) : s.position = placeOver s.entries := by
  rw [position]
  split
  · next h =>
    rw [h]
    rfl
  · next h =>
    rw [h]
    rfl

theorem takeNodes_spec {nodes children : List Green} {count : Nat}
    {entries below : List StackEntry} (h : takeNodes nodes count entries = some (children, below)) :
    ∃ taken, entries = taken ++ below ∧ children = nodesOf taken ++ nodes ∧
      (taken.filter (!·.extra)).length = count ∧ ∀ e ∈ taken.getLast?, e.extra = false := by
  fun_induction takeNodes nodes count entries with
  | case1 => exact ⟨[], by cases h; rfl, by cases h; rfl, rfl, fun _ h => nomatch h⟩
  | case2 => cases h
  | case3 nodes count e rest extra ih =>
    obtain ⟨taken, rfl, rfl, counted, last⟩ := ih h
    refine ⟨e :: taken, rfl, by simp, by simpa [extra] using counted, ?_⟩
    cases taken with
    | nil => cases counted
    | cons t ts => simpa using last
  | case4 nodes count e rest plain ih =>
    obtain ⟨taken, rfl, rfl, counted, last⟩ := ih h
    refine ⟨e :: taken, rfl, by simp, by simpa [plain] using counted, ?_⟩
    cases taken with
    | nil => simpa using plain
    | cons t ts => simpa using last

/-- A reduction puts a node over the entries of a production, under the extras on top. -/
inductive Reduces (l : Language) (id : ProductionId) :
    List StackEntry → List StackEntry → Prop where
  | intro {trailing taken below : List StackEntry} {p : Production} {target : StateId}
      (lookahead : Nat) (fragile : Bool) (known : l.production? id = some p)
      (extras : ∀ e ∈ trailing, e.extra = true)
      (counted : (taken.filter (!·.extra)).length = p.length)
      (top : ∀ e ∈ (taken ++ below).head?, e.extra = false)
      (bottom : ∀ e ∈ taken.getLast?, e.extra = false)
      (goto : l.goto? (stateOver below) p.lhs = some target)
      (looked : ∃ la, lookahead =
        (nodeLookahead la (placeOver (taken ++ below)).offset (nodesOf taken)).value) :
      Reduces l id (trailing ++ (taken ++ below))
        (trailing.map (fun e => { e with state := target }) ++
          ⟨target, (Green.node ⟨p.lhs, some id, stateOver below, lookahead, p.dynamicPrecedence,
            NodeFlags.fragileIf fragile⟩ (nodesOf taken)).value,
            placeOver (taken ++ below), false⟩ :: below)

/-- What a reduction needs, and what it makes of the entries. -/
theorem reduce?_spec {l : Language} {s : Stack} {id : ProductionId} {la : Lookahead}
    {fragile : Bool} {c : Checked Stack} (h : s.reduce? l id la fragile = some c) :
    ∃ trailing taken below p target, l.production? id = some p ∧
      (∀ e ∈ trailing, e.extra = true) ∧ (taken.filter (!·.extra)).length = p.length ∧
      (∀ e ∈ (taken ++ below).head?, e.extra = false) ∧ (∀ e ∈ taken.getLast?, e.extra = false) ∧
      l.goto? (stateOver below) p.lhs = some target ∧
      s.entries = trailing ++ (taken ++ below) ∧
      c.value.entries = trailing.map (fun e => { e with state := target }) ++
        ⟨target, (Green.node ⟨p.lhs, some id, stateOver below,
          (nodeLookahead la (placeOver (taken ++ below)).offset (nodesOf taken)).value,
          p.dynamicPrecedence, NodeFlags.fragileIf fragile⟩ (nodesOf taken)).value,
          placeOver (taken ++ below), false⟩ :: below := by
  rw [reduce?] at h
  obtain ⟨p, known, h⟩ := Option.bind_eq_some_iff.mp h
  obtain ⟨⟨children, below⟩, took, h⟩ := Option.bind_eq_some_iff.mp h
  obtain ⟨target, goto, h⟩ := Option.bind_eq_some_iff.mp h
  obtain ⟨taken, split, rfl, counted, bottom⟩ := takeNodes_spec took
  have state : state { s with entries := below } = stateOver below := state_eq _
  have top : ∀ e ∈ (s.entries.dropWhile (·.extra)).head?, e.extra = false := by
    have := List.head?_dropWhile_not (·.extra) s.entries
    intro e he
    rwa [Option.mem_def.mp he] at this
  have place : position { s with entries := s.entries.dropWhile (·.extra) } =
      placeOver (taken ++ below) := by
    rw [position_eq]
    exact congrArg placeOver split
  have entries := List.takeWhile_append_dropWhile (p := (·.extra)) (l := s.entries)
  dsimp only at split
  rw [split] at top entries
  cases h
  rw [List.append_nil, place]
  rw [state] at goto
  refine ⟨_, taken, below, p, target, known, fun e he => ?_, counted, top, bottom, goto,
    entries.symm, rfl⟩
  exact List.all_eq_true.mp List.all_takeWhile e he

theorem reduces_of_reduce? {l : Language} {s : Stack} {id : ProductionId} {la : Lookahead}
    {fragile : Bool} {c : Checked Stack} (h : s.reduce? l id la fragile = some c) :
    Reduces l id s.entries c.value.entries := by
  obtain ⟨trailing, taken, below, p, target, known, extras, counted, top, bottom, goto, before,
    after⟩ := reduce?_spec h
  rw [before, after]
  exact .intro _ fragile known extras counted top bottom goto ⟨la, rfl⟩

end Stack

namespace Repair

/-- Wrapping replaces some entries by an error over their nodes, from where these start. -/
theorem wrap_spec {l : Language} {s : Stack} {t : Symbol} {allowed : Nat}
    {c : Checked (Stack × Nat)} (h : wrap l s t allowed = some c) :
    ∃ taken below, s.entries = taken ++ below ∧ c.value.2 = (placeOver below).offset ∧
      c.value.1.entries =
        ⟨stateOver below, (errorNode (nodesOf taken)).value, s.position, true⟩ :: below := by
  have walk : ∀ (entries taken : List StackEntry) (depth : Nat),
      wrapFrom l s t (nodesOf taken) depth allowed entries = some c →
      ∃ more below, entries = more ++ below ∧ c.value.2 = (placeOver below).offset ∧
        c.value.1.entries = ⟨stateOver below, (errorNode (nodesOf (taken ++ more))).value,
          s.position, true⟩ :: below := by
    intro entries
    induction entries with
    | nil => exact fun _ _ h => nomatch h
    | cons e below ih =>
      intro taken depth h
      have shown : e.node :: nodesOf taken = nodesOf (taken ++ [e]) := by simp
      rw [wrapFrom] at h
      split at h
      · cases h
      · dsimp only at h
        split at h
        · cases h
          exact ⟨[e], below, rfl, congrArg Position.offset (Stack.position_eq _),
            by rw [← shown]; rfl⟩
        · rw [shown] at h
          obtain ⟨more, rest, rfl, start, result⟩ := ih _ _ h
          exact ⟨e :: more, rest, rfl, start, by simpa using result⟩
  exact walk s.entries [] 0 h

/-- The entries that an error over a skipped token takes in. -/
inductive TakesIn : List StackEntry → List Green → Prop where
  | nothing : TakesIn [] []
  | error {extras : List StackEntry} {e : StackEntry} (plain : ∀ f ∈ extras, f.extra = true)
      (extra : e.extra = true) (wrong : e.node.isError = true) (inner : e.node.isLeaf = false) :
      TakesIn (extras ++ [e]) (e.node.children ++ nodesOf extras)

theorem takesIn_of_openError? {s : Stack} {children : List Green} {below : List StackEntry}
    (h : openError? s = some (children, below)) :
    ∃ taken, s.entries = taken ++ below ∧ TakesIn taken children := by
  rw [openError?] at h
  split at h
  · next e rest found =>
    split at h
    · next isOpen =>
      cases h
      simp only [Bool.and_eq_true, Bool.not_eq_true'] at isOpen
      refine ⟨s.entries.takeWhile isPlainExtra ++ [e], ?_, ?_⟩
      · rw [List.append_assoc, List.singleton_append, ← found, List.takeWhile_append_dropWhile]
      · refine .error (fun f hf => ?_) isOpen.1.1 isOpen.1.2 isOpen.2
        have plain := List.all_eq_true.mp List.all_takeWhile f hf
        exact ((Bool.and_eq_true _ _).mp plain).1
    · cases h
  · cases h

/-- Skipping pushes an error over the token. -/
theorem skip_spec (s : Stack) (leaf : Green) (stop : Position) (cost : Nat) :
    ∃ taken below children, s.entries = taken ++ below ∧ TakesIn taken children ∧
      (skip s leaf stop cost).value.entries =
        ⟨stateOver below, (errorNode (children ++ [leaf])).value, stop, true⟩ :: below := by
  rw [skip]
  split
  · next children base found =>
    split at found
    · next isOpen =>
      cases found
      obtain ⟨taken, same, takes⟩ := takesIn_of_openError? isOpen
      exact ⟨taken, _, _, same, takes, rfl⟩
    · cases found
      exact ⟨[], s.entries, [], rfl, .nothing, rfl⟩

end Repair

/-! ## What all entries have

A move makes one entry and leaves the others as they are, but that a reduction puts extras over
another state.  So if single entries have something that does not hang on their state, only the one
that is made has to be looked at. -/

section Entries

variable {P : StackEntry → Prop}

theorem Stack.Reduces.forall_mem {l : Language} {id : ProductionId} {es es' : List StackEntry}
    (reduces : Stack.Reduces l id es es') (all : ∀ e ∈ es, P e)
    (restate : ∀ (e : StackEntry) (state : StateId), P e → P { e with state })
    (made : ∀ {taken below : List StackEntry} {p : Production} (target : StateId)
      (lookahead : Nat) (fragile : Bool), l.production? id = some p →
      (∀ e ∈ taken, P e) → (∀ e ∈ below, P e) →
      P ⟨target, (Green.node ⟨p.lhs, some id, stateOver below, lookahead, p.dynamicPrecedence,
        NodeFlags.fragileIf fragile⟩ (nodesOf taken)).value, placeOver (taken ++ below), false⟩) :
    ∀ e ∈ es', P e := by
  cases reduces with
  | @intro _ _ _ _ target lookahead fragile known =>
    obtain ⟨above, rest⟩ := List.forall_mem_append.mp all
    obtain ⟨inside, below⟩ := List.forall_mem_append.mp rest
    have moved := List.forall_mem_map.mpr fun e he => restate e target (above e he)
    exact List.forall_mem_append.mpr
      ⟨moved, List.forall_mem_cons.mpr ⟨made target lookahead fragile known inside below, below⟩⟩

namespace Repair

theorem forall_mem_wrap {l : Language} {s : Stack} {t : Symbol} {allowed : Nat}
    {c : Checked (Stack × Nat)} (wrapped : wrap l s t allowed = some c)
    (all : ∀ e ∈ s.entries, P e)
    (made : ∀ {taken below : List StackEntry}, (∀ e ∈ taken, P e) →
      P ⟨stateOver below, (errorNode (nodesOf taken)).value, s.position, true⟩) :
    ∀ e ∈ c.value.1.entries, P e := by
  obtain ⟨taken, below, entries, -, result⟩ := wrap_spec wrapped
  rw [entries] at all
  obtain ⟨inside, rest⟩ := List.forall_mem_append.mp all
  rw [result]
  exact List.forall_mem_cons.mpr ⟨made inside, rest⟩

theorem forall_mem_skip {s : Stack} {leaf : Green} {stop : Position} {cost : Nat}
    (all : ∀ e ∈ s.entries, P e)
    (made : ∀ {taken below : List StackEntry} {children : List Green},
      TakesIn taken children → (∀ e ∈ taken, P e) →
      P ⟨stateOver below, (errorNode (children ++ [leaf])).value, stop, true⟩) :
    ∀ e ∈ (skip s leaf stop cost).value.entries, P e := by
  obtain ⟨taken, below, children, entries, takes, result⟩ := skip_spec s leaf stop cost
  rw [entries] at all
  obtain ⟨inside, rest⟩ := List.forall_mem_append.mp all
  rw [result]
  exact List.forall_mem_cons.mpr ⟨made takes inside, rest⟩

/-- What is taken in are nodes of entries, and the children of one. -/
theorem TakesIn.forall_mem {Q : Green → Prop} {taken : List StackEntry} {children : List Green}
    (takes : TakesIn taken children) (down : ∀ {g}, Q g → ∀ c ∈ g.children, Q c)
    (all : ∀ e ∈ taken, Q e.node) : ∀ c ∈ children, Q c := by
  cases takes with
  | nothing => exact fun _ hc => absurd hc List.not_mem_nil
  | @error extras e =>
    obtain ⟨extras, error⟩ := List.forall_mem_append.mp all
    exact List.forall_mem_append.mpr
      ⟨down (error e List.mem_cons_self), forall_mem_nodesOf.mpr extras⟩

end Repair

end Entries

namespace Run

/-- One node of the start symbol among extras is the root, with the extras inside of it. -/
theorem accept_of_single (l : Language) {s : Stack} {before after : List StackEntry}
    {main : StackEntry} (entries : s.entries.reverse = before ++ main :: after)
    (extras : ∀ e ∈ before ++ after, e.extra = true) (plain : main.extra = false)
    (start : main.node.symbol = l.startSymbol) :
    before ++ after = [] ∧ (accept l s).value = main.node ∨
      (accept l s).value = (main.node.withChildren
        (before.map (·.node) ++ main.node.children ++ after.map (·.node))
        NodeFlags.onlyFragile).value := by
  have first : ∀ e ∈ before, e.extra = true := fun e he => extras e (List.mem_append_left _ he)
  have last : after.all (·.extra) = true :=
    List.all_eq_true.mpr fun e he => extras e (List.mem_append_right _ he)
  have stops : ¬ main.extra = true := Bool.eq_false_iff.mp plain
  have taken : (before ++ main :: after).takeWhile (·.extra) = before := by
    rw [List.takeWhile_append_of_pos first, List.takeWhile_cons_of_neg stops, List.append_nil]
  have left : (before ++ main :: after).dropWhile (·.extra) = main :: after := by
    rw [List.dropWhile_append_of_pos first, List.dropWhile_cons_of_neg stops]
  rw [accept, entries, taken, left]
  dsimp only
  rw [last, start, beq_self_eq_true, Bool.and_self, if_pos rfl]
  split
  · next none =>
    simp only [Bool.and_eq_true, List.isEmpty_iff] at none
    exact Or.inl ⟨by rw [none.1, none.2]; rfl, rfl⟩
  · exact Or.inr rfl

/-- A stack that accepts becomes an error over all its nodes, or the one node of it that is no
extra, with the extras before and after it inside. -/
theorem accept_cases (l : Language) (s : Stack) :
    (accept l s).value = (Repair.errorNode (nodesOf s.entries)).value ∨
      ∃ before main after, s.entries.reverse = before ++ main :: after ∧
        (∀ e ∈ before ++ after, e.extra = true) ∧ main.extra = false ∧
        main.node.symbol = l.startSymbol ∧
        (before ++ after = [] ∧ (accept l s).value = main.node ∨
          (accept l s).value = (main.node.withChildren
            (before.map (·.node) ++ main.node.children ++ after.map (·.node))
            NodeFlags.onlyFragile).value) := by
  have shown := List.takeWhile_append_dropWhile (p := (·.extra)) (l := s.entries.reverse)
  have extra : ∀ e ∈ s.entries.reverse.takeWhile (·.extra), e.extra = true :=
    fun e he => List.all_eq_true.mp List.all_takeWhile e he
  have plain := List.head?_dropWhile_not (·.extra) s.entries.reverse
  cases rest : s.entries.reverse.dropWhile (·.extra) with
  | nil =>
    rw [accept, rest]
    exact Or.inl rfl
  | cons main after =>
    rw [rest] at shown plain
    by_cases fits : (after.all (·.extra) && main.node.symbol == l.startSymbol) = true
    · rw [Bool.and_eq_true, List.all_eq_true, beq_iff_eq] at fits
      have extras : ∀ e ∈ s.entries.reverse.takeWhile (·.extra) ++ after, e.extra = true :=
        fun e he => (List.mem_append.mp he).elim (extra e) (fits.1 e)
      exact Or.inr ⟨_, main, after, shown.symm, extras, plain, fits.2,
        accept_of_single l shown.symm extras plain fits.2⟩
    · rw [accept, rest]
      dsimp only
      rw [if_neg fits]
      exact Or.inl rfl

end Run

end Glr
