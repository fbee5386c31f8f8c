import Glr.Proofs.Arisen
import Glr.Proofs.InStep
import Glr.Proofs.TextEnd

/-!
# What the nodes of a tree earn

A node notes the dynamic precedences of the productions in its tree, added up.  Nothing adds them up
anew: a reduction adds its own to what the children have noted, an error takes over what its
children have, and a copy keeps what was there.  In a tree that is `Green.Accounted` the note of
each node is right: it is what the productions in its tree earn, those of errors left out
(`Green.Accounted.eq_earned`).

One kind of node can be wrong, the root that accepting makes: extras become children of it and their
notes are not added.  It is fragile, and so nothing is taken over from it but what is below
(`Green.Kept`).

Errors count for nothing because a repair takes them apart and makes one of several.  So the tables
must not have a production that earns something and gives an error (`Tables.ErrorsEarnNothing`).  No
grammar gives such tables, but they can be loaded.
-/

namespace Glr

namespace Tables

/-- What a production earns. -/
def precedenceOf (t : Tables) (id : ProductionId) : Int :=
  match t.productions[id]? with
  | some p => p.dynamicPrecedence
  | none => 0

/-- What productions earn together. -/
def earned (t : Tables) (ids : List ProductionId) : Int := (ids.map t.precedenceOf).sum

/-- A production that gives an error earns nothing. -/
def ErrorsEarnNothing (t : Tables) : Prop :=
  ∀ p ∈ t.productions, p.lhs = Symbol.error → p.dynamicPrecedence = 0

instance (t : Tables) : Decidable t.ErrorsEarnNothing :=
  inferInstanceAs (Decidable (∀ p ∈ t.productions, _ → _))

@[simp] theorem earned_nil (t : Tables) : t.earned [] = 0 := rfl

@[simp] theorem earned_append (t : Tables) (ids ids' : List ProductionId) :
    t.earned (ids ++ ids') = t.earned ids + t.earned ids' := by
  simp [earned]

theorem earned_perm (t : Tables) {ids ids' : List ProductionId} (same : ids.Perm ids') :
    t.earned ids = t.earned ids' :=
  (same.map t.precedenceOf).sum_eq

@[simp] theorem earned_singleton (t : Tables) (id : ProductionId) :
    t.earned [id] = t.precedenceOf id := by
  simp [earned]

end Tables

namespace Green

variable {t : Tables} {g : Green} {gs : List Green}

/-! ## Notes and what they stand for -/

/-- What trees have noted, added up. -/
def noted (gs : List Green) : Int := (gs.map (·.dynamicPrecedence)).sum

@[simp] theorem noted_nil : noted [] = 0 := rfl

@[simp] theorem noted_cons (g : Green) (gs : List Green) :
    noted (g :: gs) = g.dynamicPrecedence + noted gs := by
  simp [noted]

@[simp] theorem noted_append (gs hs : List Green) : noted (gs ++ hs) = noted gs + noted hs := by
  simp [noted]

/-- The production of a node, unless it is an error. -/
def ownProduction (g : Green) : List ProductionId :=
  if g.isError then [] else g.production.toList

mutual

/-- The productions of the nodes of a tree that are no errors. -/
def productions : Green → List ProductionId
  | mk d cs => ownProduction (mk d cs) ++ productionsIn cs

/-- The productions of the nodes of trees that are no errors. -/
def productionsIn : List Green → List ProductionId
  | [] => []
  | g :: gs => productions g ++ productionsIn gs

end

/-- Trees that have noted what they earn have noted together what all their productions earn. -/
theorem noted_of_forall (earns : ∀ g ∈ gs, g.dynamicPrecedence = t.earned g.productions) :
    noted gs = t.earned (productionsIn gs) := by
  induction gs with
  | nil => rw [productionsIn]; rfl
  | cons g gs ih =>
    obtain ⟨own, rest⟩ := List.forall_mem_cons.mp earns
    rw [noted_cons, productionsIn, Tables.earned_append, own, ih rest]

/-- Every node of a tree has noted what it earns itself and what its children have noted.  And a
leaf with text that no edit has touched is a token, and earns nothing. -/
inductive Accounted (t : Tables) : Green → Prop where
  | intro {g : Green} (below : ∀ c ∈ g.children, Accounted t c)
      (note : g.dynamicPrecedence = t.earned g.ownProduction + noted g.children)
      (token : g.children = [] → 0 < g.length → g.isDamaged = false → g.production = none) :
      Accounted t g

namespace Accounted

theorem of_mem : g.Accounted t → ∀ c ∈ g.children, c.Accounted t
  | intro below _ _ => below

theorem note : g.Accounted t → g.dynamicPrecedence = t.earned g.ownProduction + noted g.children
  | intro _ note _ => note

theorem token : g.Accounted t → g.children = [] → 0 < g.length → g.isDamaged = false →
    g.production = none
  | intro _ _ token => token

/-- A node has noted what the productions in its tree earn. -/
theorem eq_earned (accounted : g.Accounted t) : g.dynamicPrecedence = t.earned g.productions := by
  induction accounted with
  | @intro g below note token ih =>
    obtain ⟨d, cs⟩ := g
    rw [note, noted_of_forall ih, productions, Tables.earned_append]
    rfl

/-- An error has noted what its children have. -/
theorem note_of_isError (accounted : g.Accounted t) (wrong : g.isError = true) :
    g.dynamicPrecedence = noted g.children := by
  rw [accounted.note, ownProduction, if_pos wrong, Tables.earned_nil, Int.zero_add]

theorem of_holds {root : Green} {o : Nat} (accounted : root.Accounted t) (held : root.Holds o g) :
    g.Accounted t := by
  induction held with
  | root => exact accounted
  | child _ among ih => exact ih.of_mem _ (by simp [among])

end Accounted

/-- At every place in a tree the note of the node is what the productions in its tree earn. -/
def Tallies (t : Tables) (g : Green) : Prop :=
  ∀ o n, g.Holds o n → n.dynamicPrecedence = t.earned n.productions

theorem Accounted.tallies (accounted : g.Accounted t) : g.Tallies t :=
  fun _ _ held => (accounted.of_holds held).eq_earned

/-! ## Builders -/

theorem value_totalPrecedence (base : Int) (gs : List Green) :
    (totalPrecedence base gs).value = base + noted gs := by
  rw [totalPrecedence]
  induction gs generalizing base with
  | nil => simp [noted]
  | cons g gs ih =>
    rw [List.foldlM_cons, Checked.value_bind, ih, Level.value_add, noted_cons, Int.add_assoc]

@[simp] theorem dynamicPrecedence_node (spec : NodeSpec) (cs : List Green) :
    (node spec cs).value.dynamicPrecedence = spec.dynamicPrecedence + noted cs :=
  value_totalPrecedence _ cs

@[simp] theorem dynamicPrecedence_withFlags (g : Green) (f : NodeFlags) :
    (g.withFlags f).dynamicPrecedence = g.dynamicPrecedence := by
  rw [withFlags]
  split <;> rfl

/-- A leaf without a production that has noted nothing. -/
theorem Accounted.of_token (leaf : g.children = []) (token : g.production = none)
    (nothing : g.dynamicPrecedence = 0) : g.Accounted t := by
  refine .intro (by simp [leaf]) ?_ fun _ _ _ => token
  simp [nothing, leaf, ownProduction, token]

/-- The node of a reduction has noted what the production earns and what the children have. -/
theorem accounted_reduced (nothing : t.ErrorsEarnNothing) {id : ProductionId} {p : Production}
    (known : t.productions[id]? = some p) {state : StateId} {lookahead : Nat} {flags : NodeFlags}
    (accounted : ∀ g ∈ gs, g.Accounted t) :
    (node ⟨p.lhs, some id, state, lookahead, p.dynamicPrecedence, flags⟩ gs).value.Accounted t := by
  refine .intro accounted ?_ fun leaf wide => ?_
  · rw [dynamicPrecedence_node, children_node, ownProduction, isError, symbol_node, production_node]
    by_cases wrong : p.lhs = Symbol.error
    · have free := nothing p (Array.mem_of_getElem? known) wrong
      simp [wrong, free]
    · simp [wrong, Tables.precedenceOf, known]
  · rw [children_node] at leaf
    simp [leaf] at wide

end Green

/-! ## Errors -/

namespace Repair

open Green

variable {t : Tables} {gs : List Green}

/-- Taking errors apart loses nothing of what was noted. -/
theorem noted_flatten (accounted : ∀ g ∈ gs, g.Accounted t) : noted (flatten gs) = noted gs := by
  induction gs with
  | nil => rfl
  | cons g gs ih =>
    obtain ⟨own, rest⟩ := List.forall_mem_cons.mp accounted
    rcases flatten_cons g gs with ⟨wrong, -, opened⟩ | kept
    · rw [opened, noted_append, noted_cons, ih rest, own.note_of_isError wrong]
    · rw [kept, noted_cons, noted_cons, ih rest]

theorem accounted_errorNode (accounted : ∀ g ∈ gs, g.Accounted t) :
    (errorNode gs).value.Accounted t ∧ (errorNode gs).value.dynamicPrecedence = noted gs := by
  have note : (errorNode gs).value.dynamicPrecedence = noted (flatten gs) := by
    rw [errorNode, dynamicPrecedence_node]
    exact Int.zero_add _
  refine ⟨.intro (fun c hc => ?_) ?_ fun _ _ _ => rfl, note.trans (noted_flatten accounted)⟩
  · rcases mem_of_mem_flatten hc with hc | ⟨g, hg, -, hc⟩
    · exact accounted c hc
    · exact (accounted g hg).of_mem c hc
  · simp [note, ownProduction, isError]

theorem accounted_errorLeaf (text : Text) : (errorLeaf text).Accounted t := .of_token rfl rfl rfl

end Repair

/-! ## Old trees -/

namespace Green

variable {t : Tables} {g : Green}

/-- All notes in a tree are right but that of its root, if the root is fragile and has children. -/
structure Kept (t : Tables) (g : Green) : Prop where
  below : ∀ c ∈ g.children, c.Accounted t
  root : g.Accounted t ∨ g.isFragile = true ∧ g.children ≠ []

theorem Accounted.kept (accounted : g.Accounted t) : g.Kept t :=
  ⟨accounted.of_mem, Or.inl accounted⟩

/-- What is not fragile has the right note, and so has a leaf. -/
theorem Kept.accounted (kept : g.Kept t) (sturdy : g.isFragile = false ∨ g.children = []) :
    g.Accounted t := by
  refine kept.root.resolve_right fun wrong => ?_
  rcases sturdy with sturdy | leaf
  · simp [sturdy] at wrong
  · exact wrong.2 leaf

theorem Kept.of_holds {root : Green} {o : Nat} (kept : root.Kept t) (held : root.Holds o g) :
    g.Kept t := by
  induction held with
  | root => exact kept
  | child _ among ih => exact (ih.below _ (by simp [among])).kept

section Edit

variable (d : DocumentEdit)

/-- An edit leaves the notes alone, and so they stay right if those of the children do. -/
theorem kept_editAt {data : NodeData} {cs : List Green} (appended : Bool) (start : Nat)
    (position : Point) (kept : (mk data cs).Kept t)
    (below : (∀ c ∈ (editChildren d appended start position cs).value.1, c.Accounted t) ∧
      noted (editChildren d appended start position cs).value.1 = noted cs) :
    (editAt d appended start position (mk data cs)).value.1.Kept t ∧
      (editAt d appended start position (mk data cs)).value.1.dynamicPrecedence =
        data.dynamicPrecedence ∧
      ((mk data cs).Accounted t →
        (editAt d appended start position (mk data cs)).value.1.Accounted t) := by
  have length := length_editChildren d cs appended start position
  rw [editAt, Checked.value_bind]
  split
  · exact ⟨kept, rfl, id⟩
  · split
    · next leaf =>
      obtain rfl : cs = [] := List.isEmpty_iff.mp leaf
      have accounted := kept.accounted (Or.inr rfl)
      have resized (length : Nat) (extent : Point) :
          ((mk data []).resized length extent NodeFlags.onlyDamaged).Accounted t := by
        refine .intro (by simp [Green.resized, children]) accounted.note fun _ _ untouched => ?_
        simp [Green.resized, isDamaged, flags, Green.data, NodeFlags.union, NodeFlags.onlyDamaged]
          at untouched
      exact ⟨(resized _ _).kept, rfl, fun _ => resized _ _⟩
    · next inner =>
      have some : cs ≠ [] := fun none => inner (List.isEmpty_iff.mpr none)
      show ((mk data cs).withChildren (editChildren d appended start position cs).value.1
          NodeFlags.onlyDamaged).value.Kept t ∧ _ ∧ (_ →
        ((mk data cs).withChildren (editChildren d appended start position cs).value.1
          NodeFlags.onlyDamaged).value.Accounted t)
      generalize (editChildren d appended start position cs).value.1 = cs' at below length ⊢
      have some' : cs' ≠ [] := by
        rw [← List.length_pos_iff] at some ⊢
        omega
      have still (accounted : (mk data cs).Accounted t) :
          ((mk data cs).withChildren cs' NodeFlags.onlyDamaged).value.Accounted t := by
        refine .intro below.1 ?_ fun leaf => absurd leaf some'
        exact accounted.note.trans (congrArg (t.earned _ + ·) below.2.symm)
      refine ⟨⟨below.1, kept.root.imp still fun wrong => ⟨?_, some'⟩⟩, rfl, still⟩
      exact (Bool.or_eq_true _ _).mpr (Or.inl wrong.1)

mutual

theorem accounted_editAt : ∀ (g : Green) (appended : Bool) (start : Nat) (position : Point),
    g.Accounted t → (editAt d appended start position g).value.1.Accounted t ∧
      (editAt d appended start position g).value.1.dynamicPrecedence = g.dynamicPrecedence
  | .mk data cs, appended, start, position, accounted => by
    obtain ⟨-, note, still⟩ := kept_editAt d appended start position accounted.kept
      (accounted_editChildren cs appended start position accounted.of_mem)
    exact ⟨still accounted, note⟩

theorem accounted_editChildren : ∀ (gs : List Green) (appended : Bool) (start : Nat)
    (position : Point), (∀ g ∈ gs, g.Accounted t) →
      (∀ g ∈ (editChildren d appended start position gs).value.1, g.Accounted t) ∧
        noted (editChildren d appended start position gs).value.1 = noted gs
  | [], _, _, _, _ => by
    rw [editChildren]
    exact ⟨fun _ hg => absurd hg List.not_mem_nil, rfl⟩
  | g :: gs, appended, start, position, accounted => by
    obtain ⟨own, rest⟩ := List.forall_mem_cons.mp accounted
    obtain ⟨first, note⟩ := accounted_editAt g appended start position own
    obtain ⟨others, notes⟩ := accounted_editChildren gs
      (editAt d appended start position g).value.2 (start + g.length)
      (position.advance g.extent) rest
    rw [value_editChildren_cons]
    refine ⟨List.forall_mem_cons.mpr ⟨first, others⟩, ?_⟩
    rw [noted_cons, noted_cons, note, notes]

end

end Edit

theorem Kept.edit (kept : g.Kept t) (e : TextEdit) : (g.edit e).value.Kept t := by
  obtain ⟨data, cs⟩ := g
  exact (kept_editAt _ false 0 Point.zero kept
    (accounted_editChildren _ cs false 0 Point.zero kept.below)).1

end Green

/-! ## Stacks and roots -/

section Parse

open Green

theorem accounted_reduces {l : Language} (nothing : l.tables.ErrorsEarnNothing)
    {id : ProductionId} {es es' : List StackEntry} (reduces : Stack.Reduces l id es es')
    (accounted : ∀ e ∈ es, e.node.Accounted l.tables) :
    ∀ e ∈ es', e.node.Accounted l.tables := by
  refine reduces.forall_mem accounted (fun _ _ own => own) ?_
  intro taken below p target lookahead fragile known inside _
  exact accounted_reduced nothing known (forall_mem_nodesOf.mpr inside)

variable {task : ParseTask} {old : Option Green} {la : Lookahead} {root : Green} {r : Run}
  (kept : ∀ root ∈ old, root.Kept task.language.tables)

include kept

/-- The leaf of the token ahead has noted nothing, also if it is taken over. -/
theorem Ahead.accounted_leaf (ahead : Ahead task old la) (r : Run) (state : StateId)
    (flags : NodeFlags) : (r.makeLeaf la state flags).1.Accounted task.language.tables ∧
      (r.makeLeaf la state flags).1.dynamicPrecedence = 0 := by
  cases ahead with
  | @reused place leaf held isLeaf nonempty undamaged correct =>
    obtain ⟨root, hroot, held⟩ := held
    have leafless : leaf.children = [] := List.isEmpty_iff.mp isLeaf
    have accounted := ((kept root hroot).of_holds held).accounted (Or.inr leafless)
    have token := accounted.token leafless nonempty undamaged
    have nothing : leaf.dynamicPrecedence = 0 := by
      rw [accounted.note, leafless, ownProduction, token]
      simp
    rw [Run.makeLeaf]
    dsimp only [Run.reusedLookahead, Checked.value_bind, Checked.value_pure]
    split
    · exact ⟨.of_token (by simpa using leafless) (by simpa using token) (by simpa using nothing),
        by simpa using nothing⟩
    · exact ⟨.of_token rfl rfl rfl, rfl⟩
  | lexed place valid mode => exact ⟨.of_token rfl rfl rfl, rfl⟩

/-- A subtree that is taken over is not fragile, and so its notes are right. -/
theorem Run.Fitting.accounted {state target : StateId} {offset : Nat} {g : Green}
    (fitting : Run.Fitting task.language old state offset g target) :
    g.Accounted task.language.tables := by
  obtain ⟨root, hroot, held⟩ := fitting.held
  exact ((kept root hroot).of_holds held).accounted (Or.inl fitting.sturdy)

omit kept in
/-- What an error over a skipped token takes in is noted as before. -/
theorem accounted_of_takesIn {t : Tables} {taken : List StackEntry} {children : List Green}
    (takes : Repair.TakesIn taken children) (accounted : ∀ e ∈ taken, e.node.Accounted t) :
    (∀ c ∈ children, c.Accounted t) ∧ noted children = noted (nodesOf taken) := by
  refine ⟨takes.forall_mem (fun own => own.of_mem) accounted, ?_⟩
  cases takes with
  | nothing => rfl
  | @error extras e plain extra wrong inner =>
    simp [(accounted e (by simp)).note_of_isError wrong]

omit kept in
theorem accounted_skip {t : Tables} {s : Stack} {leaf : Green}
    (accounted : ∀ e ∈ s.entries, e.node.Accounted t) (own : leaf.Accounted t) (stop : Position)
    (cost : Nat) :
    (∀ e ∈ (Repair.skip s leaf stop cost).value.entries, e.node.Accounted t) ∧
      noted (nodesOf (Repair.skip s leaf stop cost).value.entries) =
        noted (nodesOf s.entries) + leaf.dynamicPrecedence := by
  obtain ⟨taken, below, children, entries, takes, result⟩ := Repair.skip_spec s leaf stop cost
  rw [entries] at accounted ⊢
  rw [result]
  obtain ⟨above, rest⟩ := List.forall_mem_append.mp accounted
  obtain ⟨inside, same⟩ := accounted_of_takesIn takes above
  have withLeaf : ∀ c ∈ children ++ [leaf], c.Accounted t :=
    List.forall_mem_append.mpr ⟨inside, List.forall_mem_singleton.mpr own⟩
  obtain ⟨error, note⟩ := Repair.accounted_errorNode withLeaf
  refine ⟨List.forall_mem_cons.mpr ⟨error, rest⟩, ?_⟩
  simp only [nodesOf_cons, nodesOf_append, noted_append, noted_cons, noted_nil, note, same]
  omega

variable (nothing : task.language.tables.ErrorsEarnNothing)

include nothing

/-- The notes of all nodes on a stack are right. -/
theorem built_accounted {offset : Nat} {entries : List StackEntry}
    (built : Built task old offset entries) :
    ∀ e ∈ entries, e.node.Accounted task.language.tables := by
  have push {e : StackEntry} {es : List StackEntry} (own : e.node.Accounted task.language.tables)
      (h : ∀ e ∈ es, e.node.Accounted task.language.tables) :
      ∀ f ∈ e :: es, f.node.Accounted task.language.tables :=
    List.forall_mem_cons.mpr ⟨own, h⟩
  induction built with
  | start => exact fun _ he => absurd he List.not_mem_nil
  | reduce ahead built action reduced ih =>
    exact accounted_reduces nothing (Stack.reduces_of_reduce? reduced) ih
  | extra r state fragile ahead built free ih =>
    exact push (ahead.accounted_leaf kept r state _).1 ih
  | shift r state fragile ahead built action ih =>
    exact push (ahead.accounted_leaf kept r state _).1 ih
  | subtree ahead built fitting ih => exact push (fitting.accounted kept) ih
  | missing ahead built action ih => exact push (.of_token rfl rfl rfl) ih
  | wrap built wrapped ih =>
    exact Repair.forall_mem_wrap wrapped ih fun inside =>
      (Repair.accounted_errorNode (forall_mem_nodesOf.mpr inside)).1
  | skip r state cost ahead built notEnd ih =>
    exact (accounted_skip ih (ahead.accounted_leaf kept r state _).1 _ cost).1
  | rest cost ahead built all ih =>
    exact (accounted_skip ih (all ▸ Repair.accounted_errorLeaf _) _ cost).1

/-- Accepting made a root of a stack with extras: the node of the start symbol with the extras
inside.  What these have noted is not added to what the node has noted. -/
def Run.Rebuilt (task : ParseTask) (old : Option Green) (root : Green) : Prop :=
  ∃ (s : Stack) (offset : Nat) (before : List StackEntry) (main : StackEntry)
    (after : List StackEntry), Built task old offset s.entries ∧
    root = (Run.accept task.language s).value ∧ s.entries.reverse = before ++ main :: after ∧
    before ++ after ≠ [] ∧ root = (main.node.withChildren
      (before.map (·.node) ++ main.node.children ++ after.map (·.node))
      NodeFlags.onlyFragile).value

omit kept nothing in
theorem Run.Rebuilt.fragile (rebuilt : Run.Rebuilt task old root) :
    root.isFragile = true ∧ root.children ≠ [] := by
  obtain ⟨s, offset, before, main, after, -, -, -, some, same⟩ := rebuilt
  rw [same]
  refine ⟨rfl, fun leaf => some ?_⟩
  rw [children_withChildren] at leaf
  simp only [List.append_eq_nil_iff, List.map_eq_nil_iff] at leaf
  simp [leaf]

omit kept nothing in
theorem accounted_wrapRemains {t : Tables} (problem : Problem)
    (accounted : ∀ s ∈ r.live, ∀ e ∈ s.entries, e.node.Accounted t) :
    (r.wrapRemains task problem).1.Accounted t := by
  refine (Repair.accounted_errorNode fun c hc => ?_).1
  rcases Run.mem_remains hc with ⟨s, hs, e, he, rfl⟩ | ⟨text, rfl⟩
  · exact accounted s hs e he
  · exact Repair.accounted_errorLeaf text

/-- Accepting keeps all notes right, but for that of a root that it puts extras into. -/
theorem accounted_accept {s : Stack} {offset : Nat} (built : Built task old offset s.entries) :
    (∀ c ∈ (Run.accept task.language s).value.children, c.Accounted task.language.tables) ∧
      ((Run.accept task.language s).value.Accounted task.language.tables ∨
        Run.Rebuilt task old (Run.accept task.language s).value) := by
  have known := built_accounted kept nothing built
  rcases Run.accept_cases task.language s with
    error | ⟨front, main, after, entries, -, -, -, accepted⟩
  · have own := (Repair.accounted_errorNode (forall_mem_nodesOf.mpr known)).1
    rw [error]
    exact ⟨own.of_mem, Or.inl own⟩
  · have known : ∀ e ∈ front ++ main :: after, e.node.Accounted task.language.tables := by
      intro e he
      exact known e (by rw [← List.mem_reverse, entries]; exact he)
    have own := known main (by simp)
    rcases accepted with ⟨-, same⟩ | same
    · rw [same]
      exact ⟨own.of_mem, Or.inl own⟩
    · have below : ∀ c ∈ (Run.accept task.language s).value.children,
          c.Accounted task.language.tables := by
        intro c hc
        rw [same] at hc
        simp only [children_withChildren, List.mem_append, List.mem_map] at hc
        rcases hc with (⟨e, he, rfl⟩ | hc) | ⟨e, he, rfl⟩
        · exact known e (by simp [he])
        · exact own.of_mem c hc
        · exact known e (by simp [he])
      refine ⟨below, ?_⟩
      by_cases none : front ++ after = []
      · -- Without extras nothing is put inside.
        refine Or.inl (.intro below ?_ fun leaf wide => ?_)
        · obtain ⟨rfl, rfl⟩ := List.append_eq_nil_iff.mp none
          rw [same]
          simp only [List.map_nil, List.nil_append, List.append_nil, children_withChildren]
          exact own.note
        · rw [same] at leaf wide
          rw [children_withChildren] at leaf
          rw [length_withChildren, leaf] at wide
          simp at wide
      · exact Or.inr ⟨s, offset, front, main, after, built, rfl, entries, none, same⟩

/-- All notes in the tree of a parse are right but for those of a root that accepting made. -/
theorem accounted_of_ending (ending : Run.Ending task old root r) :
    (∀ c ∈ root.children, c.Accounted task.language.tables) ∧
      (root.Accounted task.language.tables ∨ Run.Rebuilt task old root) := by
  have right {g : Green} (own : g.Accounted task.language.tables) :
      (∀ c ∈ g.children, c.Accounted task.language.tables) ∧
        (g.Accounted task.language.tables ∨ Run.Rebuilt task old g) :=
    ⟨own.of_mem, Or.inl own⟩
  cases ending with
  | accepted ahead atEnd built accepts quiet => exact accounted_accept kept nothing built
  | wrapped built alive =>
    exact right (accounted_wrapRemains _ fun s hs => built_accounted kept nothing (built s hs))
  | stranded none built =>
    refine right (accounted_wrapRemains _ fun s hs => ?_)
    exact absurd (show s ∈ [] from none ▸ hs) List.not_mem_nil

end Parse

theorem Parser.kept_of_mem_oldRoot {p : Parser} {old : Option Tree}
    (nothing : p.language.tables.ErrorsEarnNothing)
    (kept : ∀ t ∈ old, t.language.tables.ErrorsEarnNothing → t.root.Kept t.language.tables) :
    ∀ root ∈ p.oldRoot old, root.Kept p.language.tables := by
  intro root hroot
  obtain ⟨t, ht, rfl, tables⟩ := tables_of_mem_oldRoot hroot
  exact tables ▸ kept t ht (tables ▸ nothing)

/-- In every tree that parses and edits give all notes are right but that of a fragile root. -/
theorem Tree.Arisen.kept {t : Tree} (arisen : t.Arisen) :
    t.language.tables.ErrorsEarnNothing → t.root.Kept t.language.tables := by
  induction arisen with
  | @parse p text old _ interrupts ih =>
    intro nothing
    have known := Parser.kept_of_mem_oldRoot nothing ih
    have ending := Run.ending_outcome (p.task text) interrupts (p.oldRoot old)
    rw [Parser.tree_parse]
    generalize Run.outcome (p.task text) interrupts (p.oldRoot old) = outcome at ending ⊢
    obtain ⟨below, root⟩ := accounted_of_ending known nothing ending
    exact ⟨below, root.imp id Run.Rebuilt.fragile⟩
  | edit _ e ih => exact fun nothing => (ih nothing).edit e

end Glr
