import Glr.Proofs.Building
import Glr.Proofs.Derivation
import Mathlib.Data.List.Forall2

/-!
# Trees that follow a grammar

A node with a production should be what the production says: its symbol is the left side, and its
children are the right side once the fillers are out, which are errors and extra leaves.  `Shaped`
says that of one node, and besides what the next parse has to know of a node it takes over.  A tree
has `Grown` if all its nodes are shaped and no filler stands first or last below a production.

A root may be an exception to the last, since a parse puts the extras around the start symbol inside
of it.  It is fragile then, so no later parse takes it over as a whole, and `Rooted` is all that is
needed of an old tree.  An edit changes lengths and adds flags, and neither has a say in this.
-/

namespace Glr

namespace Green

/-- Whether a node is no part of a derivation. -/
def isFiller (c : Green) : Bool := c.isError || (c.isLeaf && c.isExtra)

/-- The symbols of the children that are part of a derivation. -/
def spelling (n : Green) : List Symbol := (n.children.filter (!·.isFiller)).map symbol

/-- No filler stands first or last. -/
def Trim (n : Green) : Prop :=
  (∀ c ∈ n.children.head?, c.isFiller = false) ∧ ∀ c ∈ n.children.getLast?, c.isFiller = false

/-- What a node has of a grammar. -/
structure Shaped (g : FlatGrammar) (n : Green) : Prop where
  production : ∀ id, n.production = some id → ∃ p, g.productions[id]? = some p ∧
    n.symbol = p.lhs ∧ n.spelling = p.rhs
  tokens : ∀ id, n.production = some id → ∀ c ∈ n.children, c.isFiller = false →
    c.production = none → g.isTerminal c.symbol = true
  leaf : n.production = none → n.isError = true ∨ n.children = []
  empty : ∀ id, n.production = some id → n.children = [] → n.isDamaged = false → n.length = 0
  wrong : n.isError = true ∨ n.isMissing = true → n.hasError = true
  inherits : ∀ c ∈ n.children, c.hasError = true → n.hasError = true
  plain : ∀ id, n.production = some id → n.isExtra = false ∧ n.isMissing = false

/-- All nodes of a tree are shaped, and no filler is at an end of a production. -/
inductive Grown (g : FlatGrammar) : Green → Prop where
  | intro {n : Green} (shaped : n.Shaped g) (trim : n.production.isSome = true → n.Trim)
      (among : ∀ c ∈ n.children, Grown g c) : Grown g n

/-- The same, but a fragile root may have fillers at its ends. -/
structure Rooted (g : FlatGrammar) (n : Green) : Prop where
  shaped : n.Shaped g
  trim : n.isFragile = false → n.production.isSome = true → n.Trim
  among : ∀ c ∈ n.children, c.Grown g

variable {g : FlatGrammar} {n : Green}

namespace Grown

theorem shaped : n.Grown g → n.Shaped g
  | intro shaped _ _ => shaped

theorem trim : n.Grown g → n.production.isSome = true → n.Trim
  | intro _ trim _ => trim

theorem of_mem : n.Grown g → ∀ c ∈ n.children, c.Grown g
  | intro _ _ among => among

theorem rooted (h : n.Grown g) : n.Rooted g := ⟨h.shaped, fun _ => h.trim, h.of_mem⟩

/-- A token has nothing below it. -/
theorem of_token (production : n.production = none) (leaf : n.children = [])
    (wrong : n.isError = true ∨ n.isMissing = true → n.hasError = true) : n.Grown g := by
  have noProduction : ∀ id, n.production ≠ some id := fun id h => by
    rw [production] at h
    cases h
  have noChild : ∀ c, c ∉ n.children := fun c hc => absurd (leaf ▸ hc) List.not_mem_nil
  refine .intro ⟨fun id h => absurd h (noProduction id), fun id h => absurd h (noProduction id),
    fun _ => Or.inr leaf, fun id h => absurd h (noProduction id), wrong,
    fun c hc => absurd hc (noChild c), fun id h => absurd h (noProduction id)⟩ (fun h => ?_)
    fun c hc => absurd hc (noChild c)
  rw [production] at h
  cases h

theorem leaf (spec : LeafSpec) : (Green.leaf spec).Grown g := by
  refine .of_token rfl rfl fun wrong => ?_
  rw [hasError_leaf, Bool.or_eq_true, Bool.or_eq_true]
  exact Or.inr wrong

theorem withFlags (h : n.Grown g) (production : n.production = none) (leaf : n.children = [])
    (f : NodeFlags) (missing : f.missing = false) : (n.withFlags f).Grown g := by
  refine .of_token (by simpa using production) (by simpa using leaf) fun wrong => ?_
  have inherited : n.hasError = true := by
    refine h.shaped.wrong (wrong.imp (fun error => ?_) fun absent => ?_)
    · rwa [isError, symbol_withFlags] at error
    · rwa [isMissing, flags_withFlags, NodeFlags.union_missing, missing, Bool.or_false] at absent
  rw [hasError, flags_withFlags, NodeFlags.union_hasError]
  exact (Bool.or_eq_true _ _).mpr (Or.inl inherited)

end Grown

namespace Rooted

theorem grown (h : n.Rooted g) (sturdy : n.isFragile = false) : n.Grown g :=
  .intro h.shaped (h.trim sturdy) h.among

/-- What stands in a tree is the root or has grown. -/
theorem of_holds {root : Green} {start : Nat} (h : root.Rooted g) (held : root.Holds start n) :
    n.Rooted g ∧ (n = root ∨ n.Grown g) := by
  induction held with
  | root => exact ⟨h, Or.inl rfl⟩
  | @child start n c before after above among ih =>
    have grown := ih.1.among c (by simp [among])
    exact ⟨grown.rooted, Or.inr grown⟩

/-- A leaf of a tree that an edit left alone and that is not empty is a token. -/
theorem token (h : n.Rooted g) (leaf : n.children = []) (nonempty : 0 < n.length)
    (undamaged : n.isDamaged = false) : n.production = none ∧ n.Grown g := by
  have production : n.production = none := by
    cases eq : n.production with
    | none => rfl
    | some id => exact absurd (h.shaped.empty id eq leaf undamaged) (Nat.ne_of_gt nonempty)
  exact ⟨production, .of_token production leaf h.shaped.wrong⟩

end Rooted

end Green

/-! ## Errors -/

namespace Repair

variable {g : FlatGrammar}

theorem grown_errorNode {gs : List Green} (grown : ∀ c ∈ gs, c.Grown g) :
    (errorNode gs).value.Grown g := by
  refine .intro ⟨?_, ?_, fun _ => Or.inl rfl, ?_, fun _ => hasError_errorNode gs,
    fun _ _ _ => hasError_errorNode gs, ?_⟩ ?_ fun c hc => ?_
  · exact fun _ h => nomatch h
  · exact fun _ h => nomatch h
  · exact fun _ h => nomatch h
  · exact fun _ h => nomatch h
  · exact fun h => nomatch h
  · rcases mem_of_mem_flatten hc with hc | ⟨e, he, -, hc⟩
    · exact grown c hc
    · exact (grown e he).of_mem c hc

theorem grown_errorLeaf (text : Text) : (errorLeaf text).Grown g := .leaf _

end Repair

/-! ## Edits -/

namespace Green

variable {g : FlatGrammar} {n n' : Green}

/-- A node and the node that an edit makes of it. -/
structure Alike (n n' : Green) : Prop where
  symbol : n'.symbol = n.symbol
  production : n'.production = n.production
  leaf : n'.isLeaf = n.isLeaf
  extra : n'.isExtra = n.isExtra

theorem Alike.refl (n : Green) : Alike n n := ⟨rfl, rfl, rfl, rfl⟩

theorem Alike.isFiller {c c' : Green} (h : Alike c c') : c'.isFiller = c.isFiller := by
  rw [Green.isFiller, Green.isFiller, isError, isError, h.symbol, h.leaf, h.extra]

section Children

variable {cs cs' : List Green} (alike : List.Forall₂ Alike cs cs')

include alike

theorem spelling_of_alike :
    (cs'.filter (!·.isFiller)).map symbol = (cs.filter (!·.isFiller)).map symbol := by
  induction alike with
  | nil => rfl
  | cons h _ ih =>
    rw [List.filter_cons, List.filter_cons, h.isFiller]
    split
    · rw [List.map_cons, List.map_cons, ih, h.symbol]
    · exact ih

theorem exists_alike : ∀ c' ∈ cs', ∃ c ∈ cs, Alike c c' := by
  induction alike with
  | nil => exact fun _ h => absurd h List.not_mem_nil
  | cons h _ ih =>
    intro c' hc'
    rcases List.mem_cons.mp hc' with rfl | hc'
    · exact ⟨_, List.mem_cons_self, h⟩
    · obtain ⟨c, hc, like⟩ := ih c' hc'
      exact ⟨c, List.mem_cons_of_mem _ hc, like⟩

theorem head_of_alike (trim : ∀ c ∈ cs.head?, c.isFiller = false) :
    ∀ c ∈ cs'.head?, c.isFiller = false := by
  cases alike with
  | nil => exact fun _ h => nomatch h
  | cons h _ =>
    intro c hc
    cases hc
    rw [h.isFiller]
    exact trim _ rfl

theorem getLast_of_alike (trim : ∀ c ∈ cs.getLast?, c.isFiller = false) :
    ∀ c ∈ cs'.getLast?, c.isFiller = false := by
  rw [← List.head?_reverse] at trim ⊢
  exact head_of_alike (List.forall₂_reverse_iff.mpr alike) trim

end Children

/-- A node over edited children. -/
theorem Shaped.withChildren {cs : List Green} (h : n.Shaped g)
    (alike : List.Forall₂ Alike n.children cs) (some : n.children ≠ []) (f : NodeFlags)
    (missing : f.missing = false) (extra : f.extra = false) :
    (n.withChildren cs f).value.Shaped g where
  production := by
    intro id hid
    obtain ⟨p, found, lhs, rhs⟩ := h.production id hid
    exact ⟨p, found, lhs, (spelling_of_alike alike).trans rhs⟩
  tokens := by
    intro id hid c' hc' plain token
    obtain ⟨c, hc, like⟩ := exists_alike alike c' hc'
    rw [like.symbol]
    exact h.tokens id hid c hc (like.isFiller ▸ plain) (like.production ▸ token)
  leaf := fun none => (h.leaf none).imp id fun leaf => absurd leaf some
  empty := by
    intro id _ leaf
    rw [children_withChildren] at leaf
    rw [leaf] at alike
    exact absurd (List.forall₂_nil_right_iff.mp alike) some
  wrong := by
    intro wrong
    rw [isError, symbol_withChildren, isMissing_withChildren, missing, Bool.false_or] at wrong
    simp only [hasError_withChildren, h.wrong wrong, Bool.or_true, Bool.true_or]
  inherits := by
    intro c hc error
    rw [hasError_withChildren]
    exact (Bool.or_eq_true _ _).mpr (Or.inr (List.any_eq_true.mpr ⟨c, hc, error⟩))
  plain := by
    intro id hid
    rw [isExtra_withChildren, isMissing_withChildren, missing, extra]
    exact h.plain id hid

/-- A node of another length. -/
theorem Shaped.resized (h : n.Shaped g) (length : Nat) (extent : Point) :
    (n.resized length extent NodeFlags.onlyDamaged).Shaped g where
  production := h.production
  tokens := h.tokens
  leaf := h.leaf
  empty := by
    intro _ _ _ undamaged
    have damaged : (n.flags.damaged || true) = false := undamaged
    rw [Bool.or_true] at damaged
    cases damaged
  wrong := by
    intro wrong
    have before : n.isError = true ∨ n.isMissing = true :=
      wrong.imp id fun missing => (Bool.or_false _).symm.trans missing
    exact (Bool.or_false _).trans (h.wrong before)
  inherits := fun c hc error => (Bool.or_false _).trans (h.inherits c hc error)
  plain := by
    intro id hid
    obtain ⟨extra, missing⟩ := h.plain id hid
    exact ⟨(Bool.or_false _).trans extra, (Bool.or_false _).trans missing⟩

/-- What is known of the node that an edit makes of a node. -/
structure Edited (g : FlatGrammar) (n n' : Green) : Prop extends Alike n n' where
  shaped : n'.Shaped g
  among : ∀ c ∈ n'.children, c.Grown g
  trim : n.Trim → n'.Trim
  fragile : n.isFragile = true → n'.isFragile = true

theorem Edited.grown (edited : Edited g n n') (h : n.Grown g) : n'.Grown g :=
  .intro edited.shaped (fun some => edited.trim (h.trim (edited.production ▸ some))) edited.among

theorem Edited.rooted (edited : Edited g n n') (h : n.Rooted g) : n'.Rooted g where
  shaped := edited.shaped
  trim := by
    intro sturdy some
    refine edited.trim (h.trim ?_ (edited.production ▸ some))
    cases fragile : n.isFragile with
    | false => rfl
    | true => rw [edited.fragile fragile] at sturdy; cases sturdy
  among := edited.among

section Edit

variable (d : DocumentEdit)

/-- An edit does not change what a node is, if it does not change what its children are. -/
theorem edited_editAt {data : NodeData} {cs : List Green} (appended : Bool) (start : Nat)
    (position : Point) (shaped : (mk data cs).Shaped g) (among : ∀ c ∈ cs, c.Grown g)
    (below : (∀ c ∈ (editChildren d appended start position cs).value.1, c.Grown g) ∧
      List.Forall₂ Alike cs (editChildren d appended start position cs).value.1) :
    Edited g (mk data cs) (editAt d appended start position (mk data cs)).value.1 := by
  rw [editAt, Checked.value_bind]
  split
  · exact ⟨.refl _, shaped, among, id, id⟩
  · split
    · next leaf =>
      obtain rfl : cs = [] := List.isEmpty_iff.mp leaf
      refine ⟨⟨rfl, rfl, rfl, Bool.or_false _⟩, shaped.resized _ _, ?_, ?_, fun fragile => ?_⟩
      · exact fun _ hc => absurd hc List.not_mem_nil
      · exact fun _ => ⟨fun _ h => (nomatch h), fun _ h => (nomatch h)⟩
      · exact (Bool.or_eq_true _ _).mpr (Or.inl fragile)
    · next inner =>
      obtain ⟨grown, alike⟩ := below
      have some : cs ≠ [] := fun none => inner (List.isEmpty_iff.mpr none)
      show Edited g _ ((mk data cs).withChildren
        (editChildren d appended start position cs).value.1 NodeFlags.onlyDamaged).value
      generalize (editChildren d appended start position cs).value.1 = cs' at grown alike ⊢
      refine ⟨⟨rfl, rfl, ?_, isExtra_withChildren _ _ _⟩, shaped.withChildren alike some _ rfl
        rfl, grown, fun trim => ?_, fun fragile => ?_⟩
      · cases alike with
        | nil => exact absurd rfl some
        | cons => rfl
      · exact ⟨head_of_alike alike trim.1, getLast_of_alike alike trim.2⟩
      · exact (Bool.or_eq_true _ _).mpr (Or.inl fragile)

mutual

theorem grown_editAt : ∀ (n : Green) (appended : Bool) (start : Nat) (position : Point),
    n.Grown g → (editAt d appended start position n).value.1.Grown g ∧
      Alike n (editAt d appended start position n).value.1
  | .mk data cs, appended, start, position, h => by
    have edited := edited_editAt d appended start position h.shaped h.of_mem
      (grown_editChildren cs appended start position h.of_mem)
    exact ⟨edited.grown h, edited.toAlike⟩

theorem grown_editChildren : ∀ (gs : List Green) (appended : Bool) (start : Nat)
    (position : Point), (∀ c ∈ gs, c.Grown g) →
      (∀ c ∈ (editChildren d appended start position gs).value.1, c.Grown g) ∧
        List.Forall₂ Alike gs (editChildren d appended start position gs).value.1
  | [], _, _, _, _ => by
    rw [editChildren]
    exact ⟨fun _ hc => absurd hc List.not_mem_nil, .nil⟩
  | n :: gs, appended, start, position, h => by
    rw [editChildren]
    obtain ⟨grown, alike⟩ := grown_editAt n appended start position (h n List.mem_cons_self)
    obtain ⟨grown', alike'⟩ := grown_editChildren gs
      (editAt d appended start position n).value.2 (start + n.length)
      (position.advance n.extent) fun c hc => h c (List.mem_cons_of_mem n hc)
    refine ⟨fun c hc => ?_, .cons alike alike'⟩
    rcases List.mem_cons.mp hc with rfl | hc
    · exact grown
    · exact grown' c hc

end

end Edit

/-- An edit keeps a tree fit to be an old tree. -/
theorem Rooted.edit {n : Green} (h : n.Rooted g) (e : TextEdit) : (n.edit e).value.Rooted g := by
  obtain ⟨data, cs⟩ := n
  exact (edited_editAt _ false 0 Point.zero h.shaped h.among
    (grown_editChildren _ cs false 0 Point.zero h.among)).rooted h

end Green

end Glr
