import Glr.Proofs.Coverage
import Glr.Proofs.Differences
import Glr.Proofs.Roots
import Glr.Proofs.Unambiguous

/-!
# Trees told by their leaves

A parse that takes over what it can from an old tree should come to the same tree as a parse from
scratch.  What an old tree can get wrong is a leaf: it may stand where the lexer would now read
something else.  Nothing else can go wrong where the text has no errors and the grammar is
unambiguous.  The leaves that are tokens are a sentence, the sentence has one derivation, and the
two trees are that derivation with extras put in.

Where the extras are put in is again a matter of the leaves.  Below the root no filler is first or
last in a node, so a node starts with a leaf that is no extra and ends with one, and an extra
between two nodes is a child of the same node in both trees.
-/

namespace Glr

namespace Green

variable {g : FlatGrammar} {n m c d : Green} {cs ds ahead ahead' : List Green}

/-! ## Looking alike -/

/-- Nodes look alike one by one, their children apart. -/
def OneByOne : List Green → List Green → Prop := List.Forall₂ fun c d => c.looksLike d = true

/-- The leaves of two trees look alike one by one. -/
def SameLeaves (n m : Green) : Prop := OneByOne n.leaves m.leaves

mutual

theorem sameLeaves_of_sameShape : ∀ (n m : Green), n.sameShape m = true → n.SameLeaves m
  | .mk d cs, m, same => by
    obtain ⟨like, below⟩ := sameShape_iff.mp same
    rw [SameLeaves, OneByOne]
    rcases cs with _ | ⟨c, cs⟩
    · have leaf : m.children = [] := by
        rcases children : m.children with _ | ⟨c', cs'⟩
        · rfl
        · rw [children] at below
          cases below
      rw [leaves_of_leaf rfl, leaves_of_leaf leaf]
      exact .cons like .nil
    · have inner : m.children ≠ [] := by
        intro leaf
        rw [leaf] at below
        cases below
      rw [leaves_of_inner (n := mk d (c :: cs)) (List.cons_ne_nil c cs),
        leaves_of_inner inner]
      exact sameLeaves_of_sameShapes (c :: cs) m.children below

theorem sameLeaves_of_sameShapes : ∀ (cs ds : List Green), sameShapes cs ds = true →
    OneByOne (cs.flatMap leaves) (ds.flatMap leaves)
  | [], [], _ => .nil
  | c :: cs, d :: ds, same => by
    obtain ⟨here, rest⟩ := sameShapes_cons.mp same
    rw [List.flatMap_cons, List.flatMap_cons]
    exact List.rel_append (sameLeaves_of_sameShape c d here) (sameLeaves_of_sameShapes cs ds rest)

end

/-! ## Where nodes start and end -/

/-- A node of a tree without errors. -/
structure Clean (g : FlatGrammar) (n : Green) : Prop where
  shaped : n.Shaped g
  correct : n.hasError = false
  measured : n.Measured
  among : ∀ c ∈ n.children, c.Grown g

namespace Clean

theorem of_grown (grown : n.Grown g) (correct : n.hasError = false) (measured : n.Measured) :
    n.Clean g := ⟨grown.shaped, correct, measured, grown.of_mem⟩

theorem of_mem (h : n.Clean g) : ∀ c ∈ n.children, c.Grown g ∧ c.Clean g := by
  intro c hc
  have grown := h.among c hc
  exact ⟨grown, .of_grown grown (h.shaped.correct_of_mem h.correct c hc) (h.measured.of_mem c hc)⟩

theorem isError (h : n.Clean g) : n.isError = false := h.shaped.correct h.correct

/-- A filler is a leaf, and extra. -/
theorem of_filler (h : n.Clean g) (filler : n.isFiller = true) :
    n.children = [] ∧ n.isExtra = true := by
  rw [isFiller, h.isError, Bool.false_or, Bool.and_eq_true] at filler
  exact ⟨List.isEmpty_iff.mp filler.1, filler.2⟩

theorem not_extra (h : n.Clean g) (plain : n.isFiller = false) (leaf : n.children = []) :
    n.isExtra = false := by
  rw [isFiller, h.isError, Bool.false_or, isLeaf, leaf] at plain
  exact plain

end Clean

/-- The first leaf of a node is no extra. -/
theorem head_leaves (grown : n.Grown g) : n.Clean g → n.isFiller = false →
    ∃ c, n.leaves.head? = some c ∧ c.isExtra = false := by
  induction grown with
  | @intro n shaped trim among ih =>
    intro clean plain
    rcases children : n.children with _ | ⟨c, cs⟩
    · rw [leaves_of_leaf children]
      exact ⟨n, rfl, clean.not_extra plain children⟩
    · have some : n.production.isSome = true := by
        rcases production : n.production with _ | id
        · rcases shaped.leaf production with wrong | leaf
          · rw [clean.isError] at wrong
            cases wrong
          · rw [leaf] at children
            cases children
        · rfl
      have mem : c ∈ n.children := children ▸ List.mem_cons_self
      have first : c.isFiller = false := (trim some).1 c (by rw [children]; rfl)
      obtain ⟨e, head, noExtra⟩ := ih c mem (clean.of_mem c mem).2 first
      refine ⟨e, ?_, noExtra⟩
      rw [leaves_of_inner (children ▸ List.cons_ne_nil c cs), children, List.flatMap_cons,
        List.head?_append, head]
      rfl

theorem fillers_of_skeletons : ∀ {cs : List Green}, skeletons cs = [] →
    ∀ c ∈ cs, c.isFiller = true
  | [], _ => fun _ hc => absurd hc List.not_mem_nil
  | c :: cs, empty => by
    cases filler : c.isFiller with
    | false =>
      rw [skeletons_plain filler] at empty
      cases empty
    | true =>
      rw [skeletons_filler filler] at empty
      intro c' hc'
      rcases List.mem_cons.mp hc' with rfl | hc'
      · exact filler
      · exact fillers_of_skeletons empty c' hc'

/-- An extra does not look like the start of a node. -/
theorem OneByOne.not_filler (h : OneByOne (c :: cs) (d.leaves ++ ds)) (extra : c.isExtra = true)
    (grown : d.Grown g) (clean : d.Clean g) : d.isFiller = true := by
  cases plain : d.isFiller with
  | true => rfl
  | false =>
    obtain ⟨e, head, noExtra⟩ := head_leaves grown clean plain
    obtain ⟨rest, same⟩ := List.head?_eq_some_iff.mp head
    rw [same] at h
    cases h with
    | cons like _ =>
      rw [(looksLike_iff.mp like).2.2.1, noExtra] at extra
      cases extra

/-! ## Leaves tell the tree -/

/-- Two nodes of one production over children that look alike. -/
theorem looksLike_of_below (hn : n.Clean g) (hm : m.Clean g) {id : ProductionId}
    (production : n.production = some id) (production' : m.production = some id)
    (inner : n.children ≠ []) (inner' : m.children ≠ [])
    (below : sameShapes n.children m.children = true) : n.looksLike m = true := by
  obtain ⟨p, found, lhs, -⟩ := hn.shaped.production id production
  obtain ⟨p', found', lhs', -⟩ := hm.shaped.production id production'
  obtain rfl := Option.some.inj (found.symm.trans found')
  obtain ⟨extra, missing⟩ := hn.shaped.plain id production
  obtain ⟨extra', missing'⟩ := hm.shaped.plain id production'
  have length : n.length = m.length := by
    rw [hn.measured.length_eq inner, hm.measured.length_eq inner', spread_of_sameShapes below]
  exact looksLike_iff.mpr ⟨lhs.trans lhs'.symm, length, extra.trans extra'.symm,
    missing.trans missing'.symm, hn.correct.trans hm.correct.symm⟩

/-- Two leaves in front of what else is to be compared. -/
theorem sameShape_of_leaf (leaf : n.children = []) (leaf' : m.children = [])
    (like : OneByOne (n.leaves ++ ahead) (m.leaves ++ ahead')) :
    n.sameShape m = true ∧ OneByOne ahead ahead' := by
  rw [leaves_of_leaf leaf, leaves_of_leaf leaf'] at like
  cases like with
  | cons here rest =>
    refine ⟨sameShape_iff.mpr ⟨here, ?_⟩, rest⟩
    rw [leaf, leaf']
    rfl

/-- A leaf with a production is no extra, so there are no fillers in its place. -/
theorem leaf_of_leaf (hn : n.Clean g) (hm : m.Clean g) {id : ProductionId}
    (production : n.production = some id) (same : skeletons n.children = skeletons m.children)
    (leaf : n.children = []) (like : OneByOne (n.leaves ++ ahead) (m.leaves ++ ahead')) :
    m.children = [] := by
  rcases children : m.children with _ | ⟨d, ds⟩
  · rfl
  · have mem : d ∈ m.children := children ▸ List.mem_cons_self
    rw [leaf] at same
    have filler := fillers_of_skeletons same.symm d mem
    obtain ⟨leaf', extra⟩ := (hm.of_mem d mem).2.of_filler filler
    rw [leaves_of_leaf leaf, leaves_of_inner (children ▸ List.cons_ne_nil d ds), children,
      List.flatMap_cons, leaves_of_leaf leaf'] at like
    cases like with
    | cons here _ =>
      have noExtra := (hn.shaped.plain id production).1
      rw [(looksLike_iff.mp here).2.2.1, extra] at noExtra
      cases noExtra

theorem OneByOne.symm (h : OneByOne cs ds) : OneByOne ds cs := by
  refine List.Forall₂.flip (h.imp fun c d like => ?_)
  obtain ⟨symbol, length, extra, missing, error⟩ := looksLike_iff.mp like
  exact looksLike_iff.mpr
    ⟨symbol.symm, length.symm, extra.symm, missing.symm, error.symm⟩

/-- Two nodes of one production, if leaves tell what is below them. -/
theorem sameShape_of_production (hn : n.Clean g) (hm : m.Clean g) {id : ProductionId}
    (production : n.production = some id) (production' : m.production = some id)
    (same : skeletons n.children = skeletons m.children)
    (like : OneByOne (n.leaves ++ ahead) (m.leaves ++ ahead'))
    (below : OneByOne (n.children.flatMap leaves ++ ahead) (m.children.flatMap leaves ++ ahead') →
      sameShapes n.children m.children = true ∧ OneByOne ahead ahead') :
    n.sameShape m = true ∧ OneByOne ahead ahead' := by
  by_cases leaf : n.children = []
  · exact sameShape_of_leaf leaf (leaf_of_leaf hn hm production same leaf like) like
  · have inner : m.children ≠ [] := fun leaf' =>
      leaf (leaf_of_leaf hm hn production' same.symm leaf' like.symm)
    rw [leaves_of_inner leaf, leaves_of_inner inner] at like
    obtain ⟨shapes, rest⟩ := below like
    have here := looksLike_of_below hn hm production production' leaf inner shapes
    exact ⟨sameShape_iff.mpr ⟨here, shapes⟩, rest⟩

/-- No filler is last in either list, or else nothing is behind them.  So an extra behind them is
not taken for one of theirs. -/
def Apart (cs ds ahead ahead' : List Green) : Prop :=
  ((∀ c ∈ cs.getLast?, c.isFiller = false) ∧ ∀ d ∈ ds.getLast?, d.isFiller = false) ∨
    (ahead = [] ∧ ahead' = [])

namespace Apart

theorem symm (h : Apart cs ds ahead ahead') : Apart ds cs ahead' ahead :=
  h.imp And.symm And.symm

theorem tail (h : Apart (c :: cs) (d :: ds) ahead ahead') : Apart cs ds ahead ahead' := by
  have last : ∀ {e : Green} {es : List Green},
      (∀ x ∈ (e :: es).getLast?, x.isFiller = false) → ∀ x ∈ es.getLast?, x.isFiller = false := by
    intro e es plain x hx
    refine plain x ?_
    rw [List.getLast?_cons, Option.mem_def.mp hx]
    rfl
  exact h.imp (fun plain => ⟨last plain.1, last plain.2⟩) id

/-- Only fillers cannot stand for nothing. -/
theorem eq_nil (h : Apart [] ds ahead ahead') (fillers : ∀ d ∈ ds, d.isFiller = true)
    (clean : ∀ d ∈ ds, d.Clean g) (like : OneByOne ahead (ds.flatMap leaves ++ ahead')) :
    ds = [] := by
  rcases ds with _ | ⟨d, ds⟩
  · rfl
  rcases h with ⟨-, plain⟩ | ⟨rfl, rfl⟩
  · have some : (d :: ds).getLast? = some ((d :: ds).getLast (List.cons_ne_nil d ds)) :=
      List.getLast?_eq_some_getLast _
    have filler := fillers _ (List.mem_of_getLast? some)
    rw [plain _ some] at filler
    cases filler
  · have leaf := ((clean d List.mem_cons_self).of_filler (fillers d List.mem_cons_self)).1
    rw [List.flatMap_cons, leaves_of_leaf leaf] at like
    cases like

end Apart

mutual

theorem sameShape_of_leaves : ∀ (n m : Green) {ahead ahead' : List Green}, n.Grown g → m.Grown g →
    n.Clean g → m.Clean g → n.skeleton = m.skeleton →
    OneByOne (n.leaves ++ ahead) (m.leaves ++ ahead') →
    n.sameShape m = true ∧ OneByOne ahead ahead'
  | .mk data cs, m, ahead, ahead', grown, grown', hn, hm, same, like => by
    cases production : (mk data cs).production with
    | none =>
      rw [skeleton_of_token production] at same
      cases production' : m.production with
      | none =>
        have leaf := (hn.shaped.leaf production).resolve_left (by simp [hn.isError])
        have leaf' := (hm.shaped.leaf production').resolve_left (by simp [hm.isError])
        exact sameShape_of_leaf leaf leaf' like
      | some id =>
        rw [skeleton_of_production production'] at same
        cases same
    | some id =>
      rw [skeleton_of_production production] at same
      cases production' : m.production with
      | none =>
        rw [skeleton_of_token production'] at same
        cases same
      | some id' =>
        rw [skeleton_of_production production'] at same
        obtain ⟨rfl, trees⟩ := Skeleton.node.inj same
        have last := (grown.trim (by rw [production]; rfl)).2
        have last' := (grown'.trim (by rw [production']; rfl)).2
        refine sameShape_of_production hn hm production production' trees like fun below => ?_
        exact sameShapes_of_leaves cs m.children hn.of_mem hm.of_mem trees below
          (Or.inl ⟨last, last'⟩)

theorem sameShapes_of_leaves : ∀ (cs ds : List Green) {ahead ahead' : List Green},
    (∀ c ∈ cs, c.Grown g ∧ c.Clean g) → (∀ d ∈ ds, d.Grown g ∧ d.Clean g) →
    skeletons cs = skeletons ds →
    OneByOne (cs.flatMap leaves ++ ahead) (ds.flatMap leaves ++ ahead') →
    Apart cs ds ahead ahead' →
    sameShapes cs ds = true ∧ OneByOne ahead ahead'
  | [], ds, ahead, ahead', _, hd, same, like, apart => by
    obtain rfl := apart.eq_nil (fillers_of_skeletons same.symm) (fun d hd' => (hd d hd').2) like
    exact ⟨rfl, like⟩
  | c :: cs, [], ahead, ahead', hc, _, same, like, apart => by
    cases apart.symm.eq_nil (fillers_of_skeletons same) (fun c hc' => (hc c hc').2) like.symm
  | c :: cs, d :: ds, ahead, ahead', hc, hd, same, like, apart => by
    have hcs := fun c' h => hc c' (List.mem_cons_of_mem c h)
    have hds := fun d' h => hd d' (List.mem_cons_of_mem d h)
    obtain ⟨grown, clean⟩ := hc c List.mem_cons_self
    obtain ⟨grown', clean'⟩ := hd d List.mem_cons_self
    rw [List.flatMap_cons, List.flatMap_cons, List.append_assoc, List.append_assoc] at like
    cases filler : c.isFiller with
    | true =>
      obtain ⟨leaf, extra⟩ := clean.of_filler filler
      have filler' : d.isFiller = true := by
        rw [leaves_of_leaf leaf] at like
        exact like.not_filler extra grown' clean'
      rw [skeletons_filler filler, skeletons_filler filler'] at same
      obtain ⟨here, like⟩ := sameShape_of_leaf leaf (clean'.of_filler filler').1 like
      obtain ⟨shapes, like⟩ := sameShapes_of_leaves cs ds hcs hds same like apart.tail
      exact ⟨sameShapes_cons.mpr ⟨here, shapes⟩, like⟩
    | false =>
      have plain' : d.isFiller = false := by
        cases filler' : d.isFiller with
        | false => rfl
        | true =>
          obtain ⟨leaf, extra⟩ := clean'.of_filler filler'
          have like := like.symm
          rw [leaves_of_leaf leaf] at like
          rw [like.not_filler extra grown clean] at filler
          cases filler
      rw [skeletons_plain filler, skeletons_plain plain'] at same
      obtain ⟨first, same⟩ := List.cons.inj same
      obtain ⟨here, like⟩ := sameShape_of_leaves c d grown grown' clean clean' first like
      obtain ⟨shapes, like⟩ := sameShapes_of_leaves cs ds hcs hds same like apart.tail
      exact ⟨sameShapes_cons.mpr ⟨here, shapes⟩, like⟩

end

end Green

end Glr
