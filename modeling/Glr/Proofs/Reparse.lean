import Glr.Proofs.Shapes
import Glr.Proofs.Unambiguous

/-!
# Texts without errors

A tree without errors of a text that is not ambiguous is settled by its leaves: there is one
derivation of them, and that says where every node and every empty one goes.  So whatever a parse
takes over from an old tree, as long as it or the parse from scratch finds no error, the trees look
alike just if there is no error in the other either and the leaves of the one look like those of the
other (`reparse_iff`).
-/

namespace Glr

variable {g : FlatGrammar} {n m : Green}

namespace Green

/-! ## Sentences of leaves -/

/-- Of the leaves that are no extras those without a production are the terminals. -/
def Told (g : FlatGrammar) (n : Green) : Prop :=
  ∀ c ∈ n.leaves, c.isExtra = false → c.production.isNone = g.isTerminal c.symbol

theorem Clean.told (wf : g.WellFormed) (clean : n.Clean g)
    (token : n.isFiller = false → n.production = none → g.isTerminal n.symbol = true)
    (below : n.children ≠ [] → ∀ c ∈ n.children, c.Told g) : n.Told g := by
  by_cases leaf : n.children = []
  · intro c hc noExtra
    rw [leaves_of_leaf leaf, List.mem_singleton] at hc
    subst hc
    have plain : c.isFiller = false := by
      rw [isFiller, clean.isError, noExtra, Bool.and_false, Bool.or_false]
    cases production : c.production with
    | none => exact (token plain production).symm
    | some id =>
      obtain ⟨p, found, lhs, -⟩ := clean.shaped.production id production
      rw [lhs, wf.lhs_nonterminal p (Array.mem_of_getElem? found)]
      rfl
  · intro c hc
    rw [leaves_of_inner leaf] at hc
    obtain ⟨e, he, hc⟩ := List.mem_flatMap.mp hc
    exact below leaf e he c hc

theorem Clean.exists_production (clean : n.Clean g) (inner : n.children ≠ []) :
    ∃ id, n.production = some id := by
  cases production : n.production with
  | some id => exact ⟨id, rfl⟩
  | none =>
    rcases clean.shaped.leaf production with wrong | leaf
    · rw [clean.isError] at wrong
      cases wrong
    · exact absurd leaf inner

theorem Grown.told (wf : g.WellFormed) (grown : n.Grown g) : n.Clean g →
    (n.isFiller = false → n.production = none → g.isTerminal n.symbol = true) → n.Told g := by
  induction grown with
  | @intro n shaped trim among ih =>
    intro clean token
    refine clean.told wf token fun inner c hc => ?_
    obtain ⟨id, production⟩ := clean.exists_production inner
    exact ih c hc (clean.of_mem c hc).2 (shaped.tokens id production c hc)

theorem Told.sentence_eq (h : n.Told g) : n.sentence =
    (n.leaves.filter fun c => g.isTerminal c.symbol && !c.isExtra).map symbol := by
  rw [sentence]
  congr 1
  refine List.filter_congr fun c hc => ?_
  cases extra : c.isExtra with
  | true => rw [Bool.not_true, Bool.and_false, Bool.and_false]
  | false => rw [h c hc extra]

theorem OneByOne.terminals {cs ds : List Green} (like : OneByOne cs ds) :
    (cs.filter fun c => g.isTerminal c.symbol && !c.isExtra).map symbol =
      (ds.filter fun d => g.isTerminal d.symbol && !d.isExtra).map symbol := by
  induction like with
  | nil => rfl
  | cons here _ ih =>
    obtain ⟨symbol, -, extra, -⟩ := looksLike_iff.mp here
    rw [List.filter_cons, List.filter_cons, symbol, extra]
    split
    · rw [List.map_cons, List.map_cons, symbol, ih]
    · exact ih

theorem sentence_of_sameLeaves (like : n.SameLeaves m) (told : n.Told g) (told' : m.Told g) :
    n.sentence = m.sentence := by
  rw [told.sentence_eq, told'.sentence_eq]
  exact like.terminals

/-! ## Roots -/

/-- What is known of the root of a parse. -/
structure Finished (g : FlatGrammar) (n : Green) : Prop where
  rooted : n.Rooted g
  measured : n.Measured
  start : n.hasError = false → n.symbol = g.start ∧ ∃ id, n.production = some id

theorem Finished.clean (h : n.Finished g) (correct : n.hasError = false) : n.Clean g :=
  ⟨h.rooted.shaped, correct, h.measured, h.rooted.among⟩

theorem Finished.forest (h : n.Finished g) (correct : n.hasError = false) :
    g.Forest [g.start] [n.skeleton] n.sentence := by
  obtain ⟨symbol, id, production⟩ := h.start correct
  have forest := h.rooted.forest production correct
  rwa [symbol] at forest

theorem Finished.told (wf : g.WellFormed) (h : n.Finished g) (correct : n.hasError = false) :
    n.Told g := by
  have clean := h.clean correct
  obtain ⟨-, id, production⟩ := h.start correct
  refine clean.told wf (fun _ none => ?_) fun _ c hc => ?_
  · rw [production] at none
    cases none
  · obtain ⟨grown, clean'⟩ := clean.of_mem c hc
    exact grown.told wf clean' (clean.shaped.tokens id production c hc)

/-- Two trees without errors of a text that is not ambiguous look alike if their leaves do. -/
theorem Finished.sameShape (wf : g.WellFormed) (hn : n.Finished g) (hm : m.Finished g)
    (correct : n.hasError = false) (correct' : m.hasError = false)
    (unambiguous : g.Unambiguous m.sentence) (like : n.SameLeaves m) : n.sameShape m = true := by
  have sentence := sentence_of_sameLeaves like (hn.told wf correct) (hm.told wf correct')
  have same := unambiguous _ _ (sentence ▸ hn.forest correct) (hm.forest correct')
  obtain ⟨-, id, production⟩ := hn.start correct
  obtain ⟨-, id', production'⟩ := hm.start correct'
  rw [skeleton_of_production production, skeleton_of_production production'] at same
  obtain ⟨rfl, trees⟩ := Skeleton.node.inj (List.cons.inj same).1
  have clean := hn.clean correct
  have clean' := hm.clean correct'
  have like : OneByOne (n.leaves ++ []) (m.leaves ++ []) := by
    rw [List.append_nil, List.append_nil]
    exact like
  refine (sameShape_of_production clean clean' production production' trees like fun below => ?_).1
  exact sameShapes_of_leaves n.children m.children clean.of_mem clean'.of_mem trees below
    (Or.inr ⟨rfl, rfl⟩)

end Green

theorem Tree.Obtained.measured {G : Grammar} {t : Tree} (obtained : t.Obtained G) :
    t.root.Measured := by
  induction obtained with
  | parse compiled text _ interrupts ih => exact Parser.measured_parse compiled ih interrupts
  | edit _ e ih => exact ih.edit e

namespace Parser

variable {G : Grammar} {p : Parser} {text : Text} {oldTree : Option Tree}

theorem finished_parse (lowered : G.lower = .ok g) (compiled : p.language.Compiled G)
    (text : Text) (obtained : ∀ t ∈ oldTree, t.Obtained G) (interrupts : Interrupts) :
    (p.parse text oldTree interrupts).value.tree.root.Finished g := by
  obtain ⟨rooted, start⟩ := rooted_parse lowered compiled text
    (fun t ht => (obtained t ht).rooted lowered) interrupts
  exact ⟨rooted, measured_parse compiled (fun t ht => (obtained t ht).measured) interrupts, start⟩

/-- A parse with an old tree and one without come to one tree just if they come to the same leaves
without an error. -/
theorem reparse_iff (lowered : G.lower = .ok g) (compiled : p.language.Compiled G)
    (obtained : ∀ t ∈ oldTree, t.Obtained G) (interrupts interrupts' : Interrupts)
    (unambiguous : g.Unambiguous (p.parse text none interrupts').value.tree.root.sentence)
    (correct : (p.parse text oldTree interrupts).value.hasErrors = false ∨
      (p.parse text none interrupts').value.hasErrors = false) :
    (p.parse text oldTree interrupts).value.tree.structurallyEqual
        (p.parse text none interrupts').value.tree = true ↔
      (p.parse text oldTree interrupts).value.hasErrors = false ∧
        (p.parse text none interrupts').value.hasErrors = false ∧
        (p.parse text oldTree interrupts).value.tree.root.SameLeaves
          (p.parse text none interrupts').value.tree.root := by
  have wf := Grammar.wellFormed_of_lower lowered
  have again := finished_parse lowered compiled text obtained interrupts
  have fresh : (p.parse text none interrupts').value.tree.root.Finished g :=
    finished_parse lowered compiled text (fun t ht => absurd ht (Option.not_mem_none t)) interrupts'
  constructor
  · intro same
    have error : (p.parse text oldTree interrupts).value.hasErrors =
        (p.parse text none interrupts').value.hasErrors :=
      (Green.looksLike_iff.mp (Green.sameShape_iff.mp same).1).2.2.2.2
    have leaves := Green.sameLeaves_of_sameShape _ _ same
    rcases correct with correct | correct
    · exact ⟨correct, error.symm.trans correct, leaves⟩
    · exact ⟨error.trans correct, correct, leaves⟩
  · rintro ⟨correct, correct', like⟩
    exact again.sameShape wf fresh correct correct' unambiguous like

/-- Two letters are put into the middle of a text, and what they do not touch is taken over. -/
theorem nested_reparse :
    let p : Parser := ⟨FlatGrammar.nestedLanguage, {}⟩
    let old := (p.parse #[97, 97, 98, 98] none .never).value.tree
    let edited := (old.edit (.replace #[97, 97, 98, 98] 2 2 #[97, 98])).value
    let text : Text := #[97, 97, 97, 98, 98, 98]
    let again := (p.parse text (some edited) .never).value
    again.metrics.nodesReused = 1 ∧
      again.tree.structurallyEqual (p.parse text none .never).value.tree = true := by
  intro p old edited text again
  have first : old.Obtained FlatGrammar.nested :=
    .parse FlatGrammar.nestedLanguage_compiled _ (fun t ht => absurd ht (Option.not_mem_none t)) _
  have obtained : ∀ t ∈ some edited, t.Obtained FlatGrammar.nested := by
    intro t ht
    rw [← Option.some.inj ht]
    exact first.edit _
  have like : again.tree.root.SameLeaves (p.parse text none .never).value.tree.root := by
    rw [Green.SameLeaves, Green.OneByOne]
    decide +kernel
  refine ⟨by decide +kernel, ?_⟩
  have correct : again.hasErrors = false := by decide +kernel
  exact (reparse_iff FlatGrammar.nested_lower FlatGrammar.nestedLanguage_compiled obtained .never
    .never (FlatGrammar.nested_unambiguous _) (Or.inl correct)).mpr
    ⟨correct, by decide +kernel, like⟩

end Parser

end Glr
