import Glr.Proofs.Sentences
import Glr.Proofs.Trees

/-!
# The trees of parses and edits

A parse ends with a root over a stack that accepts, or with an error over all that is left.  Either
is rooted: below it everything has grown, and the fillers that are put inside of a root leave what
its production says as it is.  Edits keep that, and so does the next parse, which closes the circle:
whatever trees come about by parses and edits in turn, they are derivations around their errors.
-/

namespace Glr

variable {g : FlatGrammar} {a : Automaton} {task : ParseTask} {old : Option Green} {r : Run}
  {root : Green}

/-! ## Roots -/

/-- A root with more fillers at its ends. -/
theorem Green.Grown.rooted_withChildren {n : Green} (h : n.Grown g) {id : ProductionId}
    (production : n.production = some id) {before after : List Green}
    (grown : ∀ c ∈ before ++ after, c.Grown g)
    (fillers : ∀ c ∈ before ++ after, c.isFiller = true) :
    (n.withChildren (before ++ n.children ++ after) NodeFlags.onlyFragile).value.Rooted g := by
  have none : ∀ cs : List Green, (∀ c ∈ cs, c.isFiller = true) →
      cs.filter (!·.isFiller) = [] := by
    intro cs all
    exact List.filter_eq_nil_iff.mpr fun c hc => by simp [all c hc]
  have spelling : (n.withChildren (before ++ n.children ++ after)
      NodeFlags.onlyFragile).value.spelling = n.spelling := by
    rw [Green.spelling, Green.children_withChildren, List.filter_append, List.filter_append,
      none before fun c hc => fillers c (List.mem_append_left _ hc),
      none after fun c hc => fillers c (List.mem_append_right _ hc), List.append_nil]
    rfl
  have inside : ∀ c ∈ before ++ n.children ++ after, c ∈ before ++ after ∨ c ∈ n.children := by
    intro c hc
    simp only [List.mem_append] at hc ⊢
    rcases hc with (hc | hc) | hc
    · exact Or.inl (Or.inl hc)
    · exact Or.inr hc
    · exact Or.inl (Or.inr hc)
  refine ⟨⟨?_, ?_, ?_, ?_, ?_, ?_, ?_⟩, fun sturdy => ?_, ?_⟩
  · intro id' h'
    obtain ⟨p, found, lhs, rhs⟩ := h.shaped.production id' h'
    exact ⟨p, found, lhs, spelling.trans rhs⟩
  · intro id' h' c hc plain token
    rcases inside c hc with filler | among
    · rw [fillers c filler] at plain
      cases plain
    · exact h.shaped.tokens id' h' c among plain token
  · intro token
    rw [Green.production_withChildren, production] at token
    cases token
  · intro _ _ empty _
    rw [Green.children_withChildren] at empty
    rw [Green.length_withChildren, empty]
    rfl
  · intro wrong
    rw [Green.isError, Green.symbol_withChildren, Green.isMissing_withChildren] at wrong
    rw [Green.hasError_withChildren, h.shaped.wrong wrong, Bool.or_true, Bool.true_or]
  · intro c hc error
    rw [Green.hasError_withChildren]
    exact (Bool.or_eq_true _ _).mpr (Or.inr (List.any_eq_true.mpr ⟨c, hc, error⟩))
  · intro id' h'
    rw [Green.isExtra_withChildren, Green.isMissing_withChildren]
    exact h.shaped.plain id' h'
  · cases sturdy
  · intro c hc
    exact (inside c hc).elim (grown c) (h.of_mem c)

/-- The root of a stack that accepts is an error or a node of the start symbol. -/
theorem rooted_accept (founded : task.language.Founded g a) {s : Stack}
    (sprouting : Sprouting g a s.entries) :
    (Run.accept task.language s).value.Rooted g ∧
      ((Run.accept task.language s).value.hasError = false →
        (Run.accept task.language s).value.symbol = g.start ∧
          ∃ id, (Run.accept task.language s).value.production = some id) := by
  rcases Run.accept_cases task.language s with
    error | ⟨before, main, after, entries, extras, plain, start, shape⟩
  · rw [error]
    refine ⟨(Repair.grown_errorNode sprouting.grown).rooted, fun correct => ?_⟩
    rw [Repair.hasError_errorNode] at correct
    cases correct
  · have known : ∀ e ∈ before ++ main :: after, e.Sprouted g := fun e he =>
      sprouting.sprouted e (List.mem_reverse.mp (entries ▸ he))
    have here := known main (List.mem_append_right _ List.mem_cons_self)
    rw [founded.startSymbol_eq] at start
    have reduced : ∃ id, main.node.production = some id := by
      cases production : main.node.production with
      | some id => exact ⟨id, rfl⟩
      | none =>
        have terminal := here.token plain production
        rw [start, founded.wf.start_nonterminal] at terminal
        cases terminal
    rcases shape with ⟨-, root⟩ | root
    · rw [root]
      exact ⟨here.grown.rooted, fun _ => ⟨start, reduced⟩⟩
    · rw [root]
      obtain ⟨id, production⟩ := reduced
      have around : ∀ c ∈ before.map (·.node) ++ after.map (·.node),
          c.Grown g ∧ c.isFiller = true := by
        intro c hc
        rw [← List.map_append] at hc
        obtain ⟨e, he, rfl⟩ := List.mem_map.mp hc
        have sprouted := known e (by
          rcases List.mem_append.mp he with he | he
          · exact List.mem_append_left _ he
          · exact List.mem_append_right _ (List.mem_cons_of_mem main he))
        exact ⟨sprouted.grown, sprouted.filler.trans (extras e he)⟩
      refine ⟨here.grown.rooted_withChildren production (fun c hc => (around c hc).1)
        fun c hc => (around c hc).2, fun _ => ⟨start, id, production⟩⟩

/-- What a parse ends with is rooted, and has the start symbol if there is no error in it. -/
theorem rooted_of_ending (founded : task.language.Founded g a)
    (rooted : ∀ root ∈ old, root.Rooted g) (ending : Run.Ending task old root r) :
    root.Rooted g ∧ (root.hasError = false →
      root.symbol = g.start ∧ ∃ id, root.production = some id) := by
  have ofError : ∀ {gs : List Green}, (∀ c ∈ gs, c.Grown g) →
      (Repair.errorNode gs).value.Rooted g ∧ ((Repair.errorNode gs).value.hasError = false →
        (Repair.errorNode gs).value.symbol = g.start ∧
          ∃ id, (Repair.errorNode gs).value.production = some id) := by
    intro gs grown
    refine ⟨(Repair.grown_errorNode grown).rooted, fun correct => ?_⟩
    rw [Repair.hasError_errorNode] at correct
    cases correct
  cases ending with
  | accepted ahead atEnd built accepts quiet =>
    exact rooted_accept founded (built_sprouting founded rooted built)
  | wrapped built alive =>
    refine ofError fun c hc => ?_
    rcases Run.mem_remains hc with ⟨s, hs, e, he, rfl⟩ | ⟨text, rfl⟩
    · exact ((built_sprouting founded rooted (built s hs)).sprouted e he).grown
    · exact Repair.grown_errorLeaf text
  | stranded none built =>
    refine ofError fun c hc => ?_
    rcases Run.mem_remains hc with ⟨s, hs, -⟩ | ⟨text, rfl⟩
    · exact absurd (show s ∈ [] from none ▸ hs) List.not_mem_nil
    · exact Repair.grown_errorLeaf text

/-! ## Parses and edits in turn -/

theorem Parser.rooted_parse {G : Grammar} {p : Parser} {oldTree : Option Tree}
    (lowered : G.lower = .ok g) (compiled : p.language.Compiled G) (text : Text)
    (rooted : ∀ t ∈ oldTree, t.root.Rooted g) (interrupts : Interrupts) :
    (p.parse text oldTree interrupts).value.tree.root.Rooted g ∧
      ((p.parse text oldTree interrupts).value.hasErrors = false →
        (p.parse text oldTree interrupts).value.tree.root.symbol = g.start ∧
          ∃ id, (p.parse text oldTree interrupts).value.tree.root.production = some id) := by
  obtain ⟨g', a, lowered', founded⟩ := compiled.founded
  obtain rfl := Except.ok.inj (lowered'.symm.trans lowered)
  have founded : (p.task text).language.Founded g' a := founded
  have known : ∀ root ∈ p.oldRoot oldTree, root.Rooted g' := by
    intro root hroot
    obtain ⟨t, ht, rfl⟩ := exists_of_mem_oldRoot hroot
    exact rooted t ht
  have ending := Run.ending_outcome (p.task text) interrupts (p.oldRoot oldTree)
  rw [ParseResult.hasErrors, Tree.hasError, tree_parse]
  generalize Run.outcome (p.task text) interrupts (p.oldRoot oldTree) = outcome at ending ⊢
  exact rooted_of_ending founded known ending

/-- A tree that comes about by parses in languages of one grammar and by edits. -/
inductive Tree.Obtained (G : Grammar) : Tree → Prop where
  | parse {p : Parser} (compiled : p.language.Compiled G) (text : Text) {old : Option Tree}
      (before : ∀ t ∈ old, Obtained G t) (interrupts : Interrupts) :
      Obtained G (p.parse text old interrupts).value.tree
  | edit {t : Tree} (before : Obtained G t) (e : TextEdit) : Obtained G (t.edit e).value

theorem Tree.Obtained.rooted {G : Grammar} {t : Tree} (lowered : G.lower = .ok g)
    (obtained : t.Obtained G) : t.root.Rooted g := by
  induction obtained with
  | parse compiled text _ interrupts ih =>
    exact (Parser.rooted_parse lowered compiled text ih interrupts).1
  | edit _ e ih => exact ih.edit e

/-- A tree is a derivation around its errors: its nodes spell out their productions, no filler is
at an end of a node below the root, and a tree without errors is a derivation of its tokens. -/
structure Green.Derived (g : FlatGrammar) (root : Green) : Prop where
  spelled : ∀ start n id, root.Holds start n → n.production = some id → n.isError = false →
    ∃ p, g.productions[id]? = some p ∧ n.symbol = p.lhs ∧ n.spelling = p.rhs
  trim : ∀ start n, root.Holds start n → ∀ c ∈ n.children, c.production.isSome = true →
    c.isError = false → c.Trim
  sentence : root.hasError = false → root.symbol = g.start ∧
    (∀ s ∈ root.sentence, g.isTerminal s = true) ∧ g.Derives [g.start] root.sentence

theorem Green.Rooted.derived (h : root.Rooted g) (start : root.hasError = false →
    root.symbol = g.start ∧ ∃ id, root.production = some id) : root.Derived g where
  spelled _ n id held production _ := (h.of_holds held).1.shaped.production id production
  trim _ n held c hc production _ := ((h.of_holds held).1.among c hc).trim production
  sentence correct := by
    obtain ⟨symbol, id, production⟩ := start correct
    have yields := (h.forest production correct).yields
    rw [symbol] at yields
    exact ⟨symbol, yields.isTerminal, yields.derives⟩

namespace Parser

variable {G : Grammar} {p : Parser} {text : Text} {oldTree : Option Tree}

theorem parse_derived (lowered : G.lower = .ok g) (compiled : p.language.Compiled G)
    (obtained : ∀ t ∈ oldTree, t.Obtained G) (interrupts : Interrupts) :
    (p.parse text oldTree interrupts).value.tree.root.Derived g := by
  have rooted : ∀ t ∈ oldTree, t.root.Rooted g := fun t ht => (obtained t ht).rooted lowered
  obtain ⟨known, start⟩ := rooted_parse lowered compiled text rooted interrupts
  exact known.derived start

/-- Two letters are put into the middle of a text, and the edited tree is used again. -/
theorem nested_derived :
    let p : Parser := ⟨FlatGrammar.nestedLanguage, {}⟩
    let old := (p.parse #[97, 98] none .never).value.tree
    let edited := (old.edit (.replace #[97, 98] 1 1 #[97, 98])).value
    let root := (p.parse #[97, 97, 98, 98] (some edited) .never).value.tree.root
    root.Derived FlatGrammar.nestedFlat ∧ root.hasError = false ∧ root.sentence = [2, 2, 3, 3] := by
  intro p old edited root
  have compiled := FlatGrammar.nestedLanguage_compiled
  have first : old.Obtained FlatGrammar.nested :=
    .parse compiled _ (fun t ht => absurd ht (Option.not_mem_none t)) _
  have obtained : ∀ t ∈ some edited, t.Obtained FlatGrammar.nested := by
    intro t ht
    rw [← Option.some.inj ht]
    exact first.edit _
  exact ⟨parse_derived FlatGrammar.nested_lower compiled obtained .never, by decide +kernel,
    by decide +kernel⟩

end Parser

end Glr
