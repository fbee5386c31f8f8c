import Glr.Proofs.Grown

/-!
# What a tree without errors says

The tokens of a tree are its leaves, without the nodes of empty productions, which are leaves as
well, and without the extras.  If there is no error in the tree they are a sentence: each node
yields what its children yield, since without errors the only fillers are extras.  The tree itself,
without its fillers, is the derivation.
-/

namespace Glr

namespace Green

/-! ## Leaves -/

mutual

theorem leavesOnto_eq : ∀ (n : Green) (after : List Green),
    leavesOnto after n = n.leaves ++ after
  | .mk d cs, after => by
    rw [leaves, leavesOnto, leavesOnto]
    split
    · rfl
    · rw [leavesOntoIn_eq cs after, leavesOntoIn_eq cs [], List.append_nil]

theorem leavesOntoIn_eq : ∀ (gs : List Green) (after : List Green),
    leavesOntoIn after gs = gs.flatMap leaves ++ after
  | [], _ => rfl
  | n :: gs, after => by
    rw [leavesOntoIn, leavesOnto_eq n, leavesOntoIn_eq gs after, List.flatMap_cons,
      List.append_assoc]

end

theorem leaves_of_leaf {n : Green} (leaf : n.children = []) : n.leaves = [n] := by
  obtain ⟨d, cs⟩ := n
  obtain rfl : cs = [] := leaf
  rfl

theorem leaves_of_inner {n : Green} (inner : n.children ≠ []) :
    n.leaves = n.children.flatMap leaves := by
  obtain ⟨d, cs⟩ := n
  have some : ¬ cs.isEmpty = true := fun none => inner (List.isEmpty_iff.mp none)
  rw [leaves, leavesOnto, if_neg some, leavesOntoIn_eq, List.append_nil]
  rfl

/-! ## Sentences -/

/-- The symbols of the tokens that are no extras, in order. -/
def sentence (n : Green) : List Symbol :=
  (n.leaves.filter fun c => c.production.isNone && !c.isExtra).map symbol

theorem sentence_of_inner {n : Green} (inner : n.children ≠ []) :
    n.sentence = n.children.flatMap sentence := by
  rw [sentence, leaves_of_inner inner, List.filter_flatMap, List.map_flatMap]
  rfl

mutual

/-- The derivation that a tree is, without its fillers. -/
def skeleton : Green → Skeleton
  | mk d cs =>
    match d.production with
    | some id => .node id (skeletons cs)
    | none => .token d.symbol

def skeletons : List Green → List Skeleton
  | [] => []
  | c :: cs => if c.isFiller then skeletons cs else skeleton c :: skeletons cs

end

section Skeleton

variable {n : Green} {cs : List Green}

theorem skeleton_of_production {id : ProductionId} (production : n.production = some id) :
    n.skeleton = .node id (skeletons n.children) := by
  obtain ⟨d, cs⟩ := n
  have : d.production = some id := production
  rw [skeleton, this]
  rfl

theorem skeleton_of_token (production : n.production = none) : n.skeleton = .token n.symbol := by
  obtain ⟨d, cs⟩ := n
  have : d.production = none := production
  rw [skeleton, this]
  rfl

theorem skeletons_filler (filler : n.isFiller = true) : skeletons (n :: cs) = skeletons cs := by
  rw [skeletons, if_pos filler]

theorem skeletons_plain (plain : n.isFiller = false) :
    skeletons (n :: cs) = n.skeleton :: skeletons cs := by
  rw [skeletons, if_neg (Bool.eq_false_iff.mp plain)]

end Skeleton

variable {g : FlatGrammar}

theorem sentence_of_filler {n : Green} (filler : n.isFiller = true) (correct : n.isError = false) :
    n.sentence = [] := by
  rw [isFiller, correct, Bool.false_or, Bool.and_eq_true] at filler
  rw [sentence, leaves_of_leaf (List.isEmpty_iff.mp filler.1), List.filter_singleton, filler.2,
    Bool.not_true, Bool.and_false]
  rfl

/-- A node yields what its children do. -/
theorem forest_of_production {n : Green} (shaped : n.Shaped g) {id : ProductionId}
    (production : n.production = some id)
    (below : g.Forest n.spelling (skeletons n.children) (n.children.flatMap sentence)) :
    g.Forest [n.symbol] [n.skeleton] n.sentence := by
  obtain ⟨p, found, lhs, rhs⟩ := shaped.production id production
  have same : n.sentence = n.children.flatMap sentence := by
    by_cases leaf : n.children = []
    · rw [sentence, leaves_of_leaf leaf, List.filter_singleton, production, leaf]
      rfl
    · exact sentence_of_inner leaf
  rw [lhs, same, skeleton_of_production production,
    ← List.append_nil (n.children.flatMap sentence)]
  exact .node found (rhs ▸ below) .nil

/-- A token yields itself. -/
theorem forest_of_token {n : Green} (shaped : n.Shaped g) (production : n.production = none)
    (correct : n.isError = false) (plain : n.isFiller = false)
    (terminal : g.isTerminal n.symbol = true) : g.Forest [n.symbol] [n.skeleton] n.sentence := by
  have leaf : n.children = [] := (shaped.leaf production).resolve_left (by simp [correct])
  have noExtra : n.isExtra = false := by
    rw [isFiller, correct, Bool.false_or, isLeaf, leaf] at plain
    exact plain
  rw [sentence, leaves_of_leaf leaf, List.filter_singleton, production, noExtra,
    skeleton_of_token production]
  exact .token terminal .nil

theorem Shaped.correct_of_mem {n : Green} (shaped : n.Shaped g) (correct : n.hasError = false) :
    ∀ c ∈ n.children, c.hasError = false := by
  intro c hc
  cases error : c.hasError with
  | false => rfl
  | true =>
    rw [shaped.inherits c hc error] at correct
    cases correct

theorem Shaped.correct {n : Green} (shaped : n.Shaped g) (correct : n.hasError = false) :
    n.isError = false := by
  cases error : n.isError with
  | false => rfl
  | true =>
    rw [shaped.wrong (Or.inl error)] at correct
    cases correct

mutual

theorem forest_sentence : ∀ (n : Green), n.Grown g → n.hasError = false → n.isFiller = false →
    (n.production = none → g.isTerminal n.symbol = true) →
    g.Forest [n.symbol] [n.skeleton] n.sentence
  | .mk d cs, grown, correct, plain, token => by
    cases production : (mk d cs).production with
    | none =>
      exact forest_of_token grown.shaped production (grown.shaped.correct correct) plain
        (token production)
    | some id =>
      refine forest_of_production grown.shaped production ?_
      exact forest_sentences cs grown.of_mem (grown.shaped.correct_of_mem correct)
        (grown.shaped.tokens id production)

theorem forest_sentences : ∀ (cs : List Green), (∀ c ∈ cs, c.Grown g) →
    (∀ c ∈ cs, c.hasError = false) →
    (∀ c ∈ cs, c.isFiller = false → c.production = none → g.isTerminal c.symbol = true) →
    g.Forest ((cs.filter (!·.isFiller)).map symbol) (skeletons cs) (cs.flatMap sentence)
  | [], _, _, _ => by
    rw [skeletons]
    exact .nil
  | c :: cs, grown, correct, tokens => by
    have here := grown c List.mem_cons_self
    have hereCorrect := correct c List.mem_cons_self
    have rest := forest_sentences cs (fun c' hc => grown c' (List.mem_cons_of_mem c hc))
      (fun c' hc => correct c' (List.mem_cons_of_mem c hc))
      fun c' hc => tokens c' (List.mem_cons_of_mem c hc)
    rw [List.flatMap_cons]
    cases filler : c.isFiller with
    | true =>
      rw [List.filter_cons_of_neg (by simp [filler]), skeletons_filler filler,
        sentence_of_filler filler (here.shaped.correct hereCorrect)]
      exact rest
    | false =>
      rw [List.filter_cons_of_pos (by simp [filler]), List.map_cons, skeletons_plain filler]
      exact (forest_sentence c here hereCorrect filler (tokens c List.mem_cons_self filler)).append
        rest

end

/-- A tree without errors is a derivation of its tokens from the symbol of its root. -/
theorem Rooted.forest {n : Green} (h : n.Rooted g) {id : ProductionId}
    (production : n.production = some id) (correct : n.hasError = false) :
    g.Forest [n.symbol] [n.skeleton] n.sentence := by
  refine forest_of_production h.shaped production ?_
  exact forest_sentences n.children h.among (h.shaped.correct_of_mem correct)
    (h.shaped.tokens id production)

end Green

end Glr
