import Glr.Proofs.Roots
import Glr.Proofs.Tokens

/-!
# Where an error flag comes from

A node inherits the error flag from its children, so what is wrong anywhere in a tree shows at its
root; that is a part of `Shaped`.  Here is the other half: a flag at the root has a cause somewhere
in the tree.  It has to be shown of new nodes only.  A parse takes over nothing with an error flag,
and what it takes over gets none.

The one builder that is not plainly fine is the copy of a root with the extras around it put inside:
it has other children than before, and they hold what was held before since none got lost.
-/

namespace Glr

namespace Green

/-- There is an error or a missing token in a tree. -/
def Faulty (n : Green) : Prop :=
  ∃ start m, n.Holds start m ∧ (m.isError = true ∨ m.isMissing = true)

/-- An error flag has a cause. -/
def Caused (n : Green) : Prop := n.hasError = true → n.Faulty

namespace Faulty

variable {n c : Green} {cs : List Green}

theorem here (wrong : n.isError = true ∨ n.isMissing = true) : n.Faulty := ⟨0, n, .root, wrong⟩

theorem of_mem (hc : c ∈ n.children) (faulty : c.Faulty) : n.Faulty := by
  obtain ⟨start, m, held, wrong⟩ := faulty
  obtain ⟨before, after, among⟩ := List.append_of_mem hc
  have inside : HoldsIn (before ++ c :: after) _ m := HoldsIn.of_append (.here held) before
  rw [← among] at inside
  exact ⟨_, m, inside.holds, wrong⟩

theorem withChildren (faulty : n.Faulty) (kept : ∀ c ∈ n.children, c ∈ cs) (f : NodeFlags) :
    (n.withChildren cs f).value.Faulty := by
  obtain ⟨start, m, held, wrong⟩ := faulty
  rcases held.cases_root with ⟨-, rfl⟩ | inside
  · refine here (wrong.imp (fun error => ?_) fun absent => ?_)
    · rwa [isError, symbol_withChildren]
    · rw [isMissing_withChildren, absent, Bool.or_true]
  · obtain ⟨before, c, after, i, among, inner, -⟩ := inside.exists
    exact of_mem (kept c (by simp [among])) ⟨i, m, inner, wrong⟩

end Faulty

namespace Caused

variable {n : Green} {cs : List Green}

theorem leaf {spec : LeafSpec} (clean : spec.flags.hasError = false) :
    (Green.leaf spec).Caused := by
  intro error
  rw [hasError_leaf, clean, Bool.false_or, Bool.or_eq_true] at error
  exact .here error

theorem node {spec : NodeSpec} (clean : spec.flags.hasError = false)
    (caused : ∀ c ∈ cs, c.Caused) : (Green.node spec cs).value.Caused := by
  intro error
  rw [hasError_node, clean, Bool.false_or, Bool.or_eq_true] at error
  rcases error with inside | wrong
  · obtain ⟨c, hc, error⟩ := List.any_eq_true.mp inside
    exact .of_mem hc (caused c hc error)
  · exact .here (Or.inl wrong)

theorem withFlags (correct : n.hasError = false) {f : NodeFlags} (clean : f.hasError = false) :
    (n.withFlags f).Caused := by
  intro error
  rw [hasError, flags_withFlags, NodeFlags.union_hasError, clean, Bool.or_false] at error
  exact absurd error (Bool.eq_false_iff.mp correct)

theorem withChildren (caused : n.Caused) (kept : ∀ c ∈ n.children, c ∈ cs)
    (among : ∀ c ∈ cs, c.hasError = true → n.hasError = true ∨ c.Faulty) {f : NodeFlags}
    (clean : f.hasError = false) : (n.withChildren cs f).value.Caused := by
  intro error
  rw [hasError_withChildren, clean, Bool.false_or, Bool.or_eq_true] at error
  rcases error with before | inside
  · exact (caused before).withChildren kept f
  · obtain ⟨c, hc, error⟩ := List.any_eq_true.mp inside
    rcases among c hc error with before | faulty
    · exact (caused before).withChildren kept f
    · exact .of_mem hc faulty

theorem errorNode (gs : List Green) : (Repair.errorNode gs).value.Caused :=
  fun _ => .here (Or.inl rfl)

end Caused

variable {g : FlatGrammar} {root n : Green} {start : Nat}

/-- An error flag anywhere is one at the root. -/
theorem Rooted.hasError_of_holds (h : root.Rooted g) (held : root.Holds start n)
    (error : n.hasError = true) : root.hasError = true := by
  induction held with
  | root => exact error
  | @child _ m c before after above among ih =>
    exact ih ((h.of_holds above).1.shaped.inherits c (by simp [among]) error)

theorem Rooted.hasError_iff (h : root.Rooted g) (caused : root.Caused) :
    root.hasError = true ↔ root.Faulty := by
  refine ⟨caused, fun ⟨start, n, held, wrong⟩ => ?_⟩
  exact h.hasError_of_holds held ((h.of_holds held).1.shaped.wrong wrong)

end Green

/-! ## The nodes of a parse -/

variable {g : FlatGrammar} {task : ParseTask} {old : Option Green} {r : Run} {la : Lookahead}
  {root : Green}

theorem Ahead.caused_leaf (ahead : Ahead task old la) (r : Run) (state : StateId)
    {flags : NodeFlags} (clean : flags.hasError = false) :
    (r.makeLeaf la state flags).1.Caused := by
  cases ahead with
  | reused held isLeaf nonempty undamaged correct =>
    rw [Run.makeLeaf]
    dsimp only [Run.reusedLookahead, Checked.value_bind, Checked.value_pure]
    split
    · exact .withFlags correct clean
    · exact .leaf clean
  | lexed place valid mode => exact .leaf clean

theorem built_caused {offset : Nat} {entries : List StackEntry}
    (built : Built task old offset entries) : ∀ e ∈ entries, e.node.Caused := by
  have push {e : StackEntry} {es : List StackEntry} (own : e.node.Caused)
      (h : ∀ e ∈ es, e.node.Caused) : ∀ f ∈ e :: es, f.node.Caused :=
    List.forall_mem_cons.mpr ⟨own, h⟩
  induction built with
  | start => exact fun _ he => absurd he List.not_mem_nil
  | reduce ahead built action reduced ih =>
    exact (Stack.reduces_of_reduce? reduced).forall_mem ih (fun _ _ caused => caused)
      fun _ _ _ _ inside _ => .node rfl (forall_mem_nodesOf.mpr inside)
  | extra r state fragile ahead built free ih =>
    exact push (ahead.caused_leaf r state rfl) ih
  | shift r state fragile ahead built action ih =>
    exact push (ahead.caused_leaf r state rfl) ih
  | subtree ahead built fitting ih =>
    exact push (fun error => absurd error (Bool.eq_false_iff.mp fitting.correct)) ih
  | missing ahead built action ih => exact push (.leaf rfl) ih
  | wrap built wrapped ih => exact Repair.forall_mem_wrap wrapped ih fun _ => .errorNode _
  | skip r state cost ahead built notEnd ih =>
    exact Repair.forall_mem_skip ih fun _ _ => .errorNode _
  | rest cost ahead built all ih => exact Repair.forall_mem_skip ih fun _ _ => .errorNode _

theorem caused_accept {a : Automaton} (l : Language) {s : Stack}
    (sprouting : Sprouting g a s.entries) (caused : ∀ e ∈ s.entries, e.node.Caused) :
    (Run.accept l s).value.Caused := by
  rcases Run.accept_cases l s with
    error | ⟨before, main, after, entries, extras, plain, start, shape⟩
  · rw [error]
    exact .errorNode _
  · have known : ∀ e ∈ before ++ main :: after, e ∈ s.entries := fun e he =>
      List.mem_reverse.mp (entries ▸ he)
    have mem := known main (List.mem_append_right _ List.mem_cons_self)
    rcases shape with ⟨-, root⟩ | root
    · rw [root]
      exact caused main mem
    · rw [root]
      -- The children from before have no flag that the node itself has not.
      refine (caused main mem).withChildren (fun c hc => by simp [hc]) (fun c hc error => ?_) rfl
      simp only [List.append_assoc, List.mem_append, List.mem_map] at hc
      rcases hc with ⟨e, he, rfl⟩ | hc | ⟨e, he, rfl⟩
      · exact Or.inr (caused e (known e (List.mem_append_left _ he)) error)
      · exact Or.inl ((sprouting.sprouted main mem).grown.shaped.inherits c hc error)
      · exact Or.inr (caused e
          (known e (List.mem_append_right _ (List.mem_cons_of_mem main he))) error)

theorem caused_of_ending {a : Automaton} (founded : task.language.Founded g a)
    (rooted : ∀ root ∈ old, root.Rooted g) (ending : Run.Ending task old root r) :
    root.Caused := by
  cases ending with
  | accepted ahead atEnd built accepts quiet =>
    exact caused_accept task.language (built_sprouting founded rooted built) (built_caused built)
  | wrapped built alive => exact .errorNode _
  | stranded none built => exact .errorNode _

end Glr
