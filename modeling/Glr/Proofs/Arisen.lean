import Glr.Proofs.Hereditary
import Glr.Proofs.Loaded

/-!
# Trees that parses and edits give

In every tree that parses and edits give lengths and extents add up, whatever the language
(`Tree.Arisen.joined`).  And if the tables hold together, a root without children is an error or
holds no text (`Run.leaf_of_ending`): what is accepted stands for the start symbol, which is no
terminal, so that it is no token, and a node over nothing is empty.
-/

namespace Glr

/-- A loaded language, with a scanner attached to it or without one. -/
def Language.Usable (l : Language) : Prop :=
  ∃ (loaded : Language) (scanner : Option Scanner), loaded.Loaded ∧ l = { loaded with scanner }

theorem Language.Usable.valid {l : Language} (usable : l.Usable) : l.tables.fault? = none := by
  obtain ⟨loaded, scanner, isLoaded, rfl⟩ := usable
  exact isLoaded.prepared.1

/-! ## Lengths and extents -/

/-- A tree that parses with any languages and edits give. -/
inductive Tree.Arisen : Tree → Prop where
  | parse (p : Parser) (text : Text) {old : Option Tree} (before : ∀ t ∈ old, Arisen t)
      (interrupts : Interrupts) : Arisen (p.parse text old interrupts).value.tree
  | edit {t : Tree} (before : Arisen t) (e : TextEdit) : Arisen (t.edit e).value

theorem Tree.Arisen.joined {t : Tree} (arisen : t.Arisen) : t.root.Joined := by
  induction arisen with
  | @parse p text old _ interrupts ih =>
    have known : ∀ root ∈ p.oldRoot old, root.Joined := by
      intro root hroot
      obtain ⟨t, ht, rfl⟩ := Parser.exists_of_mem_oldRoot hroot
      exact ih t ht
    have ending := Run.ending_outcome (p.task text) interrupts (p.oldRoot old)
    rw [Parser.tree_parse]
    generalize Run.outcome (p.task text) interrupts (p.oldRoot old) = outcome at ending ⊢
    exact hereditary_of_ending Green.hereditary_joined (fun _ => .of_leaf rfl)
      (fun la r state flags ahead => .of_leaf (ahead.leaf_spec r state flags).1) known ending
  | edit _ e ih => exact ih.edit e

theorem Tree.Arisen.summed {t : Tree} (arisen : t.Arisen) : t.root.Summed := arisen.joined.summed

/-! ## Roots without children -/

section Valid

variable {task : ParseTask} {old : Option Green}

/-- A token on a stack that is no extra stands for a terminal, unless it is empty. -/
def StackEntry.TokenTerminal (l : Language) (e : StackEntry) : Prop :=
  e.extra = false → e.node.children = [] →
    e.node.length = 0 ∨ l.isTerminal e.node.symbol = true

theorem StackEntry.TokenTerminal.of_extra {l : Language} {e : StackEntry} (extra : e.extra = true) :
    e.TokenTerminal l := fun plain => by rw [extra] at plain; cases plain

theorem Language.isTerminal_of_valid {l : Language} (valid : l.tables.fault? = none)
    {state : StateId} {s : Symbol} {action : Action} (mem : action ∈ l.actions state s) :
    l.isTerminal s = true := by
  rw [actions] at mem
  split at mem
  · next found => exact Tables.isTerminal_of_action valid found mem
  · cases mem

variable (valid : task.language.tables.fault? = none)

include valid

theorem built_tokens {offset : Nat} {entries : List StackEntry}
    (built : Built task old offset entries) : ∀ e ∈ entries, e.TokenTerminal task.language := by
  induction built with
  | start => exact fun _ he => absurd he List.not_mem_nil
  | reduce ahead built action reduced ih =>
    refine (Stack.reduces_of_reduce? reduced).forall_mem ih (fun _ _ h => h) ?_
    intro taken below p target lookahead fragile known _ _ _ none
    rw [Green.children_node] at none
    exact Or.inl (by rw [Green.length_node, none]; rfl)
  | extra r state fragile ahead built free ih =>
    exact List.forall_mem_cons.mpr ⟨.of_extra rfl, ih⟩
  | @shift s la target r state fragile ahead built action ih =>
    refine List.forall_mem_cons.mpr ⟨fun _ _ => Or.inr ?_, ih⟩
    rw [(ahead.leaf_spec r state _).2.1]
    exact Language.isTerminal_of_valid valid action
  | subtree ahead built fitting ih =>
    exact List.forall_mem_cons.mpr
      ⟨fun _ none => absurd none (Green.children_ne_nil fitting.inner), ih⟩
  | missing ahead built action ih =>
    exact List.forall_mem_cons.mpr ⟨fun _ _ => Or.inl rfl, ih⟩
  | wrap built wrapped ih => exact Repair.forall_mem_wrap wrapped ih fun _ => .of_extra rfl
  | skip r state cost ahead built notEnd ih =>
    exact Repair.forall_mem_skip ih fun _ _ => .of_extra rfl
  | rest cost ahead built all ih => exact Repair.forall_mem_skip ih fun _ _ => .of_extra rfl

/-- A root without children is an error or holds no text. -/
theorem Run.leaf_of_ending {root : Green} {r : Run} (ending : Ending task old root r)
    (leaf : root.children = []) : root.length = 0 ∨ root.isError = true := by
  cases ending with
  | @accepted s _ _ ahead atEnd built accepts quiet =>
    rcases accept_cases task.language s with
      error | ⟨front, main, after, entries, -, plain, start, ⟨-, root⟩ | root⟩
    · exact Or.inr (by rw [error]; rfl)
    · rw [root] at leaf ⊢
      have here : main ∈ s.entries := by
        rw [← List.mem_reverse, entries]
        simp
      refine Or.inl ((built_tokens valid built main here plain leaf).resolve_right fun token => ?_)
      have nonterminal := (Tables.checks_of_valid valid).1
      rw [Tables.isNonterminal, Bool.and_eq_true, Bool.not_eq_true'] at nonterminal
      rw [start, Language.isTerminal, Language.startSymbol, nonterminal.2] at token
      cases token
    · rw [root] at leaf ⊢
      rw [Green.children_withChildren] at leaf
      exact Or.inl (by rw [Green.length_withChildren, leaf]; rfl)
  | wrapped built alive => exact Or.inr rfl
  | stranded none built => exact Or.inr rfl

end Valid

end Glr
