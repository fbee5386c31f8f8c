import Glr.Proofs.Compiled

/-!
# Tables without conflicts

Where every cell has at most one action, the machine has no choice: from a configuration there is at
most one step, and of two runs from one start one goes on where the other stops.  A cell that
accepts is never gone on from.  So two forests of one text, each of which the machine can be led by
to such a cell, have led it to the same one, and what it has built there is both of them.
-/

namespace Glr

namespace Tables

variable {t : Tables}

/-- No cell has more than one action. -/
def Settled (t : Tables) : Prop := ∀ i s, (t.actions i s).length ≤ 1

theorem Settled.eq_of_mem (settled : t.Settled) {i : StateId} {s : Symbol} {x y : Action}
    (hx : x ∈ t.actions i s) (hy : y ∈ t.actions i s) : x = y := by
  have single := settled i s
  obtain ⟨m, hm, rfl⟩ := List.mem_iff_getElem.mp hx
  obtain ⟨n, hn, rfl⟩ := List.mem_iff_getElem.mp hy
  obtain rfl : m = n := by omega
  rfl

theorem Settled.right_unique (settled : t.Settled) : Relator.RightUnique t.Reads := by
  intro r r' r'' h h'
  cases h with
  | shift action =>
    cases h' with
    | shift action' =>
      obtain rfl := Action.shift.inj (settled.eq_of_mem action action')
      rfl
    | reduce action' _ _ _ => exact nomatch settled.eq_of_mem action action'
  | reduce action found uncovered goto =>
    cases h' with
    | shift action' => exact nomatch settled.eq_of_mem action action'
    | reduce action' found' uncovered' goto' =>
      obtain rfl := Action.reduce.inj (settled.eq_of_mem action action')
      obtain rfl := Option.some.inj (found.symm.trans found')
      obtain ⟨rfl, rfl⟩ := List.cons.inj (uncovered.symm.trans uncovered')
      obtain rfl := Option.some.inj (goto.symm.trans goto')
      rfl

/-- A run that has come to accept at the end of the text is over. -/
theorem Settled.eq_of_accept (settled : t.Settled) {i : StateId} {stack : List StateId}
    {trees : List Skeleton} {r : Reading} (accept : .accept ∈ t.actions i Symbol.endOfText)
    (run : Relation.ReflTransGen t.Reads ⟨i :: stack, trees, []⟩ r) :
    r = ⟨i :: stack, trees, []⟩ := by
  rcases run.cases_head with same | ⟨next, step, -⟩
  · exact same.symm
  · cases step with
    | reduce action _ _ _ => exact nomatch settled.eq_of_mem accept action

/-- The rows of the states are all there is to look at. -/
theorem settled_of_rows (h : ∀ row ∈ t.states, ∀ cell ∈ row.actions, cell.2.length ≤ 1) :
    t.Settled := by
  intro i s
  rw [actions]
  split
  · next row found =>
    rw [StateRow.actionsOn]
    cases cell : row.actions.lookup s with
    | none => exact Nat.zero_le 1
    | some actions => exact h row (Array.mem_of_getElem? found) _ (mem_of_lookup cell)
  · exact Nat.zero_le 1

end Tables

namespace FlatGrammar

variable {g : FlatGrammar} {t : Tables}

theorem Tabulated.unambiguous {a : Automaton} (tab : Tabulated g t a) (wf : g.WellFormed)
    (keeps : g.DiscardsNothing) (settled : t.Settled) (w : List Symbol) : g.Unambiguous w := by
  intro ts ts' forest forest'
  obtain ⟨i, stack, run, accept⟩ := tab.accepts_of_forest wf keeps forest
  obtain ⟨j, stack', run', accept'⟩ := tab.accepts_of_forest wf keeps forest'
  have same : ts.reverse = ts'.reverse := by
    rcases Relation.ReflTransGen.total_of_right_unique settled.right_unique run run' with
      ahead | ahead
    · exact (Reading.mk.inj (settled.eq_of_accept accept ahead)).2.1.symm
    · exact (Reading.mk.inj (settled.eq_of_accept accept' ahead)).2.1
  exact List.reverse_inj.mp same

/-- If the tables of a grammar have no conflicts, none settled and none left, then no text of it is
ambiguous. -/
theorem unambiguous_of_settled {G : Grammar} {strict : Bool} (lowered : G.lower = .ok g)
    (built : g.tables strict = .ok t) (keeps : g.DiscardsNothing) (settled : t.Settled)
    (w : List Symbol) : g.Unambiguous w := by
  obtain ⟨a, tab⟩ := tabulated_of_tables built
  exact tab.unambiguous (Grammar.wellFormed_of_lower lowered) keeps settled w

theorem nested_unambiguous (w : List Symbol) : nestedFlat.Unambiguous w := by
  refine unambiguous_of_settled nested_lower nestedFlat_tables (by decide +kernel)
    (Tables.settled_of_rows ?_) w
  decide +kernel

end FlatGrammar

end Glr
