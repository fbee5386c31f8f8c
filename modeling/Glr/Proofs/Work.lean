import Glr.Parser.Reduce
import Mathlib.Logic.Relation

/-!
# The work on a token

On one token every live stack is reduced as far as the tables go, first come first served, within a
budget.  What comes out of that is a matter of single reductions (`Takes`) and of the actions that
end a chain of them (`Branches`); the order of the queue has no part in it.

One direction always holds: whatever is sorted out at the end came from a live stack by reductions,
so a property that reductions keep holds of all of it (`From`).  The other direction needs that the
budget was enough.  A reduction that is not made for want of budget is reported, and then nothing is
claimed; if nothing was reported, the queue is worked off to its end, since a turn takes one stack
off it and pays for every stack that it puts on it.

What all this leaves alone is said once in `Keeps`, what it reports in `Reports`, and both together
in `Idles`.
-/

namespace Glr

namespace Run

/-- What is left alone between two tokens. -/
structure Keeps (r r' : Run) : Prop where
  position : r'.position = r.position
  reuse : r'.reuse = r.reuse
  live : r'.live = r.live
  warnings : ∀ w ∈ r'.warnings, w ∈ r.warnings ∨ w.problem ≠ .incomplete

namespace Keeps

variable {r r' r'' : Run}

theorem refl (r : Run) : Keeps r r := ⟨rfl, rfl, rfl, fun _ h => Or.inl h⟩

theorem trans (h : Keeps r r') (h' : Keeps r' r'') : Keeps r r'' where
  position := h'.position.trans h.position
  reuse := h'.reuse.trans h.reuse
  live := h'.live.trans h.live
  warnings w hw := (h'.warnings w hw).elim (h.warnings w) Or.inr

theorem quiet (h : Keeps r r') (quiet : ∀ w ∈ r.warnings, w.problem ≠ .incomplete) :
    ∀ w ∈ r'.warnings, w.problem ≠ .incomplete :=
  fun w hw => (h.warnings w hw).elim (quiet w) id

theorem warn {problem : Problem} (h : problem ≠ .incomplete) (span : Span) :
    Keeps r (r.warn problem span) := by
  refine ⟨rfl, rfl, rfl, fun w hw => ?_⟩
  rcases List.mem_cons.mp hw with rfl | hw
  · exact Or.inr h
  · exact Or.inl hw

theorem report (l : Limit) : Keeps r (r.report l) := by
  rw [Run.report]
  split
  · exact refl r
  · refine ⟨rfl, rfl, rfl, fun w hw => ?_⟩
    rcases List.mem_cons.mp hw with rfl | hw
    · exact Or.inr fun h => nomatch h
    · exact Or.inl hw

theorem noteRepair {problem : Problem} (h : problem ≠ .incomplete) (span : Span) :
    Keeps r (r.noteRepair problem span) := by
  have keeps := warn (r := r.countRecovered) h span
  exact ⟨keeps.position, keeps.reuse, keeps.live, keeps.warnings⟩

theorem noting {α : Type} (c : Checked α) : Keeps r (r.noting c) :=
  ⟨rfl, rfl, rfl, fun _ h => Or.inl h⟩

theorem makeLeaf (la : Lookahead) (state : StateId) (flags : NodeFlags) :
    Keeps r (r.makeLeaf la state flags).2 := by
  rw [Run.makeLeaf]
  split
  · split
    · exact ⟨rfl, rfl, rfl, fun _ h => Or.inl h⟩
    · exact ⟨rfl, rfl, rfl, fun _ h => Or.inl h⟩
  · exact ⟨rfl, rfl, rfl, fun _ h => Or.inl h⟩

theorem reduce (l : Language) (s : Stack) (id : ProductionId) (la : Lookahead) (fragile : Bool) :
    Keeps r (r.reduce l s id la fragile).2 := by
  rw [Run.reduce]
  split
  · exact refl r
  · exact ⟨rfl, rfl, rfl, fun _ h => Or.inl h⟩

end Keeps

/-- Every limit that was reported has left a warning. -/
def Honest (r : Run) : Prop := ∀ l, r.reported.contains l = true → r.warnings ≠ []

/-- Nothing is reported but limits, at the place where the parse is. -/
structure Reports (r r' : Run) : Prop where
  limits : ∃ ws, r'.warnings = ws ++ r.warnings ∧
    ∀ w ∈ ws, ∃ l, w = ⟨.limit l, Span.emptyAt r.position.offset⟩
  position : r'.position = r.position
  recovered : r'.metrics.errorsRecovered = r.metrics.errorsRecovered
  honest : r.Honest → r'.Honest

namespace Reports

variable {r r' r'' : Run}

theorem of_same (warnings : r'.warnings = r.warnings) (position : r'.position = r.position)
    (recovered : r'.metrics.errorsRecovered = r.metrics.errorsRecovered)
    (reported : r'.reported = r.reported) : Reports r r' where
  limits := ⟨[], warnings, fun _ h => absurd h List.not_mem_nil⟩
  position := position
  recovered := recovered
  honest honest l hl := by
    rw [warnings]
    exact honest l (reported ▸ hl)

theorem refl (r : Run) : Reports r r := of_same rfl rfl rfl rfl

theorem trans (h : Reports r r') (h' : Reports r' r'') : Reports r r'' where
  limits := by
    obtain ⟨ws, same, limits⟩ := h.limits
    obtain ⟨ws', same', limits'⟩ := h'.limits
    refine ⟨ws' ++ ws, by rw [same', same, List.append_assoc], fun w hw => ?_⟩
    rcases List.mem_append.mp hw with hw | hw
    · rw [← h.position]
      exact limits' w hw
    · exact limits w hw
  position := h'.position.trans h.position
  recovered := h'.recovered.trans h.recovered
  honest := h'.honest ∘ h.honest

/-- What is quiet now has been so before. -/
theorem silent (h : Reports r r') (quiet : r'.warnings = []) : r.warnings = [] := by
  obtain ⟨ws, same, -⟩ := h.limits
  rw [same] at quiet
  exact (List.append_eq_nil_iff.mp quiet).2

theorem report (l : Limit) : Reports r (r.report l) := by
  rw [Run.report]
  split
  · exact refl r
  · refine ⟨⟨[_], rfl, fun w hw => ⟨l, List.mem_singleton.mp hw⟩⟩, rfl, rfl, fun _ _ _ => ?_⟩
    exact List.cons_ne_nil _ _

theorem makeLeaf (la : Lookahead) (state : StateId) (flags : NodeFlags) :
    Reports r (r.makeLeaf la state flags).2 := by
  rw [Run.makeLeaf]
  split
  · split
    · exact of_same rfl rfl rfl rfl
    · exact of_same rfl rfl rfl rfl
  · exact of_same rfl rfl rfl rfl

theorem reduce (l : Language) (s : Stack) (id : ProductionId) (la : Lookahead) (fragile : Bool) :
    Reports r (r.reduce l s id la fragile).2 := by
  rw [Run.reduce]
  split
  · exact refl r
  · exact of_same rfl rfl rfl rfl

end Reports

/-- Both at once. -/
structure Idles (r r' : Run) : Prop extends Keeps r r', Reports r r'

namespace Idles

variable {r r' r'' : Run}

theorem refl (r : Run) : Idles r r := ⟨.refl r, (Reports.refl r).limits, rfl, id⟩

theorem trans (h : Idles r r') (h' : Idles r' r'') : Idles r r'' :=
  have reports := h.toReports.trans h'.toReports
  ⟨h.toKeeps.trans h'.toKeeps, reports.limits, reports.recovered, reports.honest⟩

theorem report (l : Limit) : Idles r (r.report l) :=
  have reports := Reports.report (r := r) l
  ⟨.report l, reports.limits, reports.recovered, reports.honest⟩

theorem reduce (l : Language) (s : Stack) (id : ProductionId) (la : Lookahead) (fragile : Bool) :
    Idles r (r.reduce l s id la fragile).2 :=
  have reports := Reports.reduce (r := r) l s id la fragile
  ⟨.reduce l s id la fragile, reports.limits, reports.recovered, reports.honest⟩

end Idles

/-- A limit that is reported has a warning, this time or from before. -/
theorem Honest.warnings_report {r : Run} (honest : r.Honest) (l : Limit) :
    (r.report l).warnings ≠ [] := by
  rw [report]
  split
  · next before => exact honest l before
  · exact List.cons_ne_nil _ _

/-! ## Branches and reductions -/

theorem entries_branch (s : Stack) (forks : Bool) (index : Nat) :
    (branch s forks index).entries = s.entries := by
  cases forks <;> rfl

/-- The state of a stack is a matter of its entries. -/
theorem state_branch (s : Stack) (forks : Bool) (index : Nat) :
    (branch s forks index).state = s.state := by
  cases forks <;> rfl

section Work

variable {task : ParseTask} {la : Lookahead} {ambiguous : Bool} {P : Stack → Prop}

/-- The copy of a stack that takes an action of its cell. -/
def Branches (task : ParseTask) (la : Lookahead) (s : Stack) (action : Action) (b : Stack) : Prop :=
  ∃ index, (task.language.actions s.state la.token.symbol)[index]? = some action ∧
    b = branch s ((task.language.actions s.state la.token.symbol).length > 1) index

/-- A stack is reduced once. -/
def Takes (task : ParseTask) (la : Lookahead) (ambiguous : Bool) (s s' : Stack) : Prop :=
  ∃ id b c, Branches task la s (.reduce id) b ∧
    b.reduce? task.language id la (ambiguous || b.forked) = some c ∧ s' = c.value

theorem Branches.entries {s b : Stack} {action : Action} (h : Branches task la s action b) :
    b.entries = s.entries := by
  obtain ⟨index, -, rfl⟩ := h
  exact entries_branch _ _ _

theorem Branches.mem {s b : Stack} {action : Action} (h : Branches task la s action b) :
    action ∈ task.language.actions b.state la.token.symbol := by
  obtain ⟨index, found, rfl⟩ := h
  rw [state_branch]
  exact List.mem_of_getElem? found

/-- A stack that has not forked is the one that it came from. -/
theorem Branches.same {s b : Stack} {action : Action} (h : Branches task la s action b)
    (unforked : b.forked = false) : b = s := by
  obtain ⟨index, -, rfl⟩ := h
  rw [branch] at unforked ⊢
  split at unforked
  · cases unforked
  · next single => exact if_neg single

/-- A stack that has not forked had one action to take. -/
theorem Branches.single {s b : Stack} {action : Action} (h : Branches task la s action b)
    (unforked : b.forked = false) :
    task.language.actions b.state la.token.symbol = [action] := by
  obtain ⟨index, found, rfl⟩ := h
  rw [state_branch]
  generalize task.language.actions s.state la.token.symbol = actions at found unforked ⊢
  by_cases several : actions.length > 1
  · rw [decide_eq_true several] at unforked
    cases unforked
  · match actions, found with
    | [a], found =>
      cases index with
      | zero => exact congrArg (fun a => [a]) (Option.some.inj found)
      | succ index => cases found
    | a :: b :: actions, _ => exact absurd (Nat.le_add_left 2 _) several

/-- All that is sorted out comes from stacks that have a property. -/
structure Phase.From (task : ParseTask) (la : Lookahead) (P : Stack → Prop) (p : Phase) :
    Prop where
  shifts : ∀ m ∈ p.shifts, ∃ s, P s ∧ Branches task la s (.shift m.2) m.1
  accepted : ∀ b ∈ p.accepted, ∃ s, P s ∧ Branches task la s .accept b
  failed : ∀ s ∈ p.failed, P s

/-- The same of all the work. -/
structure Work.From (task : ParseTask) (la : Lookahead) (P : Stack → Prop) (w : Work) : Prop where
  front : ∀ s ∈ w.front, P s
  back : ∀ s ∈ w.back, P s
  phase : Phase.From task la P w.phase

/-- The work before the first stack is looked at. -/
def Work.first (task : ParseTask) (live : List Stack) : Work :=
  ⟨live, [], task.config.maxReductionsPerToken, ⟨[], [], []⟩⟩

theorem Work.From.first {live : List Stack} (h : ∀ s ∈ live, P s) :
    (Work.first task live).From task la P :=
  ⟨h, fun _ h => absurd h List.not_mem_nil, fun _ h => absurd h List.not_mem_nil,
    fun _ h => absurd h List.not_mem_nil, fun _ h => absurd h List.not_mem_nil⟩

/-- What is taken off the queue was on it, and the rest stays. -/
theorem Work.dequeue_spec {w w' : Work} {s : Stack} (taken : w.dequeue? = some (s, w')) :
    w.queue = s :: w'.queue ∧ w'.budget = w.budget ∧ w'.phase = w.phase := by
  rw [dequeue?] at taken
  split at taken
  · next front eq =>
    cases taken
    exact ⟨by rw [queue, eq]; rfl, rfl, rfl⟩
  · next none =>
    split at taken
    · next front eq =>
      cases taken
      refine ⟨?_, rfl, rfl⟩
      rw [queue, none, eq]
      simp [queue]
    · cases taken

theorem Work.dequeue_none {w : Work} (none : w.dequeue? = none) : w.queue = [] := by
  rw [dequeue?] at none
  split at none
  · cases none
  · next front =>
    split at none
    · cases none
    · next back => rw [queue, front, back]; rfl

theorem Work.mem_queue {w : Work} {s : Stack} : s ∈ w.queue ↔ s ∈ w.front ∨ s ∈ w.back := by
  rw [queue, List.mem_append, List.mem_reverse]

theorem Work.From.queue {w : Work} (h : w.From task la P) : ∀ s ∈ w.queue, P s :=
  fun s hs => (mem_queue.mp hs).elim (h.front s) (h.back s)

theorem Work.From.dequeue {w w' : Work} {s : Stack} (h : w.From task la P)
    (taken : w.dequeue? = some (s, w')) : P s ∧ w'.From task la P := by
  obtain ⟨queue, -, phase⟩ := dequeue_spec taken
  have all := h.queue
  rw [queue] at all
  have rest : ∀ t ∈ w'.queue, P t := fun t ht => all t (List.mem_cons_of_mem s ht)
  exact ⟨all s List.mem_cons_self, fun t ht => rest t (mem_queue.mpr (Or.inl ht)),
    fun t ht => rest t (mem_queue.mpr (Or.inr ht)), phase ▸ h.phase⟩

/-! ## Only what comes from the live stacks -/

section Sound

variable (closed : ∀ {s s' : Stack}, P s → Takes task la ambiguous s s' → P s')

include closed

theorem takeAction_from {s b : Stack} {w : Work} {r : Run} {action : Action}
    (h : w.From task la P) (hs : P s) (branches : Branches task la s action b) :
    (takeAction task la ambiguous b (w, r) action).1.From task la P := by
  cases action with
  | shift next =>
    refine ⟨h.front, h.back, fun m hm => ?_, h.phase.accepted, h.phase.failed⟩
    rcases List.mem_cons.mp hm with rfl | hm
    · exact ⟨s, hs, branches⟩
    · exact h.phase.shifts m hm
  | accept =>
    refine ⟨h.front, h.back, h.phase.shifts, fun t ht => ?_, h.phase.failed⟩
    rcases List.mem_cons.mp ht with rfl | ht
    · exact ⟨s, hs, branches⟩
    · exact h.phase.accepted t ht
  | reduce id =>
    simp only [takeAction, reduce]
    split
    · exact h
    · cases reduced : b.reduce? task.language id la (ambiguous || b.forked) with
      | none => exact ⟨h.front, h.back, h.phase⟩
      | some c =>
        refine ⟨h.front, fun t ht => ?_, h.phase⟩
        rcases List.mem_cons.mp ht with rfl | ht
        · exact closed hs ⟨id, b, c, branches, reduced, rfl⟩
        · exact h.back t ht

theorem takeActions_from {s : Stack} (hs : P s) :
    ∀ {actions : List Action} {w : Work} {r : Run} (index : Nat), w.From task la P →
      (task.language.actions s.state la.token.symbol).drop index = actions →
      (takeActions task la ambiguous s
        ((task.language.actions s.state la.token.symbol).length > 1) (w, r) index actions).1.From
          task la P := by
  intro actions
  induction actions with
  | nil => exact fun _ h _ => h
  | cons action actions ih =>
    intro w r index h suffix
    have chosen : (task.language.actions s.state la.token.symbol)[index]? = some action := by
      rw [← List.head?_drop, suffix, List.head?_cons]
    have rest : (task.language.actions s.state la.token.symbol).drop (index + 1) = actions := by
      rw [← List.drop_drop, suffix]
      rfl
    exact ih (index + 1) (takeAction_from closed h hs ⟨index, chosen, rfl⟩) rest

theorem workOff_from :
    ∀ (fuel : Nat) {w : Work} {r : Run}, w.From task la P →
      (workOff task la ambiguous fuel (w, r)).1.From task la P := by
  intro fuel
  induction fuel with
  | zero => exact fun h => h
  | succ fuel ih =>
    intro w r h
    rw [workOff]
    split
    · exact h
    · next s w' taken =>
      obtain ⟨hs, rest⟩ := h.dequeue taken
      dsimp only
      split
      · refine ih ⟨rest.front, rest.back, rest.phase.shifts, rest.phase.accepted, fun t ht => ?_⟩
        rcases List.mem_cons.mp ht with rfl | ht
        · exact hs
        · exact rest.phase.failed t ht
      · exact ih (takeActions_from closed hs 0 rest rfl)

end Sound

/-! ## What the work leaves alone -/

section Frame

variable (task la ambiguous)

theorem takeAction_idles (b : Stack) (w : Work) (r : Run) (action : Action) :
    Idles r (takeAction task la ambiguous b (w, r) action).2 := by
  cases action with
  | shift next => exact .refl r
  | accept => exact .refl r
  | reduce id =>
    simp only [takeAction]
    split
    · exact .report _
    · have idles := Idles.reduce (r := r) task.language b id la (ambiguous || b.forked)
      split
      · next eq =>
        rw [eq] at idles
        exact idles
      · next eq =>
        rw [eq] at idles
        exact idles

theorem takeActions_idles (s : Stack) (forks : Bool) :
    ∀ (actions : List Action) (w : Work) (r : Run) (index : Nat),
      Idles r (takeActions task la ambiguous s forks (w, r) index actions).2 := by
  intro actions
  induction actions with
  | nil => exact fun _ r _ => .refl r
  | cons action actions ih =>
    intro w r index
    exact (takeAction_idles task la ambiguous (branch s forks index) w r action).trans
      (ih _ _ (index + 1))

theorem workOff_idles :
    ∀ (fuel : Nat) (w : Work) (r : Run), Idles r (workOff task la ambiguous fuel (w, r)).2 := by
  intro fuel
  induction fuel with
  | zero => exact fun _ r => .refl r
  | succ fuel ih =>
    intro w r
    rw [workOff]
    split
    · exact .refl r
    · next s w' _ =>
      dsimp only
      split
      · exact ih _ r
      · exact (takeActions_idles task la ambiguous s _ _ w' r 0).trans (ih _ _)

end Frame

/-! ## All that comes from the live stacks -/

/-- An action that was taken has its outcome. -/
def Work.Has (l : Language) (la : Lookahead) (ambiguous : Bool) (w : Work) (b : Stack) :
    Action → Prop
  | .shift next => (b, next) ∈ w.phase.shifts
  | .accept => b ∈ w.phase.accepted
  | .reduce id => ∀ c, b.reduce? l id la (ambiguous || b.forked) = some c → c.value ∈ w.back

/-- Work goes on: outcomes stay, and what is put on the queue is paid for. -/
structure Work.Grows (w w' : Work) : Prop where
  front : w'.front = w.front
  back : ∀ s ∈ w.back, s ∈ w'.back
  shifts : ∀ m ∈ w.phase.shifts, m ∈ w'.phase.shifts
  accepted : ∀ s ∈ w.phase.accepted, s ∈ w'.phase.accepted
  paid : w'.budget + w'.back.length ≤ w.budget + w.back.length

namespace Work.Grows

variable {w w' w'' : Work}

theorem refl (w : Work) : Grows w w :=
  ⟨rfl, fun _ h => h, fun _ h => h, fun _ h => h, Nat.le_refl _⟩

theorem trans (h : Grows w w') (h' : Grows w' w'') : Grows w w'' where
  front := h'.front.trans h.front
  back s hs := h'.back s (h.back s hs)
  shifts m hm := h'.shifts m (h.shifts m hm)
  accepted s hs := h'.accepted s (h.accepted s hs)
  paid := Nat.le_trans h'.paid h.paid

theorem has {l : Language} {b : Stack} {action : Action} (h : Grows w w')
    (has : w.Has l la ambiguous b action) : w'.Has l la ambiguous b action := by
  cases action with
  | shift next => exact h.shifts _ has
  | accept => exact h.accepted _ has
  | reduce id => exact fun c reduced => h.back _ (has c reduced)

end Work.Grows

section Grows

variable (task la ambiguous)

theorem takeAction_grows (b : Stack) (w : Work) (r : Run) (action : Action) :
    w.Grows (takeAction task la ambiguous b (w, r) action).1 := by
  cases action with
  | shift next =>
    exact ⟨rfl, fun _ h => h, fun _ h => List.mem_cons_of_mem _ h, fun _ h => h, Nat.le_refl _⟩
  | accept =>
    exact ⟨rfl, fun _ h => h, fun _ h => h, fun _ h => List.mem_cons_of_mem _ h, Nat.le_refl _⟩
  | reduce id =>
    simp only [takeAction]
    split
    · exact .refl w
    · split
      · refine ⟨rfl, fun _ h => List.mem_cons_of_mem _ h, fun _ h => h, fun _ h => h, ?_⟩
        show w.budget - 1 + (w.back.length + 1) ≤ _
        omega
      · refine ⟨rfl, fun _ h => h, fun _ h => h, fun _ h => h, ?_⟩
        show w.budget - 1 + w.back.length ≤ _
        omega

/-- An action is taken, unless a limit is reported. -/
theorem takeAction_has (b : Stack) (w : Work) {r : Run} (action : Action) (honest : r.Honest)
    (quiet : (takeAction task la ambiguous b (w, r) action).2.warnings = []) :
    (takeAction task la ambiguous b (w, r) action).1.Has task.language la ambiguous b action := by
  cases action with
  | shift next => exact List.mem_cons_self
  | accept => exact List.mem_cons_self
  | reduce id =>
    simp only [takeAction] at quiet ⊢
    split at quiet
    · exact absurd quiet (honest.warnings_report _)
    · next some =>
      rw [if_neg some]
      intro c reduced
      rw [reduce, reduced]
      exact List.mem_cons_self

theorem takeActions_grows (s : Stack) (forks : Bool) :
    ∀ (actions : List Action) (w : Work) (r : Run) (index : Nat),
      w.Grows (takeActions task la ambiguous s forks (w, r) index actions).1 := by
  intro actions
  induction actions with
  | nil => exact fun w _ _ => .refl w
  | cons action actions ih =>
    intro w r index
    exact (takeAction_grows task la ambiguous _ w r action).trans (ih _ _ (index + 1))

theorem takeActions_has (s : Stack) (forks : Bool) :
    ∀ (actions : List Action) (w : Work) {r : Run} (index : Nat), r.Honest →
      (takeActions task la ambiguous s forks (w, r) index actions).2.warnings = [] →
      ∀ i action, actions[i]? = some action →
        (takeActions task la ambiguous s forks (w, r) index actions).1.Has task.language la
          ambiguous (branch s forks (index + i)) action := by
  intro actions
  induction actions with
  | nil => exact fun _ _ _ _ _ i _ found => nomatch found
  | cons first actions ih =>
    intro w r index honest quiet i action found
    have idles := takeAction_idles task la ambiguous
      (branch s forks index) w r first
    cases i with
    | zero =>
      cases found
      refine (takeActions_grows task la ambiguous s forks actions _ _ (index + 1)).has
        (takeAction_has task la ambiguous _ w first honest ?_)
      exact (takeActions_idles task la ambiguous s forks actions _ _ (index + 1)).silent quiet
    | succ i =>
      have later := ih _ (index + 1) (idles.honest honest) quiet i action found
      rwa [Nat.add_assoc, Nat.add_comm 1 i] at later

end Grows

/-- The outcome of work on a stack that was reduced as far as it takes. -/
structure Phase.Covers (task : ParseTask) (la : Lookahead) (p : Phase) (s : Stack) : Prop where
  shift : ∀ next b, Branches task la s (.shift next) b → (b, next) ∈ p.shifts
  accept : ∀ b, Branches task la s .accept b → b ∈ p.accepted

/-- What a phase has when work comes to it: the outcomes so far, and those of all that is on the
queue, reduced as far as it takes. -/
structure Work.ComesTo (task : ParseTask) (la : Lookahead) (ambiguous : Bool) (w : Work)
    (p : Phase) : Prop where
  shifts : ∀ m ∈ w.phase.shifts, m ∈ p.shifts
  accepted : ∀ s ∈ w.phase.accepted, s ∈ p.accepted
  queued : ∀ s ∈ w.queue, ∀ s', Relation.ReflTransGen (Takes task la ambiguous) s s' →
    Phase.Covers task la p s'

namespace Work.ComesTo

variable {w w' : Work} {p : Phase} {s : Stack}

theorem of_empty (empty : w.queue = []) : w.ComesTo task la ambiguous w.phase where
  shifts _ h := h
  accepted _ h := h
  queued _ hs := absurd (empty ▸ hs) List.not_mem_nil

/-- A stack is covered once it was dealt with: its reductions are on the queue then. -/
theorem covers (comes : w.ComesTo task la ambiguous p)
    (has : ∀ action b, Branches task la s action b → w.Has task.language la ambiguous b action)
    {s' : Stack} (steps : Relation.ReflTransGen (Takes task la ambiguous) s s') :
    Phase.Covers task la p s' := by
  rcases steps.cases_head with rfl | ⟨t, ⟨id, b, c, branches, reduced, rfl⟩, steps⟩
  · exact ⟨fun next b branches => comes.shifts _ (has _ b branches),
      fun b branches => comes.accepted _ (has _ b branches)⟩
  · exact comes.queued _ (Work.mem_queue.mpr (Or.inr (has _ b branches c reduced))) _ steps

/-- The turn of the stack that was first on the queue. -/
theorem before (comes : w'.ComesTo task la ambiguous p) (grows : w.Grows w')
    (has : ∀ action b, Branches task la s action b → w'.Has task.language la ambiguous b action)
    {first : Work} (queue : first.queue = s :: w.queue) (phase : w.phase = first.phase) :
    first.ComesTo task la ambiguous p where
  shifts m hm := comes.shifts m (grows.shifts m (phase ▸ hm))
  accepted t ht := comes.accepted t (grows.accepted t (phase ▸ ht))
  queued t ht t' steps := by
    rw [queue] at ht
    rcases List.mem_cons.mp ht with rfl | ht
    · exact comes.covers has steps
    · refine comes.queued t (Work.mem_queue.mpr ?_) t' steps
      exact (Work.mem_queue.mp ht).imp (grows.front ▸ ·) (grows.back t)

end Work.ComesTo

/-- If no limit is reported, all reductions of all stacks on the queue are made. -/
theorem workOff_complete :
    ∀ (fuel : Nat) {w : Work} {r : Run}, r.Honest → w.budget + w.queue.length ≤ fuel →
      (workOff task la ambiguous fuel (w, r)).2.warnings = [] →
      w.ComesTo task la ambiguous (workOff task la ambiguous fuel (w, r)).1.phase := by
  intro fuel
  induction fuel with
  | zero => exact fun _ enough _ => .of_empty (List.length_eq_zero_iff.mp (by omega))
  | succ fuel ih =>
    intro w r honest enough quiet
    rw [workOff] at quiet ⊢
    split at quiet
    · next none => exact .of_empty (Work.dequeue_none none)
    · next s w' taken =>
      obtain ⟨queue, budget, phase⟩ := Work.dequeue_spec taken
      rw [queue, List.length_cons, ← budget] at enough
      dsimp only at quiet ⊢
      split at quiet
      · next empty =>
        rw [if_pos empty]
        rw [List.isEmpty_iff] at empty
        have comes := ih (w := { w' with phase.failed := s :: w'.phase.failed }) honest
          (show w'.budget + w'.queue.length ≤ fuel by omega) quiet
        have grows : w'.Grows { w' with phase.failed := s :: w'.phase.failed } :=
          ⟨rfl, fun _ h => h, fun _ h => h, fun _ h => h, Nat.le_refl _⟩
        refine comes.before grows ?_ queue phase
        rintro action b ⟨index, found, -⟩
        rw [empty] at found
        cases found
      · next some =>
        rw [if_neg some]
        generalize hactions : task.language.actions s.state la.token.symbol = actions at quiet ⊢
        have grows := takeActions_grows task la ambiguous s (actions.length > 1) actions w' r 0
        have idles := takeActions_idles task la ambiguous s (actions.length > 1) actions w' r 0
        have has := takeActions_has task la ambiguous s (actions.length > 1) actions w' 0 honest
        generalize takeActions task la ambiguous s (actions.length > 1) (w', r) 0 actions = state
          at quiet grows idles has ⊢
        obtain ⟨w'', r''⟩ := state
        dsimp only at grows idles has
        have room : w''.budget + w''.queue.length ≤ fuel := by
          have paid := grows.paid
          simp only [Work.queue, List.length_append, List.length_reverse, grows.front] at enough ⊢
          omega
        refine (ih (idles.honest honest) room quiet).before grows ?_ queue phase
        rintro action b ⟨index, found, rfl⟩
        rw [hactions] at found ⊢
        have here := has ((workOff_idles task la ambiguous fuel w'' r'').silent quiet) index action
          found
        rwa [Nat.zero_add] at here

/-! ## All the reductions on a token -/

/-- What comes out of the reductions comes from the live stacks. -/
theorem reduceAll_from {r : Run}
    (closed : ∀ {s s' : Stack}, P s → Takes task la (r.live.length > 1) s s' → P s')
    (live : ∀ s ∈ r.live, P s) : Phase.From task la P (r.reduceAll task la).1 := by
  have all := workOff_from closed (task.config.maxReductionsPerToken + r.live.length)
    (r := { r with live := [] }) (Work.From.first live)
  rw [reduceAll]
  exact ⟨fun m hm => all.phase.shifts m (List.mem_reverse.mp hm),
    fun s hs => all.phase.accepted s (List.mem_reverse.mp hs),
    fun s hs => all.phase.failed s (List.mem_reverse.mp hs)⟩

theorem reduceAll_idles (r : Run) : Idles { r with live := [] } (r.reduceAll task la).2 :=
  workOff_idles task la (r.live.length > 1) (task.config.maxReductionsPerToken + r.live.length)
    (Work.first task r.live) { r with live := [] }

theorem reduceAll_reports (r : Run) : Reports r (r.reduceAll task la).2 := by
  have start : Reports r { r with live := [] } := .of_same rfl rfl rfl rfl
  exact start.trans (reduceAll_idles r).toReports

/-- If no limit is reported, all that comes from the live stacks comes out. -/
theorem reduceAll_complete {r : Run} (honest : r.Honest)
    (quiet : (r.reduceAll task la).2.warnings = []) :
    ∀ s ∈ r.live, ∀ s', Relation.ReflTransGen (Takes task la (r.live.length > 1)) s s' →
      Phase.Covers task la (r.reduceAll task la).1 s' := by
  have room : (Work.first task r.live).budget + (Work.first task r.live).queue.length ≤
      task.config.maxReductionsPerToken + r.live.length := by
    simp [Work.first, Work.queue]
  have comes := workOff_complete (task.config.maxReductionsPerToken + r.live.length)
    (show Honest { r with live := [] } from honest) room quiet
  intro s hs s' steps
  have covers := comes.queued s (Work.mem_queue.mpr (Or.inl hs)) s' steps
  exact ⟨fun next b branches => List.mem_reverse.mpr (covers.shift next b branches),
    fun b branches => List.mem_reverse.mpr (covers.accept b branches)⟩

end Work

end Run

end Glr
