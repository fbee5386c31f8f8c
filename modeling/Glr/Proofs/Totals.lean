import Glr.Proofs.Earned
import Glr.Proofs.Ranking
import Glr.Proofs.Standings

/-!
# Dynamic precedence is counted once

A stack keeps a total of dynamic precedences, and so does each of its nodes.  The two are kept by
different hands: a reduction adds what the production earns to both, a subtree that is taken over
brings its note along, and a repair, which moves nodes about, must leave the total as it is.  They
agree on every stack that a parse comes across (`Stack.Balanced`).

Moves are checked one by one.  Reducing, shifting and taking over need nothing; wrapping and
skipping take errors apart and need that an error has noted what its children have, which is so
where all notes are right.

So the total of a stack is what the productions on it earn, however the nodes came there, and a
stack that took a subtree over is ranked as if it had built it.
-/

namespace Glr

/-! ## Moves -/

namespace Stack

/-- The total of a stack is what its nodes have noted. -/
def Balanced (s : Stack) : Prop := s.dynamicPrecedence = Green.noted s.nodes

variable {s s' : Stack} {t : Tables}

theorem balanced_empty : empty.Balanced := rfl

theorem Balanced.of_same (h : s.Balanced) (entries : s'.entries = s.entries)
    (total : s'.dynamicPrecedence = s.dynamicPrecedence) : s'.Balanced := by
  rw [Balanced, total, h, nodes, nodes, entries]

/-- Pushing a node is balanced by adding its note. -/
theorem Balanced.push (h : s.Balanced) {e : StackEntry} (entries : s'.entries = e :: s.entries)
    (total : s'.dynamicPrecedence = s.dynamicPrecedence + e.node.dynamicPrecedence) :
    s'.Balanced := by
  have nodes : s'.nodes = s.nodes ++ [e.node] := by
    rw [Stack.nodes, entries]
    exact nodesOf_cons e s.entries
  rw [Balanced, total, h, nodes]
  simp

theorem noted_reduces {l : Language} {id : ProductionId} {es es' : List StackEntry}
    {p : Production} (reduces : Reduces l id es es') (known : l.production? id = some p) :
    Green.noted (nodesOf es') = Green.noted (nodesOf es) + p.dynamicPrecedence := by
  cases reduces with
  | @intro trailing taken below p' target lookahead fragile known' extras counted top bottom
      goto =>
    obtain rfl := Option.some.inj (known'.symm.trans known)
    simp only [nodesOf_append, nodesOf_cons, nodesOf_restate, Green.noted_append, Green.noted_cons,
      Green.noted_nil, Green.dynamicPrecedence_node]
    omega

/-- A reduction adds the same to both. -/
theorem Balanced.reduce? {l : Language} {id : ProductionId} {la : Lookahead} {fragile : Bool}
    {c : Checked Stack} (h : s.Balanced) (reduced : s.reduce? l id la fragile = some c) :
    c.value.Balanced := by
  obtain ⟨-, -, p, known, total⟩ := rank_of_reduce? reduced
  have notes := noted_reduces (reduces_of_reduce? reduced) known
  rw [Balanced, total, h]
  exact notes.symm

theorem dynamicPrecedence_wrap {l : Language} {symbol : Symbol} {allowed : Nat}
    {c : Checked (Stack × Nat)} (wrapped : Repair.wrap l s symbol allowed = some c) :
    c.value.1.dynamicPrecedence = s.dynamicPrecedence := by
  have walk : ∀ (entries : List StackEntry) (taken : List Green) (depth : Nat),
      Repair.wrapFrom l s symbol taken depth allowed entries = some c →
        c.value.1.dynamicPrecedence = s.dynamicPrecedence := by
    intro entries
    induction entries with
    | nil =>
      intro taken depth h
      cases h
    | cons e below ih =>
      intro taken depth h
      rw [Repair.wrapFrom] at h
      split at h
      · cases h
      · dsimp only at h
        split at h
        · cases h
          rfl
        · exact ih _ _ h
  exact walk s.entries [] 0 wrapped

/-- Wrapping entries in an error keeps what their nodes have noted. -/
theorem Balanced.wrap {l : Language} {symbol : Symbol} {allowed : Nat} {c : Checked (Stack × Nat)}
    (h : s.Balanced) (accounted : ∀ e ∈ s.entries, e.node.Accounted t)
    (wrapped : Repair.wrap l s symbol allowed = some c) : c.value.1.Balanced := by
  obtain ⟨taken, below, entries, -, result⟩ := Repair.wrap_spec wrapped
  rw [entries] at accounted
  have inside := forall_mem_nodesOf.mpr (List.forall_mem_append.mp accounted).1
  have note := (Repair.accounted_errorNode inside).2
  have before : Green.noted s.nodes =
      Green.noted (nodesOf taken) + Green.noted (nodesOf below) := by
    show Green.noted (nodesOf s.entries) = _
    rw [entries, nodesOf_append, Green.noted_append, Int.add_comm]
  have after : Green.noted c.value.1.nodes =
      Green.noted (nodesOf below) + Green.noted (nodesOf taken) := by
    show Green.noted (nodesOf c.value.1.entries) = _
    rw [result]
    simp [note]
  rw [Balanced, dynamicPrecedence_wrap wrapped, h, before, after, Int.add_comm]

/-- Skipping a token that has noted nothing keeps what the nodes have noted. -/
theorem Balanced.skip {leaf : Green} (h : s.Balanced)
    (accounted : ∀ e ∈ s.entries, e.node.Accounted t) (own : leaf.Accounted t)
    (nothing : leaf.dynamicPrecedence = 0) (stop : Position) (cost : Nat) :
    (Repair.skip s leaf stop cost).value.Balanced := by
  have total : (Repair.skip s leaf stop cost).value.dynamicPrecedence = s.dynamicPrecedence := by
    rw [Repair.skip]
    split
    · next children base found =>
      split at found
      · cases found
        rfl
      · cases found
        rfl
  have notes := (accounted_skip accounted own stop cost).2
  rw [nothing, Int.add_zero] at notes
  rw [Balanced, total, h]
  exact notes.symm

end Stack

/-! ## Turns -/

namespace Run

variable {task : ParseTask} {old : Option Green} {la : Lookahead} {r r' : Run} {s s' : Stack}
  {tokens : List Lookahead}

theorem balanced_branch (h : s.Balanced) (forks : Bool) (index : Nat) :
    (branch s forks index).Balanced := by
  cases forks
  · exact h
  · exact h.of_same rfl rfl

theorem balanced_of_takes {ambiguous : Bool} (h : s.Balanced)
    (takes : Takes task la ambiguous s s') : s'.Balanced := by
  obtain ⟨id, b, c, ⟨index, -, rfl⟩, reduced, rfl⟩ := takes
  exact (balanced_branch h _ index).reduce? reduced

/-- Thinning out the stacks leaves the rest as they are. -/
theorem balanced_settle (config : ParserConfig) (h : ∀ s ∈ r.live, s.Balanced) :
    ∀ s ∈ (r.settle config).live, s.Balanced := by
  have left : ∀ s ∈ sifted config r.live, s.Balanced := by
    intro s hs
    obtain ⟨t, ht, rfl⟩ :=
      List.mem_map.mp (Frontier.mem_of_mem_merge (Frontier.mem_of_mem_prune hs))
    exact (h t ht).of_same rfl rfl
  intro s hs
  rcases (settle_sifts config r).2 with live | live
  · exact left s (live ▸ hs)
  · exact left s (Frontier.mem_of_mem_collapse (live ▸ hs))

theorem balanced_singleton (h : s.Balanced) : ∀ t ∈ [s], t.Balanced :=
  fun _ ht => List.mem_singleton.mp ht ▸ h

section Turns

variable (kept : ∀ root ∈ old, root.Kept task.language.tables)
  (nothing : task.language.tables.ErrorsEarnNothing)

include kept

theorem balanced_push_leaf (ahead : Ahead task old la) (h : s.Balanced) (r : Run)
    (state target : StateId) (flags : NodeFlags) (stop : Position) (extra : Bool) :
    (s.push ⟨target, (r.makeLeaf la state flags).1, stop, extra⟩).Balanced := by
  have note := (ahead.accounted_leaf kept r state flags).2
  refine h.push rfl ?_
  rw [note]
  exact (Int.add_zero _).symm

theorem balanced_shiftExtra (ahead : Ahead task old la) (cost : Nat)
    (h : ∀ s ∈ r.live, s.Balanced) : ∀ s ∈ (r.shiftExtra la cost).live, s.Balanced := by
  obtain ⟨state, flags, -, -, same⟩ := shiftExtra_eq r la cost
  have live := (Keeps.makeLeaf (r := r) la state flags).live
  rw [same, live]
  intro s hs
  obtain ⟨t, ht, rfl⟩ := List.mem_map.mp hs
  exact (balanced_push_leaf kept ahead (h t ht) r state t.state flags la.stop true).of_same rfl rfl

theorem balanced_shiftAll (ahead : Ahead task old la) {shifts : List (Stack × StateId)}
    (h : ∀ m ∈ shifts, m.1.Balanced) :
    ∀ s ∈ (r.shiftAll task la shifts).live, s.Balanced := by
  have mem : ∀ s g target, (subtree task.language { r with recovery.skipped := 0 } la shifts).1 =
      some (s, g, target) → ∃ next, (s, next) ∈ shifts := fun _ _ _ => mem_of_subtree
  rw [shiftAll]
  dsimp only
  generalize subtree task.language { r with recovery.skipped := 0 } la shifts = result at mem ⊢
  obtain ⟨found, r'⟩ := result
  cases found with
  | none =>
    obtain ⟨state, flags, -, -, same⟩ := pushToken_eq r' la shifts
    refine balanced_settle task.config fun s hs => ?_
    rw [same] at hs
    obtain ⟨m, hm, rfl⟩ := List.mem_map.mp hs
    exact balanced_push_leaf kept ahead (h m hm) r' state m.2 flags la.stop false
  | some m =>
    obtain ⟨s, g, target⟩ := m
    obtain ⟨next, among⟩ := mem s g target rfl
    exact balanced_settle task.config (balanced_singleton ((h _ among).push rfl rfl))

include nothing

/-- A repair in place keeps a stack balanced. -/
theorem balanced_of_mends
    (built : Built task old la.start.offset s.entries) (h : s.Balanced)
    (mends : Mends task la s s') : s'.Balanced := by
  cases mends with
  | wrap wrapped => exact h.wrap (built_accounted kept nothing built) wrapped
  | @missing d t target drives action =>
    have reduced : d.Balanced := by
      clear action
      induction drives with
      | refl => exact h
      | tail _ step ih =>
        obtain ⟨id, c, -, reduced, rfl⟩ := step
        exact ih.reduce? reduced
    exact reduced.push rfl (Int.add_zero _).symm

/-- Whatever a turn does, it leaves the live stacks balanced. -/
theorem balanced_does {d : Deed} (ahead : Ahead task old la) (good : r.Good task old)
    (here : la.start = r.position) (h : ∀ s ∈ r.live, s.Balanced) (does : Does task la r d r') :
    ∀ s ∈ r'.live, s.Balanced := by
  have sorted : Phase.From task la Stack.Balanced (r.reduceAll task la).1 :=
    reduceAll_from (fun h takes => balanced_of_takes h takes) h
  obtain ⟨sound, -⟩ := reduceAll_sound ahead (r := r) fun s hs => here ▸ good.built s hs
  have failed {s : Stack} (best : Frontier.best? (r.reduceAll task la).1.failed = some s) :
      s.Balanced ∧ Built task old la.start.offset s.entries :=
    ⟨sorted.failed s (Frontier.mem_of_best? best), sound.failed s (Frontier.mem_of_best? best)⟩
  cases does with
  | unknown wrong =>
    exact balanced_shiftExtra kept ahead Repair.skipCost (r := r.noteRepair _ _) h
  | extra free => exact balanced_shiftExtra kept ahead 0 h
  | shift some =>
    refine balanced_shiftAll kept ahead fun m hm => ?_
    obtain ⟨s, balanced, index, -, same⟩ := sorted.shifts m hm
    rw [same]
    exact balanced_branch balanced _ index
  | @repair s s' r₁ best repaired =>
    obtain ⟨-, mends⟩ :=
      tryInPlace_mends task la s ((r.reduceAll task la).2.atPlace la.start.offset)
    rw [repaired] at mends
    obtain ⟨balanced, built⟩ := failed best
    exact balanced_singleton (balanced_of_mends kept nothing built balanced (mends s' rfl))
  | @wrap s s' r₁ r₂ atEnd best unrepaired wrapped =>
    obtain ⟨-, mends⟩ := tryWrap_mends task la s s.depth r₁
    rw [wrapped] at mends
    obtain ⟨balanced, built⟩ := failed best
    exact balanced_singleton (balanced_of_mends kept nothing built balanced (mends s' rfl))
  | @skip s r₁ _ yields few skipped =>
    obtain ⟨balanced, built⟩ := failed yields.best
    have pushed (r : Run) := balanced.skip (built_accounted kept nothing built)
      (ahead.accounted_leaf kept r s.state NodeFlags.none).1
      (ahead.accounted_leaf kept r s.state NodeFlags.none).2 la.stop Repair.skipCost
    rw [skipToken] at skipped
    cases skipped
    exact balanced_singleton (pushed _)
  | @sealRest s r₁ _ yields many sealed =>
    obtain ⟨balanced, built⟩ := failed yields.best
    have pushed (rest : Text) (stop : Position) := balanced.skip
      (built_accounted kept nothing built) (Repair.accounted_errorLeaf rest) rfl stop
      Repair.skipCost
    rw [Run.sealRest] at sealed
    cases sealed
    exact balanced_singleton (pushed _ _)

theorem Reached.balanced (reached : Reached task old tokens r) : ∀ s ∈ r.live, s.Balanced := by
  induction reached with
  | initial => exact balanced_singleton Stack.balanced_empty
  | @turn r r' tokens reached more ih =>
    obtain ⟨ahead, here, good⟩ := lookahead_spec reached.good
    obtain ⟨d, does⟩ := does_of_turn more
    refine balanced_does kept nothing ahead good here ?_ does
    rwa [(lookahead_reports task r).2]

end Turns

end Run

/-! ## All that is met -/

namespace Stack

variable {s s' : Stack} {t : Tables}

/-- All notes on a stack are right, and its total is what its nodes have noted. -/
structure Accounted (t : Tables) (s : Stack) : Prop where
  entries : ∀ e ∈ s.entries, e.node.Accounted t
  balanced : s.Balanced

namespace Accounted

theorem node (h : s.Accounted t) : ∀ g ∈ s.nodes, g.Accounted t :=
  forall_mem_nodesOf.mpr h.entries

/-- The total of a stack is what the productions on it earn. -/
theorem eq_earned (h : s.Accounted t) :
    s.dynamicPrecedence = t.earned (Green.productionsIn s.nodes) :=
  h.balanced.trans (Green.noted_of_forall fun g hg => (h.node g hg).eq_earned)

theorem reduce? {l : Language} {id : ProductionId} {la : Lookahead} {fragile : Bool}
    {c : Checked Stack} (h : s.Accounted l.tables) (nothing : l.tables.ErrorsEarnNothing)
    (reduced : s.reduce? l id la fragile = some c) : c.value.Accounted l.tables :=
  ⟨accounted_reduces nothing (reduces_of_reduce? reduced) h.entries, h.balanced.reduce? reduced⟩

end Accounted

end Stack

namespace Run

variable {task : ParseTask} {old : Option Green} {la : Lookahead} {r : Run} {s s' : Stack}
  {tokens : List Lookahead}

theorem accounted_branch {t : Tables} (h : s.Accounted t) (forks : Bool) (index : Nat) :
    (branch s forks index).Accounted t :=
  ⟨entries_branch s forks index ▸ h.entries, balanced_branch h.balanced forks index⟩

theorem accounted_of_branches {t : Tables} {action : Action} (h : s.Accounted t)
    (branches : Branches task la s action s') : s'.Accounted t := by
  obtain ⟨index, -, rfl⟩ := branches
  exact accounted_branch h _ index

variable (kept : ∀ root ∈ old, root.Kept task.language.tables)

include kept

theorem accounted_push_leaf (ahead : Ahead task old la) (h : s.Accounted task.language.tables)
    (r : Run) (state target : StateId) (flags : NodeFlags) (extra : Bool) :
    (s.push ⟨target, (r.makeLeaf la state flags).1, la.stop, extra⟩).Accounted
      task.language.tables :=
  ⟨List.forall_mem_cons.mpr ⟨(ahead.accounted_leaf kept r state flags).1, h.entries⟩,
    balanced_push_leaf kept ahead h.balanced r state target flags la.stop extra⟩

variable (nothing : task.language.tables.ErrorsEarnNothing)

include nothing

/-- Whatever stack comes up in a parse, its total is what its nodes have noted, and all notes on it
are right. -/
theorem accounted_of_meets (reached : Reached task old tokens r) (met : r.Meets task s) :
    s.Accounted task.language.tables := by
  obtain ⟨ahead, -, -⟩ := lookahead_spec reached.good
  have live : ∀ s ∈ r.live, s.Accounted task.language.tables := fun s hs =>
    ⟨built_accounted kept nothing (reached.good.built s hs), reached.balanced kept nothing s hs⟩
  have live' := live
  rw [← (lookahead_reports task r).2] at live'
  have closed {ambiguous : Bool} {s s' : Stack} (h : s.Accounted task.language.tables)
      (takes : Takes task (r.lookahead task).1 ambiguous s s') :
      s'.Accounted task.language.tables := by
    obtain ⟨id, b, c, branches, reduced, rfl⟩ := takes
    exact (accounted_of_branches h branches).reduce? nothing reduced
  have work (steps : Nat) : (workOn task (r.lookahead task).1 (r.lookahead task).2 steps).1.From
      task (r.lookahead task).1 (Stack.Accounted task.language.tables) :=
    workOff_from closed steps (.first live')
  induction met with
  | live mem => exact live _ mem
  | queued steps mem => exact (work steps).queue _ mem
  | accepted steps mem =>
    obtain ⟨s, h, branches⟩ := (work steps).phase.accepted _ mem
    exact accounted_of_branches h branches
  | failed steps mem => exact (work steps).phase.failed _ mem
  | shifting steps mem =>
    obtain ⟨s, h, branches⟩ := (work steps).phase.shifts _ mem
    exact accounted_of_branches h branches
  | branch met forks index ih => exact accounted_branch ih forks index
  | driven met head reduced ih => exact ih.reduce? nothing reduced
  | @pushed s shifts r' phase reduced mem =>
    have sorted : Phase.From task (r.lookahead task).1 (Stack.Accounted task.language.tables)
        ((r.lookahead task).2.reduceAll task (r.lookahead task).1).1 :=
      reduceAll_from closed live'
    rw [reduced] at sorted
    obtain ⟨state, flags, -, -, same⟩ := pushToken_eq r' (r.lookahead task).1 phase.shifts
    rw [same] at mem
    obtain ⟨m, hm, rfl⟩ := List.mem_map.mp mem
    obtain ⟨s, h, branches⟩ := sorted.shifts m hm
    exact accounted_push_leaf kept ahead (accounted_of_branches h branches) r' state m.2 flags false

end Run

/-! ## Building and taking over -/

theorem Run.nodes_of_pushSubtree {r : Run} {la : Lookahead} {s s' : Stack} {g : Green}
    {target : StateId} (pushed : s' ∈ (r.pushSubtree la s g target).live) :
    s'.nodes = s.nodes ++ [g] := by
  rw [List.mem_singleton.mp pushed]
  exact nodesOf_cons _ s.entries

/-- A stack is built on without a choice and without an error: it is reduced, it takes in the token
ahead, or it takes over a subtree of the old tree. -/
inductive Stack.Builds (task : ParseTask) (old : Option Green) (s : Stack) : Stack → Prop where
  | reduce {la : Lookahead} {id : ProductionId} {fragile : Bool} {c : Checked Stack}
      (reduced : s.reduce? task.language id la fragile = some c) : Builds task old s c.value
  | token {la : Lookahead} (ahead : Ahead task old la) (r : Run) (state target : StateId)
      (flags : NodeFlags) (extra : Bool) :
      Builds task old s (s.push ⟨target, (r.makeLeaf la state flags).1, la.stop, extra⟩)
  | subtree {la : Lookahead} {r : Run} {g : Green} {target : StateId} {s' : Stack}
      (fitting : Run.Fitting task.language old s.state la.start.offset g target)
      (pushed : s' ∈ (r.pushSubtree la s g target).live) : Builds task old s s'

namespace Stack

variable {task : ParseTask} {old : Option Green} {s s' : Stack}

theorem Builds.keeps_rank (builds : Builds task old s s') :
    s'.errorCost = s.errorCost ∧ s'.preference = s.preference := by
  cases builds with
  | reduce reduced => exact ⟨(rank_of_reduce? reduced).1, (rank_of_reduce? reduced).2.1⟩
  | token ahead r state target flags extra => exact ⟨rfl, rfl⟩
  | subtree fitting pushed => exact List.mem_singleton.mp pushed ▸ ⟨rfl, rfl⟩

theorem Accounted.builds (h : s.Accounted task.language.tables)
    (kept : ∀ root ∈ old, root.Kept task.language.tables)
    (nothing : task.language.tables.ErrorsEarnNothing) (builds : Builds task old s s') :
    s'.Accounted task.language.tables := by
  cases builds with
  | reduce reduced => exact h.reduce? nothing reduced
  | token ahead r state target flags extra =>
    exact Run.accounted_push_leaf kept ahead h r state target flags extra
  | subtree fitting pushed =>
    obtain rfl := List.mem_singleton.mp pushed
    exact ⟨List.forall_mem_cons.mpr ⟨fitting.accounted kept, h.entries⟩,
      h.balanced.push rfl rfl⟩

/-- Building on a stack keeps the account of it, and leaves alone what else it is ranked by. -/
theorem accounted_of_builds (h : s.Accounted task.language.tables)
    (kept : ∀ root ∈ old, root.Kept task.language.tables)
    (nothing : task.language.tables.ErrorsEarnNothing)
    (builds : Relation.ReflTransGen (Builds task old) s s') :
    s'.Accounted task.language.tables ∧ s'.errorCost = s.errorCost ∧
      s'.preference = s.preference := by
  induction builds with
  | refl => exact ⟨h, rfl, rfl⟩
  | tail _ step ih =>
    obtain ⟨accounted, cost, preference⟩ := ih
    obtain ⟨cost', preference'⟩ := step.keeps_rank
    exact ⟨accounted.builds kept nothing step, cost'.trans cost, preference'.trans preference⟩

end Stack

/-! ## The result -/

/-- A grammar has no production that gives an error. -/
theorem Language.Compiled.errorsEarnNothing {l : Language} {G : Grammar}
    (compiled : l.Compiled G) : l.tables.ErrorsEarnNothing := by
  obtain ⟨g, a, -, founded⟩ := compiled.founded
  intro p hp wrong
  rw [founded.tab.productions] at hp
  obtain ⟨q, hq, rfl⟩ := Array.mem_map.mp hp
  have nonterminal : g.isTerminal Symbol.error = false :=
    wrong ▸ founded.wf.lhs_nonterminal q hq
  rw [founded.wf.terminal_error] at nonterminal
  cases nonterminal

namespace Parser

variable {p : Parser} {text : Text} {old : Option Tree}

/-- If no production earns something by giving an error, dynamic precedence is counted once.  Any
stack that a parse comes across totals what its nodes have noted, and every node at any depth has
noted what the productions in its tree earn; so does every node of the trees that parses and edits
give, but for a root that accepting put extras into.  So however a stack is built on, taking
subtrees over or not, its rank is the same if the productions on it are. -/
theorem precedence_counted_once (nothing : p.language.tables.ErrorsEarnNothing)
    (arisen : ∀ t ∈ old, t.Arisen) :
    (∀ tokens r s, Run.Reached (p.task text) (p.oldRoot old) tokens r →
      r.Meets (p.task text) s →
      s.dynamicPrecedence = Green.noted s.nodes ∧
      (∀ g ∈ s.nodes, g.Tallies p.language.tables) ∧
      ∀ text₁ text₂ (old₁ old₂ : Option Tree) s₁ s₂,
        (∀ t ∈ old₁, t.Arisen) → (∀ t ∈ old₂, t.Arisen) →
        Relation.ReflTransGen (Stack.Builds (p.task text₁) (p.oldRoot old₁)) s s₁ →
        Relation.ReflTransGen (Stack.Builds (p.task text₂) (p.oldRoot old₂)) s s₂ →
        (Green.productionsIn s₁.nodes).Perm (Green.productionsIn s₂.nodes) →
        s₁.rank = s₂.rank) ∧
    (∀ interrupts root, root = (p.parse text old interrupts).value.tree.root →
      (∀ g ∈ root.children, g.Tallies p.language.tables) ∧
      (root.Tallies p.language.tables ∨ Run.Rebuilt (p.task text) (p.oldRoot old) root)) ∧
    ∀ t : Tree, t.Arisen → t.language.tables = p.language.tables →
      (∀ g ∈ t.root.children, g.Tallies p.language.tables) ∧
      (t.root.Tallies p.language.tables ∨ t.root.isFragile = true) := by
  have kept := kept_of_mem_oldRoot nothing fun t ht => (arisen t ht).kept
  refine ⟨fun tokens r s reached met => ?_, ?_, ?_⟩
  · have accounted : s.Accounted p.language.tables :=
      Run.accounted_of_meets kept nothing reached met
    refine ⟨accounted.balanced, fun g hg => (accounted.node g hg).tallies, ?_⟩
    intro text₁ text₂ old₁ old₂ s₁ s₂ arisen₁ arisen₂ builds₁ builds₂ same
    obtain ⟨accounted₁, cost₁, preference₁⟩ := Stack.accounted_of_builds accounted
      (kept_of_mem_oldRoot nothing fun t ht => (arisen₁ t ht).kept) nothing builds₁
    obtain ⟨accounted₂, cost₂, preference₂⟩ := Stack.accounted_of_builds accounted
      (kept_of_mem_oldRoot nothing fun t ht => (arisen₂ t ht).kept) nothing builds₂
    have total : s₁.dynamicPrecedence = s₂.dynamicPrecedence := by
      rw [accounted₁.eq_earned, accounted₂.eq_earned]
      exact Tables.earned_perm _ same
    simp only [Stack.rank, cost₁, cost₂, preference₁, preference₂, total]
  · intro interrupts root same
    rw [tree_parse] at same
    have ending := Run.ending_outcome (p.task text) interrupts (p.oldRoot old)
    generalize Run.outcome (p.task text) interrupts (p.oldRoot old) = outcome at ending same
    obtain ⟨below, right⟩ := accounted_of_ending kept nothing ending
    subst same
    exact ⟨fun g hg => (below g hg).tallies, right.imp_left Green.Accounted.tallies⟩
  · intro t arisen tables
    obtain ⟨below, root⟩ := arisen.kept (tables ▸ nothing)
    rw [← tables]
    exact ⟨fun g hg => (below g hg).tallies, root.imp Green.Accounted.tallies And.left⟩

end Parser

/-! ## A unit that earns something -/

/-- Tables of a language whose one sentence is `a`, a unit of its own that earns 5.  What symbol the
unit is given is left open. -/
def unitTables (unit : Symbol) : Tables where
  name := "unit"
  symbols := #[⟨"end", true, false, false, false⟩, ⟨"ERROR", false, true, true, false⟩,
    ⟨"a", true, false, true, false⟩, ⟨"unit", false, true, true, false⟩,
    ⟨"s", false, true, true, false⟩]
  productions := #[⟨unit, 1, 0, .neither, 5⟩, ⟨4, 1, 0, .neither, 0⟩]
  states := #[⟨[(2, [.shift 1])], [(unit, 2), (4, 3)], 0⟩,
    ⟨[(0, [.reduce 0]), (2, [.reduce 0])], [], 0⟩, ⟨[(0, [.reduce 1])], [], 0⟩,
    ⟨[(0, [.accept])], [], 0⟩]
  lexModes := #[[2]]
  tokens := [⟨2, .literal "a"⟩]
  extras := []
  wordToken := none
  externalTokens := []
  startSymbol := 4

/-- The language loaded from these tables. -/
def unitLanguage (unit : Symbol) : Language where
  version := 14
  tables := unitTables unit
  matcher := ⟨[⟨2, true, .chars ⟨[(97, 97)]⟩⟩]⟩
  validSets := #[⟨#[false, false, true, false, false]⟩]
  recoveryTerminals := ⟨#[false, false, true, false, false]⟩
  extras := ⟨#[false, false, false, false, false]⟩
  keywords := ⟨#[false, false, false, false, false]⟩
  externals := ⟨#[false, false, false, false, false]⟩
  scanner := none

theorem unitTables_load {unit : Symbol} (sound : (unitTables unit).fault? = none) :
    Language.ofTables (unitTables unit) = .ok (unitLanguage unit) := by
  have matcher : Matcher.ofTokens (unitTables unit).tokens (Language.nameIn (unitTables unit)) =
      .ok (unitLanguage unit).matcher := by cbv
  exact Language.ofTables_eq_ok.mpr ⟨sound, Language.prepare_eq_ok.mpr ⟨_, matcher, by cbv⟩⟩

/-- In a second parse of `a` the tree of the first is taken over, and with it the 5 that the unit
earns.  The stack is ranked as one that takes in the `a` and reduces it twice. -/
theorem unit_counted_once :
    let p : Parser := ⟨unitLanguage 3, {}⟩
    let old := (p.parse #[97] none .never).value.tree
    let r := ((Run.initial (p.oldRoot old)).turn (p.task #[97])).run
    p.language.Loaded ∧ r.metrics.nodesReused = 1 ∧
      (∀ s ∈ r.live, s.dynamicPrecedence = 5 ∧ Green.noted s.nodes = 5) ∧
      ∃ taken built, Stack.Builds (p.task #[97]) (p.oldRoot old) Stack.empty taken ∧
        Relation.ReflTransGen (Stack.Builds (p.task #[97]) none) Stack.empty built ∧
        taken.nodes = [old.root] ∧ taken.rank = built.rank := by
  intro p old r
  have loaded : p.language.Loaded := Or.inl ⟨unitTables 3, unitTables_load (by decide +kernel)⟩
  have nothing : p.language.tables.ErrorsEarnNothing := by decide +kernel
  have arisen : ∀ t ∈ some old, t.Arisen := by
    intro t ht
    obtain rfl := Option.some.inj ht
    exact .parse p #[97] (fun t ht => absurd ht (Option.not_mem_none t)) .never
  have more : (Run.initial (p.oldRoot (some old))).turn (p.task #[97]) = .more r :=
    Flow.eq_more (by decide +kernel)
  have five : ∀ s ∈ r.live, s.dynamicPrecedence = 5 := by decide +kernel
  obtain ⟨once, -⟩ := @Parser.precedence_counted_once p #[97] (some old) nothing arisen
  refine ⟨loaded, by decide +kernel, fun s hs => ⟨five s hs, ?_⟩, ?_⟩
  · obtain ⟨total, -⟩ := once _ r s (.turn .initial more) (.live hs)
    exact total.symm.trans (five s hs)
  · let first := Run.initial none
    let la := (first.lookahead (p.task #[97])).1
    have reached : Run.Reached (p.task #[97]) none [] first := .initial
    have ahead : Ahead (p.task #[97]) none la := (Run.lookahead_spec reached.good).1
    let shifted := Stack.empty.push ⟨1, (first.makeLeaf la 0 NodeFlags.none).1, la.stop, false⟩
    have both : ((shifted.reduce? p.language 0 la false).any fun c =>
        (c.value.reduce? p.language 1 la false).any fun d =>
          Green.productionsIn d.value.nodes == [1, 0]) = true := by decide +kernel
    obtain ⟨c, unit, both⟩ := (Option.any_eq_true _ _).mp both
    obtain ⟨d, whole, same⟩ := (Option.any_eq_true _ _).mp both
    have builds : Relation.ReflTransGen (Stack.Builds (p.task #[97]) none) Stack.empty d.value :=
      ((Relation.ReflTransGen.single (.token ahead first 0 1 NodeFlags.none false)).tail
        (.reduce unit)).tail (.reduce whole)
    have mem : old.root ∈ p.oldRoot (some old) := by
      rw [Parser.oldRoot, Option.filter_some, if_pos (by decide +kernel)]
      rfl
    have fitting : Run.Fitting p.language (p.oldRoot (some old)) Stack.empty.state
        la.start.offset old.root 3 :=
      ⟨⟨old.root, mem, (show 0 = la.start.offset by decide +kernel) ▸ .root⟩, by decide +kernel,
        by decide +kernel, by decide +kernel⟩
    obtain ⟨u, pushed⟩ : ∃ u, u ∈ (first.pushSubtree la Stack.empty old.root 3).live :=
      ⟨_, List.mem_cons_self⟩
    have alone : u.nodes = [old.root] := Run.nodes_of_pushSubtree pushed
    have taken : Stack.Builds (p.task #[97]) (p.oldRoot (some old)) Stack.empty u :=
      .subtree fitting pushed
    have alike : Green.productionsIn [old.root] = [1, 0] := by decide +kernel
    have perm : (Green.productionsIn u.nodes).Perm (Green.productionsIn d.value.nodes) := by
      rw [alone, alike, beq_iff_eq.mp same]
    refine ⟨u, d.value, taken, builds, alone, ?_⟩
    exact (once _ _ Stack.empty .initial (.live List.mem_cons_self)).2.2 #[97] #[97] (some old)
      none u d.value arisen (fun t ht => absurd ht (Option.not_mem_none t)) (.single taken) builds
      perm

/-- A unit that is an error has noted the 5 that it earns, and so has the root above it, whose own
production earns nothing.  And when the error is taken apart and made one with the second `a` of
`aa`, the stack keeps the 5 and the nodes do not. -/
theorem wrong_unit_counted :
    let p : Parser := ⟨unitLanguage Symbol.error, {}⟩
    let root := (p.parse #[97] none .never).value.tree.root
    let r := ((Run.initial none).turn (p.task #[97, 97])).run
    let r' := (r.turn (p.task #[97, 97])).run
    p.language.Loaded ∧ ¬ p.language.tables.ErrorsEarnNothing ∧
      root.dynamicPrecedence = 5 ∧ p.language.tables.earned root.productions = 0 ∧
      root.isFragile = false ∧
      (∃ tokens, Run.Reached (p.task #[97, 97]) none tokens r') ∧
      r'.live.map (·.dynamicPrecedence) = [5] ∧
      r'.live.map (fun s => Green.noted s.nodes) = [0] := by
  intro p root r r'
  have loaded : p.language.Loaded :=
    Or.inl ⟨unitTables Symbol.error, unitTables_load (by decide +kernel)⟩
  have first : (Run.initial none).turn (p.task #[97, 97]) = .more r :=
    Flow.eq_more (by decide +kernel)
  have second : r.turn (p.task #[97, 97]) = .more r' := Flow.eq_more (by decide +kernel)
  exact ⟨loaded, by decide +kernel, by decide +kernel, by decide +kernel, by decide +kernel,
    ⟨_, .turn (.turn .initial first) second⟩, by decide +kernel, by decide +kernel⟩

end Glr
