import Glr.Proofs.Arisen
import Glr.Proofs.Ledger
import Glr.Proofs.Pace
import Glr.Proofs.Stacked

/-!
# The live stacks go abreast

Between two turns all live stacks stand where the parse is, over the same leaves, there are no more
of them than are allowed, and no two went through the same states with the same extras
(`Frontier.Abreast`).

A turn does its work in two kinds of steps.  Some make a stack into another one (`Run.Handles`):
they push what all stacks move on by, the leaf of the token ahead or a subtree that starts with it,
or they put nodes over what is there.  Where the stack stood and what it held decides where the new
one stands and what it holds (`Run.Handles.stands`), so stacks that were level stay level.  The
others choose among the stacks: they keep what they choose as it is, and whatever they are given,
merging and then pruning leave neither too many stacks nor two that are alike
(`Frontier.Level.settled`).
-/

namespace Glr

namespace Frontier

/-! ## No two alike -/

/-- No two contenders went through the same states with the same extras. -/
def Distinct (merged : List Contender) : Prop :=
  merged.Pairwise fun c d => c.stack.trace ≠ d.stack.trace

theorem distinct_mergeInto (c : Contender) {merged : List Contender} (h : Distinct merged) :
    Distinct (mergeInto c merged) := by
  induction merged with
  | nil => exact List.pairwise_singleton _ _
  | cons d ds ih =>
    obtain ⟨first, rest⟩ := List.pairwise_cons.mp h
    rw [mergeInto]
    split
    · next same =>
      refine List.pairwise_cons.mpr ⟨fun e he => ?_, rest⟩
      split
      · rw [← Stack.sameStates_iff.mp same]
        exact first e he
      · exact first e he
    · next other =>
      refine List.pairwise_cons.mpr ⟨fun e he => ?_, ih rest⟩
      rcases mem_mergeInto he with eq | ⟨f, hf, eq⟩
      · rw [eq]
        exact fun same => other (Stack.sameStates_iff.mpr same)
      · rw [eq]
        exact first f hf

theorem distinct_mergeGroup (group : List Contender) : Distinct (mergeGroup group) := by
  have walk : ∀ (group merged : List Contender), Distinct merged →
      Distinct (group.foldl (fun merged c => mergeInto c merged) merged) := by
    intro group
    induction group with
    | nil => exact fun _ h => h
    | cons c group ih => exact fun merged h => ih _ (distinct_mergeInto c h)
  exact walk group [] .nil

theorem outlineLe_iff {c d : Contender} : outlineLe c d = true ↔
    c.outline.2 < d.outline.2 ∨ c.outline.2 = d.outline.2 ∧ c.outline.1 ≤ d.outline.1 := by
  rw [outlineLe, Bool.or_eq_true, Bool.and_eq_true, decide_eq_true_eq, beq_iff_eq,
    decide_eq_true_eq]

theorem outlineLe_antisymm {c d : Contender} (h : outlineLe c d = true)
    (h' : outlineLe d c = true) : c.outline = d.outline := by
  rw [outlineLe_iff] at h h'
  ext <;> grind

theorem outlineLe_refl (c : Contender) : outlineLe c c = true :=
  outlineLe_iff.mpr (Or.inr ⟨rfl, Nat.le_refl _⟩)

/-- Groups of one outline each, cut where the outline changes, are of different outlines if all is
sorted by them. -/
theorem apart_of_sorted :
    ∀ {groups : List (List Contender)}, (∀ a ∈ groups, ∀ c ∈ a, ∀ d ∈ a, c.outline = d.outline) →
      groups.flatten.Pairwise (fun c d => outlineLe c d = true) →
      (groups.IsChain fun a b => ∃ ha hb, (a.getLast ha).outline ≠ (b.head hb).outline) →
      groups.Pairwise fun a b => ∀ c ∈ a, ∀ d ∈ b, c.outline ≠ d.outline := by
  intro groups
  induction groups with
  | nil => exact fun _ _ _ => .nil
  | cons a rest ih =>
    intro one sorted cut
    have sorted' := sorted
    rw [List.flatten_cons, List.pairwise_append] at sorted'
    obtain ⟨-, later, across⟩ := sorted'
    have ih := ih (fun b hb => one b (List.mem_cons_of_mem a hb)) later cut.tail
    refine List.pairwise_cons.mpr ⟨fun b hb c hc d hd same => ?_, ih⟩
    -- What comes first behind the group has another outline, and all that is later is above that.
    obtain ⟨next, more, rfl⟩ := List.exists_cons_of_ne_nil (List.ne_nil_of_mem hb)
    obtain ⟨some, some', other⟩ := cut.rel_head? rfl
    obtain ⟨x, xs, rfl⟩ := List.exists_cons_of_ne_nil some'
    have here : x ∈ ((x :: xs) :: more).flatten := by simp
    have above : outlineLe x d = true := by
      have mem : d ∈ x :: (xs ++ more.flatten) := by
        have := List.mem_flatten.mpr ⟨b, hb, hd⟩
        simpa using this
      rcases List.mem_cons.mp mem with rfl | mem
      · exact outlineLe_refl d
      · rw [List.flatten_cons, List.cons_append, List.pairwise_cons] at later
        exact later.1 d mem
    have below := across c hc x here
    have last : c.outline = (a.getLast some).outline :=
      one a List.mem_cons_self c hc _ (List.getLast_mem some)
    refine other (last.symm.trans ?_)
    refine outlineLe_antisymm below ?_
    rw [outlineLe_iff] at above ⊢
    rwa [same]

theorem outlineLe_trans (c d e : Contender) (h : outlineLe c d = true)
    (h' : outlineLe d e = true) : outlineLe c e = true := by
  rw [outlineLe_iff] at h h' ⊢
  grind

theorem outlineLe_total (c d : Contender) : (outlineLe c d || outlineLe d c) = true := by
  rw [Bool.or_eq_true, outlineLe_iff, outlineLe_iff]
  grind

/-- The groups that are merged each have an outline of their own. -/
theorem apart_groups (cs : List Contender) :
    ((cs.mergeSort outlineLe).splitBy fun c d => c.outline == d.outline).Pairwise
      fun a b => ∀ c ∈ a, ∀ d ∈ b, c.outline ≠ d.outline := by
  refine apart_of_sorted (fun a ha c hc d hd => ?_) ?_ ?_
  · have chain := (List.isChain_map Contender.outline).mpr
      ((List.isChain_of_mem_splitBy ha).imp fun c d same => beq_iff_eq.mp same)
    rw [List.isChain_iff_pairwise] at chain
    exact chain.forall_of_forall (fun _ _ => rfl) (List.mem_map_of_mem hc)
      (List.mem_map_of_mem hd)
  · rw [List.flatten_splitBy]
    exact List.pairwise_mergeSort outlineLe_trans outlineLe_total cs
  · refine (List.isChain_getLast_head_splitBy _ _).imp fun a b => ?_
    rintro ⟨ha, hb, other⟩
    exact ⟨ha, hb, fun same => by rw [same, beq_self_eq_true] at other; cases other⟩

/-- Merging leaves no two stacks with the same states and extras. -/
theorem distinct_merge (live : List Stack) :
    (merge live).Pairwise fun s t => s.trace ≠ t.trace := by
  rw [merge]
  split
  · next few =>
    rcases live with _ | ⟨s, _ | ⟨t, rest⟩⟩
    · exact .nil
    · exact List.pairwise_singleton _ s
    · exact absurd few (by simp)
  · dsimp only
    refine List.pairwise_map.mpr ((List.mergeSort_perm _ _).pairwise_iff
      (fun h => h.symm) |>.mpr ?_)
    have origin : ∀ c ∈ (contenders live).mergeSort outlineLe, c.outline = c.stack.outline := by
      intro c hc
      obtain ⟨⟨s, place⟩, -, rfl⟩ := List.mem_map.mp (List.mem_mergeSort.mp hc)
      rfl
    have inside : ∀ a ∈ ((contenders live).mergeSort outlineLe).splitBy
        (fun c d => c.outline == d.outline), ∀ c ∈ a, c.outline = c.stack.outline := by
      intro a ha c hc
      refine origin c ?_
      have mem := List.mem_flatten.mpr ⟨a, ha, hc⟩
      rwa [List.flatten_splitBy] at mem
    refine List.pairwise_flatMap.mpr ⟨fun a _ => distinct_mergeGroup a, ?_⟩
    refine (apart_groups (contenders live)).imp_of_mem fun {a b} ha hb apart c hc d hd same => ?_
    obtain ⟨c', hc', eq⟩ := mem_foldl_mergeInto hc
    obtain ⟨d', hd', eq'⟩ := mem_foldl_mergeInto hd
    refine apart c' hc' d' hd' ?_
    rw [inside a ha c' hc', inside b hb d' hd', ← eq, ← eq']
    exact Stack.outline_eq_of_sameStates (Stack.sameStates_iff.mpr same)

/-! ## How many there are -/

theorem length_mergeInto_le (c : Contender) (merged : List Contender) :
    (mergeInto c merged).length ≤ merged.length + 1 := by
  induction merged with
  | nil => exact Nat.le_refl _
  | cons d ds ih =>
    rw [mergeInto]
    split
    · exact Nat.le_succ _
    · exact Nat.succ_le_succ ih

theorem length_mergeGroup_le (group : List Contender) :
    (mergeGroup group).length ≤ group.length := by
  have walk : ∀ (group merged : List Contender),
      (group.foldl (fun merged c => mergeInto c merged) merged).length ≤
        merged.length + group.length := by
    intro group
    induction group with
    | nil => exact fun _ => Nat.le_refl _
    | cons c group ih =>
      intro merged
      have first := length_mergeInto_le c merged
      have rest := ih (mergeInto c merged)
      rw [List.foldl_cons, List.length_cons]
      omega
  exact (walk group []).trans_eq (Nat.zero_add _)

theorem length_merge_le (live : List Stack) : (merge live).length ≤ live.length := by
  rw [merge]
  split
  · exact Nat.le_refl _
  · have groups : ∀ groups : List (List Contender),
        (groups.flatMap mergeGroup).length ≤ groups.flatten.length := by
      intro groups
      induction groups with
      | nil => exact Nat.le_refl _
      | cons group groups ih =>
        rw [List.flatMap_cons, List.flatten_cons, List.length_append, List.length_append]
        exact Nat.add_le_add (length_mergeGroup_le group) ih
    have all := groups (((contenders live).mergeSort outlineLe).splitBy
      fun c d => c.outline == d.outline)
    rw [List.flatten_splitBy, List.length_mergeSort, contenders, List.length_map,
      List.length_zipIdx] at all
    rwa [List.length_map, List.length_mergeSort]

/-- There are no more stacks than are allowed, and no two of them are alike. -/
structure Thin (allowed : Nat) (live : List Stack) : Prop where
  bounded : live.length ≤ max 1 allowed
  distinct : live.Pairwise fun s t => s.trace ≠ t.trace

theorem thin_singleton (allowed : Nat) (s : Stack) : Thin allowed [s] :=
  ⟨Nat.le_max_left _ _, List.pairwise_singleton _ s⟩

theorem Thin.merge {allowed : Nat} {live : List Stack} (thin : Thin allowed live) :
    Thin allowed (merge live) :=
  ⟨(length_merge_le live).trans thin.bounded, distinct_merge live⟩

theorem thin_prune {live : List Stack} (allowed : Nat)
    (distinct : live.Pairwise fun s t => s.trace ≠ t.trace) :
    Thin allowed (prune live allowed) := by
  rw [prune]
  split
  · refine ⟨(List.length_take_le _ _).trans_eq (Nat.max_comm _ _), ?_⟩
    refine List.Pairwise.sublist (List.take_sublist _ _) ?_
    exact ((List.mergeSort_perm _ _).pairwise_iff fun h => h.symm).mpr distinct
  · next few =>
    refine ⟨?_, distinct⟩
    rw [isCrowded, decide_eq_true_eq, Nat.not_lt] at few
    exact few.trans (Nat.le_max_right _ _)

theorem thin_collapse (allowed : Nat) (live : List Stack) : Thin allowed (collapse live) := by
  rw [collapse]
  cases best? live with
  | none => exact ⟨Nat.zero_le _, .nil⟩
  | some s => exact thin_singleton allowed s

/-! ## Side by side -/

/-- There are live stacks, and all of them stand at the place with the same leaves. -/
structure Level (place : Position) (contents : List (Symbol × Nat)) (live : List Stack) :
    Prop where
  alive : live ≠ []
  stands : ∀ s ∈ live, Stands place contents s.entries

/-- Between two turns the live stacks are level, not too many, and no two alike. -/
structure Abreast (allowed : Nat) (place : Position) (contents : List (Symbol × Nat))
    (live : List Stack) : Prop extends Level place contents live, Thin allowed live

variable {allowed : Nat} {place : Position} {contents : List (Symbol × Nat)} {live : List Stack}

theorem level_singleton {s : Stack} (stands : Stands place contents s.entries) :
    Level place contents [s] :=
  ⟨List.cons_ne_nil s [], fun _ ht => List.mem_singleton.mp ht ▸ stands⟩

theorem abreast_singleton {s : Stack} (stands : Stands place contents s.entries) :
    Abreast allowed place contents [s] := ⟨level_singleton stands, thin_singleton allowed s⟩

namespace Level

theorem merge (level : Level place contents live) : Level place contents (merge live) :=
  ⟨merge_ne_nil level.alive, fun s hs => level.stands s (mem_of_mem_merge hs)⟩

theorem prune (level : Level place contents live) (allowed : Nat) :
    Level place contents (prune live allowed) :=
  ⟨prune_ne_nil level.alive, fun s hs => level.stands s (mem_of_mem_prune hs)⟩

theorem collapse (level : Level place contents live) : Level place contents (collapse live) :=
  ⟨collapse_ne_nil level.alive, fun s hs => level.stands s (mem_of_mem_collapse hs)⟩

/-- Merging and then pruning leave neither too many stacks nor two that are alike. -/
theorem settled (level : Level place contents live) (allowed : Nat) :
    Abreast allowed place contents (Frontier.prune (Frontier.merge live) allowed) :=
  ⟨level.merge.prune allowed, thin_prune allowed (distinct_merge live)⟩

end Level

theorem Abreast.merge (abreast : Abreast allowed place contents live) :
    Abreast allowed place contents (merge live) :=
  ⟨abreast.toLevel.merge, abreast.toThin.merge⟩

theorem Abreast.prune (abreast : Abreast allowed place contents live) :
    Abreast allowed place contents (prune live allowed) :=
  ⟨abreast.toLevel.prune allowed, thin_prune allowed abreast.distinct⟩

theorem Abreast.collapse (abreast : Abreast allowed place contents live) :
    Abreast allowed place contents (collapse live) :=
  ⟨abreast.toLevel.collapse, thin_collapse allowed live⟩

end Frontier

variable {task : ParseTask} {old : Option Green} {r r' : Run} {la : Lookahead} {place : Position}
  {contents : List (Symbol × Nat)}

/-! ## What is done to a stack -/

namespace Run

/-- What is done to one stack with a token ahead: what it is before, the trees that it moves on by,
and what it is then. -/
inductive Handles (task : ParseTask) (old : Option Green) (la : Lookahead) :
    Stack → List Green → Stack → Prop where
  | reduce {s : Stack} {id : ProductionId} {fragile : Bool} {c : Checked Stack}
      (reduced : s.reduce? task.language id la fragile = some c) : Handles task old la s [] c.value
  | shift (r : Run) (state : StateId) (flags : NodeFlags) (s : Stack) (target : StateId) :
      Handles task old la s [(r.makeLeaf la state flags).1]
        (s.push ⟨target, (r.makeLeaf la state flags).1, la.stop, false⟩)
  | extra (r : Run) (state : StateId) (flags : NodeFlags) (s : Stack) (cost : Nat) :
      Handles task old la s [(r.makeLeaf la state flags).1]
        ((s.push ⟨s.state, (r.makeLeaf la state flags).1, la.stop, true⟩).charge cost)
  | reuse {s : Stack} {g : Green} {target : StateId}
      (fitting : Fitting task.language old s.state la.start.offset g target) (level : Int) :
      Handles task old la s [g]
        ({ s with dynamicPrecedence := level }.push
          ⟨target, g, (la.start.advance g).value, false⟩)
  | missing (s : Stack) (t : Symbol) (target : StateId) :
      Handles task old la s [] (pushMissing task.language s t target la.start)
  | pop {s : Stack} {t : Symbol} {allowed : Nat} {c : Checked (Stack × Nat)}
      (wrapped : Repair.wrap task.language s t allowed = some c) :
      Handles task old la s [] c.value.1
  | skip (r : Run) (state : StateId) (flags : NodeFlags) (s : Stack) (cost : Nat) :
      Handles task old la s [(r.makeLeaf la state flags).1]
        (Repair.skip s (r.makeLeaf la state flags).1 la.stop cost).value
  | rest (s : Stack) (text : Text) (cost : Nat) :
      Handles task old la s [Repair.errorLeaf text]
        (Repair.skip s (Repair.errorLeaf text) (la.start.advance (Repair.errorLeaf text)).value
          cost).value

section Handles

variable {s s' : Stack} {pushed : List Green} (joined : ∀ root ∈ old, root.Joined)
  (ahead : Ahead task old la) (inside : la.start.offset ≤ task.text.size)

include joined ahead inside

omit joined in
theorem behind_leaf (r : Run) (state : StateId) (flags : NodeFlags) :
    la.start.behind [(r.makeLeaf la state flags).1] = la.stop := by
  rw [← Position.value_advance_single, ← ahead.stop_eq inside r state flags]

/-- Whatever is done to a stack, it moves on by what is pushed, and holds that and what it held. -/
theorem Handles.stands (handles : Handles task old la s pushed s')
    (h : Stands la.start contents s.entries) :
    Stands (la.start.behind pushed) (contents ++ Green.contents pushed) s'.entries := by
  have still {es : List StackEntry} (h : Stands la.start contents es) :
      Stands (la.start.behind []) (contents ++ Green.contents []) es := by
    rw [Position.behind_nil, Green.contents_nil, List.append_nil]
    exact h
  have leaf (r : Run) (state : StateId) (flags : NodeFlags) :
      (r.makeLeaf la state flags).1.Joined := .of_leaf (ahead.leaf_spec r state flags).1
  have stop (r : Run) (state : StateId) (flags : NodeFlags) := ahead.stop_eq inside r state flags
  cases handles with
  | reduce reduced => exact still (h.reduce? reduced)
  | shift r state flags s target =>
    rw [behind_leaf ahead inside]
    exact h.push (leaf r state flags) (stop r state flags) target false
  | extra r state flags s cost =>
    rw [behind_leaf ahead inside]
    exact h.push (leaf r state flags) (stop r state flags) s.state true
  | @reuse s g target fitting level =>
    obtain ⟨root, hroot, held⟩ := fitting.held
    rw [← Position.value_advance_single]
    exact h.push (Green.hereditary_joined.of_holds (joined root hroot) held) rfl target false
  | missing s t target => exact still (h.empty rfl rfl rfl target false)
  | pop wrapped => exact still (h.wrap wrapped)
  | skip r state flags s cost =>
    rw [behind_leaf ahead inside]
    exact h.skip (leaf r state flags) (stop r state flags) cost
  | rest s text cost =>
    rw [← Position.value_advance_single]
    exact h.skip (.of_leaf rfl) rfl cost

/-- A repair that consumes nothing leaves a stack where it is. -/
theorem stands_of_mends (h : Stands la.start contents s.entries) (mends : Mends task la s s') :
    Stands la.start contents s'.entries := by
  have still {s s' : Stack} (handles : Handles task old la s [] s')
      (h : Stands la.start contents s.entries) : Stands la.start contents s'.entries := by
    have kept := handles.stands joined ahead inside h
    rwa [Position.behind_nil, Green.contents_nil, List.append_nil] at kept
  cases mends with
  | wrap wrapped => exact still (.pop wrapped) h
  | @missing d t target drives action =>
    refine still (.missing d t target) ?_
    clear action
    induction drives with
    | refl => exact h
    | tail _ step ih =>
      obtain ⟨id, c, -, reduced, rfl⟩ := step
      exact still (.reduce reduced) ih

end Handles

/-! ## What a turn leaves -/

/-- Between two turns the parse is in the text, and the live stacks go abreast where it is. -/
structure Abreast (task : ParseTask) (r : Run) : Prop where
  inside : r.position.offset ≤ task.text.size
  level : ∃ contents, Frontier.Abreast task.config.maxStacks r.position contents r.live

theorem abreast_initial (task : ParseTask) (old : Option Green) : (initial old).Abreast task :=
  ⟨Nat.zero_le _, [], Frontier.abreast_singleton .start⟩

/-- One stack that stands where the parse is goes abreast. -/
theorem abreast_resume {s : Stack} (more : resume r s = .more r')
    (inside : r.position.offset ≤ task.text.size)
    (stands : ∃ contents, Stands r.position contents s.entries) : r'.Abreast task := by
  obtain ⟨contents, stands⟩ := stands
  cases more
  exact ⟨inside, contents, Frontier.abreast_singleton stands⟩

/-- However alike and many the stacks are that a token was shifted on, they are thinned out. -/
theorem abreast_settle (inside : r.position.offset ≤ task.text.size)
    (level : Frontier.Level r.position contents r.live) :
    (r.settle task.config).Abreast task := by
  obtain ⟨reports, left⟩ := settle_sifts task.config r
  have fresh : Frontier.Level r.position contents
      (r.live.map fun s => { s with forked := false }) := by
    refine ⟨fun nil => level.alive (List.map_eq_nil_iff.mp nil), fun s hs => ?_⟩
    obtain ⟨t, ht, rfl⟩ := List.mem_map.mp hs
    exact level.stands t ht
  have sifted := fresh.settled task.config.maxStacks
  refine ⟨reports.position ▸ inside, contents, ?_⟩
  rw [reports.position]
  rcases left with same | same
  · rw [same]
    exact sifted
  · rw [same]
    exact sifted.collapse

section Turns

variable (joined : ∀ root ∈ old, root.Joined) (whole : ∀ root ∈ old, root.length = task.text.size)
  (ahead : Ahead task old la) (inside : la.start.offset ≤ task.text.size)

include joined whole

/-- A tree of the old tree ends in the text. -/
theorem stop_le_of_held {offset : Nat} {g : Green} (held : ∃ root ∈ old, root.Holds offset g) :
    offset + g.length ≤ task.text.size := by
  obtain ⟨root, hroot, held⟩ := held
  exact whole root hroot ▸ ((joined root hroot).summed.of_holds held).2

include ahead

theorem stop_le_of_ahead : la.stop.offset ≤ task.text.size := by
  cases ahead with
  | reused held isLeaf nonempty undamaged correct => exact stop_le_of_held joined whole held
  | lexed place valid mode =>
    exact (task.language.placed_nextTokenIn task.text place.offset valid mode).stop_le

include inside

/-- A token pushed on every stack as an extra keeps apart what was apart. -/
theorem abreast_shiftExtra (cost : Nat) (abreast : r.Abreast task) (here : la.start = r.position) :
    (r.shiftExtra la cost).Abreast task := by
  obtain ⟨state, flags, -, -, same⟩ := shiftExtra_eq r la cost
  obtain ⟨contents, level⟩ := abreast.level
  have live := (Keeps.makeLeaf (r := r) la state flags).live
  rw [← here] at level
  rw [same, live]
  refine ⟨stop_le_of_ahead joined whole ahead,
    contents ++ Green.contents [(r.makeLeaf la state flags).1], ⟨fun nil => ?_, fun s hs => ?_⟩, ?_,
    List.pairwise_map.mpr (level.distinct.imp fun other same => ?_)⟩
  · exact level.alive (List.map_eq_nil_iff.mp nil)
  · obtain ⟨t, ht, rfl⟩ := List.mem_map.mp hs
    have moved := (Handles.extra r state flags t cost).stands joined ahead inside
      (level.stands t ht)
    rwa [behind_leaf ahead inside] at moved
  · exact (List.length_map _).trans_le level.bounded
  · exact other (List.cons.inj same).2

theorem abreast_shiftAll {shifts : List (Stack × StateId)} (nonempty : shifts ≠ [])
    (known : ∀ m ∈ shifts, Built task old la.start.offset m.1.entries ∧
      .shift m.2 ∈ task.language.actions m.1.state la.token.symbol)
    (cursor : r.reuse.Inside old)
    (stands : ∀ m ∈ shifts, Stands la.start contents m.1.entries) :
    (r.shiftAll task la shifts).Abreast task := by
  obtain ⟨-, -, fitting⟩ := subtree_spec known (r := { r with recovery.skipped := 0 }) cursor
  have mem : ∀ s g target, (subtree task.language { r with recovery.skipped := 0 } la shifts).1 =
      some (s, g, target) → ∃ next, (s, next) ∈ shifts := fun _ _ _ => mem_of_subtree
  rw [shiftAll]
  dsimp only
  generalize subtree task.language { r with recovery.skipped := 0 } la shifts = result
    at fitting mem ⊢
  obtain ⟨found, r'⟩ := result
  cases found with
  | none =>
    obtain ⟨state, flags, -, -, same⟩ := pushToken_eq r' la shifts
    have level : Frontier.Level la.stop
        (contents ++ Green.contents [(r'.makeLeaf la state flags).1])
        (r'.pushToken la shifts).live := by
      rw [same]
      refine ⟨fun nil => nonempty (List.map_eq_nil_iff.mp nil), fun s hs => ?_⟩
      obtain ⟨m, hm, rfl⟩ := List.mem_map.mp hs
      have moved := (Handles.shift r' state flags m.1 m.2).stands joined ahead inside (stands m hm)
      rwa [behind_leaf ahead inside] at moved
    exact abreast_settle (stop_le_of_ahead joined whole ahead) level
  | some m =>
    obtain ⟨s, g, target⟩ := m
    obtain ⟨-, fits⟩ := fitting s g target rfl
    obtain ⟨next, among⟩ := mem s g target rfl
    have moved := (Handles.reuse fits (Level.add s.dynamicPrecedence g.dynamicPrecedence).value)
      |>.stands joined ahead inside (stands _ among)
    rw [← Position.value_advance_single] at moved
    exact abreast_settle (r := r'.pushSubtree la s g target)
      (stop_le_of_held joined whole fits.held)
      (Frontier.level_singleton moved)

/-- Whatever a turn does, it leaves the live stacks abreast. -/
theorem abreast_does {d : Deed} (good : r.Good task old) (abreast : r.Abreast task)
    (here : la.start = r.position) (does : Does task la r d r') : r'.Abreast task := by
  obtain ⟨contents, level⟩ := abreast.level
  rw [← here] at level
  have reduced {s s' : Stack} (stands : Stands la.start contents s.entries)
      (takes : Takes task la (r.live.length > 1) s s') : Stands la.start contents s'.entries := by
    obtain ⟨id, b, c, branches, taken, rfl⟩ := takes
    rw [← branches.entries] at stands
    exact stands.reduce? taken
  have sorted := reduceAll_from reduced level.stands
  obtain ⟨sound, keeps⟩ := reduceAll_sound ahead (r := r) fun s hs => here ▸ good.built s hs
  have failed {s : Stack} (best : Frontier.best? (r.reduceAll task la).1.failed = some s) :
      Stands la.start contents s.entries := sorted.failed s (Frontier.mem_of_best? best)
  -- A repair in place, whether it comes about or not, leaves the parse where the token starts.
  have tried (s : Stack) : (tryInPlace task la s
      ((r.reduceAll task la).2.atPlace la.start.offset)).2.position = la.start :=
    (tryInPlace_mends task la s _).1.position.trans
      ((atPlace_spec _ la.start.offset).1.trans (keeps.position.trans here.symm))
  cases does with
  | unknown wrong =>
    exact abreast_shiftExtra joined whole ahead inside Repair.skipCost
      (r := r.noteRepair _ _) ⟨abreast.inside, abreast.level⟩ here
  | extra free => exact abreast_shiftExtra joined whole ahead inside 0 abreast here
  | shift some =>
    have stands : ∀ m ∈ (r.reduceAll task la).1.shifts,
        Stands la.start contents m.1.entries := by
      intro m hm
      obtain ⟨s, stands, branches⟩ := sorted.shifts m hm
      exact branches.entries ▸ stands
    exact abreast_shiftAll joined whole ahead inside some sound.shifts
      (keeps.inside good.inside) stands
  | @repair s s' r₁ best repaired =>
    have position := tried s
    obtain ⟨-, mends⟩ :=
      tryInPlace_mends task la s ((r.reduceAll task la).2.atPlace la.start.offset)
    rw [repaired] at position mends
    refine abreast_resume (r := r₁) rfl (position ▸ inside) ⟨contents, position ▸ ?_⟩
    exact stands_of_mends joined ahead inside (failed best) (mends s' rfl)
  | @wrap s s' r₁ r₂ atEnd best unrepaired wrapped =>
    have position := tried s
    obtain ⟨keeps, mends⟩ := tryWrap_mends task la s s.depth r₁
    rw [unrepaired] at position
    rw [wrapped] at keeps mends
    have position : r₂.position = la.start := keeps.position.trans position
    refine abreast_resume (r := r₂) rfl (position ▸ inside) ⟨contents, position ▸ ?_⟩
    exact stands_of_mends joined ahead inside (failed best) (mends s' rfl)
  | @skip s r₁ _ yields few skipped =>
    have moved (r : Run) := (Handles.skip r s.state NodeFlags.none s Repair.skipCost).stands
      joined ahead inside (failed yields.best)
    simp only [behind_leaf ahead inside] at moved
    rw [skipToken] at skipped
    exact abreast_resume skipped (stop_le_of_ahead joined whole ahead) ⟨_, moved _⟩
  | @sealRest s r₁ _ yields many sealed =>
    generalize hrest : task.text.extract (min la.start.offset task.text.size) task.text.size =
      rest
    have moved := (Handles.rest s rest Repair.skipCost).stands joined ahead inside
      (failed yields.best)
    rw [← Position.value_advance_single] at moved
    rw [Run.sealRest, hrest] at sealed
    refine abreast_resume sealed ?_ ⟨_, moved⟩
    have length := Repair.length_errorLeaf rest
    rw [← hrest, Size.ofText, Array.size_extract] at length
    show la.start.offset + (Repair.errorLeaf rest).length ≤ _
    rw [← hrest]
    omega

omit ahead inside in
/-- A turn that goes on leaves the live stacks abreast. -/
theorem abreast_turn (good : r.Good task old) (abreast : r.Abreast task)
    (more : r.turn task = .more r') : r'.Abreast task := by
  obtain ⟨ahead, here, good'⟩ := lookahead_spec good
  obtain ⟨reports, live⟩ := lookahead_reports task r
  have abreast' : (r.lookahead task).2.Abreast task := by
    obtain ⟨inside, level⟩ := abreast
    refine ⟨reports.position ▸ inside, ?_⟩
    rwa [reports.position, live]
  obtain ⟨d, does⟩ := does_of_turn more
  exact abreast_does joined whole ahead (here ▸ abreast'.inside) good' abreast' here does

omit ahead inside in
theorem Reached.abreast {tokens : List Lookahead} (reached : Reached task old tokens r) :
    r.Abreast task := by
  induction reached with
  | initial => exact abreast_initial task old
  | turn reached more ih => exact abreast_turn joined whole reached.good ih more

end Turns

end Run

namespace Parser

variable {p : Parser} {text : Text} {old : Option Tree}

/-- Between two turns the live stacks go abreast.  Whatever is done to a stack leaves it level with
all others that it is done to, and merging, pruning and collapsing keep the stacks abreast; to get
them abreast it takes merging and pruning and no more. -/
theorem stacks_abreast (known : ∀ t ∈ old, t.Arisen ∧ t.root.length = text.size) :
    (∀ tokens r, Run.Reached (p.task text) (p.oldRoot old) tokens r →
      ∃ contents, Frontier.Abreast p.config.maxStacks r.position contents r.live) ∧
    (∀ la s pushed s' contents, Ahead (p.task text) (p.oldRoot old) la →
      la.start.offset ≤ text.size → Run.Handles (p.task text) (p.oldRoot old) la s pushed s' →
      Stands la.start contents s.entries →
      Stands (la.start.behind pushed) (contents ++ Green.contents pushed) s'.entries) ∧
    ∀ allowed place contents live,
      (Frontier.Level place contents live →
        Frontier.Abreast allowed place contents
          (Frontier.prune (Frontier.merge live) allowed)) ∧
      (Frontier.Abreast allowed place contents live →
        Frontier.Abreast allowed place contents (Frontier.merge live) ∧
        Frontier.Abreast allowed place contents (Frontier.prune live allowed) ∧
        Frontier.Abreast allowed place contents (Frontier.collapse live)) := by
  have joined : ∀ root ∈ p.oldRoot old, root.Joined := by
    intro root hroot
    obtain ⟨t, ht, rfl⟩ := exists_of_mem_oldRoot hroot
    exact (known t ht).1.joined
  have whole : ∀ root ∈ p.oldRoot old, root.length = text.size := by
    intro root hroot
    obtain ⟨t, ht, rfl⟩ := exists_of_mem_oldRoot hroot
    exact (known t ht).2
  refine ⟨fun tokens r reached => (reached.abreast joined whole).level, ?_, ?_⟩
  · exact fun la s pushed s' contents ahead inside handles => handles.stands joined ahead inside
  · exact fun allowed place contents live => ⟨fun level => level.settled allowed,
      fun abreast => ⟨abreast.merge, abreast.prune, abreast.collapse⟩⟩

/-- In a second parse of a text the first turn takes all of it over from the old tree. -/
theorem nested_stacks_abreast :
    let p : Parser := ⟨FlatGrammar.nestedLanguage, {}⟩
    let old := (p.parse nestedText none .never).value.tree
    let r := ((Run.initial (p.oldRoot (some old))).turn (p.task nestedText)).run
    r.position.offset = 2 ∧ ∃ contents, Frontier.Abreast 16 r.position contents r.live := by
  intro p old r
  have known : ∀ t ∈ some old, t.Arisen ∧ t.root.length = nestedText.size := by
    intro t ht
    obtain rfl := Option.some.inj ht
    exact ⟨.parse p nestedText (fun t ht => absurd ht (Option.not_mem_none t)) .never,
      by decide +kernel⟩
  have more : (Run.initial (p.oldRoot (some old))).turn (p.task nestedText) = .more r :=
    Flow.eq_more (by decide +kernel)
  exact ⟨by decide +kernel, (stacks_abreast known).1 _ r (.turn .initial more)⟩

end Parser

end Glr
