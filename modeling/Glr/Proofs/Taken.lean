import Glr.Proofs.Alike
import Glr.Proofs.Carried
import Glr.Proofs.Vouching

/-!
# What is taken over for the token ahead

A leaf of an old tree that tells of the text is taken over for the token ahead just where the lexer
would read that token, and the leaf that is made of it has the gist of the leaf that would be made
of what is read (`Run.lookahead_reads`).  For that a leaf has to be a token: an empty node is a leaf
too, and may note a precedence, but it has no text (`Green.Plain`).
-/

namespace Glr

open Green

namespace Green

/-! ## Leaves -/

mutual

/-- No two leaves with text start at one place. -/
theorem Measured.eq_of_holds {m n : Green} (leaf : m.children = []) (leaf' : n.children = [])
    (some : 0 < m.length) (some' : 0 < n.length) : ∀ {g : Green} {i j : Nat}, g.Measured →
      g.Holds i m → g.Holds j n → i = j → m = n
  | .mk d cs, i, j, measured, held, held', same => by
    rcases held.cases_root with ⟨-, rfl⟩ | held
    · rcases held'.cases_root with ⟨-, rfl⟩ | held'
      · rfl
      · rw [leaf] at held'
        cases held'
    · rcases held'.cases_root with ⟨-, rfl⟩ | held'
      · rw [leaf'] at held
        cases held
      · exact Measured.eq_of_holdsIn leaf leaf' some some' (fun g hg => measured.of_mem g hg) held
          held' same

theorem Measured.eq_of_holdsIn {m n : Green} (leaf : m.children = []) (leaf' : n.children = [])
    (some : 0 < m.length) (some' : 0 < n.length) : ∀ {gs : List Green} {i j : Nat},
      (∀ g ∈ gs, g.Measured) → HoldsIn gs i m → HoldsIn gs j n → i = j → m = n
  | [], _, _, _, held, _, _ => nomatch held
  | g :: gs, i, j, measured, held, held', same => by
    obtain ⟨own, rest⟩ := List.forall_mem_cons.mp measured
    cases held with
    | here held =>
      cases held' with
      | here held' => exact Measured.eq_of_holds leaf leaf' some some' own held held' same
      | there held' =>
        have := (own.of_holds held).2
        omega
    | there held =>
      cases held' with
      | here held' =>
        have := (own.of_holds held').2
        omega
      | there held' =>
        exact Measured.eq_of_holdsIn leaf leaf' some some' rest held held' (by omega)

end

/-- A leaf with text that no edit has touched is a token, and notes no precedence. -/
def Plain (g : Green) : Prop :=
  ∀ o leaf, g.Holds o leaf → leaf.children = [] → 0 < leaf.length → leaf.isDamaged = false →
    leaf.production = none ∧ leaf.dynamicPrecedence = 0

theorem hereditary_plain : Hereditary Plain where
  down {g} plain c hc := by
    obtain ⟨before, after, among⟩ := List.append_of_mem hc
    intro o leaf held
    have down : g.Holds (0 + spread before) c := Holds.root.child among
    exact plain _ leaf (down.trans held)
  up {g} plain length _ := by
    intro o leaf held leafless some
    rcases held.cases_root with ⟨-, rfl⟩ | held
    · rw [length, leafless] at some
      cases some
    · obtain ⟨before, c, after, i, among, held, -⟩ := held.exists
      exact plain c (by simp [among]) i leaf held leafless some

theorem Plain.of_leaf {g : Green} (leaf : g.children = [])
    (own : 0 < g.length → g.isDamaged = false → g.production = none ∧ g.dynamicPrecedence = 0) :
    g.Plain := by
  intro o n held _ some undamaged
  rcases held.cases_root with ⟨-, rfl⟩ | held
  · exact own some undamaged
  · rw [leaf] at held
    cases held

/-- An edit marks every leaf that it touches. -/
theorem Plain.edit {g : Green} (plain : g.Plain) (e : TextEdit) : (g.edit e).value.Plain := by
  refine hereditary_editAt _ hereditary_plain (fun g length extent leaf => ?_) g false 0 _ plain
  refine .of_leaf leaf fun _ undamaged => ?_
  rw [isDamaged, resized] at undamaged
  have damaged : (g.flags.damaged || true) = false := undamaged
  rw [Bool.or_true] at damaged
  cases damaged

end Green

theorem Tree.Obtained.plain {G : Grammar} {t : Tree} (obtained : t.Obtained G) : t.root.Plain := by
  induction obtained with
  | @parse p compiled text old before interrupts ih =>
    have ending := Run.ending_outcome (p.task text) interrupts (p.oldRoot old)
    have known : ∀ root ∈ p.oldRoot old, root.Plain := by
      intro root hroot
      obtain ⟨t, ht, rfl⟩ := Parser.exists_of_mem_oldRoot hroot
      exact ih t ht
    rw [Parser.tree_parse]
    generalize Run.outcome (p.task text) interrupts (p.oldRoot old) = outcome at ending ⊢
    refine hereditary_of_ending hereditary_plain (fun text => .of_leaf rfl fun _ _ => ⟨rfl, rfl⟩)
      (fun la r state flags ahead => ?_) known ending
    refine .of_leaf (ahead.leaf_spec r state flags).1 fun some undamaged => ?_
    cases ahead with
    | @reused place leaf held isLeaf nonempty sound correct =>
      obtain ⟨root, hroot, held⟩ := held
      obtain ⟨token, level⟩ :=
        known root hroot _ leaf held (List.isEmpty_iff.mp isLeaf) nonempty sound
      rw [Run.makeLeaf]
      dsimp only [Run.reusedLookahead, Checked.value_bind, Checked.value_pure]
      split
      · exact ⟨(production_withFlags ..).trans token, (dynamicPrecedence_withFlags ..).trans level⟩
      · exact ⟨rfl, rfl⟩
    | lexed place valid mode => exact ⟨rfl, rfl⟩
  | edit _ e ih => exact ih.edit e

/-- A token among the leaves that is taken over with flags. -/
theorem Green.gist_withFlags_token {leaf : Green} {flags : NodeFlags}
    (token : leaf.production = none) (level : leaf.dynamicPrecedence = 0)
    (leafless : leaf.children = []) (right : leaf.isError = false)
    (bare : leaf.flags = { NodeFlags.none with extra := flags.extra })
    (present : flags.missing = false) :
    (leaf.withFlags flags).gist = (leaf.asToken flags).gist := by
  have union : leaf.flags.union flags =
      { flags with hasError := flags.hasError || (leaf.isError || flags.missing) } := by
    rw [bare, right, present]
    simp [NodeFlags.union, NodeFlags.none, present]
  rw [gist_withFlags, union, gist_eq leaf, leafless, token, level]
  rfl

/-- The leaf that is made of a token that was taken over has the gist of one that is made of what is
read. -/
theorem Lookahead.alike_of_reused {place : Position} {leaf : Green} {t : Token}
    (reads : t = leaf.token place.offset) (token : leaf.production = none)
    (level : leaf.dynamicPrecedence = 0) (leafless : leaf.children = [])
    (right : leaf.isError = false)
    (bare : leaf.flags = { NodeFlags.none with extra := leaf.isExtra }) :
    (Run.reusedLookahead place leaf).value.Alike (Run.lexedLookahead place t).value := by
  subst reads
  refine ⟨rfl, rfl, rfl, rfl, rfl, fun r r' state state' flags present => ?_⟩
  have length : place.offset + leaf.length - place.offset = leaf.length := Nat.add_sub_cancel_left ..
  have fresh : ∀ state mode, (Green.leaf ⟨leaf.symbol, place.offset + leaf.length - place.offset,
      leaf.extent, leaf.lookahead, state, mode, flags⟩).gist = (leaf.asToken flags).gist := by
    intro state mode
    rw [length, gist_leaf]
    rfl
  refine Eq.trans ?_ (fresh state' leaf.lexMode).symm
  rw [Run.makeLeaf]
  dsimp only [Run.reusedLookahead, Checked.value_bind, Checked.value_pure]
  split
  · next same =>
    rw [eq_of_beq same] at bare
    exact gist_withFlags_token token level leafless right bare present
  · exact fresh state leaf.lexMode

/-- What is known of an edited tree that a parse goes by. -/
structure Legacy (task : ParseTask) (root : Green) : Prop where
  fits : Green.Fits task.text (some root)
  recalls : task.language.Recalls task.text (some root)
  vouches : ∀ o n, root.Holds o n → n.isDamaged = false →
    Vouches task.language task.text o n
  plain : root.Plain
  leaves : ∀ o n, root.Holds o n → n.production = none → n.isError = true ∨ n.children = []
  wrong : ∀ o n, root.Holds o n → n.isError = true ∨ n.isMissing = true → n.hasError = true
  modes : ∀ row ∈ task.language.tables.states,
    row.lexMode ≠ LexMode.recovery ∧ row.lexMode ≠ LexMode.union

namespace Legacy

variable {task : ParseTask} {root leaf : Green} {place : Position}
  (legacy : Legacy task root) (held : root.Holds place.offset leaf)
  (reusable : task.language.Reusable leaf)

include legacy held reusable

/-- A leaf that can be taken over is read again. -/
theorem reads : task.language.nextToken task.text place.offset leaf.lexMode =
    leaf.token place.offset := by
  obtain ⟨row, hrow, same⟩ := reusable.mode
  obtain ⟨noRecovery, noUnion⟩ := legacy.modes row hrow
  obtain ⟨reads, -⟩ := legacy.recalls root rfl _ _ held reusable.undamaged reusable.correct
  have token := (Holds.root : leaf.Holds 0 leaf).mem_tokensAt reusable.isLeaf reusable.nonempty
    place.offset
  exact reads _ token reusable.correct (same ▸ noRecovery) (same ▸ noUnion)

/-- A leaf that can be taken over is a token with no flag but that of an extra. -/
theorem token : leaf.production = none ∧ leaf.dynamicPrecedence = 0 ∧ leaf.isError = false ∧
    leaf.flags = { NodeFlags.none with extra := leaf.isExtra } := by
  have correct := reusable.correct
  have present (wrong : leaf.isError = true ∨ leaf.isMissing = true) : False := by
    rw [legacy.wrong _ _ held wrong] at correct
    cases correct
  obtain ⟨token, level⟩ := legacy.plain _ _ held (List.isEmpty_iff.mp reusable.isLeaf)
    reusable.nonempty reusable.undamaged
  refine ⟨token, level, Bool.eq_false_iff.mpr fun wrong => present (Or.inl wrong), ?_⟩
  have missing : leaf.flags.missing = false :=
    Bool.eq_false_iff.mpr fun wrong => present (Or.inr wrong)
  have fragile : leaf.flags.fragile = false := reusable.solid
  have damaged : leaf.flags.damaged = false := reusable.undamaged
  have hasError : leaf.flags.hasError = false := correct
  rw [isExtra]
  generalize leaf.flags = flags at missing fragile damaged hasError ⊢
  obtain ⟨extra, _, _, _, _⟩ := flags
  subst missing fragile damaged hasError
  rfl

omit held reusable

variable {state target : StateId} {o : Nat} {g : Green}
  (fitting : Run.Fitting task.language (some root) state o g target)

include fitting

/-- A subtree that can be taken over has a production, and can be made again by itself. -/
theorem retraces : g.production.isSome = true ∧
    Retraces task.language task.text (fun _ => False) ⟨g.parseState, none, false⟩ o [g] := by
  obtain ⟨_, hroot, held⟩ := fitting.held
  obtain rfl := Option.mem_some_iff.mp hroot
  have inner : g.production.isSome = true := by
    cases production : g.production with
    | some id => rfl
    | none =>
      rcases legacy.leaves o g held production with wrong | leaf
      · have := legacy.wrong o g held (Or.inl wrong)
        rw [fitting.correct] at this
        cases this
      · have := fitting.inner
        rw [isLeaf, leaf] at this
        cases this
  refine ⟨inner, legacy.vouches o g held fitting.undamaged ?_ inner⟩
  rw [isMarked, fitting.correct, fitting.sturdy, Bool.or_false]

omit legacy in
/-- A subtree that can be taken over starts with a token. -/
theorem starts : ∃ leaf, g.firstLeaf? = some leaf ∧ firstLeafIn? [g] = some leaf ∧
    leaf.isExtra = false := by
  have usable := fitting.reusable
  rw [Run.isReusable, Bool.and_eq_true] at usable
  have usable := usable.2
  split at usable
  · next leaf found =>
    have some : g.length > 0 := by
      obtain ⟨d, cs⟩ := g
      rw [firstLeaf?] at found
      split at found
      · cases found
      · next nonempty => exact Nat.pos_of_ne_zero nonempty
    refine ⟨leaf, found, ?_, Bool.not_eq_true' _ ▸ usable⟩
    rw [firstLeafIn?, if_pos some, found]
  · cases usable

theorem first?_isSome : g.first?.isSome = true := by
  obtain ⟨-, alone⟩ := legacy.retraces fitting
  obtain ⟨leaf, -, first, plain⟩ := starts fitting
  have found := alone.first.2 leaf first plain
  rw [firstIn?_cons, firstIn?_nil, Option.or_none] at found
  exact found ▸ rfl

/-- The token ahead is the first of a subtree that can be taken over. -/
theorem first (held : root.Holds o leaf) (reusable : task.language.Reusable leaf) :
    firstLeafIn? [g] = some leaf ∧ leaf.isExtra = false := by
  obtain ⟨leaf', found, first, plain⟩ := starts fitting
  obtain ⟨_, hroot, here⟩ := fitting.held
  obtain rfl := Option.mem_some_iff.mp hroot
  obtain ⟨held', isLeaf, nonempty⟩ := holds_firstLeaf g here found
  obtain rfl := Measured.eq_of_holds (List.isEmpty_iff.mp isLeaf)
    (List.isEmpty_iff.mp reusable.isLeaf) nonempty reusable.nonempty (legacy.fits _ rfl).1 held'
    held rfl
  exact ⟨first, plain⟩

/-- A subtree that starts with the token ahead can be made again where that token can be shifted,
and all that is asked of the state below the reductions before is that it reads the same token. -/
theorem again {f : Front} {next : StateId} (held : root.Holds o leaf)
    (reusable : task.language.Reusable leaf) (closed : f.closed = state)
    (shift : task.language.actions state leaf.symbol = [.shift next])
    (sees : ∀ opened ∈ f.opened, task.language.Sees task.text opened o leaf) :
    firstIn? [g] = some leaf.symbol ∧
      task.language.past f g = task.language.past ⟨g.parseState, none, false⟩ g ∧
      Retraces task.language task.text
        (fun t => g.closes task.language t ⟨g.parseState, none, false⟩) f o [g] := by
  obtain ⟨inner, alone⟩ := legacy.retraces fitting
  obtain ⟨first, plain⟩ := legacy.first fitting held reusable
  have state_eq := fitting.parseState
  have ends := alone.close (Q := fun t => g.closes task.language t ⟨g.parseState, none, false⟩)
    fun t ht => by
      rw [closesIn, closesIn, firstIn?_nil, Option.isSome_none, Bool.false_or, Bool.and_true]
      exact ht
  have calls : firstIn? [g] = some leaf.symbol := ends.first.2 leaf first plain
  obtain ⟨remade, past⟩ := ends.opening (t := leaf.symbol) (n := next)
    (List.cons_ne_nil _ _) (by rw [Next, calls]) (by rw [state_eq]; exact shift)
    (closed.trans state_eq.symm) fun leaf' found => by
      obtain rfl := Option.some.inj (first.symm.trans found)
      exact ⟨plain, sees⟩
  rw [pastAll_cons, pastAll_nil, pastAll_cons, pastAll_nil] at past
  exact ⟨calls, past, remade.weaken (.refl f) fun t ht => Or.inr ht⟩

end Legacy

namespace Run

variable {task : ParseTask} {root : Green} {r : Run} {tokens : List Lookahead}

/-- The token ahead is read, or is that of a leaf that is taken over. -/
theorem lookahead_cases (inside : r.reuse.Inside (some root))
    (known : ∀ s ∈ r.live, s.state < task.language.tables.states.size) :
    (r.lookahead task).1 = lexed task r.live r.position ∧
      (r.lookahead task).1.reused = none ∨
    ∃ s leaf, r.live = [s] ∧ task.language.Reusable leaf ∧
      leaf.lexMode = task.language.lexMode s.state ∧ root.Holds r.position.offset leaf ∧
      (r.lookahead task).1 = (reusedLookahead r.position leaf).value := by
  have reusable : ∀ leaf, (r.reusableLeaf task.language).1 = some leaf →
      task.language.Reusable leaf := fun _ => Language.reusable_of_found inside known
  obtain ⟨-, same, found⟩ := reusableLeaf_spec (l := task.language) inside
  have single : ∀ leaf, (r.reusableLeaf task.language).1 = some leaf →
      ∃ s, r.live = [s] ∧ leaf.lexMode = task.language.lexMode s.state := by
    intro leaf taken
    rw [reusableLeaf] at taken
    split at taken
    · next s single =>
      have usable := (Option.filter_eq_some_iff.mp taken).2
      simp only [Bool.and_eq_true, beq_iff_eq] at usable
      exact ⟨s, single, usable.2⟩
    · cases taken
  rw [lookahead]
  generalize r.reusableLeaf task.language = result at same found single reusable ⊢
  obtain ⟨_ | leaf, r'⟩ := result
  · have same : r' = { r with reuse := r'.reuse } := same
    rw [same]
    exact Or.inl ⟨rfl, rfl⟩
  · have same : r' = { r with reuse := r'.reuse } := same
    obtain ⟨s, single, mode⟩ := single leaf rfl
    obtain ⟨⟨_, hroot, held⟩, -⟩ := found leaf rfl
    obtain rfl := Option.mem_some_iff.mp hroot
    refine Or.inr ⟨s, leaf, single, reusable leaf rfl, mode, held, ?_⟩
    rw [same]

/-- It makes no difference in which state a leaf is made of a token that is read. -/
theorem lexed_alike (task : ParseTask) (live : List Stack) (place : Position) :
    (lexed task live place).Alike (lexed task live place) :=
  ⟨rfl, rfl, rfl, rfl, rfl, fun _ _ _ _ _ _ => (gist_leaf _).trans (gist_leaf _).symm⟩

/-- However a parse comes by the token ahead, it is the one that is read there. -/
theorem lookahead_reads (legacy : Legacy task root) (inside : r.reuse.Inside (some root))
    (known : ∀ s ∈ r.live, s.state < task.language.tables.states.size) :
    (r.lookahead task).1.token = (lexed task r.live r.position).token ∧
      (r.lookahead task).1.Alike (lexed task r.live r.position) := by
  rcases lookahead_cases inside known with ⟨read, -⟩ |
    ⟨s, leaf, single, reusable, mode, held, taken⟩
  · rw [read]
    exact ⟨rfl, lexed_alike task r.live r.position⟩
  · obtain ⟨token, level, right, bare⟩ := legacy.token held reusable
    have reads := legacy.reads held reusable
    rw [mode] at reads
    rw [taken, single]
    exact ⟨reads.symm, Lookahead.alike_of_reused reads token level
      (List.isEmpty_iff.mp reusable.isLeaf) right bare⟩

end Run

end Glr
