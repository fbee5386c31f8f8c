import Glr.Parser.Basic
import Glr.Proofs.OldTree
import Glr.Proofs.Work

/-!
# The stacks a parse can build

Whatever order a parse does things in, a stack of it comes about in one of a few ways: by a
reduction, by pushing the token ahead as an extra or in the state it is shifted to, by pushing a
subtree of the old tree, or by a repair.  `Built` lists them, each with all that is known where it
happens.  What holds of every stack of every parse is then an induction over `Built`, and no such
proof has to look at queues, budgets and frontiers again.

The rest of the file shows that the reductions on a token and the repairs lead from stacks that can
be built to stacks that can be built, and that meanwhile the position, the old tree and the live
stacks stay as they are and no text is given up (`Keeps`).
-/

namespace Glr

/-- A token that can be ahead: a leaf that the old tree has at the place, or what is lexed there,
with the terminals of the mode that is recorded or with those of several. -/
inductive Ahead (task : ParseTask) (old : Option Green) : Lookahead → Prop where
  | reused {place : Position} {leaf : Green} (held : ∃ root ∈ old, root.Holds place.offset leaf)
      (isLeaf : leaf.isLeaf = true) (nonempty : 0 < leaf.length)
      (undamaged : leaf.isDamaged = false) (correct : leaf.hasError = false) :
      Ahead task old (Run.reusedLookahead place leaf).value
  | lexed (place : Position) (valid : SymbolSet) (mode : Nat)
      (set : mode = LexMode.union ∨ valid = task.language.validSet mode) :
      Ahead task old
        (Run.lexedLookahead place
          (task.language.nextTokenIn task.text place.offset valid mode)).value

/-- The entries of a stack over the text up to an offset, as a parse can build them. -/
inductive Built (task : ParseTask) (old : Option Green) : Nat → List StackEntry → Prop where
  | start : Built task old 0 []
  | reduce {s : Stack} {la : Lookahead} {t : Symbol} {id : ProductionId} {fragile : Bool}
      {c : Checked Stack} (ahead : Ahead task old la)
      (built : Built task old la.start.offset s.entries)
      (action : .reduce id ∈ task.language.actions s.state t)
      (reduced : s.reduce? task.language id la fragile = some c) :
      Built task old la.start.offset c.value.entries
  | extra {s : Stack} {la : Lookahead} (r : Run) (state : StateId) (fragile : Bool)
      (ahead : Ahead task old la) (built : Built task old la.start.offset s.entries)
      (free : la.token.isError = true ∨ la.token.isEnd = false) :
      Built task old la.stop.offset
        (⟨s.state, (r.makeLeaf la state { NodeFlags.onlyExtra with fragile }).1, la.stop, true⟩ ::
          s.entries)
  | shift {s : Stack} {la : Lookahead} {target : StateId} (r : Run) (state : StateId)
      (fragile : Bool) (ahead : Ahead task old la)
      (built : Built task old la.start.offset s.entries)
      (action : .shift target ∈ task.language.actions s.state la.token.symbol) :
      Built task old la.stop.offset
        (⟨target, (r.makeLeaf la state (NodeFlags.fragileIf fragile)).1, la.stop, false⟩ ::
          s.entries)
  | subtree {s : Stack} {la : Lookahead} {g : Green} {target : StateId}
      (ahead : Ahead task old la) (built : Built task old la.start.offset s.entries)
      (fitting : Run.Fitting task.language old s.state la.start.offset g target) :
      Built task old (la.start.advance g).value.offset
        (⟨target, g, (la.start.advance g).value, false⟩ :: s.entries)
  | missing {s : Stack} {la : Lookahead} {t : Symbol} {target : StateId}
      (ahead : Ahead task old la) (built : Built task old la.start.offset s.entries)
      (action : .shift target ∈ task.language.actions s.state t) :
      Built task old la.start.offset
        (Run.pushMissing task.language s t target la.start).entries
  | wrap {s : Stack} {offset : Nat} {t : Symbol} {allowed : Nat} {c : Checked (Stack × Nat)}
      (built : Built task old offset s.entries)
      (wrapped : Repair.wrap task.language s t allowed = some c) :
      Built task old offset c.value.1.entries
  | skip {s : Stack} {la : Lookahead} (r : Run) (state : StateId) (cost : Nat)
      (ahead : Ahead task old la) (built : Built task old la.start.offset s.entries)
      (notEnd : la.token.isEnd = false) :
      Built task old la.stop.offset
        (Repair.skip s (r.makeLeaf la state NodeFlags.none).1 la.stop cost).value.entries
  | rest {s : Stack} {la : Lookahead} {leaf : Green} (cost : Nat) (ahead : Ahead task old la)
      (built : Built task old la.start.offset s.entries)
      (all : leaf = Repair.errorLeaf
        (task.text.extract (min la.start.offset task.text.size) task.text.size)) :
      Built task old (la.start.advance leaf).value.offset
        (Repair.skip s leaf (la.start.advance leaf).value cost).value.entries

namespace Run

theorem Keeps.inside {r r' : Run} (h : Keeps r r') {old : Option Green}
    (inside : r.reuse.Inside old) : r'.reuse.Inside old := by
  rw [h.reuse]
  exact inside

/-! ## Repairs that consume nothing -/

/-- A stack is reduced by the first action that it has on a terminal. -/
def Drives (task : ParseTask) (la : Lookahead) (t : Symbol) (s s' : Stack) : Prop :=
  ∃ (id : ProductionId) (c : Checked Stack), .reduce id ∈ task.language.actions s.state t ∧
    s.reduce? task.language id la true = some c ∧ s' = c.value

/-- What a stack is repaired to where nothing is consumed: a missing token is pushed once it can be
shifted, or the top is wrapped in an error. -/
inductive Mends (task : ParseTask) (la : Lookahead) (s : Stack) : Stack → Prop where
  | missing {d : Stack} {t : Symbol} {target : StateId}
      (drives : Relation.ReflTransGen (Drives task la t) s d)
      (action : .shift target ∈ task.language.actions d.state t) :
      Mends task la s (pushMissing task.language d t target la.start)
  | wrap {t : Symbol} {allowed : Nat} {c : Checked (Stack × Nat)}
      (wrapped : Repair.wrap task.language s t allowed = some c) : Mends task la s c.value.1

section Mends

variable (task : ParseTask) (la : Lookahead)

theorem driveTo_drives (t : Symbol) (fuel : Nat) {s : Stack} {r : Run} :
    Idles r (driveTo task.language la t fuel s r).2 ∧
      ∀ s' next, (driveTo task.language la t fuel s r).1 = some (s', next) →
        Relation.ReflTransGen (Drives task la t) s s' ∧
          .shift next ∈ task.language.actions s'.state t := by
  fun_induction driveTo task.language la t fuel s r with
  | case1 fuel s r next head =>
    refine ⟨.refl r, fun s' next' same => ?_⟩
    cases same
    exact ⟨.refl, List.mem_of_head? head⟩
  | case2 s r id fuel head reduced r' eq ih =>
    have idles := Idles.reduce (r := r) task.language s id la true
    rw [eq] at idles
    obtain ⟨idles', found⟩ := ih
    refine ⟨idles.trans idles', fun s' next h => ?_⟩
    obtain ⟨drives, action⟩ := found s' next h
    refine ⟨.head ?_ drives, action⟩
    rw [reduce] at eq
    split at eq
    · cases eq
    · next c taken =>
      cases eq
      exact ⟨id, c, List.mem_of_head? head, taken, rfl⟩
  | case3 s r id fuel head r' eq =>
    have idles := Idles.reduce (r := r) task.language s id la true
    rw [eq] at idles
    exact ⟨idles, by simp⟩
  | case4 fuel s r _ _ => exact ⟨.refl r, by simp⟩

theorem insertMissing_mends (s : Stack) :
    ∀ (terminals : List Symbol) {r : Run},
      Idles r (insertMissing task.language la s r terminals).2 ∧
        ∀ s' t, (insertMissing task.language la s r terminals).1 = some (s', t) →
          Mends task la s s' := by
  intro terminals
  induction terminals with
  | nil => exact fun {r} => ⟨.refl r, fun _ _ h => nomatch h⟩
  | cons t ts ih =>
    intro r
    rw [insertMissing]
    split
    · exact ih
    · obtain ⟨idles, driven⟩ :=
        driveTo_drives task la t maxMissingReductions (s := s) (r := r)
      split
      · next reduced next r' eq =>
        rw [eq] at idles driven
        split
        · obtain ⟨drives, action⟩ := driven reduced next rfl
          refine ⟨idles, fun s' t' same => ?_⟩
          cases same
          exact .missing drives action
        · exact ⟨idles.trans (ih (r := r')).1, (ih (r := r')).2⟩
      · next r' eq =>
        rw [eq] at idles
        exact ⟨idles.trans (ih (r := r')).1, (ih (r := r')).2⟩

theorem tryMissing_mends (s : Stack) (r : Run) :
    Keeps r (tryMissing task.language la s r).2 ∧
      ∀ s', (tryMissing task.language la s r).1 = some s' → Mends task la s s' := by
  obtain ⟨idles, inserted⟩ := insertMissing_mends task la s
    ((task.language.stateActions s.state).map (·.1)) (r := r)
  rw [tryMissing]
  split
  · next repaired missing r' eq =>
    rw [eq] at idles inserted
    refine ⟨idles.toKeeps.trans ?_, fun s' same => ?_⟩
    · exact .noteRepair (by simp) _
    · cases same
      exact inserted repaired missing rfl
  · next r' eq =>
    rw [eq] at idles
    exact ⟨idles.toKeeps, fun _ h => nomatch h⟩

theorem tryWrap_mends (s : Stack) (allowed : Nat) (r : Run) :
    Keeps r (tryWrap task.language la s allowed r).2 ∧
      ∀ s', (tryWrap task.language la s allowed r).1 = some s' → Mends task la s s' := by
  rw [tryWrap]
  split
  · next wrapped eq =>
    refine ⟨(Keeps.noting wrapped).trans ?_, fun s' same => ?_⟩
    · exact .noteRepair (by simp) _
    · cases same
      exact .wrap eq
  · exact ⟨.refl r, fun _ h => nomatch h⟩

theorem tryInPlace_mends (s : Stack) (r : Run) :
    Keeps r (tryInPlace task la s r).2 ∧
      ∀ s', (tryInPlace task la s r).1 = some s' → Mends task la s s' := by
  rw [tryInPlace]
  split
  · dsimp only
    have counted : Keeps r { r with recovery.attempts := r.recovery.attempts + 1 } :=
      ⟨rfl, rfl, rfl, fun _ h => Or.inl h⟩
    obtain ⟨keeps, missing⟩ := tryMissing_mends task la s
      { r with recovery.attempts := r.recovery.attempts + 1 }
    split
    · next repaired r' eq =>
      rw [eq] at keeps missing
      exact ⟨counted.trans keeps, missing⟩
    · next r' eq =>
      rw [eq] at keeps
      obtain ⟨keeps', wrapped⟩ := tryWrap_mends task la s
        (if la.token.isEnd then s.depth else task.config.maxRecoveryDepth) r'
      exact ⟨(counted.trans keeps).trans keeps', wrapped⟩
  · exact ⟨.refl r, fun _ h => nomatch h⟩

end Mends

section Token

variable {task : ParseTask} {old : Option Green} {la : Lookahead} (ahead : Ahead task old la)

include ahead

/-! ## Reducing on the token ahead -/

/-- What is known of the stacks that were sorted by what they can do. -/
structure Phase.Sound (task : ParseTask) (old : Option Green) (la : Lookahead) (p : Phase) :
    Prop where
  shifts : ∀ m ∈ p.shifts, Built task old la.start.offset m.1.entries ∧
    .shift m.2 ∈ task.language.actions m.1.state la.token.symbol
  accepted : ∀ s ∈ p.accepted, Built task old la.start.offset s.entries ∧
    .accept ∈ task.language.actions s.state la.token.symbol
  failed : ∀ s ∈ p.failed, Built task old la.start.offset s.entries

theorem built_of_takes {ambiguous : Bool} {s s' : Stack}
    (built : Built task old la.start.offset s.entries) (takes : Takes task la ambiguous s s') :
    Built task old la.start.offset s'.entries := by
  obtain ⟨id, b, c, branches, reduced, rfl⟩ := takes
  rw [← branches.entries] at built
  exact .reduce ahead built branches.mem reduced

omit ahead in
/-- A stack is built as much as the branch of it that takes an action. -/
theorem Phase.From.sound {p : Phase}
    (h : Phase.From task la (fun s => Built task old la.start.offset s.entries) p) :
    Phase.Sound task old la p where
  shifts m hm := by
    obtain ⟨s, built, branches⟩ := h.shifts m hm
    exact ⟨branches.entries ▸ built, branches.mem⟩
  accepted b hb := by
    obtain ⟨s, built, branches⟩ := h.accepted b hb
    exact ⟨branches.entries ▸ built, branches.mem⟩
  failed := h.failed

theorem reduceAll_sound {r : Run}
    (live : ∀ s ∈ r.live, Built task old la.start.offset s.entries) :
    Phase.Sound task old la (r.reduceAll task la).1 ∧
      Keeps { r with live := [] } (r.reduceAll task la).2 :=
  ⟨(reduceAll_from (built_of_takes ahead) live).sound, (reduceAll_idles r).toKeeps⟩

/-- What can be built is repaired to what can be built. -/
theorem built_of_mends {s s' : Stack} (built : Built task old la.start.offset s.entries)
    (mends : Mends task la s s') : Built task old la.start.offset s'.entries := by
  cases mends with
  | wrap wrapped => exact .wrap built wrapped
  | @missing d t target drives action =>
    refine .missing ahead ?_ action
    clear action
    induction drives with
    | refl => exact built
    | tail _ step ih =>
      obtain ⟨id, c, reduces, reduced, rfl⟩ := step
      exact .reduce ahead ih reduces reduced

end Token

end Run

end Glr
