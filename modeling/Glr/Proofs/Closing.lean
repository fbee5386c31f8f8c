import Glr.Proofs.Carried

/-!
# What closes a tree

The reductions at the end of a tree are made once the token behind it calls for them.  Until then
extras may come, and all of it is read in one state, the one before these reductions: tokens that
are set aside there, and then one that closes the tree (`Language.Closing`).  A node heeds its text
if it tells that the text was looked at as far as that token was (`Heeds`).

So an edit behind a node that it does not damage is behind the token that closes the node, and the
same token closes it in the new text (`Language.Tells.heeds_edit`).  What a node does not tell is
how far the text was looked at for the extras in between, and that has to be asked for
(`Green.Clear`).

A parse that takes a tree over is already in the state behind the reductions at its end, and reads
the text behind the tree in that.  If both states see the same there (`Language.Handover`), then
what closes the tree for the one closes it for the other.
-/

namespace Glr

open Green

/-- The place up to which the text was looked at for a token. -/
def Token.reach (t : Token) : Nat := t.span.stop + t.lookahead

namespace Language

variable {l : Language} {text old new : Text} {g : Green} {opened target : StateId}
  {bound x y : Nat}

/-! ## Behind a tree -/

/-- The token that is read in a state at a place. -/
def reads (l : Language) (text : Text) (state : StateId) (x : Nat) : Token :=
  l.nextToken text x (l.lexMode state)

/-- Whether a token is pushed as an extra in a state without more ado: nothing matched it, or it is
an extra that the tables have no other use for. -/
def setsAside (l : Language) (state : StateId) (t : Token) : Bool :=
  t.isError || (!t.isEnd && l.isExtra t.symbol && !l.hasActions state t.symbol)

/-- From one place to another a state reads tokens that it sets aside. -/
inductive Passes (l : Language) (text : Text) (opened : StateId) (x : Nat) : Nat → Prop where
  | here : Passes l text opened x x
  | on {y : Nat} (passes : Passes l text opened x y)
      (aside : l.setsAside opened (l.reads text opened y) = true) :
      Passes l text opened x (l.reads text opened y).span.stop

/-- Behind a tree the state before the reductions at its end sets tokens aside and then reads one
that calls for these reductions.  The text was looked at for that no further than a bound, if that
is in the text. -/
inductive Closing (l : Language) (text : Text) (g : Green) (opened : StateId) (bound : Nat) :
    Nat → Prop where
  | pass {x : Nat} (aside : l.setsAside opened (l.reads text opened x) = true)
      (rest : Closing l text g opened bound (l.reads text opened x).span.stop) :
      Closing l text g opened bound x
  | meet {x : Nat} (taken : l.setsAside opened (l.reads text opened x) = false)
      (closes : g.closes l (l.reads text opened x).symbol ⟨g.parseState, none, false⟩ = true)
      (within : bound < text.size → (l.reads text opened x).reach ≤ bound) :
      Closing l text g opened bound x

/-- Two states see the same behind a place: tokens that are set aside in both, and then one that is
set aside in neither and is one of some symbols. -/
inductive Handover (l : Language) (text : Text) (calls : Symbol → Bool)
    (opened target : StateId) : Nat → Prop where
  | pass {x : Nat} (same : (l.reads text opened x).sight = (l.reads text target x).sight)
      (aside : l.setsAside opened (l.reads text opened x) = true)
      (aside' : l.setsAside target (l.reads text target x) = true)
      (rest : Handover l text calls opened target (l.reads text target x).span.stop) :
      Handover l text calls opened target x
  | meet {x : Nat} (same : (l.reads text opened x).sight = (l.reads text target x).sight)
      (taken : l.setsAside opened (l.reads text opened x) = false)
      (taken' : l.setsAside target (l.reads text target x) = false)
      (called : calls (l.reads text target x).symbol = true) :
      Handover l text calls opened target x

theorem Passes.from_front (passes : l.Passes text opened x y) :
    y = x ∨ l.setsAside opened (l.reads text opened x) = true ∧
      l.Passes text opened (l.reads text opened x).span.stop y := by
  induction passes with
  | here => exact Or.inl rfl
  | on _ aside ih =>
    rcases ih with rfl | ⟨first, rest⟩
    · exact Or.inr ⟨aside, .here⟩
    · exact Or.inr ⟨first, rest.on aside⟩

theorem Passes.trans {z : Nat} (passes : l.Passes text opened x y)
    (rest : l.Passes text opened y z) : l.Passes text opened x z := by
  induction rest with
  | here => exact passes
  | on _ aside ih => exact ih.on aside

/-- What is set aside first may be left out. -/
theorem Passes.cons (passes : l.Passes text opened (l.reads text opened x).span.stop y)
    (aside : l.setsAside opened (l.reads text opened x) = true) : l.Passes text opened x y :=
  Passes.trans (.on .here aside) passes

/-- What closes a tree is behind all that is set aside. -/
theorem Closing.behind (closing : l.Closing text g opened bound x)
    (passes : l.Passes text opened x y) : l.Closing text g opened bound y := by
  induction passes with
  | here => exact closing
  | on _ aside ih =>
    cases ih with
    | pass _ rest => exact rest
    | meet taken =>
      rw [aside] at taken
      cases taken

theorem Closing.before (closing : l.Closing text g opened bound y)
    (passes : l.Passes text opened x y) : l.Closing text g opened bound x := by
  induction passes with
  | here => exact closing
  | on _ aside ih => exact ih (.pass aside closing)

/-- What closes a tree for the state before the reductions at its end does so for the state behind
them, if both see the same. -/
theorem Closing.handover {calls : Symbol → Bool} (closing : l.Closing text g opened bound x)
    (handover : l.Handover text calls opened target x) :
    l.Handover text (fun t => g.closes l t ⟨g.parseState, none, false⟩) opened target x := by
  induction handover with
  | pass same aside aside' rest ih =>
    have stop : (l.reads text opened _).span.stop = (l.reads text target _).span.stop :=
      congrArg (·.span.stop) same
    refine .pass same aside aside' (ih ?_)
    rw [← stop]
    exact closing.behind (.on .here aside)
  | meet same taken taken' called =>
    have symbol : (l.reads text opened _).symbol = (l.reads text target _).symbol :=
      congrArg (·.symbol) same
    refine .meet same taken taken' ?_
    cases closing with
    | pass aside =>
      rw [aside] at taken
      cases taken
    | meet _ closes _ => exact symbol ▸ closes

/-! ### Checks -/

/-- Whether two states see the same behind a place, over a number of tokens at most. -/
def handsOver (l : Language) (text : Text) (calls : Symbol → Bool) (opened target : StateId) :
    Nat → Nat → Bool
  | 0, _ => false
  | fuel + 1, x =>
    let ahead := l.reads text opened x
    let ahead' := l.reads text target x
    decide (ahead.sight = ahead'.sight) &&
      match l.setsAside opened ahead, l.setsAside target ahead' with
      | true, true => l.handsOver text calls opened target fuel ahead'.span.stop
      | false, false => calls ahead'.symbol
      | _, _ => false

theorem Handover.of_handsOver {calls : Symbol → Bool} : ∀ {fuel x : Nat},
    l.handsOver text calls opened target fuel x = true → l.Handover text calls opened target x
  | fuel + 1, x, h => by
    rw [handsOver] at h
    obtain ⟨same, rest⟩ := Bool.and_eq_true_iff.mp h
    have same := of_decide_eq_true same
    split at rest
    · exact .pass same ‹_› ‹_› (of_handsOver rest)
    · exact .meet same ‹_› ‹_› rest
    · cases rest

/-- Whether the text in front of a place decides all that a state sets aside behind another, over a
number of tokens at most. -/
def clears (l : Language) (text : Text) (opened : StateId) (first : Nat) : Nat → Nat → Bool
  | 0, _ => false
  | fuel + 1, x =>
    let ahead := l.reads text opened x
    !l.setsAside opened ahead ||
      (decide (ahead.reach < first) && l.clears text opened first fuel ahead.span.stop)

theorem reach_of_clears {first : Nat} : ∀ {fuel x : Nat},
    l.clears text opened first fuel x = true → ∀ y, l.Passes text opened x y →
      l.setsAside opened (l.reads text opened y) = true →
      (l.reads text opened y).reach < first
  | fuel + 1, x, h, y, passes, aside => by
    rw [clears] at h
    rcases passes.from_front with rfl | ⟨first, rest⟩
    · rw [aside, Bool.not_true, Bool.false_or, Bool.and_eq_true] at h
      exact of_decide_eq_true h.1
    · rw [first, Bool.not_true, Bool.false_or, Bool.and_eq_true] at h
      exact reach_of_clears h.2 y rest aside

/-! ### Another text -/

section Moved

variable {e : TextEdit} (between : e.Between old new) (unaided : l.scanner = none)

theorem stop_reads (opened : StateId) (inside : x ≤ text.size) :
    x ≤ (l.reads text opened x).span.stop ∧ (l.reads text opened x).span.stop ≤ text.size := by
  have placed := l.placed_nextTokenIn text x (l.validSet (l.lexMode opened)) (l.lexMode opened)
  rw [Nat.min_eq_left inside] at placed
  exact ⟨placed.le_stop, placed.stop_le⟩

include between unaided

/-- In front of an edit a state reads what it has read, if that was decided there. -/
theorem reads_before (opened : StateId) (inside : x ≤ old.size)
    (decided : (l.reads old opened x).reach < e.startByte) :
    l.reads new opened x = (l.reads old opened x).moved x x := by
  have := between.size
  have := between.start_le_new
  have := between.old_le_size
  have order : x ≤ (l.reads old opened x).span.stop := (stop_reads opened inside).1
  rw [Token.reach] at decided
  exact nextTokenIn_moved unaided inside (by omega) (between.agree_before decided)

/-- Behind an edit a state reads what it has read. -/
theorem reads_behind (opened : StateId) (behind : e.oldEndByte ≤ x) (inside : x ≤ old.size) :
    l.reads new opened (x - e.oldEndByte + e.newEndByte) =
      (l.reads old opened x).moved x (x - e.oldEndByte + e.newEndByte) := by
  have := between.size
  exact nextTokenIn_moved unaided inside (by omega) (between.agree_behind behind _)

theorem Closing.moved_before (closing : l.Closing old g opened bound x) :
    bound < e.startByte → x ≤ old.size →
      (∀ y, l.Passes old opened x y → l.setsAside opened (l.reads old opened y) = true →
        (l.reads old opened y).reach < e.startByte) → l.Closing new g opened bound x := by
  have size := between.size
  have order := between.start_le_old
  have order' := between.start_le_new
  have fits := between.old_le_size
  induction closing with
  | @pass x aside rest ih =>
    intro before inside clear
    obtain ⟨le_stop, stop_le⟩ := stop_reads (l := l) opened inside
    have same := reads_before between unaided opened inside (clear x .here aside)
    have stop : (l.reads new opened x).span.stop = (l.reads old opened x).span.stop := by
      rw [same]
      show x + ((l.reads old opened x).span.stop - x) = _
      omega
    refine .pass ?_ ?_
    · rw [same]
      exact aside
    · rw [stop]
      exact ih before stop_le fun y passes => clear y (passes.cons aside)
  | @meet x taken closes within =>
    intro before inside clear
    have decided := within (by omega)
    obtain ⟨le_stop, stop_le⟩ := stop_reads (l := l) opened inside
    have same := reads_before between unaided opened inside (by omega)
    have reach : (l.reads new opened x).reach = (l.reads old opened x).reach := by
      rw [same]
      show x + ((l.reads old opened x).span.stop - x) + (l.reads old opened x).lookahead = _
      rw [Nat.add_sub_cancel' le_stop]
      rfl
    refine .meet ?_ ?_ fun _ => reach ▸ decided
    · rw [same]
      exact taken
    · rw [same]
      exact closes

theorem Closing.moved_behind (closing : l.Closing old g opened bound x) :
    e.oldEndByte ≤ x → x ≤ old.size →
      l.Closing new g opened (bound - e.oldEndByte + e.newEndByte)
        (x - e.oldEndByte + e.newEndByte) := by
  have size := between.size
  induction closing with
  | @pass x aside rest ih =>
    intro behind inside
    obtain ⟨le_stop, stop_le⟩ := stop_reads (l := l) opened inside
    have same := reads_behind between unaided opened behind inside
    have stop : (l.reads new opened (x - e.oldEndByte + e.newEndByte)).span.stop =
        (l.reads old opened x).span.stop - e.oldEndByte + e.newEndByte := by
      rw [same]
      show x - e.oldEndByte + e.newEndByte + ((l.reads old opened x).span.stop - x) = _
      omega
    refine .pass ?_ ?_
    · rw [same]
      exact aside
    · rw [stop]
      exact ih (by omega) stop_le
  | @meet x taken closes within =>
    intro behind inside
    obtain ⟨le_stop, stop_le⟩ := stop_reads (l := l) opened inside
    have same := reads_behind between unaided opened behind inside
    have reach : (l.reads new opened (x - e.oldEndByte + e.newEndByte)).reach =
        (l.reads old opened x).reach - e.oldEndByte + e.newEndByte := by
      rw [same]
      show x - e.oldEndByte + e.newEndByte + ((l.reads old opened x).span.stop - x) +
        (l.reads old opened x).lookahead = _
      rw [Token.reach]
      omega
    refine .meet ?_ ?_ fun before => ?_
    · rw [same]
      exact taken
    · rw [same]
      exact closes
    · rw [reach]
      have := within (by omega)
      omega

end Moved

end Language

/-! ## Nodes -/

/-- A node at an offset that is not marked tells that the text was looked at as far as the token was
that closes it. -/
def Heeds (l : Language) (text : Text) (x : Nat) (g : Green) : Prop :=
  g.isMarked = false → g.production.isSome = true →
    ∀ opened ∈ (l.past ⟨g.parseState, none, false⟩ g).opened,
      l.Closing text g opened (x + g.length + g.lookahead) (x + g.length)

/-- Where a node tells that it was decided in front of a place, so was all that is set aside between
it and the token that closes it. -/
def Green.Clear (l : Language) (text : Text) (root : Green) (first : Nat) : Prop :=
  ∀ o n, root.Holds o n → n.production.isSome = true → o + n.length + n.lookahead < first →
    ∀ opened ∈ (l.past ⟨n.parseState, none, false⟩ n).opened,
      ∀ y, l.Passes text opened (o + n.length) y →
        l.setsAside opened (l.reads text opened y) = true →
        (l.reads text opened y).reach < first

/-- Whether all that is set aside behind the nodes was decided in front of a place. -/
def Green.clears (l : Language) (text : Text) (root : Green) (first : Nat) : Bool :=
  (nodesAt 0 root).all fun p =>
    p.2.production.isNone || decide (first ≤ p.1 + p.2.length + p.2.lookahead) ||
      (l.past ⟨p.2.parseState, none, false⟩ p.2).opened.all fun opened =>
        l.clears text opened first (text.size + 1) (p.1 + p.2.length)

theorem Green.Clear.of_clears {l : Language} {text : Text} {root : Green} {first : Nat}
    (h : root.clears l text first = true) : root.Clear l text first := by
  intro o n held inner before opened isOpened y
  have here := List.all_eq_true.mp h _ (mem_nodesAt_iff.mpr held)
  rw [Bool.or_eq_true, Bool.or_eq_true, decide_eq_true_eq] at here
  rcases here with (token | behind) | clears
  · rw [Option.isNone_iff_eq_none] at token
    have token : n.production = none := token
    rw [token] at inner
    cases inner
  · exact absurd before (Nat.not_lt_of_le behind)
  · rw [Option.mem_def.mp isOpened] at clears
    exact Language.reach_of_clears clears y

namespace Language.Tells

variable {l : Language} {old new : Text} {e : TextEdit} {root g n : Green} {o j : Nat}
  (between : e.Between old new) (tells : l.Tells old root) (length : root.length = old.size)
  (right : ∀ b n, root.Holds b n → n.isError = false)
  (clear : root.Clear l old e.startByte) (unaided : l.scanner = none)

include between tells length right clear unaided

/-- What stands in a tree that an edit has not damaged heeds the new text if it did the old one. -/
theorem heeds_edit (heeds : ∀ b n, root.Holds b n → Heeds l old b n)
    (held : (root.edit e).value.Holds o g) (undamaged : g.isDamaged = false)
    (below : g.Holds j n) : Heeds l new (o + j) n := by
  intro unmarked inner opened isOpened
  obtain ⟨m, b, q, i, before, after, inside, rfl, undamaged, moved⟩ :=
    tells.measured.spared e held undamaged
  have order := between.start_le_old
  have order' := between.start_le_new
  have bound := between.old_le_size
  have place := moved order order' (length ▸ bound)
  have reaching := reaching_of_undamaged between tells length before undamaged
  obtain ⟨measured, within⟩ := tells.measured.of_holds before
  have deep := inside.trans below
  have here := before.trans deep
  have ends := (measured.of_holds deep).2
  have closing := heeds _ n here unmarked inner opened isOpened
  rw [TextEdit.value_mapOffset] at place
  rcases TextEdit.damages_eq_false_iff.mp undamaged with behind | decided
  · rw [if_neg (by omega), if_pos (by omega)] at place
    have := closing.moved_behind between unaided (by omega) (by omega)
    rwa [show b + (i + j) + n.length - e.oldEndByte + e.newEndByte = q + i + j + n.length by omega,
      show b + (i + j) + n.length + n.lookahead - e.oldEndByte + e.newEndByte =
        q + i + j + n.length + n.lookahead by omega] at this
  · rw [if_pos (by omega)] at place
    subst place
    -- There is no error around the node, so the tree that was kept tells what the node does.
    have covered := (reaching.of_holds deep).2.resolve_right
      fun ⟨a, wrong, i, outer, isError, _, _⟩ => by
        rw [right _ wrong (before.trans outer)] at isError
        cases isError
    have decided : q + (i + j) + n.length + n.lookahead < e.startByte := by omega
    have := closing.moved_before between unaided decided (by omega)
      (clear _ n here inner decided opened isOpened)
    rwa [← Nat.add_assoc] at this

end Language.Tells

end Glr
