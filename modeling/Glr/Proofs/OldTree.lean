import Glr.Parser.Shift
import Mathlib.Algebra.GroupWithZero.Nat

/-!
# What a cursor finds in an old tree

A parse takes leaves and subtrees over from an old tree, and everything it may believe about them
comes from where they stood there.  `Holds` says that a node stands in a tree at an offset, counted
by the lengths of what is before it, level by level.  A cursor only ever moves among such nodes
(`Inside`), so what it finds at an offset stands at that offset.

Nothing here asks whether the lengths in the tree add up.  The cursor does not check that, and what
can go wrong where they do not is no concern of it.
-/

namespace Glr

namespace Green

/-- The number of bytes in trees side by side. -/
def spread (gs : List Green) : Nat := (gs.map length).sum

@[simp] theorem spread_nil : spread [] = 0 := rfl

@[simp] theorem spread_cons (g : Green) (gs : List Green) :
    spread (g :: gs) = g.length + spread gs := rfl

@[simp] theorem spread_append (gs hs : List Green) :
    spread (gs ++ hs) = spread gs + spread hs := by
  rw [spread, List.map_append, List.sum_append]
  rfl

/-- A node stands in a tree at an offset. -/
inductive Holds (root : Green) : Nat → Green → Prop where
  | root : Holds root 0 root
  | child {start : Nat} {g c : Green} {before after : List Green} (above : Holds root start g)
      (among : g.children = before ++ c :: after) : Holds root (start + spread before) c

section FirstLeaf

variable {root leaf : Green} {start : Nat}

mutual

/-- The first leaf stands where the tree does: all before it is empty. -/
theorem holds_firstLeaf : ∀ (g : Green), root.Holds start g → g.firstLeaf? = some leaf →
    root.Holds start leaf ∧ leaf.isLeaf = true ∧ 0 < leaf.length
  | .mk d cs, held, found => by
    rw [firstLeaf?] at found
    split at found
    · cases found
    · next nonempty =>
      split at found
      · next noChildren =>
        cases found
        exact ⟨held, noChildren, Nat.pos_of_ne_zero nonempty⟩
      · exact holds_firstLeafIn cs [] held rfl rfl found

theorem holds_firstLeafIn : ∀ (gs before : List Green) {g : Green},
    root.Holds start g → g.children = before ++ gs → spread before = 0 →
      firstLeafIn? gs = some leaf →
        root.Holds start leaf ∧ leaf.isLeaf = true ∧ 0 < leaf.length
  | [], _, _, _, _, _, found => by
    rw [firstLeafIn?] at found
    cases found
  | g :: gs, before, parent, held, among, empty, found => by
    rw [firstLeafIn?] at found
    split at found
    · refine holds_firstLeaf g ?_ found
      have := Holds.child held among
      rwa [empty, Nat.add_zero] at this
    · next none =>
      refine holds_firstLeafIn gs (before ++ [g]) held ?_ ?_ found
      · rw [among, List.append_assoc, List.singleton_append]
      · simp only [spread_append, spread_cons, spread_nil, empty]
        omega

end

end FirstLeaf

end Green

namespace ReuseCursor

/-- All that is ahead of a cursor stands in the old tree. -/
def Inside (old : Option Green) (c : ReuseCursor) : Prop :=
  ∀ p ∈ c.ahead, ∃ root ∈ old, root.Holds p.start p.green

variable {old : Option Green} {c : ReuseCursor}

theorem inside_exhausted : Inside old exhausted := fun _ h => absurd h List.not_mem_nil

theorem inside_ofTree (root : Green) : Inside (some root) (ofTree root) := by
  intro p hp
  rw [List.mem_singleton.mp hp]
  exact ⟨root, rfl, .root⟩

theorem holds_of_mem_place {root g : Green} {start : Nat} (held : root.Holds start g) :
    ∀ (gs before : List Green), g.children = before ++ gs →
      ∀ p ∈ place (start + Green.spread before) gs, root.Holds p.start p.green
  | [], _, _, p, hp => absurd hp List.not_mem_nil
  | c :: cs, before, among, p, hp => by
    rcases List.mem_cons.mp hp with rfl | hp
    · exact .child held among
    · refine holds_of_mem_place held cs (before ++ [c]) ?_ p ?_
      · rw [among, List.append_assoc, List.singleton_append]
      · simpa [Nat.add_assoc] using hp

theorem holds_of_mem_opened {root : Green} {p q : Pending} (held : root.Holds p.start p.green)
    (hq : q ∈ opened p) : root.Holds q.start q.green :=
  holds_of_mem_place held p.green.children [] rfl q hq

theorem inside_seekIn (offset : Nat) (ps : List Pending) (h : Inside old ⟨ps⟩) :
    Inside old ⟨seekIn offset ps⟩ := by
  fun_induction seekIn offset ps with
  | case1 => exact h
  | case2 p rest _ ih => exact ih fun q hq => h q (List.mem_cons_of_mem p hq)
  | case3 p rest _ _ ih =>
    refine ih fun q hq => ?_
    rcases List.mem_append.mp hq with hq | hq
    · obtain ⟨root, hroot, held⟩ := h p List.mem_cons_self
      exact ⟨root, hroot, holds_of_mem_opened held hq⟩
    · exact h q (List.mem_cons_of_mem p hq)
  | case4 => exact h

theorem inside_seek (offset : Nat) (h : Inside old c) : Inside old (c.seek offset).2 := by
  have := inside_seekIn offset c.ahead h
  rw [seek]
  split
  · exact this
  · exact this

/-- What is found at an offset stands there. -/
theorem holds_of_seek {offset : Nat} {g : Green} (h : Inside old c)
    (found : (c.seek offset).1 = some g) : ∃ root ∈ old, root.Holds offset g := by
  have inside := inside_seekIn offset c.ahead h
  rw [seek] at found
  split at found
  · next p _ eq =>
    split at found
    · next here =>
      cases found
      obtain ⟨root, hroot, held⟩ := inside p (by rw [eq]; exact List.mem_cons_self)
      exact ⟨root, hroot, here ▸ held⟩
    · cases found
  · cases found

theorem inside_descend (h : Inside old c) : Inside old c.descend := by
  rw [descend]
  split
  · exact h
  · next p rest eq =>
    intro q hq
    rcases List.mem_append.mp hq with hq | hq
    · obtain ⟨root, hroot, held⟩ := h p (by rw [eq]; exact List.mem_cons_self)
      exact ⟨root, hroot, holds_of_mem_opened held hq⟩
    · exact h q (by rw [eq]; exact List.mem_cons_of_mem p hq)

end ReuseCursor

namespace Run

/-- A subtree of the old tree, as it may be pushed in a state at an offset. -/
structure Fitting (l : Language) (old : Option Green) (state : StateId) (offset : Nat) (g : Green)
    (target : StateId) : Prop where
  held : ∃ root ∈ old, root.Holds offset g
  inner : g.isLeaf = false
  reusable : isReusable state g = true
  goto : l.goto? state g.symbol = some target

section Fitting

variable {l : Language} {old : Option Green} {state target : StateId} {offset : Nat} {g : Green}

theorem Fitting.correct (fitting : Fitting l old state offset g target) : g.hasError = false := by
  have reusable := fitting.reusable
  simp only [isReusable, Bool.and_eq_true, Bool.not_eq_true'] at reusable
  exact reusable.1.1.1.2

theorem Fitting.undamaged (fitting : Fitting l old state offset g target) :
    g.isDamaged = false := by
  have reusable := fitting.reusable
  simp only [isReusable, Bool.and_eq_true, Bool.not_eq_true'] at reusable
  exact reusable.1.1.1.1

theorem Fitting.sturdy (fitting : Fitting l old state offset g target) : g.isFragile = false := by
  have reusable := fitting.reusable
  simp only [isReusable, Bool.and_eq_true, Bool.not_eq_true'] at reusable
  exact reusable.1.1.2

theorem Fitting.parseState (fitting : Fitting l old state offset g target) :
    g.parseState = state := by
  have reusable := fitting.reusable
  simp only [isReusable, Bool.and_eq_true, beq_iff_eq] at reusable
  exact reusable.1.2

end Fitting

theorem reusableNode_fitting {old : Option Green} (l : Language) (state : StateId) (offset : Nat)
    {cursor : ReuseCursor} (h : cursor.Inside old) :
    (reusableNode l state offset cursor).2.Inside old ∧
      ∀ g target, (reusableNode l state offset cursor).1 = some (g, target) →
        Fitting l old state offset g target := by
  fun_induction reusableNode l state offset cursor with
  | case1 cursor c' seek =>
    refine ⟨?_, fun _ _ found => nomatch found⟩
    have := ReuseCursor.inside_seek offset h
    rwa [seek] at this
  | case2 cursor g c' seek leaf =>
    refine ⟨?_, fun _ _ found => nomatch found⟩
    have := ReuseCursor.inside_seek offset h
    rwa [seek] at this
  | case3 cursor g c' seek leaf target found =>
    have inside := ReuseCursor.inside_seek offset h
    rw [seek] at inside
    refine ⟨inside, fun g' target' same => ?_⟩
    cases same
    have held := ReuseCursor.holds_of_seek h (by rw [seek])
    split at found
    · next reusable => exact ⟨held, Bool.eq_false_iff.mpr leaf, reusable, found⟩
    · cases found
  | case4 cursor g c' seek leaf _ ih =>
    refine ih (ReuseCursor.inside_descend ?_)
    have := ReuseCursor.inside_seek offset h
    rwa [seek] at this

end Run

end Glr
