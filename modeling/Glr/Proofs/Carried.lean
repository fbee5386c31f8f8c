import Glr.Proofs.Faults
import Glr.Proofs.Reusable
import Glr.Proofs.Vetted

/-!
# What an edit carries along

A tree that tells of its text tells of the next one too, as far as an edit has left it alone: the
tokens in what is not damaged are read in the new text just as they were in the old one, whatever
the mode (`Language.Tells.recalls_edit`).  So what the automaton could make again from the old text
it can make again from the new one (`Language.Tells.retraces_edit`).

Both ask for one thing of the errors in the tree.  An error does not tell how far the text was
looked at for what is inside of it, so an edit behind it may have to do with that and not be noticed
(`Green.Sealed`).
-/

namespace Glr

open Green

/-- Every error that ends before a place has in front of that place all that was looked at for the
leaves inside of it. -/
def Green.Sealed (root : Green) (first : Nat) : Prop :=
  ∀ o e, root.Holds o e → e.isError = true → o + e.length < first →
    ∀ i leaf, e.Holds i leaf → leaf.isLeaf = true →
      o + i + leaf.length + leaf.lookahead < first

theorem Green.sealed_iff {root : Green} {first : Nat} : root.Sealed first ↔
    ∀ p ∈ nodesAt 0 root, p.2.isError = true → p.1 + p.2.length < first →
      ∀ q ∈ nodesAt 0 p.2, q.2.isLeaf = true →
        p.1 + q.1 + q.2.length + q.2.lookahead < first :=
  ⟨fun closed _ hp wrong before _ hq => closed _ _ (mem_nodesAt_iff.mp hp) wrong before _ _
    (mem_nodesAt_iff.mp hq), fun closed _ _ held wrong before _ _ below => closed _
    (mem_nodesAt_iff.mpr held) wrong before _ (mem_nodesAt_iff.mpr below)⟩

instance (root : Green) (first : Nat) : Decidable (root.Sealed first) :=
  decidable_of_iff' _ Green.sealed_iff

theorem Green.Sealed.errorsReach {root leaf : Green} {first o : Nat} (closed : root.Sealed first)
    (isLeaf : leaf.isLeaf = true) : root.ErrorsReach first o leaf := by
  rintro a i e held wrong below rfl ends
  exact closed a e held wrong ends i leaf below isLeaf

/-! ## Trees without errors -/

namespace Green

section Edit

variable (d : DocumentEdit)

mutual

theorem hasError_editAt : ∀ (g : Green) (appended : Bool) (start : Nat) (position : Point),
    (∀ o n, g.Holds o n → n.hasError = false) →
      (editAt d appended start position g).value.1.hasError = false
  | .mk data cs, appended, start, position, right => by
    have own : data.flags.hasError = false := right 0 _ .root
    rw [editAt, Checked.value_bind]
    split
    · exact own
    · split
      · exact (Bool.or_false _).trans own
      · have below := hasError_editChildren cs appended start position fun o n held =>
          right o n (HoldsIn.holds (g := mk data cs) held)
        show (Green.withChildren (mk data cs) (editChildren d appended start position cs).value.1
          NodeFlags.onlyDamaged).value.hasError = false
        rw [hasError_withChildren, Bool.or_eq_false_iff, Bool.or_eq_false_iff]
        exact ⟨⟨rfl, own⟩, List.any_eq_false.mpr fun c hc => Bool.eq_false_iff.mp (below c hc)⟩

theorem hasError_editChildren : ∀ (gs : List Green) (appended : Bool) (start : Nat)
    (position : Point), (∀ o n, HoldsIn gs o n → n.hasError = false) →
      ∀ g ∈ (editChildren d appended start position gs).value.1, g.hasError = false
  | [], _, _, _, _ => by
    rw [editChildren]
    exact fun _ hg => absurd hg List.not_mem_nil
  | g :: gs, appended, start, position, right => by
    rw [editChildren]
    exact List.forall_mem_cons.mpr
      ⟨hasError_editAt g appended start position fun o n held => right o n (.here held),
        hasError_editChildren gs _ _ _ fun o n held => right _ n held.there⟩

end

end Edit

variable {g : FlatGrammar} {root : Green}

theorem Rooted.right (rooted : root.Rooted g) (right : root.hasError = false) {o : Nat} {n : Green}
    (held : root.Holds o n) : n.hasError = false := by
  rw [Bool.eq_false_iff]
  intro wrong
  rw [rooted.hasError_of_holds held wrong] at right
  cases right

theorem Rooted.isError_eq_false (rooted : root.Rooted g) (right : root.hasError = false) {o : Nat}
    {n : Green} (held : root.Holds o n) : n.isError = false := by
  rw [Bool.eq_false_iff]
  intro wrong
  have := (rooted.of_holds held).1.shaped.wrong (Or.inl wrong)
  rw [rooted.right right held] at this
  cases this

/-- An edit makes no error. -/
theorem Rooted.hasError_edit (rooted : root.Rooted g) (right : root.hasError = false)
    (e : TextEdit) : (root.edit e).value.hasError = false :=
  hasError_editAt _ root false 0 Point.zero fun _ _ held => rooted.right right held

/-- Where there is no error, all errors tell what they should. -/
theorem Rooted.sealed (rooted : root.Rooted g) (right : root.hasError = false) (first : Nat) :
    root.Sealed first := by
  intro o e held wrong
  rw [rooted.isError_eq_false right held] at wrong
  cases wrong

end Green

namespace Language

variable {l : Language} {old new : Text} {x x' : Nat} {mode : Nat} {leaf : Green}

/-- A token is seen again where all that was looked at for it is the same. -/
theorem sight_moved (unaided : l.scanner = none) (inside : x ≤ old.size) (inside' : x' ≤ new.size)
    (agree : Text.Agree old x new x' (x + leaf.length + leaf.lookahead + 1))
    (seen : (l.nextToken old x mode).sight = (leaf.token x).sight) :
    (l.nextToken new x' mode).sight = (leaf.token x').sight := by
  have stop : (l.nextToken old x mode).span.stop = x + leaf.length :=
    congrArg (fun t => t.span.stop) seen
  have looked : (l.nextToken old x mode).lookahead = leaf.lookahead :=
    congrArg (fun t => t.lookahead) seen
  have moved : l.nextToken new x' mode = (l.nextToken old x mode).moved x x' := by
    refine nextTokenIn_moved unaided inside inside' ?_
    rw [← stop, ← looked] at agree
    exact agree
  have sight : ∀ t : Token, (t.moved x x').sight = t.sight.moved x x' := fun _ => rfl
  rw [moved, sight, seen, ← sight, token_moved]

namespace Tells

variable {e : TextEdit} {root n : Green} {o : Nat} (between : e.Between old new)
  (tells : l.Tells old root) (length : root.length = old.size)
  (closed : (root.edit e).value.Sealed e.startByte) (unaided : l.scanner = none)

include between tells length closed unaided

/-- What is not damaged after an edit tells of the new text. -/
theorem recalls_edit : l.Recalls new (some (root.edit e).value) := by
  intro _ hroot o n held undamaged _
  obtain rfl := Option.mem_some_iff.mp hroot
  obtain ⟨b, before, reaching, carried⟩ := tells.carried between length held undamaged
  refine ⟨fun t ht correct noRecovery noUnion => ?_, reaching⟩
  obtain ⟨i, place, below, isLeaf, nonempty⟩ := holds_of_mem_tokensAt ht
  obtain ⟨inside, inside', agree⟩ := carried i t.2 below (closed.errorsReach isLeaf)
  have token := (before.trans below).mem_tokensAt isLeaf nonempty 0
  rw [Nat.zero_add] at token
  have reads : l.nextToken old (b + i) t.2.lexMode = t.2.token (b + i) :=
    tells.reads _ token correct noRecovery noUnion
  rw [Language.nextToken] at reads ⊢
  rw [place, ← token_moved t.2 (b + i), ← reads]
  refine nextTokenIn_moved unaided inside inside' ?_
  rw [reads]
  exact agree

/-- What is not damaged after an edit can be made again from the new text if it could be made again
from the old one. -/
theorem retraces_edit (vouches : ∀ b n, root.Holds b n → Vouches l old b n)
    (held : (root.edit e).value.Holds o n) (undamaged : n.isDamaged = false) :
    Vouches l new o n := by
  intro unmarked inner
  obtain ⟨b, before, -, carried⟩ := tells.carried between length held undamaged
  refine (vouches b n before unmarked inner).moved fun j leaf mode below leafless _ seen => ?_
  have below := holdsIn_singleton.mp below
  obtain ⟨inside, inside', agree⟩ := carried j leaf below
    (closed.errorsReach (List.isEmpty_iff.mpr leafless))
  exact sight_moved unaided inside inside' agree seen

end Tells

end Language

end Glr
