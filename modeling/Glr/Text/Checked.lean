/-!
# Unbounded arithmetic with a range check

Offsets, rows, columns and precedences are unbounded numbers here, and a machine word can hold only
some of them.  A `Checked` value is computed as if there were no bound, and remembers beside the
value whether every quantity met on the way was in range.  So a law about the value needs no side
condition, and a caller that must refuse an overflow looks at `fits` once, at the end.
-/

namespace Glr

/-- A value computed without bounds, and whether every quantity on the way was in range. -/
structure Checked (α : Type) where
  value : α
  fits : Bool
  deriving Repr, DecidableEq

namespace Checked

variable {α β : Type}

/-- A computation that meets no bound. -/
protected def pure (a : α) : Checked α := ⟨a, true⟩

/-- The second computation continues on the first value whether or not that was in range. -/
protected def bind (x : Checked α) (f : α → Checked β) : Checked β :=
  let y := f x.value
  ⟨y.value, x.fits && y.fits⟩

instance : Monad Checked where
  pure := Checked.pure
  bind := Checked.bind

/-- Record one condition that has to hold. -/
def demand (holds : Bool) : Checked Unit := ⟨(), holds⟩

/-- The value, if everything was in range. -/
def get? (x : Checked α) : Option α := if x.fits then some x.value else none

theorem get?_eq_some_iff {x : Checked α} {a : α} :
    x.get? = some a ↔ x.fits = true ∧ x.value = a := by
  rw [get?, Option.ite_none_right_eq_some, Option.some.injEq]

@[simp] theorem value_pure (a : α) : (pure a : Checked α).value = a := rfl

@[simp] theorem fits_pure (a : α) : (pure a : Checked α).fits = true := rfl

@[simp] theorem value_bind (x : Checked α) (f : α → Checked β) :
    (x >>= f).value = (f x.value).value := rfl

@[simp] theorem fits_bind (x : Checked α) (f : α → Checked β) :
    (x >>= f).fits = (x.fits && (f x.value).fits) := rfl

end Checked

end Glr
