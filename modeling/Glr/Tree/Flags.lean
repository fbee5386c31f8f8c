/-!
# Node flags

What is remarkable about a node of a tree: whether it is an extra or was inserted by a repair,
whether it may not be reused, and whether something below it is wrong.
-/

namespace Glr

structure NodeFlags where
  /-- Shifted without a change of state: blanks, comments, errors. -/
  extra : Bool
  /-- Of no width, inserted by a repair. -/
  missing : Bool
  /-- Built while the parse was ambiguous. -/
  fragile : Bool
  /-- Touched by an edit. -/
  damaged : Bool
  /-- The node or a descendant is an error or missing. -/
  hasError : Bool
  deriving Repr, DecidableEq, Inhabited

namespace NodeFlags

def none : NodeFlags := ⟨false, false, false, false, false⟩

def onlyExtra : NodeFlags := { none with extra := true }

def onlyMissing : NodeFlags := { none with missing := true }

def onlyFragile : NodeFlags := { none with fragile := true }

def onlyDamaged : NodeFlags := { none with damaged := true }

def onlyHasError : NodeFlags := { none with hasError := true }

/-- Fragile, or no flag at all. -/
def fragileIf (b : Bool) : NodeFlags := { none with fragile := b }

def union (f g : NodeFlags) : NodeFlags where
  extra := f.extra || g.extra
  missing := f.missing || g.missing
  fragile := f.fragile || g.fragile
  damaged := f.damaged || g.damaged
  hasError := f.hasError || g.hasError

def intersection (f g : NodeFlags) : NodeFlags where
  extra := f.extra && g.extra
  missing := f.missing && g.missing
  fragile := f.fragile && g.fragile
  damaged := f.damaged && g.damaged
  hasError := f.hasError && g.hasError

/-- The flags of the first that the second lacks. -/
def without (f g : NodeFlags) : NodeFlags where
  extra := f.extra && !g.extra
  missing := f.missing && !g.missing
  fragile := f.fragile && !g.fragile
  damaged := f.damaged && !g.damaged
  hasError := f.hasError && !g.hasError

/-- Whether every flag of the second is one of the first. -/
def contains (f g : NodeFlags) : Bool := f.intersection g == g

/-- The flags that belong to the shape of a tree. -/
def shape (f : NodeFlags) : NodeFlags := { f with fragile := false, damaged := false }

/-- The flags a node takes over from its children. -/
def inherited (f : NodeFlags) : NodeFlags :=
  { none with fragile := f.fragile, hasError := f.hasError }

/-- The flags as the bits of a number. -/
def toBits (f : NodeFlags) : Nat :=
  f.extra.toNat + 2 * f.missing.toNat + 4 * f.fragile.toNat + 8 * f.damaged.toNat
    + 16 * f.hasError.toNat

/-- The flags that a number's bits stand for. -/
def ofBits (n : Nat) : NodeFlags :=
  ⟨n.testBit 0, n.testBit 1, n.testBit 2, n.testBit 3, n.testBit 4⟩

end NodeFlags

end Glr
