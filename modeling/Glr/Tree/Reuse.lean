import Glr.Tree.Green

/-!
# Walking an old tree forward

A reuse cursor walks an edited tree alongside a parse of the edited text.  It holds the nodes still
ahead, each at its offset, in document order.  `seek` drops what ends at or before an offset, looks
inside what starts before it and ends behind it, and stops at the outermost node that starts there.

Every step removes a node from the tree parts that are ahead, so a walk ends.
-/

namespace Glr

namespace Green

mutual

def count : Green → Nat
  | mk _ cs => countIn cs + 1

def countIn : List Green → Nat
  | [] => 0
  | g :: gs => count g + countIn gs

end

end Green

/-- A tree ahead of the cursor, at an offset. -/
structure Pending where
  green : Green
  start : Nat
  deriving Inhabited

/-- A cursor over an old tree: what is ahead, in document order. -/
structure ReuseCursor where
  ahead : List Pending
  deriving Inhabited

namespace ReuseCursor

def exhausted : ReuseCursor := ⟨[]⟩

/-- The cursor in front of a tree. -/
def ofTree (g : Green) : ReuseCursor := ⟨[⟨g, 0⟩]⟩

/-- Trees side by side at their offsets, of which the first has a given one. -/
def place (start : Nat) : List Green → List Pending
  | [] => []
  | g :: gs => ⟨g, start⟩ :: place (start + g.length) gs

/-- The number of nodes ahead. -/
def weight : List Pending → Nat
  | [] => 0
  | p :: ps => p.green.count + weight ps

/-- The children of a tree at their offsets. -/
def opened (p : Pending) : List Pending := place p.start p.green.children

theorem weight_append (ps qs : List Pending) : weight (ps ++ qs) = weight ps + weight qs := by
  induction ps with
  | nil => simp [weight]
  | cons p ps ih => simp [weight, ih, Nat.add_assoc]

theorem weight_place (start : Nat) (gs : List Green) :
    weight (place start gs) = Green.countIn gs := by
  induction gs generalizing start with
  | nil => simp [place, weight, Green.countIn]
  | cons g gs ih => simp [place, weight, Green.countIn, ih]

theorem weight_opened (p : Pending) : weight (opened p) + 1 = p.green.count := by
  obtain ⟨⟨d, cs⟩, start⟩ := p
  simp [opened, weight_place, Green.count, Green.children]

/-- Step into the first tree ahead; a leaf is left behind. -/
def descend (c : ReuseCursor) : ReuseCursor :=
  match c.ahead with
  | [] => c
  | p :: rest => ⟨opened p ++ rest⟩

/-- Drop and open trees until one starts at the offset or behind it. -/
def seekIn (offset : Nat) : List Pending → List Pending
  | [] => []
  | p :: rest =>
    -- An empty tree ends where it starts, so it is dropped even at the offset.
    if p.start + p.green.length ≤ offset then seekIn offset rest
    else if p.start < offset then seekIn offset (opened p ++ rest)
    else p :: rest
termination_by ps => weight ps
decreasing_by
  · have := weight_opened p
    simp only [weight]
    omega
  · have := weight_opened p
    simp only [weight, weight_append]
    omega

theorem weight_seekIn_le (offset : Nat) (ps : List Pending) :
    weight (seekIn offset ps) ≤ weight ps := by
  fun_induction seekIn offset ps with
  | case1 => exact Nat.le_refl _
  | case2 p rest _ ih =>
    simp only [weight]
    omega
  | case3 p rest _ _ ih =>
    have := weight_opened p
    simp only [weight, weight_append] at ih ⊢
    omega
  | case4 => exact Nat.le_refl _

/-- Move to the outermost node that starts at an offset and is not empty: the cursor there, and the
node if there is one. -/
def seek (c : ReuseCursor) (offset : Nat) : Option Green × ReuseCursor :=
  let ahead := seekIn offset c.ahead
  match ahead with
  | p :: _ => (if p.start = offset then some p.green else none, ⟨ahead⟩)
  | [] => (none, ⟨ahead⟩)

/-- Less is ahead once the cursor has stepped into the node it moved to. -/
theorem weight_descend_lt {c d : ReuseCursor} {offset : Nat} {g : Green}
    (h : c.seek offset = (some g, d)) : weight d.descend.ahead < weight c.ahead := by
  have le := weight_seekIn_le offset c.ahead
  unfold seek at h
  cases eq : seekIn offset c.ahead with
  | nil => simp [eq] at h
  | cons p rest =>
    rw [eq] at le
    simp only [eq, Prod.mk.injEq] at h
    obtain ⟨-, rfl⟩ := h
    have := weight_opened p
    simp only [descend, weight, weight_append] at le ⊢
    omega

end ReuseCursor

end Glr
