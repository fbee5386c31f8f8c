import Glr.Language.Basic

/-!
# Registries of languages

A registry maps identifiers to blobs and loads a language when it is asked for.  The languages
loaded last are kept, up to a capacity, with the most recently used one first; registering a blob
drops what was kept for its identifier.

Loading and registering are made of steps that each act on the kept languages or on the blobs in one
go: `probe`, `read` and `keep` for the one, `drop` and `store` for the other.  Several loads and
registrations may be under way at a time, and their steps come in any order.
-/

namespace Glr

/-- How often a registry found a language among those it keeps. -/
structure RegistryStats where
  hits : Nat
  misses : Nat
  evictions : Nat
  deriving Repr, DecidableEq

structure Registry where
  capacity : Nat
  /-- There is room for one language at least. -/
  capacity_pos : 0 < capacity
  blobs : List (String × Text)
  /-- The languages kept, the most recently used first. -/
  kept : List (String × Language)
  stats : RegistryStats

namespace Registry

/-- A registry that keeps up to a given number of languages. -/
def withCapacity (capacity : Nat) (h : 0 < capacity) : Registry :=
  ⟨capacity, h, [], [], ⟨0, 0, 0⟩⟩

/-- A registry that keeps up to sixteen languages. -/
def empty : Registry := withCapacity 16 (by decide)

/-- A list of entries without those of a key. -/
def without {α : Type} (id : String) (entries : List (String × α)) : List (String × α) :=
  entries.filter fun e => e.1 != id

/-! ## Steps of a registration -/

/-- Drop the language kept for an identifier. -/
def drop (r : Registry) (id : String) : Registry := { r with kept := without id r.kept }

def store (r : Registry) (id : String) (blob : Text) : Registry :=
  { r with blobs := (id, blob) :: without id r.blobs }

/-! ## Steps of a load -/

/-- Look for a language among those kept, and make it the most recently used. -/
def probe (r : Registry) (id : String) : Option Language × Registry :=
  match r.kept.lookup id with
  | some l =>
    (some l, { r with
      kept := (id, l) :: without id r.kept
      stats.hits := r.stats.hits + 1 })
  | none => (none, { r with stats.misses := r.stats.misses + 1 })

def read (r : Registry) (id : String) : Except LoadError Language :=
  match r.blobs.lookup id with
  | some blob => Language.ofBlob blob
  | none => .error (.unknownLanguage id)

/-- Keep a language as the most recently used; the least recently used gives way if there is no
room. -/
def keep (r : Registry) (id : String) (l : Language) : Registry :=
  let others := without id r.kept
  -- For a language that is kept already none has to give way.
  if r.kept.length ≥ r.capacity && (r.kept.lookup id).isNone then
    { r with
      kept := (id, l) :: others.dropLast
      stats.evictions := r.stats.evictions + 1 }
  else { r with kept := (id, l) :: others }

/-! ## Whole operations -/

def register (r : Registry) (id : String) (blob : Text) : Registry := (r.drop id).store id blob

def load (r : Registry) (id : String) : Except LoadError Language × Registry :=
  match r.probe id with
  | (some l, r) => (.ok l, r)
  | (none, r) =>
    match r.read id with
    | .ok l => (.ok l, r.keep id l)
    | .error e => (.error e, r)

/-- Whether a blob is registered under an identifier. -/
def contains (r : Registry) (id : String) : Bool := (r.blobs.lookup id).isSome

/-- The identifiers in ascending order. -/
def ids (r : Registry) : List String := (r.blobs.map (·.1)).mergeSort fun a b => a ≤ b

def render (r : Registry) : String :=
  "LanguageRegistry \x7b ids: " ++ Text.quotedList r.ids
    ++ ", stats: RegistryStats \x7b hits: " ++ toString r.stats.hits
    ++ ", misses: " ++ toString r.stats.misses
    ++ ", evictions: " ++ toString r.stats.evictions ++ " \x7d \x7d"

end Registry

end Glr
