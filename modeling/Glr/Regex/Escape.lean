/-!
# Literal text in a pattern

`escapePattern` writes the pattern that matches exactly a given text: every character with a meaning
of its own in a pattern carries a backslash.
-/

namespace Glr.Regex

/-- Whether a character has a meaning of its own in a pattern. -/
def isMeta (c : Char) : Bool :=
  "\\.+*?()|[]\x7b\x7d^$#&-~".contains c

/-- The pattern that matches exactly a text. -/
def escapePattern (text : String) : String :=
  text.foldl (fun out c => if isMeta c then (out.push '\\').push c else out.push c) ""

end Glr.Regex
