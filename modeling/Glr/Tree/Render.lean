import Glr.Tree.Node

/-!
# Trees in writing

Two ways to write a tree.  The expression form nests the named nodes in parentheses, with anonymous
ones left out unless they are missing.  The dump gives each visible node a line, indented by depth,
with its range and, for a leaf, its text.
-/

namespace Glr

/-- The name of a symbol as it stands in the expression form: quoted unless it is named. -/
def Language.shownKind (l : Language) (s : Symbol) : String :=
  if l.isNamed s then l.symbolName s else Text.quoted (l.symbolName s)

namespace Node

/-- Open a parenthesis, apart from what is before it. -/
def openParen (out : String) : String :=
  (if out.isEmpty || out.endsWith "(" then out else out.push ' ').push '('

mutual

/-- Write the expression form of a node. -/
def sexpTo (l : Language) (out : String) : Green → String
  | .mk d cs =>
    let out := openParen out
    if d.flags.missing then (out ++ "MISSING " ++ l.shownKind d.symbol).push ')'
    else (sexpToIn l (out ++ l.shownKind d.symbol) cs).push ')'

/-- Write the nodes of trees side by side that are named or missing, in place of hidden nodes what
they hold. -/
def sexpToIn (l : Language) (out : String) : List Green → String
  | [] => out
  | .mk d cs :: gs =>
    let out :=
      if l.isVisible d.symbol then
        if l.isNamed d.symbol || d.flags.missing then sexpTo l out (.mk d cs) else out
      else sexpToIn l out cs
    sexpToIn l out gs

end

def sexp (l : Language) (n : Node) : String := sexpTo l "" n.green

def dumpLine (l : Language) (source : Text) (depth offset : Nat) (g : Green) : String :=
  let n : Node := ⟨⟨g, offset, Point.zero, []⟩, []⟩
  let text := if g.isLeaf then n.text? source else none
  "".pushn ' ' (depth * 2) ++ n.kind l ++ " " ++ n.span.render
    ++ (if g.isMissing then " MISSING" else "")
    ++ (match text with
      | some t => " " ++ Text.quoted t
      | none => "")
    ++ "\n"

mutual

/-- Write the lines of a node and of what is visible below it. -/
def dumpTo (l : Language) (source : Text) (out : String) (depth offset : Nat) : Green → String
  | .mk d cs =>
    dumpToIn l source (out ++ dumpLine l source depth offset (.mk d cs)) (depth + 1) offset cs

/-- Write the lines of trees side by side. -/
def dumpToIn (l : Language) (source : Text) (out : String) (depth offset : Nat) :
    List Green → String
  | [] => out
  | .mk d cs :: gs =>
    let out :=
      if l.isVisible d.symbol then dumpTo l source out depth offset (.mk d cs)
      else dumpToIn l source out depth offset cs
    dumpToIn l source out depth (offset + d.length) gs

end

def dump (l : Language) (n : Node) (source : Text) : String :=
  dumpTo l source "" 0 n.place.offset n.green

end Node

end Glr
