import Mathlib.Logic.Relation
import Glr.Grammar.Flat

/-!
# What a flat grammar derives

`Derives` is the textbook notion: one occurrence of a left side after another is replaced by a right
side, in any order.  An automaton does not work in any order, so the proofs about it use `Yields`,
which follows the structure of a derivation: each symbol of a list yields its own piece of the
text, a terminal itself and a nonterminal what one of its right sides yields.  For a list of
terminals the two say the same (`derives_iff_yields`).

How symbols yield a text may be written down.  A `Skeleton` is one derivation of one symbol, with
the productions by their ids, and a `Forest` is one derivation of a list of symbols.  A text is
`Unambiguous` if it has no two of them from the start symbol.
-/

namespace Glr

/-- A derivation of a symbol: the terminal itself, or a production over derivations of its right
side. -/
inductive Skeleton where
  | token (s : Symbol)
  | node (id : ProductionId) (below : List Skeleton)

namespace FlatGrammar

variable {g : FlatGrammar}

theorem lt_of_isTerminal {s : Symbol} (h : g.isTerminal s = true) : s < g.symbols.size := by
  refine Nat.lt_of_not_le fun hle => ?_
  rw [isTerminal, Array.getElem?_eq_none hle] at h
  cases h

/-- What holds of every grammar that comes from flattening: its symbols exist, the left sides are
nonterminals, and neither a right side nor a token is one of the reserved symbols. -/
structure WellFormed (g : FlatGrammar) : Prop where
  terminal_end : g.isTerminal Symbol.endOfText = true
  terminal_error : g.isTerminal Symbol.error = true
  lhs_lt : ∀ p ∈ g.productions, p.lhs < g.symbols.size
  lhs_nonterminal : ∀ p ∈ g.productions, g.isTerminal p.lhs = false
  rhs_lt : ∀ p ∈ g.productions, ∀ s ∈ p.rhs, s < g.symbols.size
  rhs_unreserved : ∀ p ∈ g.productions, ∀ s ∈ p.rhs, 2 ≤ s
  start_lt : g.start < g.symbols.size
  start_nonterminal : g.isTerminal g.start = false
  token : ∀ token ∈ g.tokens, 2 ≤ token.symbol ∧ g.isTerminal token.symbol = true
  external : ∀ s ∈ g.externals, 2 ≤ s

/-- One occurrence of a left side is replaced by a right side. -/
inductive Rewrites (g : FlatGrammar) : List Symbol → List Symbol → Prop where
  | intro (before after : List Symbol) {p : FlatProduction} (mem : p ∈ g.productions) :
      Rewrites g (before ++ p.lhs :: after) (before ++ (p.rhs ++ after))

/-- Any number of replacements. -/
def Derives (g : FlatGrammar) : List Symbol → List Symbol → Prop :=
  Relation.ReflTransGen g.Rewrites

/-- Symbols yield a text, piece by piece. -/
inductive Yields (g : FlatGrammar) : List Symbol → List Symbol → Prop where
  | nil : Yields g [] []
  | terminal {s : Symbol} {ss w : List Symbol} (isTerminal : g.isTerminal s = true)
      (rest : Yields g ss w) : Yields g (s :: ss) (s :: w)
  | production {p : FlatProduction} {ss u w : List Symbol} (mem : p ∈ g.productions)
      (body : Yields g p.rhs u) (rest : Yields g ss w) : Yields g (p.lhs :: ss) (u ++ w)

/-- Symbols yield a text, each by its own skeleton. -/
inductive Forest (g : FlatGrammar) : List Symbol → List Skeleton → List Symbol → Prop where
  | nil : Forest g [] [] []
  | token {s : Symbol} {ss w : List Symbol} {ts : List Skeleton}
      (isTerminal : g.isTerminal s = true) (rest : Forest g ss ts w) :
      Forest g (s :: ss) (.token s :: ts) (s :: w)
  | node {id : ProductionId} {p : FlatProduction} {ss u w : List Symbol}
      {below ts : List Skeleton} (found : g.productions[id]? = some p)
      (body : Forest g p.rhs below u) (rest : Forest g ss ts w) :
      Forest g (p.lhs :: ss) (.node id below :: ts) (u ++ w)

/-- A text is not derived from the start symbol in two ways. -/
def Unambiguous (g : FlatGrammar) (w : List Symbol) : Prop :=
  ∀ ts ts', g.Forest [g.start] ts w → g.Forest [g.start] ts' w → ts = ts'

/-! ## Pieces of a yield -/

theorem Yields.append {ss ts u v : List Symbol} (hs : g.Yields ss u) (ht : g.Yields ts v) :
    g.Yields (ss ++ ts) (u ++ v) := by
  induction hs with
  | nil => exact ht
  | terminal isTerminal _ ih => exact .terminal isTerminal ih
  | production mem body _ _ ih =>
    rw [List.append_assoc]
    exact .production mem body ih

theorem Yields.split {ss ts w : List Symbol} (h : g.Yields (ss ++ ts) w) :
    ∃ u v, w = u ++ v ∧ g.Yields ss u ∧ g.Yields ts v := by
  induction ss generalizing w with
  | nil => exact ⟨[], w, rfl, .nil, h⟩
  | cons s ss ih =>
    rw [List.cons_append] at h
    cases h with
    | terminal isTerminal rest =>
      obtain ⟨u, v, rfl, hu, hv⟩ := ih rest
      exact ⟨s :: u, v, rfl, .terminal isTerminal hu, hv⟩
    | @production p _ u' w' mem body rest =>
      obtain ⟨u, v, rfl, hu, hv⟩ := ih rest
      exact ⟨u' ++ u, v, (List.append_assoc u' u v).symm, .production mem body hu, hv⟩

/-- Terminals yield themselves. -/
theorem Yields.self {w : List Symbol} (hw : ∀ s ∈ w, g.isTerminal s = true) : g.Yields w w := by
  induction w with
  | nil => exact .nil
  | cons s w ih =>
    exact .terminal (hw s List.mem_cons_self) (ih fun t ht => hw t (List.mem_cons_of_mem s ht))

theorem Yields.isTerminal {ss w : List Symbol} (h : g.Yields ss w) :
    ∀ s ∈ w, g.isTerminal s = true := by
  induction h with
  | nil => exact fun s hs => absurd hs List.not_mem_nil
  | terminal isTerminal _ ih =>
    intro s hs
    rcases List.mem_cons.mp hs with rfl | hs
    · exact isTerminal
    · exact ih s hs
  | production _ _ _ ihBody ihRest =>
    intro s hs
    exact (List.mem_append.mp hs).elim (ihBody s) (ihRest s)

/-! ## Forests -/

theorem Forest.append {ss ts u v : List Symbol} {xs ys : List Skeleton} (hs : g.Forest ss xs u)
    (ht : g.Forest ts ys v) : g.Forest (ss ++ ts) (xs ++ ys) (u ++ v) := by
  induction hs with
  | nil => exact ht
  | token isTerminal _ ih => exact .token isTerminal ih
  | node found body _ _ ih =>
    rw [List.append_assoc]
    exact .node found body ih

theorem Forest.length_eq {ss w : List Symbol} {ts : List Skeleton} (h : g.Forest ss ts w) :
    ts.length = ss.length := by
  induction h with
  | nil => rfl
  | token _ _ ih => exact congrArg (· + 1) ih
  | node _ _ _ _ ih => exact congrArg (· + 1) ih

theorem Forest.yields {ss w : List Symbol} {ts : List Skeleton} (h : g.Forest ss ts w) :
    g.Yields ss w := by
  induction h with
  | nil => exact .nil
  | token isTerminal _ ih => exact .terminal isTerminal ih
  | node found _ _ ihBody ihRest =>
    exact .production (Array.mem_of_getElem? found) ihBody ihRest

theorem Yields.exists_forest {ss w : List Symbol} (h : g.Yields ss w) : ∃ ts, g.Forest ss ts w := by
  induction h with
  | nil => exact ⟨[], .nil⟩
  | terminal isTerminal _ ih =>
    obtain ⟨ts, rest⟩ := ih
    exact ⟨_, .token isTerminal rest⟩
  | production mem _ _ ihBody ihRest =>
    obtain ⟨id, found⟩ := Array.mem_iff_getElem?.mp mem
    obtain ⟨below, body⟩ := ihBody
    obtain ⟨ts, rest⟩ := ihRest
    exact ⟨_, .node found body rest⟩

/-! ## The two notions agree -/

theorem Rewrites.context {ss ts : List Symbol} (h : g.Rewrites ss ts) (before after : List Symbol) :
    g.Rewrites (before ++ (ss ++ after)) (before ++ (ts ++ after)) := by
  cases h with
  | intro b a mem =>
    have := Rewrites.intro (before ++ b) (a ++ after) mem
    simpa only [List.append_assoc, List.cons_append] using this

theorem Derives.context {ss ts : List Symbol} (h : g.Derives ss ts) (before after : List Symbol) :
    g.Derives (before ++ (ss ++ after)) (before ++ (ts ++ after)) :=
  Relation.ReflTransGen.lift (fun us => before ++ (us ++ after))
    (fun _ _ step => step.context before after) ss ts h

theorem Yields.derives {ss w : List Symbol} (h : g.Yields ss w) : g.Derives ss w := by
  induction h with
  | nil => exact .refl
  | @terminal s ss w _ _ ih =>
    have := ih.context [s] []
    simpa only [List.append_nil, List.cons_append, List.nil_append] using this
  | @production p ss u w mem _ _ ihBody ihRest =>
    have expand : g.Derives (p.lhs :: ss) (p.rhs ++ ss) := .single (.intro [] ss mem)
    have body : g.Derives (p.rhs ++ ss) (u ++ ss) := ihBody.context [] ss
    have rest : g.Derives (u ++ ss) (u ++ w) := by
      simpa only [List.append_nil] using ihRest.context u []
    exact (expand.trans body).trans rest

theorem Rewrites.yields {ss ts w : List Symbol} (h : g.Rewrites ss ts) (ht : g.Yields ts w) :
    g.Yields ss w := by
  cases h with
  | intro before after mem =>
    obtain ⟨u, v, rfl, hu, hv⟩ := ht.split
    obtain ⟨x, y, rfl, hx, hy⟩ := hv.split
    exact hu.append (.production mem hx hy)

theorem derives_iff_yields {ss w : List Symbol} (hw : ∀ s ∈ w, g.isTerminal s = true) :
    g.Derives ss w ↔ g.Yields ss w := by
  refine ⟨fun h => ?_, Yields.derives⟩
  induction h using Relation.ReflTransGen.head_induction_on with
  | refl => exact .self hw
  | head step _ ih => exact step.yields ih

end FlatGrammar

end Glr
