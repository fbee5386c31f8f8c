import Glr.Grammar.Lexical
import Glr.Proofs.Derivation
import Mathlib.Data.List.Basic
import Mathlib.Data.List.Induction

/-!
# What an expression means

`Denotes` is the usual reading of the expressions in rules, with nothing flat about it: a sequence
is its items one after another, a choice any one of its branches, a repetition any number of texts
of its item, and a name stands for the body of the first rule that has it.  It is the least relation
of this kind over all rules at once.  Its texts are made of `Letter`s, which are what a flat grammar
has terminals for: a named token, or an anonymous one of a kind and source.

`Flattened` stands between the two.  It says that a list of right sides is what an expression
comes to in a flat grammar, and reads off the productions that a repetition must have there.  A
text that the expression denotes is yielded by one of the right sides, whatever the rules do
(`Flattened.complete`): the induction follows the meaning, so that a name may lead to another rule.
In the other direction each symbol of the flat grammar is given the expression it stands for, its
legend; what a right side denotes in terms of legends, the expression denotes (`Flattened.sound`).
-/

namespace Glr

/-- A terminal as a grammar speaks of it. -/
inductive Letter where
  /-- The token of a rule, or one that a scanner finds. -/
  | named (name : String)
  /-- A token written in place, of a kind and source. -/
  | anonymous (p : TokenPattern)
  deriving DecidableEq

namespace Grammar

/-- The rule of a name: the first one that has it. -/
def rule? (G : Grammar) (name : String) : Option Rule := G.rules.find? (·.name == name)

/-- The texts that an expression stands for. -/
inductive Denotes (G : Grammar) : Expr → List Letter → Prop where
  | blank : Denotes G .blank []
  | nil : Denotes G (.seq []) []
  | cons {e : Expr} {es : List Expr} {u v : List Letter} (first : Denotes G e u)
      (rest : Denotes G (.seq es) v) : Denotes G (.seq (e :: es)) (u ++ v)
  | choice {e : Expr} {es : List Expr} {u : List Letter} (mem : e ∈ es) (branch : Denotes G e u) :
      Denotes G (.choice es) u
  | absent {e : Expr} : Denotes G (.optional e) []
  | present {e : Expr} {u : List Letter} (item : Denotes G e u) : Denotes G (.optional e) u
  | many {e : Expr} {us : List (List Letter)} (items : ∀ u ∈ us, Denotes G e u) :
      Denotes G (.many e) us.flatten
  | some {e : Expr} {us : List (List Letter)} (one : us ≠ []) (items : ∀ u ∈ us, Denotes G e u) :
      Denotes G (.some e) us.flatten
  | prec {level : Int} {e : Expr} {u : List Letter} (item : Denotes G e u) :
      Denotes G (.prec level e) u
  | precLeft {level : Int} {e : Expr} {u : List Letter} (item : Denotes G e u) :
      Denotes G (.precLeft level e) u
  | precRight {level : Int} {e : Expr} {u : List Letter} (item : Denotes G e u) :
      Denotes G (.precRight level e) u
  | precDynamic {level : Int} {e : Expr} {u : List Letter} (item : Denotes G e u) :
      Denotes G (.precDynamic level e) u
  | rule {name : String} {r : Rule} {u : List Letter} (first : G.rule? name = .some r)
      (inner : r.body.isToken = false) (body : Denotes G r.body u) : Denotes G (.ref name) u
  | token {name : String} {r : Rule} (first : G.rule? name = .some r)
      (isToken : r.body.isToken = true) : Denotes G (.ref name) [.named name]
  | external {name : String} (none : G.rule? name = .none) (mem : name ∈ G.externals) :
      Denotes G (.ref name) [.named name]
  | anonymous {e : Expr} {p : TokenPattern} (isToken : e.isToken = true)
      (pattern : e.toTokenPattern = .ok p) : Denotes G e [.anonymous p]

namespace Denotes

variable {G : Grammar} {e : Expr} {es fs : List Expr} {ts : List Letter}

theorem of_single (h : G.Denotes (.seq [e]) ts) : G.Denotes e ts := by
  cases h with
  | cons first rest =>
    cases rest with
    | nil =>
      rw [List.append_nil]
      exact first
    | anonymous isToken _ => cases isToken
  | anonymous isToken _ => cases isToken

theorem seq_nil (h : G.Denotes (.seq []) ts) : ts = [] := by
  cases h with
  | nil => rfl
  | anonymous isToken _ => cases isToken

theorem seq_cons (h : G.Denotes (.seq (e :: es)) ts) :
    ∃ u v, ts = u ++ v ∧ G.Denotes e u ∧ G.Denotes (.seq es) v := by
  cases h with
  | @cons _ _ u v first rest => exact ⟨u, v, rfl, first, rest⟩
  | anonymous isToken _ => cases isToken

theorem split (h : G.Denotes (.seq (es ++ fs)) ts) :
    ∃ u v, ts = u ++ v ∧ G.Denotes (.seq es) u ∧ G.Denotes (.seq fs) v := by
  induction es generalizing ts with
  | nil => exact ⟨[], ts, rfl, .nil, h⟩
  | cons e es ih =>
    obtain ⟨t, v, rfl, first, rest⟩ := h.seq_cons
    obtain ⟨u, v, rfl, hu, hv⟩ := ih rest
    exact ⟨t ++ u, v, (List.append_assoc t u v).symm, .cons first hu, hv⟩

/-- A token denotes itself and nothing else. -/
theorem eq_of_token {p : TokenPattern} (isToken : e.isToken = true)
    (pattern : e.toTokenPattern = .ok p) (h : G.Denotes e ts) : ts = [.anonymous p] := by
  cases h with
  | anonymous _ pattern' =>
    obtain rfl := Except.ok.inj (pattern.symm.trans pattern')
    rfl
  | _ => cases isToken

theorem repeats (h : G.Denotes (.some e) ts) :
    ∃ us, us ≠ [] ∧ ts = us.flatten ∧ ∀ u ∈ us, G.Denotes e u := by
  cases h with
  | @some _ us one items => exact ⟨us, one, rfl, items⟩
  | anonymous isToken _ => cases isToken

end Denotes

end Grammar

/-- The expression of a letter. -/
def Letter.expr : Letter → Expr
  | named name => .ref name
  | anonymous (.literal text) => .literal text
  | anonymous (.regex source) => .pattern source

theorem Letter.expr_anonymous (p : TokenPattern) :
    (Letter.anonymous p).expr.isToken = true ∧
      (Letter.anonymous p).expr.toTokenPattern = .ok p := by
  cases p with
  | literal text => exact ⟨rfl, rfl⟩
  | regex source => exact ⟨rfl, rfl⟩

namespace FlatGrammar

/-- The letter of a symbol that is one. -/
def letter? (g : FlatGrammar) (s : Symbol) : Option Letter :=
  match g.symbols[s]? with
  | none => none
  | some info =>
    if info.named then some (.named info.name)
    else (g.tokens.find? (·.symbol == s)).map fun token => .anonymous token.pattern

/-- A symbol, other than the reserved ones, has a name. -/
def Names (g : FlatGrammar) (s : Symbol) (name : String) : Prop :=
  2 ≤ s ∧ ∃ info, g.symbols[s]? = some info ∧ info.named = true ∧ info.name = name

theorem Names.letter? {g : FlatGrammar} {s : Symbol} {name : String} (h : g.Names s name) :
    g.letter? s = some (.named name) := by
  obtain ⟨-, info, found, named, rfl⟩ := h
  rw [FlatGrammar.letter?, found]
  exact if_pos named

/-- A text of terminals is spelled with letters. -/
def Spells (g : FlatGrammar) (w : List Symbol) (ts : List Letter) : Prop :=
  w.map g.letter? = ts.map some

theorem Spells.append {g : FlatGrammar} {w w' : List Symbol} {ts ts' : List Letter}
    (h : g.Spells w ts) (h' : g.Spells w' ts') : g.Spells (w ++ w') (ts ++ ts') := by
  rw [Spells, List.map_append, List.map_append, h, h']

/-- There is a production with given sides. -/
def Has (g : FlatGrammar) (lhs : Symbol) (rhs : List Symbol) : Prop :=
  ∃ p ∈ g.productions, p.lhs = lhs ∧ p.rhs = rhs

theorem Has.yields {g : FlatGrammar} {lhs : Symbol} {rhs w : List Symbol} (h : g.Has lhs rhs)
    (body : g.Yields rhs w) : g.Yields [lhs] w := by
  obtain ⟨p, mem, rfl, rfl⟩ := h
  rw [← List.append_nil w]
  exact .production mem body .nil

end FlatGrammar

/-! ## Right sides of an expression -/

/-- A helper stands for one item or more: each right side of the item is one of it, by itself and
behind the helper. -/
structure Helps (g : FlatGrammar) (legend : Symbol → Expr) (helper : Symbol) (item : Expr)
    (rights : List (List Symbol)) : Prop where
  legend : legend helper = .some item
  one : ∀ right ∈ rights, g.Has helper right
  more : ∀ right ∈ rights, g.Has helper (helper :: right)

/-- The right sides that an expression comes to. -/
inductive Flattened (g : FlatGrammar) (legend : Symbol → Expr) :
    Expr → List (List Symbol) → Prop where
  | blank : Flattened g legend .blank [[]]
  | ref {name : String} {s : Symbol} (named : g.Names s name) :
      Flattened g legend (.ref name) [[s]]
  | token {e : Expr} {p : TokenPattern} {s : Symbol} (isToken : e.isToken = true)
      (pattern : e.toTokenPattern = .ok p) (terminal : g.isTerminal s = true)
      (letter : g.letter? s = some (.anonymous p)) : Flattened g legend e [[s]]
  | seqNil : Flattened g legend (.seq []) [[]]
  | seqCons {e : Expr} {es : List Expr} {as bs : List (List Symbol)}
      (first : Flattened g legend e as) (rest : Flattened g legend (.seq es) bs) :
      Flattened g legend (.seq (e :: es)) (as.flatMap fun a => bs.map (a ++ ·))
  | choiceNil : Flattened g legend (.choice []) []
  | choiceCons {e : Expr} {es : List Expr} {as bs : List (List Symbol)}
      (first : Flattened g legend e as) (rest : Flattened g legend (.choice es) bs) :
      Flattened g legend (.choice (e :: es)) (as ++ bs)
  | optional {e : Expr} {as : List (List Symbol)} (item : Flattened g legend e as) :
      Flattened g legend (.optional e) ([] :: as)
  | many {e : Expr} {helper : Symbol} {as : List (List Symbol)} (item : Flattened g legend e as)
      (helps : Helps g legend helper e as) : Flattened g legend (.many e) [[], [helper]]
  | some {e : Expr} {helper : Symbol} {as : List (List Symbol)} (item : Flattened g legend e as)
      (helps : Helps g legend helper e as) : Flattened g legend (.some e) [[helper]]
  | prec {level : Int} {e : Expr} {as : List (List Symbol)} (item : Flattened g legend e as) :
      Flattened g legend (.prec level e) as
  | precLeft {level : Int} {e : Expr} {as : List (List Symbol)} (item : Flattened g legend e as) :
      Flattened g legend (.precLeft level e) as
  | precRight {level : Int} {e : Expr} {as : List (List Symbol)} (item : Flattened g legend e as) :
      Flattened g legend (.precRight level e) as
  | precDynamic {level : Int} {e : Expr} {as : List (List Symbol)}
      (item : Flattened g legend e as) : Flattened g legend (.precDynamic level e) as

/-- A legend gives each symbol that is named, and each token, the expression it was made for. -/
structure Explains (g : FlatGrammar) (legend : Symbol → Expr) : Prop where
  named : ∀ s name, g.Names s name → legend s = .ref name
  anonymous : ∀ s p, g.isTerminal s = true → g.letter? s = some (.anonymous p) →
    legend s = (Letter.anonymous p).expr

/-- In terms of legends, a right side says no more than the left side. -/
def Faithful (G : Grammar) (legend : Symbol → Expr) (p : FlatProduction) : Prop :=
  ∀ ts, G.Denotes (.seq (p.rhs.map legend)) ts → G.Denotes (legend p.lhs) ts

/-- A flat grammar that says what a grammar says.  Each name is that of a rule, a token or an
external token; the right sides of a rule are those that its body comes to; and no production
says more than the legends of its symbols. -/
structure Renders (G : Grammar) (g : FlatGrammar) (legend : Symbol → Expr) : Prop
    extends Explains g legend where
  wf : g.WellFormed
  letter : ∀ s, 2 ≤ s → g.isTerminal s = true →
    (∃ name, g.Names s name) ∨ ∃ p, g.letter? s = some (.anonymous p)
  terminal : ∀ s name, g.Names s name → (g.isTerminal s = true ↔
    (∃ r, G.rule? name = some r ∧ r.body.isToken = true) ∨
      G.rule? name = none ∧ name ∈ G.externals)
  rules : ∀ s name r, g.Names s name → G.rule? name = some r → r.body.isToken = false →
    ∃ as, Flattened g legend r.body as ∧ ∀ a ∈ as, g.Has s a
  faithful : ∀ p ∈ g.productions, Faithful G legend p

section

variable {G : Grammar} {g : FlatGrammar} {legend : Symbol → Expr} {e : Expr} {ts : List Letter}

/-! ## From legends to meaning -/

/-- What a right side denotes in terms of legends, the expression denotes. -/
theorem Flattened.sound (explains : Explains g legend) {as : List (List Symbol)}
    (flattened : Flattened g legend e as) :
    ∀ a ∈ as, ∀ ts, G.Denotes (.seq (a.map legend)) ts → G.Denotes e ts := by
  induction flattened with
  | blank =>
    intro a ha ts h
    rw [List.mem_singleton.mp ha] at h
    rw [h.seq_nil]
    exact .blank
  | ref name =>
    intro a ha ts h
    rw [List.mem_singleton.mp ha, List.map_singleton, explains.named _ _ name] at h
    exact h.of_single
  | @token e p s isToken pattern terminal letter =>
    intro a ha ts h
    rw [List.mem_singleton.mp ha, List.map_singleton, explains.anonymous s p terminal letter] at h
    obtain ⟨isToken', pattern'⟩ := Letter.expr_anonymous p
    rw [h.of_single.eq_of_token isToken' pattern']
    exact .anonymous isToken pattern
  | seqNil =>
    intro a ha ts h
    rw [List.mem_singleton.mp ha] at h
    exact h
  | seqCons first rest ihFirst ihRest =>
    intro c hc ts h
    obtain ⟨a, ha, hc⟩ := List.mem_flatMap.mp hc
    obtain ⟨b, hb, rfl⟩ := List.mem_map.mp hc
    rw [List.map_append] at h
    obtain ⟨u, v, rfl, hu, hv⟩ := h.split
    exact .cons (ihFirst a ha u hu) (ihRest b hb v hv)
  | choiceNil => exact fun _ ha => absurd ha List.not_mem_nil
  | @choiceCons e es as bs first rest ihFirst ihRest =>
    intro a ha ts h
    rcases List.mem_append.mp ha with ha | ha
    · exact .choice List.mem_cons_self (ihFirst a ha ts h)
    · cases ihRest a ha ts h with
      | choice mem branch => exact .choice (List.mem_cons_of_mem e mem) branch
      | anonymous isToken _ => cases isToken
  | optional item ih =>
    intro a ha ts h
    rcases List.mem_cons.mp ha with rfl | ha
    · rw [h.seq_nil]
      exact .absent
    · exact .present (ih a ha ts h)
  | @many e helper as item helps ih =>
    intro a ha ts h
    rcases List.mem_cons.mp ha with rfl | ha
    · have none : ∀ u ∈ ([] : List (List Letter)), G.Denotes e u :=
        fun _ hu => absurd hu List.not_mem_nil
      rw [h.seq_nil]
      exact .many none
    · rw [List.mem_singleton.mp ha, List.map_singleton, helps.legend] at h
      obtain ⟨us, -, rfl, items⟩ := h.of_single.repeats
      exact .many items
  | some item helps ih =>
    intro a ha ts h
    rw [List.mem_singleton.mp ha, List.map_singleton, helps.legend] at h
    exact h.of_single
  | prec item ih => exact fun a ha ts h => .prec (ih a ha ts h)
  | precLeft item ih => exact fun a ha ts h => .precLeft (ih a ha ts h)
  | precRight item ih => exact fun a ha ts h => .precRight (ih a ha ts h)
  | precDynamic item ih => exact fun a ha ts h => .precDynamic (ih a ha ts h)

/-- Both productions of a helper say no more than that there is one item or more. -/
theorem Grammar.Denotes.of_helper {helper : Symbol} {b : List Symbol}
    (legend_helper : legend helper = .some e)
    (item : ∀ ts, G.Denotes (.seq (b.map legend)) ts → G.Denotes e ts) :
    (∀ ts, G.Denotes (.seq (b.map legend)) ts → G.Denotes (.some e) ts) ∧
      ∀ ts, G.Denotes (.seq ((helper :: b).map legend)) ts → G.Denotes (.some e) ts := by
  refine ⟨fun ts h => ?_, fun ts h => ?_⟩
  · have one : G.Denotes (.some e) [ts].flatten :=
      .some (List.cons_ne_nil ts []) fun u hu => List.mem_singleton.mp hu ▸ item ts h
    rwa [List.flatten_singleton] at one
  · rw [List.map_cons, legend_helper] at h
    obtain ⟨u, v, rfl, several, last⟩ := h.seq_cons
    obtain ⟨us, -, rfl, items⟩ := several.repeats
    have shown : us.flatten ++ v = (us ++ [v]).flatten := by simp
    rw [shown]
    refine .some (by simp) fun u hu => ?_
    rcases List.mem_append.mp hu with hu | hu
    · exact items u hu
    · exact List.mem_singleton.mp hu ▸ item v last

/-- What the flat grammar yields, the legends denote. -/
theorem Renders.sound (renders : Renders G g legend) {ss w : List Symbol} (h : g.Yields ss w) :
    (∀ s ∈ ss, 2 ≤ s) → ∃ ts, g.Spells w ts ∧ G.Denotes (.seq (ss.map legend)) ts := by
  induction h with
  | nil => exact fun _ => ⟨[], rfl, .nil⟩
  | @terminal s ss w isTerminal rest ih =>
    intro own
    obtain ⟨ts, spells, denotes⟩ := ih fun t ht => own t (List.mem_cons_of_mem s ht)
    have here : ∃ x, g.letter? s = some x ∧ G.Denotes (legend s) [x] := by
      rcases renders.letter s (own s List.mem_cons_self) isTerminal with ⟨name, named⟩ | ⟨p, letter⟩
      · refine ⟨.named name, named.letter?, ?_⟩
        rw [renders.named s name named]
        rcases (renders.terminal s name named).mp isTerminal with ⟨r, first, isToken⟩ | ⟨none, mem⟩
        · exact .token first isToken
        · exact .external none mem
      · refine ⟨.anonymous p, letter, ?_⟩
        rw [renders.anonymous s p isTerminal letter]
        obtain ⟨isToken, pattern⟩ := Letter.expr_anonymous p
        exact .anonymous isToken pattern
    obtain ⟨x, letter, first⟩ := here
    refine ⟨[x] ++ ts, ?_, .cons first denotes⟩
    rw [FlatGrammar.Spells, List.map_cons, letter, spells]
    rfl
  | @production p ss u w mem body rest ihBody ihRest =>
    intro own
    obtain ⟨ts, spells, denotes⟩ := ihBody fun s hs => renders.wf.rhs_unreserved p mem s hs
    obtain ⟨ts', spells', denotes'⟩ := ihRest fun t ht => own t (List.mem_cons_of_mem _ ht)
    exact ⟨ts ++ ts', spells.append spells', .cons (renders.faithful p mem ts denotes) denotes'⟩

/-! ## From meaning to right sides -/

/-- The right sides yield a text. -/
def Yielded (g : FlatGrammar) (as : List (List Symbol)) (ts : List Letter) : Prop :=
  ∃ a ∈ as, ∃ w, g.Yields a w ∧ g.Spells w ts

theorem Yielded.of_token {s : Symbol} {x : Letter} (terminal : g.isTerminal s = true)
    (letter : g.letter? s = some x) : Yielded g [[s]] [x] := by
  refine ⟨[s], List.mem_singleton_self _, [s], .terminal terminal .nil, ?_⟩
  rw [FlatGrammar.Spells, List.map_singleton, letter]
  rfl

theorem Yielded.nil {as : List (List Symbol)} (mem : [] ∈ as) : Yielded g as [] :=
  ⟨[], mem, [], .nil, rfl⟩

theorem Yielded.mono {as bs : List (List Symbol)} (yielded : Yielded g as ts)
    (among : ∀ a ∈ as, a ∈ bs) : Yielded g bs ts := by
  obtain ⟨a, ha, w, yields, spells⟩ := yielded
  exact ⟨a, among a ha, w, yields, spells⟩

/-- The right sides of a branch are among those of the choice. -/
theorem Flattened.branch {es : List Expr} {as : List (List Symbol)}
    (flattened : Flattened g legend (.choice es) as) (mem : e ∈ es) :
    ∃ bs, Flattened g legend e bs ∧ ∀ b ∈ bs, b ∈ as := by
  induction es generalizing as with
  | nil => exact absurd mem List.not_mem_nil
  | cons e' es ih =>
    cases flattened with
    | choiceCons first rest =>
      rcases List.mem_cons.mp mem with rfl | mem
      · exact ⟨_, first, fun b hb => List.mem_append_left _ hb⟩
      · obtain ⟨bs, branch, among⟩ := ih rest mem
        exact ⟨bs, branch, fun b hb => List.mem_append_right _ (among b hb)⟩
    | token isToken => cases isToken

/-- A helper yields one item after another. -/
theorem Helps.yields {helper : Symbol} {as : List (List Symbol)}
    (helps : Helps g legend helper e as) {us : List (List Letter)} (one : us ≠ [])
    (items : ∀ u ∈ us, Yielded g as u) :
    ∃ w, g.Yields [helper] w ∧ g.Spells w us.flatten := by
  -- The helper is left recursive, so the last item comes first.
  induction us using List.reverseRecOn with
  | nil => exact absurd rfl one
  | append_singleton us u ih =>
    obtain ⟨a, ha, w, yields, spells⟩ := items u (by simp)
    cases us with
    | nil =>
      refine ⟨w, (helps.one a ha).yields yields, ?_⟩
      rw [List.nil_append, List.flatten_singleton]
      exact spells
    | cons u' us =>
      obtain ⟨w', yields', spells'⟩ := ih (List.cons_ne_nil u' us)
        fun v hv => items v (List.mem_append_left _ hv)
      refine ⟨w' ++ w, (helps.more a ha).yields (yields'.append yields), ?_⟩
      rw [List.flatten_append, List.flatten_singleton]
      exact spells'.append spells

/-- A text that an expression denotes is yielded by one of its right sides. -/
theorem Flattened.complete (renders : Renders G g legend) (h : G.Denotes e ts) :
    ∀ as, Flattened g legend e as → Yielded g as ts := by
  induction h with
  | blank =>
    intro as flattened
    cases flattened with
    | blank => exact .nil (List.mem_singleton_self _)
    | token isToken => cases isToken
  | nil =>
    intro as flattened
    cases flattened with
    | seqNil => exact .nil (List.mem_singleton_self _)
    | token isToken => cases isToken
  | cons first rest ihFirst ihRest =>
    intro as flattened
    cases flattened with
    | seqCons first rest =>
      obtain ⟨a, ha, u, yields, spells⟩ := ihFirst _ first
      obtain ⟨b, hb, v, yields', spells'⟩ := ihRest _ rest
      exact ⟨a ++ b, List.mem_flatMap.mpr ⟨a, ha, List.mem_map_of_mem hb⟩, u ++ v,
        yields.append yields', spells.append spells'⟩
    | token isToken => cases isToken
  | choice mem branch ih =>
    intro as flattened
    obtain ⟨bs, flattened, among⟩ := flattened.branch mem
    exact (ih bs flattened).mono among
  | absent =>
    intro as flattened
    cases flattened with
    | optional item => exact .nil List.mem_cons_self
    | token isToken => cases isToken
  | present item ih =>
    intro as flattened
    cases flattened with
    | optional item => exact (ih _ item).mono fun a ha => List.mem_cons_of_mem _ ha
    | token isToken => cases isToken
  | @many e us items ih =>
    intro as flattened
    cases flattened with
    | @many _ helper as item helps =>
      cases us with
      | nil => exact .nil List.mem_cons_self
      | cons u us =>
        obtain ⟨w, yields, spells⟩ := helps.yields (List.cons_ne_nil u us)
          fun v hv => ih v hv _ item
        exact ⟨[helper], by simp, w, yields, spells⟩
    | token isToken => cases isToken
  | @some e us one items ih =>
    intro as flattened
    cases flattened with
    | @some _ helper as item helps =>
      obtain ⟨w, yields, spells⟩ := helps.yields one fun v hv => ih v hv _ item
      exact ⟨[helper], List.mem_singleton_self _, w, yields, spells⟩
    | token isToken => cases isToken
  | prec item ih =>
    intro as flattened
    cases flattened with
    | prec item => exact ih _ item
    | token isToken => cases isToken
  | precLeft item ih =>
    intro as flattened
    cases flattened with
    | precLeft item => exact ih _ item
    | token isToken => cases isToken
  | precRight item ih =>
    intro as flattened
    cases flattened with
    | precRight item => exact ih _ item
    | token isToken => cases isToken
  | precDynamic item ih =>
    intro as flattened
    cases flattened with
    | precDynamic item => exact ih _ item
    | token isToken => cases isToken
  | @rule name r u first inner body ih =>
    intro as flattened
    cases flattened with
    | @ref _ s named =>
      obtain ⟨bs, flattened, has⟩ := renders.rules s name r named first inner
      obtain ⟨b, hb, w, yields, spells⟩ := ih bs flattened
      exact ⟨[s], List.mem_singleton_self _, w, (has b hb).yields yields, spells⟩
    | token isToken => cases isToken
  | @token name r first isToken =>
    intro as flattened
    cases flattened with
    | @ref _ s named =>
      exact .of_token ((renders.terminal s name named).mpr (Or.inl ⟨r, first, isToken⟩))
        named.letter?
    | token isToken => cases isToken
  | @external name none mem =>
    intro as flattened
    cases flattened with
    | @ref _ s named =>
      exact .of_token ((renders.terminal s name named).mpr (Or.inr ⟨none, mem⟩)) named.letter?
    | token isToken => cases isToken
  | @anonymous e p isToken pattern =>
    intro as flattened
    cases flattened with
    | token _ pattern' terminal letter =>
      obtain rfl := Except.ok.inj (pattern.symm.trans pattern')
      exact .of_token terminal letter
    | _ => cases isToken

/-- A rule denotes just what its symbol derives. -/
theorem Renders.denotes_iff (renders : Renders G g legend) {s : Symbol} {r : Rule}
    (named : g.Names s r.name) (first : G.rule? r.name = some r) (inner : r.body.isToken = false) :
    G.Denotes r.body ts ↔
      ∃ w, (∀ t ∈ w, g.isTerminal t = true) ∧ g.Derives [s] w ∧ g.Spells w ts := by
  constructor
  · intro h
    obtain ⟨as, flattened, has⟩ := renders.rules s r.name r named first inner
    obtain ⟨a, ha, w, yields, spells⟩ := flattened.complete renders h
    have reduced := (has a ha).yields yields
    exact ⟨w, reduced.isTerminal, reduced.derives, spells⟩
  · rintro ⟨w, terminals, derives, spells⟩
    obtain ⟨us, spells', denotes⟩ :=
      renders.sound ((FlatGrammar.derives_iff_yields terminals).mp derives) fun t ht =>
        List.mem_singleton.mp ht ▸ named.1
    obtain rfl : us = ts :=
      List.map_injective_iff.mpr (fun _ _ => Option.some.inj) (spells'.symm.trans spells)
    rw [List.map_singleton, renders.named s r.name named] at denotes
    cases denotes.of_single with
    | rule first' _ body =>
      obtain rfl := Option.some.inj (first.symm.trans first')
      exact body
    | token first' isToken =>
      obtain rfl := Option.some.inj (first.symm.trans first')
      rw [inner] at isToken
      cases isToken
    | external none _ =>
      rw [first] at none
      cases none
    | anonymous isToken _ => cases isToken

end

end Glr
