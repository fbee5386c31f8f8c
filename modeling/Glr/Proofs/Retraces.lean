import Glr.Proofs.Gists
import Glr.Proofs.Locality
import Glr.Proofs.Tokens

/-!
# Trees that the automaton makes again

A tree that was built while only one stack was alive, by cells that hold one action, can be built
again from its text: the automaton reads its tokens, shifts them, and makes its reductions as they
come up.  `Retraces` says so for trees side by side.  It goes along the trees with the state that
the automaton has come to (`Front`), and it says of every token how it is read and where it is
shifted, and of every node which reduction makes it and that the token behind calls for just that.

What is behind the last token is not among the trees.  The reductions that are waiting for it are
asked for on the symbols of a set; if that is empty nothing is asked, and then it is a matter of the
tables whether they come about (`Green.closes`).
-/

namespace Glr

/-- A token without the mode it was lexed in. -/
def Token.sight (t : Token) : Token := { t with lexMode := 0 }

/-- Where the automaton is between two trees. -/
structure Front where
  /-- The state with all reductions made. -/
  closed : StateId
  /-- The state before any of them, in which the next token is read, if that is known. -/
  opened : Option StateId
  /-- Whether an extra was pushed last. -/
  trailing : Bool
  deriving DecidableEq

namespace Language

/-- The state that a terminal is shifted to where nothing else can be done with it. -/
def shifted (l : Language) (state : StateId) (s : Symbol) : StateId :=
  match l.actions state s with
  | [.shift next] => next
  | _ => 0

mutual

/-- Where the automaton is behind a tree. -/
def past (l : Language) (f : Front) : Green → Front
  | .mk d cs =>
    match d.production with
    | some _ => ⟨(l.goto? f.closed d.symbol).getD 0, (l.pastAll f cs).opened, false⟩
    | none =>
      if d.flags.extra then { f with trailing := true }
      else ⟨l.shifted f.closed d.symbol, some (l.shifted f.closed d.symbol), false⟩

/-- Where the automaton is behind trees side by side. -/
def pastAll (l : Language) (f : Front) : List Green → Front
  | [] => f
  | g :: gs => l.pastAll (l.past f g) gs

end

end Language

namespace Green

mutual

/-- The first token of a tree, extras apart. -/
def first? : Green → Option Symbol
  | mk d cs =>
    match d.production with
    | some _ => firstIn? cs
    | none => if d.flags.extra then none else some d.symbol

def firstIn? : List Green → Option Symbol
  | [] => none
  | g :: gs => (first? g).or (firstIn? gs)

end

mutual

/-- Whether a symbol calls for the reductions that end a tree, and for nothing else. -/
def closes (l : Language) (s : Symbol) (f : Front) : Green → Bool
  | mk d cs =>
    match d.production with
    | some id => closesIn l s f cs && l.actions (l.pastAll f cs).closed s == [.reduce id]
    | none => true

def closesIn (l : Language) (s : Symbol) (f : Front) : List Green → Bool
  | [] => true
  | g :: gs => ((firstIn? gs).isSome || closes l s f g) && closesIn l s (l.past f g) gs

end

/-- What a tree is if it is a token. -/
def asToken (g : Green) (flags : NodeFlags) : Green :=
  leaf ⟨g.symbol, g.length, g.extent, g.lookahead, 0, 0, flags⟩

/-- The children of a production, with extras only between them. -/
structure Fills (cs : List Green) (p : Production) : Prop where
  counted : (cs.filter (!·.isExtra)).length = p.length
  first : ∀ c ∈ cs.head?, c.isExtra = false
  last : ∀ c ∈ cs.getLast?, c.isExtra = false

end Green

open Green

/-- The symbols behind a place: the first token of the trees there, or else those behind them. -/
def Next (gs : List Green) (P : Symbol → Prop) (t : Symbol) : Prop :=
  match firstIn? gs with
  | some s => t = s
  | none => P t

/-- A leaf is what is read in a state, whatever the mode of that is. -/
def Language.Sees (l : Language) (text : Text) (state : StateId) (x : Nat) (g : Green) : Prop :=
  (l.nextToken text x (l.lexMode state)).sight = (g.token x).sight

/-- The automaton makes trees again from the text at a place, with one of some symbols behind
them. -/
inductive Retraces (l : Language) (text : Text) :
    (Symbol → Prop) → Front → Nat → List Green → Prop where
  | nil {P : Symbol → Prop} {f : Front} {x : Nat} : Retraces l text P f x []
  | token {P : Symbol → Prop} {f : Front} {x : Nat} {g : Green} {gs : List Green}
      (leaf : g.gist = (g.asToken NodeFlags.none).gist) (nonempty : 0 < g.length)
      (reads : ∀ o ∈ f.opened, l.Sees text o x g)
      (shift : l.actions f.closed g.symbol = [.shift (l.past f g).closed])
      (rest : Retraces l text P (l.past f g) (x + g.length) gs) : Retraces l text P f x (g :: gs)
  | extra {P : Symbol → Prop} {f : Front} {x : Nat} {g : Green} {gs : List Green}
      (leaf : g.gist = (g.asToken NodeFlags.onlyExtra).gist) (nonempty : 0 < g.length)
      (notEnd : g.symbol ≠ Symbol.endOfText) (extra : l.isExtra g.symbol = true)
      (reads : ∀ o ∈ f.opened, l.Sees text o x g ∧ l.hasActions o g.symbol = false)
      (rest : Retraces l text P (l.past f g) (x + g.length) gs) : Retraces l text P f x (g :: gs)
  | node {P : Symbol → Prop} {f : Front} {x : Nat} {g : Green} {gs : List Green}
      {id : ProductionId} {p : Production} (known : l.production? id = some p)
      (made : g.gist = (Green.node ⟨p.lhs, some id, f.closed, 0, p.dynamicPrecedence,
        NodeFlags.none⟩ g.children).value.gist)
      (fills : Fills g.children p) (onTop : g.children = [] → f.trailing = false)
      (below : Retraces l text (Next gs P) f x g.children)
      (calls : ∀ t, Next gs P t → l.actions (l.pastAll f g.children).closed t = [.reduce id])
      (goto : l.goto? f.closed p.lhs = some (l.past f g).closed)
      (rest : Retraces l text P (l.past f g) (x + g.length) gs) : Retraces l text P f x (g :: gs)

/-! ## Where the automaton is -/

section Front

variable {l : Language} {f : Front} {g h : Green} {gs hs : List Green}

theorem past_token (token : g.production = none) (plain : g.isExtra = false) :
    l.past f g = ⟨l.shifted f.closed g.symbol, some (l.shifted f.closed g.symbol), false⟩ := by
  obtain ⟨d, cs⟩ := g
  have token : d.production = none := token
  have plain : d.flags.extra = false := plain
  rw [Language.past, token]
  dsimp only
  rw [plain]
  rfl

theorem past_extra (token : g.production = none) (extra : g.isExtra = true) :
    l.past f g = { f with trailing := true } := by
  obtain ⟨d, cs⟩ := g
  have token : d.production = none := token
  have extra : d.flags.extra = true := extra
  rw [Language.past, token]
  dsimp only
  rw [extra]
  rfl

theorem past_node {id : ProductionId} (inner : g.production = some id) : l.past f g =
    ⟨(l.goto? f.closed g.symbol).getD 0, (l.pastAll f g.children).opened, false⟩ := by
  obtain ⟨d, cs⟩ := g
  have inner : d.production = some id := inner
  rw [Language.past, inner]
  rfl

theorem first?_token (token : g.production = none) (plain : g.isExtra = false) :
    g.first? = some g.symbol := by
  obtain ⟨d, cs⟩ := g
  have token : d.production = none := token
  have plain : d.flags.extra = false := plain
  rw [first?, token]
  dsimp only
  rw [plain]
  rfl

theorem first?_extra (token : g.production = none) (extra : g.isExtra = true) :
    g.first? = none := by
  obtain ⟨d, cs⟩ := g
  have token : d.production = none := token
  have extra : d.flags.extra = true := extra
  rw [first?, token]
  dsimp only
  rw [extra]
  rfl

theorem first?_node {id : ProductionId} (inner : g.production = some id) :
    g.first? = firstIn? g.children := by
  obtain ⟨d, cs⟩ := g
  have inner : d.production = some id := inner
  rw [first?, inner]
  rfl

@[simp] theorem pastAll_nil : l.pastAll f [] = f := by rw [Language.pastAll]

@[simp] theorem pastAll_cons : l.pastAll f (g :: gs) = l.pastAll (l.past f g) gs := by
  rw [Language.pastAll]

theorem pastAll_append : l.pastAll f (gs ++ hs) = l.pastAll (l.pastAll f gs) hs := by
  induction gs generalizing f with
  | nil => rw [List.nil_append, pastAll_nil]
  | cons g gs ih => rw [List.cons_append, pastAll_cons, pastAll_cons, ih]

@[simp] theorem firstIn?_nil : firstIn? [] = none := by rw [firstIn?]

@[simp] theorem firstIn?_cons : firstIn? (g :: gs) = g.first?.or (firstIn? gs) := by rw [firstIn?]

theorem firstIn?_append : firstIn? (gs ++ hs) = (firstIn? gs).or (firstIn? hs) := by
  induction gs with
  | nil => simp
  | cons g gs ih => rw [List.cons_append, firstIn?_cons, firstIn?_cons, ih, Option.or_assoc]

theorem next_append {P : Symbol → Prop} : Next (gs ++ hs) P = Next gs (Next hs P) := by
  funext t
  rw [Next, Next, Next, firstIn?_append]
  cases firstIn? gs <;> rfl

@[simp] theorem next_nil {P : Symbol → Prop} : Next [] P = P := by
  funext t
  rw [Next, firstIn?_nil]

theorem next_cons {P : Symbol → Prop} : Next (g :: gs) P = Next [g] (Next gs P) :=
  (next_append : Next ([g] ++ gs) P = _)

theorem Next.mono {P Q : Symbol → Prop} (fewer : ∀ t, P t → Q t) {t : Symbol} :
    Next gs P t → Next gs Q t := by
  rw [Next, Next]
  cases firstIn? gs with
  | none => exact fewer t
  | some s => exact id

/-! ### What counts of a tree is its gist -/

mutual

theorem past_gist (l : Language) : ∀ (f : Front) (g : Green), l.past f g.gist = l.past f g
  | f, .mk d cs => by
    rw [gist, Language.past, Language.past, pastAll_gists l f cs]

theorem pastAll_gists (l : Language) : ∀ (f : Front) (gs : List Green),
    l.pastAll f (gists gs) = l.pastAll f gs
  | f, [] => by rw [gists]
  | f, g :: gs => by
    rw [gists, pastAll_cons, pastAll_cons, past_gist l f g, pastAll_gists l _ gs]

end

theorem past_congr (same : g.gist = h.gist) : l.past f g = l.past f h := by
  rw [← past_gist l f g, same, past_gist]

theorem pastAll_congr (same : gs.map gist = hs.map gist) : l.pastAll f gs = l.pastAll f hs := by
  rw [← pastAll_gists l f gs, gists_eq, same, ← gists_eq, pastAll_gists]

mutual

theorem first?_gist : ∀ g : Green, g.gist.first? = g.first?
  | .mk d cs => by rw [gist, first?, first?, firstIn?_gists cs]

theorem firstIn?_gists : ∀ gs : List Green, firstIn? (gists gs) = firstIn? gs
  | [] => by rw [gists]
  | g :: gs => by
    rw [gists, firstIn?_cons, firstIn?_cons, first?_gist g, firstIn?_gists gs]

end

theorem next_congr {P : Symbol → Prop} (same : gs.map gist = hs.map gist) :
    Next gs P = Next hs P := by
  have first : firstIn? gs = firstIn? hs := by
    rw [← firstIn?_gists gs, gists_eq, same, ← gists_eq, firstIn?_gists]
  funext t
  rw [Next, Next, first]

/-! ### Less may be known -/

/-- Less is known of where the automaton is. -/
structure Front.Blurs (f' f : Front) : Prop where
  closed : f'.closed = f.closed
  opened : ∀ o ∈ f'.opened, o ∈ f.opened
  trailing : f'.trailing = true → f.trailing = true

theorem Front.Blurs.refl (f : Front) : f.Blurs f := ⟨rfl, fun _ h => h, id⟩

mutual

theorem Front.Blurs.past (l : Language) : ∀ {f' f : Front} (g : Green), f'.Blurs f →
    (l.past f' g).Blurs (l.past f g)
  | f', f, .mk d cs, h => by
    rw [Language.past, Language.past, h.closed]
    split
    · exact ⟨rfl, (Front.Blurs.pastAll l cs h).opened, id⟩
    · split
      · exact ⟨rfl, h.opened, id⟩
      · exact .refl _

theorem Front.Blurs.pastAll (l : Language) : ∀ {f' f : Front} (gs : List Green), f'.Blurs f →
    (l.pastAll f' gs).Blurs (l.pastAll f gs)
  | f', f, [], h => by
    rw [pastAll_nil, pastAll_nil]
    exact h
  | f', f, g :: gs, h => by
    rw [pastAll_cons, pastAll_cons]
    exact Front.Blurs.pastAll l gs (Front.Blurs.past l g h)

end

end Front

/-! ## Tokens -/

section Tokens

variable {l : Language} {text : Text} {state : StateId} {x : Nat} {g h : Green} {flags : NodeFlags}

theorem production_of_asToken (leaf : g.gist = (g.asToken flags).gist) : g.production = none :=
  production_congr leaf

theorem children_of_asToken (leaf : g.gist = (g.asToken flags).gist) : g.children = [] := by
  have := children_congr leaf
  exact List.map_eq_nil_iff.mp this

theorem isExtra_of_asToken (leaf : g.gist = (g.asToken flags).gist) : g.isExtra = flags.extra :=
  isExtra_congr leaf

theorem lookahead_congr (same : g.gist = h.gist) (token : g.production = none) :
    g.lookahead = h.lookahead := by
  have token' : h.production = none := production_congr same ▸ token
  rw [← lookahead_gist token, same, lookahead_gist token']

theorem asToken_congr (same : g.gist = h.gist) (token : g.production = none) :
    g.asToken flags = h.asToken flags := by
  have extent : g.extent = h.extent := by rw [← extent_gist g, same, extent_gist]
  rw [asToken, asToken, symbol_congr same, length_congr same, extent, lookahead_congr same token]

theorem Language.Sees.congr (sees : l.Sees text state x g) (same : g.gist = h.gist)
    (token : g.production = none) : l.Sees text state x h := by
  have extent : g.extent = h.extent := by rw [← extent_gist g, same, extent_gist]
  have seen : (g.token x).sight = (h.token x).sight := by
    rw [Token.sight, Token.sight, Green.token, Green.token]
    dsimp only
    rw [symbol_congr same, length_congr same, extent, lookahead_congr same token]
  rw [Language.Sees, ← seen]
  exact sees

end Tokens

theorem Green.Fills.congr {cs ds : List Green} {p : Production} (fills : Fills cs p)
    (same : cs.map gist = ds.map gist) : Fills ds p := by
  have extras : cs.map isExtra = ds.map isExtra := by
    have := congrArg (List.map isExtra) same
    simpa only [List.map_map, Function.comp_def, isExtra_gist] using this
  have counts : ∀ gs : List Green, (gs.filter (!·.isExtra)).length =
      ((gs.map isExtra).filter (!·)).length := by
    intro gs
    rw [List.filter_map, List.length_map]
    rfl
  refine ⟨?_, fun d hd => ?_, fun d hd => ?_⟩
  · rw [counts, ← extras, ← counts]
    exact fills.counted
  · have := congrArg List.head? extras
    rw [List.head?_map, List.head?_map, hd] at this
    obtain ⟨c, hc, same⟩ := Option.map_eq_some_iff.mp this
    rw [← same]
    exact fills.first c hc
  · have := congrArg List.getLast? extras
    rw [List.getLast?_map, List.getLast?_map, hd] at this
    obtain ⟨c, hc, same⟩ := Option.map_eq_some_iff.mp this
    rw [← same]
    exact fills.last c hc

/-! ## First leaves -/

section Leaves

variable {g leaf : Green} {gs : List Green}

theorem firstLeafIn?_token (nonempty : 0 < g.length) (noChildren : g.children = []) :
    firstLeafIn? (g :: gs) = some g := by
  obtain ⟨d, cs⟩ := g
  obtain rfl : cs = [] := noChildren
  have nonempty : 0 < d.length := nonempty
  rw [firstLeafIn?, if_pos (show (Green.mk d []).length > 0 from nonempty), firstLeaf?,
    if_neg (by omega)]
  rfl

theorem firstLeafIn?_of_spread_eq_zero (empty : spread gs = 0) : firstLeafIn? gs = none := by
  induction gs with
  | nil => rw [firstLeafIn?]
  | cons g gs ih =>
    rw [spread_cons] at empty
    rw [firstLeafIn?, if_neg (by omega)]
    exact ih (by omega)

/-- The first leaf of the children is the first leaf. -/
theorem firstLeafIn?_inner (inner : g.children ≠ []) (length : g.length = spread g.children)
    (found : firstLeafIn? g.children = some leaf) :
    firstLeafIn? g.children = firstLeafIn? (g :: gs) := by
  have some : g.length ≠ 0 := by
    intro none
    rw [firstLeafIn?_of_spread_eq_zero (length ▸ none)] at found
    cases found
  obtain ⟨d, cs⟩ := g
  have inner : cs.isEmpty = false := Bool.eq_false_iff.mpr fun h => inner (List.isEmpty_iff.mp h)
  have some : d.length ≠ 0 := some
  rw [firstLeafIn?, if_pos (show (Green.mk d cs).length > 0 from Nat.pos_of_ne_zero some),
    firstLeaf?, if_neg some, inner]
  rfl

end Leaves

/-! ## Trees made again -/

namespace Retraces

variable {l : Language} {text : Text} {P Q : Symbol → Prop} {f f' : Front} {x : Nat} {g h : Green}
  {gs hs : List Green}

theorem weaken (h : Retraces l text P f x gs) (blurs : f'.Blurs f) (fewer : ∀ t, Q t → P t) :
    Retraces l text Q f' x gs := by
  induction h generalizing Q f' with
  | nil => exact .nil
  | @token P f x g gs leaf nonempty reads shift rest ih =>
    refine .token leaf nonempty (fun o ho => reads o (blurs.opened o ho)) ?_
      (ih (blurs.past l g) fewer)
    rw [blurs.closed, (blurs.past l g).closed]
    exact shift
  | @extra P f x g gs leaf nonempty notEnd extra reads rest ih =>
    exact .extra leaf nonempty notEnd extra (fun o ho => reads o (blurs.opened o ho))
      (ih (blurs.past l g) fewer)
  | @node P f x g gs id p known made fills onTop below calls goto rest ih ih' =>
    have later : ∀ t, Next gs Q t → Next gs P t := fun _ => .mono fewer
    refine .node known ?_ fills (fun none => ?_) (ih blurs later) (fun t ht => ?_) ?_
      (ih' (blurs.past l g) fewer)
    · rw [blurs.closed]
      exact made
    · exact Bool.eq_false_iff.mpr fun trailing => by
        have := blurs.trailing trailing
        rw [onTop none] at this
        cases this
    · rw [(blurs.pastAll l g.children).closed]
      exact calls t (later t ht)
    · rw [blurs.closed, (blurs.past l g).closed]
      exact goto

/-- Trees of the same gists are made again all the same. -/
theorem congr (h : Retraces l text P f x gs) (same : gs.map gist = hs.map gist) :
    Retraces l text P f x hs := by
  induction h generalizing hs with
  | nil =>
    obtain rfl := List.map_eq_nil_iff.mp same.symm
    exact .nil
  | @token P f x g gs leaf nonempty reads shift rest ih =>
    rcases hs with _ | ⟨h, hs⟩
    · cases same
    · obtain ⟨head, tail⟩ := List.cons.inj same
      have token := production_of_asToken leaf
      refine .token ?_ (length_congr head ▸ nonempty)
        (fun o ho => (reads o ho).congr head token) ?_ ?_
      · rw [← head, leaf, asToken_congr head token]
      · rw [← symbol_congr head, ← past_congr head]
        exact shift
      · rw [← past_congr head, ← length_congr head]
        exact ih tail
  | @extra P f x g gs leaf nonempty notEnd extra reads rest ih =>
    rcases hs with _ | ⟨h, hs⟩
    · cases same
    · obtain ⟨head, tail⟩ := List.cons.inj same
      have token := production_of_asToken leaf
      refine .extra ?_ (length_congr head ▸ nonempty) (symbol_congr head ▸ notEnd) (symbol_congr head ▸ extra)
        (fun o ho => ⟨(reads o ho).1.congr head token, symbol_congr head ▸ (reads o ho).2⟩) ?_
      · rw [← head, leaf, asToken_congr head token]
      · rw [← past_congr head, ← length_congr head]
        exact ih tail
  | @node P f x g gs id p known made fills onTop below calls goto rest ih ih' =>
    rcases hs with _ | ⟨h, hs⟩
    · cases same
    · obtain ⟨head, tail⟩ := List.cons.inj same
      have inside := children_congr head
      refine .node known ?_ (fills.congr inside) (fun none => onTop ?_) ?_ ?_ ?_ ?_
      · rw [← head, made]
        exact gist_node_congr inside
      · rw [none] at inside
        exact List.map_eq_nil_iff.mp inside
      · rw [← next_congr tail]
        exact ih inside
      · rw [← next_congr tail, ← pastAll_congr inside]
        exact calls
      · rw [← past_congr head]
        exact goto
      · rw [← past_congr head, ← length_congr head]
        exact ih' tail

/-- Trees side by side are made again one after the other. -/
theorem append (h : Retraces l text (Next hs P) f x gs)
    (rest : Retraces l text P (l.pastAll f gs) (x + spread gs) hs) :
    Retraces l text P f x (gs ++ hs) := by
  generalize behind : Next hs P = Q at h
  induction h with
  | nil =>
    rw [pastAll_nil, spread_nil, Nat.add_zero] at rest
    exact rest
  | token leaf nonempty reads shift _ ih =>
    rw [pastAll_cons, spread_cons, ← Nat.add_assoc] at rest
    exact .token leaf nonempty reads shift (ih rest behind)
  | extra leaf nonempty notEnd extra reads _ ih =>
    rw [pastAll_cons, spread_cons, ← Nat.add_assoc] at rest
    exact .extra leaf nonempty notEnd extra reads (ih rest behind)
  | node known made fills onTop below calls goto _ _ ih =>
    rw [pastAll_cons, spread_cons, ← Nat.add_assoc] at rest
    subst behind
    rw [← next_append] at below calls
    exact .node known made fills onTop below calls goto (ih rest rfl)

section Made

variable {id : ProductionId} {p : Production}
  (made : g.gist = (Green.node ⟨p.lhs, some id, f.closed, 0, p.dynamicPrecedence,
    NodeFlags.none⟩ g.children).value.gist)

include made

theorem production_of_made : g.production = some id :=
  (production_congr made).trans (production_node _ _)

theorem length_of_made : g.length = spread g.children :=
  (length_congr made).trans (length_node _ _)

theorem parseState_of_made : g.parseState = f.closed := by
  have inner : g.production.isSome = true := by
    rw [production_of_made made]
    rfl
  have inner' := production_congr made ▸ inner
  rw [← parseState_gist inner, made, parseState_gist inner']
  rfl

end Made

/-- A tree with a production is no extra. -/
theorem isExtra_eq_false (h : Retraces l text P f x (g :: gs)) (inner : g.production.isSome = true) :
    g.isExtra = false := by
  cases h with
  | token leaf => exact isExtra_of_asToken leaf
  | extra leaf =>
    rw [production_of_asToken leaf] at inner
    cases inner
  | node known made =>
    rw [isExtra_congr made]
    exact isExtra_node _ _

/-- The symbols that call for the reductions at the end may stand behind trees. -/
theorem close (h : Retraces l text P f x gs) :
    (∀ s, Q s → closesIn l s f gs = true) →
      Retraces l text (fun t => P t ∨ Q t) f x gs := by
  induction h with
  | nil => exact fun _ => .nil
  | token leaf nonempty reads shift rest ih =>
    refine fun closes => .token leaf nonempty reads shift (ih fun s hs => ?_)
    have := closes s hs
    rw [closesIn, Bool.and_eq_true] at this
    exact this.2
  | extra leaf nonempty notEnd extra reads rest ih =>
    refine fun closes => .extra leaf nonempty notEnd extra reads (ih fun s hs => ?_)
    have := closes s hs
    rw [closesIn, Bool.and_eq_true] at this
    exact this.2
  | @node P f x g gs id p known made fills onTop below calls goto rest ih ih' =>
    intro closes
    have here : ∀ s, Q s → ((firstIn? gs).isSome = true ∨ Green.closes l s f g = true) ∧
        closesIn l s (l.past f g) gs = true := fun s hs => by
      have := closes s hs
      rw [closesIn, Bool.and_eq_true, Bool.or_eq_true] at this
      exact this
    have inside : Retraces l text (Next gs fun t => P t ∨ Q t) f x g.children ∧
        ∀ t, Next gs (fun t => P t ∨ Q t) t →
          l.actions (l.pastAll f g.children).closed t = [.reduce id] := by
      have next : ∀ Q : Symbol → Prop, Next gs Q = fun t =>
          match firstIn? gs with
          | some u => t = u
          | none => Q t := fun _ => rfl
      rw [next] at ih below calls ⊢
      cases first : firstIn? gs with
      | some u =>
        rw [first] at below calls
        exact ⟨below, calls⟩
      | none =>
        rw [first] at here ih calls
        have own : ∀ s, Q s → closesIn l s f g.children = true ∧
            l.actions (l.pastAll f g.children).closed s = [.reduce id] := fun s hs => by
          have inner := production_of_made made
          have closed := (here s hs).1.resolve_left Bool.false_ne_true
          obtain ⟨d, cs⟩ := g
          have inner : d.production = some id := inner
          rw [Green.closes, inner] at closed
          dsimp only at closed
          rw [Bool.and_eq_true, beq_iff_eq] at closed
          exact closed
        exact ⟨ih fun s hs => (own s hs).1, fun t ht => ht.elim (calls t) fun hs => (own t hs).2⟩
    exact .node known made fills onTop inside.1 inside.2 goto (ih' fun s hs => (here s hs).2)

/-- If the first leaf that covers text is no extra, it is the first token. -/
theorem first (h : Retraces l text P f x gs) :
    (firstLeafIn? gs = none → spread gs = 0 ∧ firstIn? gs = none) ∧
      ∀ leaf, firstLeafIn? gs = some leaf → leaf.isExtra = false →
        firstIn? gs = some leaf.symbol := by
  induction h with
  | nil =>
    rw [firstLeafIn?]
    exact ⟨fun _ => ⟨rfl, firstIn?_nil⟩, fun _ found => (nomatch found)⟩
  | @token P f x g gs leaf nonempty reads shift rest ih =>
    rw [firstLeafIn?_token nonempty (children_of_asToken leaf), firstIn?_cons,
      first?_token (production_of_asToken leaf) (isExtra_of_asToken leaf)]
    exact ⟨fun none => (nomatch none), fun _ found _ => Option.some.inj found ▸ rfl⟩
  | @extra P f x g gs leaf nonempty notEnd extra reads rest ih =>
    rw [firstLeafIn?_token nonempty (children_of_asToken leaf)]
    refine ⟨fun none => (nomatch none), fun _ found plain => ?_⟩
    rw [← Option.some.inj found, isExtra_of_asToken leaf] at plain
    cases plain
  | @node P f x g gs id p known made fills onTop below calls goto rest ih ih' =>
    have length := length_of_made made
    rw [firstIn?_cons, first?_node (production_of_made made), spread_cons]
    by_cases empty : g.length = 0
    · obtain ⟨-, none⟩ := ih.1 (firstLeafIn?_of_spread_eq_zero (length ▸ empty))
      rw [firstLeafIn?, if_neg (by omega), none, Option.none_or, empty, Nat.zero_add]
      exact ih'
    · have some : firstLeafIn? g.children ≠ none := fun none => empty (length.trans (ih.1 none).1)
      obtain ⟨leaf, found⟩ := Option.ne_none_iff_exists'.mp some
      have inner : g.children ≠ [] := by
        intro none
        rw [none, firstLeafIn?] at found
        cases found
      rw [← firstLeafIn?_inner inner length found, found]
      refine ⟨fun none => (nomatch none), fun _ same plain => ?_⟩
      rw [ih.2 leaf found (Option.some.inj same ▸ plain), Option.some_or, Option.some.inj same]

/-- Where a token can be shifted at once the trees that start with it start with nothing else, and
what is known of the state before is only how that token is read in it. -/
theorem opening {n : StateId} {t : Symbol} (h : Retraces l text P f x gs) :
    gs ≠ [] → Next gs P t → l.actions f.closed t = [.shift n] → f'.closed = f.closed →
      (∀ leaf, firstLeafIn? gs = some leaf →
        leaf.isExtra = false ∧ ∀ o ∈ f'.opened, l.Sees text o x leaf) →
      Retraces l text P f' x gs ∧ l.pastAll f' gs = l.pastAll f gs := by
  induction h generalizing f' with
  | nil => exact fun some => absurd rfl some
  | @token P f x g gs leaf nonempty reads shift rest ih =>
    intro _ _ _ closed first
    have children := children_of_asToken leaf
    have token := production_of_asToken leaf
    have plain := isExtra_of_asToken leaf
    have here : firstLeafIn? (g :: gs) = some g := firstLeafIn?_token nonempty children
    have same : l.past f' g = l.past f g := by
      rw [past_token token plain, past_token token plain, closed]
    refine ⟨.token leaf nonempty (first g here).2 ?_ ?_, ?_⟩
    · rw [closed, same]
      exact shift
    · rw [same]
      exact rest
    · rw [pastAll_cons, same, pastAll_cons]
  | @extra P f x g gs leaf nonempty notEnd extra reads rest ih =>
    intro _ _ _ _ first
    have plain := (first g (firstLeafIn?_token nonempty (children_of_asToken leaf))).1
    rw [isExtra_of_asToken leaf] at plain
    cases plain
  | @node P f x g gs id p known made fills onTop below calls goto rest ih ih' =>
    intro _ next shift closed first
    have inner := production_of_made made
    have length := length_of_made made
    rw [next_cons, Next, firstIn?_cons, firstIn?_nil, Option.or_none, first?_node inner] at next
    by_cases none : g.children = []
    · -- An empty node is made before the token can be shifted.
      rw [none, firstIn?_nil] at next
      have reduces := calls t next
      rw [none, pastAll_nil, shift] at reduces
      cases reduces
    · have inside : ∀ leaf, firstLeafIn? g.children = some leaf →
          leaf.isExtra = false ∧ ∀ o ∈ f'.opened, l.Sees text o x leaf := fun leaf found =>
        first leaf ((firstLeafIn?_inner none length found).symm.trans found)
      obtain ⟨below', same⟩ := ih none next shift closed inside
      have here : l.past f' g = l.past f g := by
        rw [past_node inner, past_node inner, closed, same]
      refine ⟨.node known ?_ fills (absurd · none) below' ?_ ?_ ?_, ?_⟩
      · rw [closed]
        exact made
      · rw [same]
        exact calls
      · rw [closed, here]
        exact goto
      · rw [here]
        exact rest
      · rw [pastAll_cons, here, pastAll_cons]

/-- The trees are made again wherever all their tokens are read as before. -/
theorem moved {text' : Text} {x' : Nat} (h : Retraces l text P f x gs) :
    (∀ (j : Nat) (leaf : Green) (mode : Nat), HoldsIn gs j leaf → leaf.children = [] →
      leaf.production = none → (l.nextToken text (x + j) mode).sight = (leaf.token (x + j)).sight →
      (l.nextToken text' (x' + j) mode).sight = (leaf.token (x' + j)).sight) →
    Retraces l text' P f x' gs := by
  induction h generalizing x' with
  | nil => exact fun _ => .nil
  | @token P f x g gs leaf nonempty reads shift rest ih =>
    intro kept
    refine .token leaf nonempty (fun o ho => ?_) shift (ih fun j n mode held => ?_)
    · exact kept 0 g _ (.here .root) (children_of_asToken leaf) (production_of_asToken leaf)
        (reads o ho)
    · rw [Nat.add_assoc, Nat.add_assoc]
      exact kept _ n mode held.there
  | @extra P f x g gs leaf nonempty notEnd extra reads rest ih =>
    intro kept
    refine .extra leaf nonempty notEnd extra (fun o ho => ⟨?_, (reads o ho).2⟩)
      (ih fun j n mode held => ?_)
    · exact kept 0 g _ (.here .root) (children_of_asToken leaf) (production_of_asToken leaf)
        (reads o ho).1
    · rw [Nat.add_assoc, Nat.add_assoc]
      exact kept _ n mode held.there
  | @node P f x g gs id p known made fills onTop below calls goto rest ih ih' =>
    intro kept
    refine .node known made fills onTop (ih fun j n mode held => ?_) calls goto
      (ih' fun j n mode held => ?_)
    · exact kept j n mode (.here held.holds)
    · rw [Nat.add_assoc, Nat.add_assoc]
      exact kept _ n mode held.there

/-- Every node among the trees is made again by itself, whatever is known of the state before and
of what is behind. -/
theorem of_holds (h : Retraces l text P f x gs) : ∀ {i : Nat} {n : Green}, HoldsIn gs i n →
    n.production.isSome = true →
    Retraces l text (fun _ => False) ⟨n.parseState, none, false⟩ (x + i) [n] := by
  have leafless {g n : Green} {i : Nat} (children : g.children = []) (token : g.production = none)
      (held : g.Holds i n) : n.production.isSome = true → False := by
    rcases held.cases_root with ⟨-, rfl⟩ | held
    · rw [token]
      exact Bool.false_ne_true
    · rw [children] at held
      cases held
  induction h with
  | nil => exact fun held => nomatch held
  | @token P f x g gs leaf nonempty reads shift rest ih =>
    intro i n held inner
    cases held with
    | here held =>
      exact (leafless (children_of_asToken leaf) (production_of_asToken leaf) held inner).elim
    | there held => exact Nat.add_assoc .. ▸ ih held inner
  | @extra P f x g gs leaf nonempty notEnd extra reads rest ih =>
    intro i n held inner
    cases held with
    | here held =>
      exact (leafless (children_of_asToken leaf) (production_of_asToken leaf) held inner).elim
    | there held => exact Nat.add_assoc .. ▸ ih held inner
  | @node P f x g gs id p known made fills onTop below calls goto rest ih ih' =>
    intro i n held inner
    cases held with
    | here held =>
      rcases held.cases_root with ⟨rfl, rfl⟩ | held
      · have state := parseState_of_made made
        have nothing : ∀ t, ¬ Next [] (fun _ => False) t := fun t ht => by
          rwa [next_nil] at ht
        have own : Retraces l text (fun _ => False) f x [n] :=
          .node known made fills onTop
            (below.weaken (.refl f) fun t ht => absurd ht (nothing t))
            (fun t ht => absurd ht (nothing t)) goto .nil
        exact own.weaken ⟨state, by simp, by simp⟩
          fun _ h => h
      · exact ih held inner
    | there held => exact Nat.add_assoc .. ▸ ih' held inner

end Retraces

end Glr
