import Glr.Proofs.Matching
import Glr.Proofs.Pieces
import Glr.Proofs.TokenDefs

/-!
# What token expressions match

A token expression denotes a set of strings, said with the operations on languages (`Expr.texts`).
Its pattern is the text of one regular expression, put together from the texts of its parts, and the
whole is read once.  That reading finds the parts again (`part_toPattern`): so a token matches what
its expression denotes, under two conditions that nothing checks.  Each pattern inside has to keep
to the parentheses that are put around it (`Expr.Contained`): two halves that are no patterns may
make a whole together, and a comment at the end of one swallows the parenthesis.  And a choice
without branches, which denotes nothing, is written as an empty group, which matches the empty text.

All of it holds for any syntax of patterns that means what such a syntax promises.
-/

namespace Glr

open PatternSyntax (Meaning readableMeaning)

theorem of_map_eq_ok {ε α β : Type} {x : Except ε α} {f : α → β} {b : β}
    (h : x.map f = .ok b) : ∃ a, x = .ok a ∧ f a = b := by
  cases x with
  | error e => cases h
  | ok a => exact ⟨a, rfl, Except.ok.inj h⟩

namespace Expr

open Regex (just)

/-! ## Texts -/

mutual

/-- The strings that a token expression denotes, given what patterns match and what a choice without
branches denotes.  A name denotes none: it is no text of a token. -/
def texts [PatternSyntax] (M : Meaning) (void : ByteLanguage) : Expr → ByteLanguage
  | literal text => just (Text.ofString text).toList
  | pattern source => M.texts source
  | blank => 1
  | seq items => textsInOrder M void items
  | choice [] => void
  | choice (e :: es) => e.texts M void + textsOfAny M void es
  | many item => KStar.kstar (item.texts M void)
  | some item => item.texts M void * KStar.kstar (item.texts M void)
  | optional item => 1 + item.texts M void
  | token item => item.texts M void
  | prec _ item => item.texts M void
  | precLeft _ item => item.texts M void
  | precRight _ item => item.texts M void
  | precDynamic _ item => item.texts M void
  | ref _ => 0

/-- The strings of several expressions one after another. -/
def textsInOrder [PatternSyntax] (M : Meaning) (void : ByteLanguage) :
    List Expr → ByteLanguage
  | [] => 1
  | e :: es => e.texts M void * textsInOrder M void es

/-- The strings of any of several expressions. -/
def textsOfAny [PatternSyntax] (M : Meaning) (void : ByteLanguage) :
    List Expr → ByteLanguage
  | [] => 0
  | e :: es => e.texts M void + textsOfAny M void es

end

theorem textsInOrder_eq [PatternSyntax] (M : Meaning) (void : ByteLanguage) (es : List Expr) :
    textsInOrder M void es = (es.map (texts M void)).prod := by
  induction es with
  | nil => rfl
  | cons e es ih => rw [textsInOrder, ih, List.map_cons, List.prod_cons]

theorem textsOfAny_eq [PatternSyntax] (M : Meaning) (void : ByteLanguage) (es : List Expr) :
    textsOfAny M void es = (es.map (texts M void)).sum := by
  induction es with
  | nil => rfl
  | cons e es ih => rw [textsOfAny, ih, List.map_cons, List.sum_cons]

mutual

/-- An expression and all that it is made of. -/
def parts : Expr → List Expr
  | seq items => seq items :: partsOf items
  | choice items => choice items :: partsOf items
  | many item => many item :: item.parts
  | some item => some item :: item.parts
  | optional item => optional item :: item.parts
  | token item => token item :: item.parts
  | prec level item => prec level item :: item.parts
  | precLeft level item => precLeft level item :: item.parts
  | precRight level item => precRight level item :: item.parts
  | precDynamic level item => precDynamic level item :: item.parts
  | blank => [blank]
  | ref name => [ref name]
  | literal text => [literal text]
  | pattern source => [pattern source]

/-- Several expressions and all that they are made of. -/
def partsOf : List Expr → List Expr
  | [] => []
  | e :: es => e.parts ++ partsOf es

end

variable {e e' x : Expr} {es : List Expr}

theorem mem_partsOf (mem : e ∈ es) (h : x ∈ e.parts) : x ∈ partsOf es := by
  induction es with
  | nil => exact absurd mem List.not_mem_nil
  | cons e' es ih =>
    rw [partsOf, List.mem_append]
    rcases List.mem_cons.mp mem with rfl | mem
    · exact Or.inl h
    · exact Or.inr (ih mem)

section

variable [PatternSyntax] {M : Meaning}

/-- Whether every pattern in an expression keeps to the parentheses around it: what it matches there
is what it matches by itself. -/
def Contained (M : Meaning) (e : Expr) : Prop :=
  ∀ source, pattern source ∈ e.parts → M.Inside source (M.texts source)

/-- Patterns that are valid by themselves and have no comments in them are contained. -/
theorem contained_of_valid (valid : ∀ source, pattern source ∈ e.parts →
    (PatternSyntax.shortest? source).isSome = true ∧ '#' ∉ source.toList) : e.Contained M :=
  fun source mem => M.closed (valid source mem).1 (valid source mem).2

theorem Contained.item (h : e.Contained M) (shape : e.parts = e :: e'.parts) : e'.Contained M :=
  fun source mem => h source (shape ▸ List.mem_cons_of_mem _ mem)

theorem Contained.items (h : e.Contained M) (shape : e.parts = e :: partsOf es) :
    ∀ e' ∈ es, e'.Contained M :=
  fun _ mem source hx => h source (shape ▸ List.mem_cons_of_mem _ (mem_partsOf mem hx))

/-! ## Patterns -/

theorem part_join {sources : List String} {Ls : List ByteLanguage}
    (h : List.Forall₂ M.Part sources Ls) : M.Part (String.join sources) Ls.prod := by
  induction h with
  | nil => exact M.blank
  | cons first _ ih =>
    rw [String.join_cons, List.prod_cons]
    exact M.append first ih

mutual

/-- The pattern of an expression is read as the strings that the expression denotes, wherever it
stands. -/
theorem part_toPattern : ∀ {e : Expr} {source : String}, e.Contained M →
    e.toPattern = .ok source → M.Part source (e.texts M 1)
  | literal text, _, _, h => by
    cases h
    exact M.escaped text
  | pattern source, _, contained, h => by
    cases h
    exact M.group (contained source (List.mem_singleton_self _))
  | blank, _, _, h => by
    cases h
    exact M.blank
  | seq items, _, contained, h => by
    rw [toPattern] at h
    obtain ⟨sources, found, h⟩ := of_bind_eq_ok h
    cases h
    rw [texts, textsInOrder_eq]
    exact part_join (part_toPatterns (contained.items (by rw [parts])) found)
  | choice [], _, _, h => by
    cases h
    exact M.group (M.inside_of_part M.blank)
  | choice (e :: es), _, contained, h => by
    rw [toPattern] at h
    obtain ⟨sources, found, h⟩ := of_bind_eq_ok h
    cases h
    have inner := part_toPatterns (contained.items (by rw [parts])) found
    rw [texts, textsOfAny_eq, ← List.sum_cons, ← List.map_cons]
    refine M.group (M.branches inner fun none => ?_)
    rw [none] at inner
    cases inner
  | many item, _, contained, h => by
    rw [toPattern] at h
    obtain ⟨source, found, h⟩ := of_bind_eq_ok h
    cases h
    have inner := part_toPattern (contained.item (by rw [parts])) found
    exact M.many (M.inside_of_part inner)
  | some item, _, contained, h => by
    rw [toPattern] at h
    obtain ⟨source, found, h⟩ := of_bind_eq_ok h
    cases h
    have inner := part_toPattern (contained.item (by rw [parts])) found
    exact M.some (M.inside_of_part inner)
  | optional item, _, contained, h => by
    rw [toPattern] at h
    obtain ⟨source, found, h⟩ := of_bind_eq_ok h
    cases h
    have inner := part_toPattern (contained.item (by rw [parts])) found
    exact M.optional (M.inside_of_part inner)
  | token item, _, contained, h => part_toPattern (e := item) (contained.item rfl) h
  | prec _ item, _, contained, h => part_toPattern (e := item) (contained.item rfl) h
  | precLeft _ item, _, contained, h => part_toPattern (e := item) (contained.item rfl) h
  | precRight _ item, _, contained, h => part_toPattern (e := item) (contained.item rfl) h
  | precDynamic _ item, _, contained, h => part_toPattern (e := item) (contained.item rfl) h
  | ref _, _, _, h => by cases h

theorem part_toPatterns : ∀ {es : List Expr} {sources : List String}, (∀ e ∈ es, e.Contained M) →
    toPatterns es = .ok sources → List.Forall₂ M.Part sources (es.map (texts M 1))
  | [], _, _, h => by
    cases h
    exact .nil
  | e :: es, _, contained, h => by
    rw [toPatterns] at h
    obtain ⟨source, first, h⟩ := of_bind_eq_ok h
    obtain ⟨sources, others, h⟩ := of_bind_eq_ok h
    cases h
    obtain ⟨own, rest⟩ := List.forall_mem_cons.mp contained
    exact .cons (part_toPattern own first) (part_toPatterns rest others)

end

mutual

/-- What a choice without branches denotes is no matter where there is none. -/
theorem texts_eq (v v' : ByteLanguage) : ∀ {e : Expr}, choice [] ∉ e.parts →
    e.texts M v = e.texts M v'
  | seq items, h => by
    rw [parts, List.mem_cons, not_or] at h
    rw [texts, texts, textsInOrder_eq, textsInOrder_eq, map_texts_eq v v' h.2]
  | choice [], h => absurd List.mem_cons_self h
  | choice (e :: es), h => by
    rw [parts, List.mem_cons, not_or, partsOf, List.mem_append, not_or] at h
    rw [texts, texts, textsOfAny_eq, textsOfAny_eq, texts_eq v v' h.2.1, map_texts_eq v v' h.2.2]
  | many item, h => by
    rw [texts, texts, texts_eq v v' fun mem => h (List.mem_cons_of_mem _ mem)]
  | some item, h => by
    rw [texts, texts, texts_eq v v' fun mem => h (List.mem_cons_of_mem _ mem)]
  | optional item, h => by
    rw [texts, texts, texts_eq v v' fun mem => h (List.mem_cons_of_mem _ mem)]
  | token item, h => texts_eq v v' (e := item) fun mem => h (List.mem_cons_of_mem _ mem)
  | prec _ item, h => texts_eq v v' (e := item) fun mem => h (List.mem_cons_of_mem _ mem)
  | precLeft _ item, h => texts_eq v v' (e := item) fun mem => h (List.mem_cons_of_mem _ mem)
  | precRight _ item, h => texts_eq v v' (e := item) fun mem => h (List.mem_cons_of_mem _ mem)
  | precDynamic _ item, h => texts_eq v v' (e := item) fun mem => h (List.mem_cons_of_mem _ mem)
  | literal _, _ => rfl
  | pattern _, _ => rfl
  | blank, _ => rfl
  | ref _, _ => rfl

theorem map_texts_eq (v v' : ByteLanguage) : ∀ {es : List Expr}, choice [] ∉ partsOf es →
    es.map (texts M v) = es.map (texts M v')
  | [], _ => rfl
  | e :: es, h => by
    rw [partsOf, List.mem_append, not_or] at h
    rw [List.map_cons, List.map_cons, texts_eq v v' h.1, map_texts_eq v v' h.2]

end

end

/-- The pattern of a token is the one its expression is written as, unless that is a pattern. -/
theorem toPattern_of_toTokenPattern {p : TokenPattern} (h : e.toTokenPattern = .ok p) :
    (∃ source, e = pattern source ∧ p = .regex source) ∨ e.toPattern = .ok p.pattern := by
  unfold toTokenPattern at h
  split at h
  · cases h
    exact Or.inr rfl
  · cases h
    exact Or.inl ⟨_, rfl, rfl⟩
  · cases h
    exact Or.inr rfl
  · obtain ⟨source, found, rfl⟩ := of_map_eq_ok h
    exact Or.inr found
  · obtain ⟨source, found, rfl⟩ := of_map_eq_ok h
    exact Or.inr found

end Expr

section

variable [PatternSyntax] {M : Meaning}

/-- A pattern that has passed the check is valid. -/
theorem TokenPattern.valid_of_check {p : TokenPattern} {name : String}
    (checked : p.check name = .ok ()) : (PatternSyntax.shortest? p.pattern).isSome = true := by
  rw [check] at checked
  split at checked
  · cases checked
  · next least valid => rw [valid, Option.isSome_some]

/-- The pattern of a token that has passed the check matches what its expression denotes. -/
theorem TokenPattern.texts_eq {e : Expr} {p : TokenPattern} {name : String}
    (contained : e.Contained M) (pattern : e.toTokenPattern = .ok p)
    (checked : p.check name = .ok ()) : M.texts p.pattern = e.texts M 1 := by
  rcases Expr.toPattern_of_toTokenPattern pattern with ⟨source, rfl, rfl⟩ | written
  · rfl
  · exact M.whole (Expr.part_toPattern contained written) (valid_of_check checked)

end

namespace Grammar

variable {G : Grammar} {g : FlatGrammar}

/-- Either of two letters and a star. -/
def starred : Grammar where
  name := "starred"
  rules := [⟨"s", .many (.ref "word")⟩, ⟨"word", .token (.seq [.pattern "a|b", .literal "*"])⟩]
  extras := []
  word := none
  conflicts := []
  externals := []
  strict := false

/-- Patterns that hold together only side by side, and a choice without branches. -/
def torn : Grammar where
  name := "torn"
  rules := [⟨"s", .seq [.ref "pair", .ref "dead"]⟩,
    ⟨"pair", .token (.seq [.pattern "a(", .pattern ")b"])⟩,
    ⟨"dead", .token (.seq [.literal "x", .choice []])⟩]
  extras := []
  word := none
  conflicts := []
  externals := []
  strict := false

end Grammar

end Glr
