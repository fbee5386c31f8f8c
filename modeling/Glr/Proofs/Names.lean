import Glr.Proofs.Expansion

/-!
# Which symbols a draft has, and what for

Before a rule is expanded the symbols of a draft are all given out: to the names of tokens, external
tokens and nonterminal rules, and to the anonymous tokens.  `Filed` says that the books are in
order.  Every name and every anonymous token has one symbol, every symbol beside the reserved ones
is filed under its name or its pattern, and a name is a terminal just if its first rule is a token
or a scanner finds it.

Order matters to that.  A name is only added where it is not there yet, and that is so because what
was added before were tokens, and a nonterminal rule is none.
-/

namespace Glr

/-! ## The first rule of a name -/

namespace Grammar

theorem mem_distinctRules {r : Rule} : ∀ {rs : List Rule} {seen : List String},
    r ∈ distinctRules seen rs ↔ r.name ∉ seen ∧ rs.find? (·.name == r.name) = some r := by
  intro rs
  induction rs with
  | nil => simp [distinctRules]
  | cons q rs ih =>
    intro seen
    rw [distinctRules, List.find?_cons]
    by_cases same : q.name = r.name
    · rw [same, beq_self_eq_true]
      split
      · next old =>
        have old := List.contains_iff_mem.mp old
        rw [ih]
        exact ⟨fun h => absurd old h.1, fun h => absurd old h.1⟩
      · next new =>
        have new : r.name ∉ seen := fun h => new (List.contains_iff_mem.mpr h)
        rw [List.mem_cons, ih]
        constructor
        · rintro (rfl | ⟨absent, -⟩)
          · exact ⟨new, rfl⟩
          · exact absurd List.mem_cons_self absent
        · exact fun h => Or.inl (Option.some.inj h.2).symm
    · rw [beq_false_of_ne same]
      split
      · exact ih
      · rw [List.mem_cons, ih, List.mem_cons]
        constructor
        · rintro (rfl | ⟨absent, found⟩)
          · exact absurd rfl same
          · exact ⟨fun h => absent (Or.inr h), found⟩
        · rintro ⟨absent, found⟩
          exact Or.inr ⟨fun h => h.elim (fun h => same h.symm) absent, found⟩

variable {G : Grammar} {r : Rule} {name : String}

theorem mem_rules_iff : r ∈ distinctRules [] G.rules ↔ G.rule? r.name = some r := by
  rw [mem_distinctRules, rule?]
  exact ⟨fun h => h.2, fun h => ⟨List.not_mem_nil, h⟩⟩

theorem name_of_rule? (h : G.rule? name = some r) : r.name = name := by
  have same := List.find?_some h
  exact beq_iff_eq.mp same

theorem mem_of_rule? (h : G.rule? name = some r) : r ∈ distinctRules [] G.rules := by
  rw [mem_rules_iff, name_of_rule? h]
  exact h

theorem rule?_eq_none (h : ∀ r ∈ distinctRules [] G.rules, r.name ≠ name) :
    G.rule? name = none := by
  cases found : G.rule? name with
  | none => rfl
  | some r => exact absurd (name_of_rule? found) (h r (mem_of_rule? found))

theorem distinctRules_nodup : ∀ {rs : List Rule} {seen : List String},
    ((distinctRules seen rs).map (·.name)).Nodup := by
  intro rs
  induction rs with
  | nil => exact fun {_} => List.nodup_nil
  | cons q rs ih =>
    intro seen
    rw [distinctRules]
    split
    · exact ih
    · rw [List.map_cons, List.nodup_cons]
      refine ⟨fun mem => ?_, ih⟩
      obtain ⟨r, hr, same⟩ := List.mem_map.mp mem
      exact (mem_distinctRules.mp hr).1 (same ▸ List.mem_cons_self)

end Grammar

mutual

/-- The anonymous tokens in an expression. -/
def Expr.tokens : Expr → List Expr
  | .literal text => [.literal text]
  | .pattern source => [.pattern source]
  | .token item => [.token item]
  | .seq items => tokensOf items
  | .choice items => tokensOf items
  | .many item => tokens item
  | .some item => tokens item
  | .optional item => tokens item
  | .prec _ item => tokens item
  | .precLeft _ item => tokens item
  | .precRight _ item => tokens item
  | .precDynamic _ item => tokens item
  | .blank => []
  | .ref _ => []

/-- The anonymous tokens in several expressions. -/
def Expr.tokensOf : List Expr → List Expr
  | [] => []
  | e :: es => e.tokens ++ tokensOf es

end

theorem Expr.mem_tokensOf {t e : Expr} {es : List Expr} (mem : e ∈ es) (h : t ∈ e.tokens) :
    t ∈ tokensOf es := by
  induction es with
  | nil => exact absurd mem List.not_mem_nil
  | cons e' es ih =>
    rw [tokensOf, List.mem_append]
    rcases List.mem_cons.mp mem with rfl | mem
    · exact Or.inl h
    · exact Or.inr (ih mem)

namespace Draft

variable {G : Grammar} {d d' : Draft} {s : Symbol}

/-- The kind of name that a terminal has. -/
def TokenName (G : Grammar) (name : String) : Prop :=
  (∃ r, G.rule? name = some r ∧ r.body.isToken = true) ∨
    G.rule? name = none ∧ name ∈ G.externals

theorem not_tokenName {name : String} {r : Rule} (first : G.rule? name = some r)
    (inner : r.body.isToken = false) : ¬ TokenName G name := by
  rintro (⟨r', first', isToken⟩ | ⟨none, -⟩)
  · obtain rfl := Option.some.inj (first.symm.trans first')
    rw [inner] at isToken
    cases isToken
  · rw [first] at none
    cases none

/-- Every symbol is filed under its name or its pattern, and everything filed has one symbol. -/
structure Filed (G : Grammar) (d : Draft) : Prop where
  named : ∀ m ∈ d.names, ∃ info, d.symbols[m.2]? = some info ∧ info.named = true ∧
    info.name = m.1 ∧
    (info.terminal = true → TokenName G m.1) ∧
    (info.terminal = false → ∃ r, G.rule? m.1 = some r ∧ r.body.isToken = false)
  anonymous : ∀ m ∈ d.anonymous, ∃ info, d.symbols[m.2]? = some info ∧ info.named = false ∧
    info.terminal = true ∧ ⟨m.2, m.1⟩ ∈ d.tokens
  filed : ∀ (s : Symbol) info, 2 ≤ s → d.symbols[s]? = some info →
    (info.named = true → (info.name, s) ∈ d.names) ∧
      (info.named = false → info.terminal = true → ∃ p, (p, s) ∈ d.anonymous)
  names : ∀ name s t, (name, s) ∈ d.names → (name, t) ∈ d.names → s = t
  patterns : ∀ p s t, (p, s) ∈ d.anonymous → (p, t) ∈ d.anonymous → s = t
  tokens : ∀ s p q, ⟨s, p⟩ ∈ d.tokens → ⟨s, q⟩ ∈ d.tokens → p = q

/-- A name is a terminal just if it is that of a token. -/
theorem Filed.isTerminal_iff (filed : Filed G d) {name : String} (mem : (name, s) ∈ d.names) :
    d.isTerminal s = true ↔ TokenName G name := by
  obtain ⟨info, found, -, -, token, rule⟩ := filed.named _ mem
  rw [isTerminal, found]
  refine ⟨token, fun isName => ?_⟩
  cases terminal : info.terminal with
  | true => exact terminal
  | false =>
    obtain ⟨r, first, inner⟩ := rule terminal
    exact absurd isName (not_tokenName first inner)

theorem filed_start : Filed G start where
  named := fun _ h => absurd h List.not_mem_nil
  anonymous := fun _ h => absurd h List.not_mem_nil
  filed := fun s info own found => by
    have := (Array.getElem?_eq_some_iff.mp found).1
    exact absurd own (Nat.not_le_of_lt this)
  names := fun _ _ _ h => absurd h List.not_mem_nil
  patterns := fun _ _ _ h => absurd h List.not_mem_nil
  tokens := fun _ _ _ h => absurd h (Array.not_mem_empty _)

/-- What is filed anew has one value still. -/
theorem unique_cons {α : Type} {filed : List (α × Symbol)} {key : α} {value : Symbol}
    (unique : ∀ k s t, (k, s) ∈ filed → (k, t) ∈ filed → s = t)
    (fresh : ∀ m ∈ filed, m.1 ≠ key) (k : α) (s t : Symbol) (hs : (k, s) ∈ (key, value) :: filed)
    (ht : (k, t) ∈ (key, value) :: filed) : s = t := by
  rcases List.mem_cons.mp hs with hs | hs
  · rcases List.mem_cons.mp ht with ht | ht
    · rw [(Prod.mk.inj hs).2, (Prod.mk.inj ht).2]
    · exact absurd (Prod.mk.inj hs).1 (fresh _ ht)
  · rcases List.mem_cons.mp ht with ht | ht
    · exact absurd (Prod.mk.inj ht).1 (fresh _ hs)
    · exact unique k s t hs ht

theorem Filed.addNamed {name : String} {terminal visible : Bool} (filed : Filed G d)
    (fresh : ∀ m ∈ d.names, m.1 ≠ name)
    (token : terminal = true → TokenName G name)
    (rule : terminal = false → ∃ r, G.rule? name = some r ∧ r.body.isToken = false)
    (hd : d.addNamed name terminal visible = .ok (s, d')) :
    Filed G d' ∧ d'.names = (name, s) :: d.names ∧ d'.anonymous = d.anonymous ∧
      d'.tokens = d.tokens ∧ d'.productions = d.productions := by
  rw [Draft.addNamed] at hd
  obtain ⟨t, ht, hd⟩ := of_bind_eq_ok hd
  cases hd
  obtain rfl := nextSymbol_eq ht
  refine ⟨⟨?_, ?_, ?_, ?_, filed.patterns, filed.tokens⟩, rfl, rfl, rfl, rfl⟩
  · intro m hm
    rcases List.mem_cons.mp hm with rfl | hm
    · exact ⟨_, Array.getElem?_push_size, rfl, rfl, token, rule⟩
    · obtain ⟨info, found, rest⟩ := filed.named m hm
      exact ⟨info, getElem?_pushed found, rest⟩
  · intro m hm
    obtain ⟨info, found, rest⟩ := filed.anonymous m hm
    exact ⟨info, getElem?_pushed found, rest⟩
  · intro s info own found
    rw [Array.getElem?_push] at found
    split at found
    · next here =>
      cases found
      exact ⟨fun _ => here ▸ List.mem_cons_self, fun h => by cases h⟩
    · obtain ⟨named, anonymous⟩ := filed.filed s info own found
      exact ⟨fun h => List.mem_cons_of_mem _ (named h), anonymous⟩
  · exact unique_cons filed.names fresh

/-- A symbol without a token may get one. -/
theorem tokens_pushed {tokens : Array TokenDef} {p : TokenPattern}
    (unique : ∀ s p q, ⟨s, p⟩ ∈ tokens → ⟨s, q⟩ ∈ tokens → p = q)
    (fresh : ∀ token ∈ tokens, token.symbol ≠ s) (t : Symbol) (q q' : TokenPattern)
    (hq : ⟨t, q⟩ ∈ tokens.push ⟨s, p⟩) (hq' : ⟨t, q'⟩ ∈ tokens.push ⟨s, p⟩) : q = q' := by
  rcases Array.mem_push.mp hq with hq | hq
  · rcases Array.mem_push.mp hq' with hq' | hq'
    · exact unique t q q' hq hq'
    · exact absurd (TokenDef.mk.inj hq').1 (fresh _ hq)
  · rcases Array.mem_push.mp hq' with hq' | hq'
    · exact absurd (TokenDef.mk.inj hq).1 (fresh _ hq')
    · exact (TokenDef.mk.inj hq).2.trans (TokenDef.mk.inj hq').2.symm

theorem Filed.addToken [PatternSyntax] {name : String} {p : TokenPattern} (filed : Filed G d)
    (fresh : ∀ token ∈ d.tokens, token.symbol ≠ s) (hd : d.addToken name s p = .ok d') :
    Filed G d' ∧ d'.names = d.names ∧ d'.anonymous = d.anonymous ∧
      d'.productions = d.productions := by
  rw [Draft.addToken] at hd
  obtain ⟨-, -, hd⟩ := of_bind_eq_ok hd
  cases hd
  refine ⟨⟨filed.named, ?_, filed.filed, filed.names, filed.patterns, ?_⟩, rfl, rfl, rfl⟩
  · intro m hm
    obtain ⟨info, found, named, terminal, mem⟩ := filed.anonymous m hm
    exact ⟨info, found, named, terminal, Array.mem_push_of_mem _ mem⟩
  · exact tokens_pushed filed.tokens fresh

/-! ## Tokens -/

/-- All names so far are those of terminals. -/
def OnlyTokens (d : Draft) : Prop := ∀ m ∈ d.names, d.isTerminal m.2 = true

theorem isTokenName_iff (only : OnlyTokens d) {name : String} :
    d.isTokenName name = true ↔ ∃ s, (name, s) ∈ d.names := by
  rw [isTokenName, Option.any_eq_true]
  constructor
  · rintro ⟨s, found, -⟩
    exact ⟨s, mem_of_lookup found⟩
  · rintro ⟨s, mem⟩
    obtain ⟨t, found⟩ := exists_lookup (List.mem_map.mpr ⟨_, mem, rfl⟩)
    exact ⟨t, found, only _ (mem_of_lookup found)⟩

/-- What is kept while symbols are given out. -/
structure Keeping (G : Grammar) (d d' : Draft) : Prop where
  sound : Sound d'
  filed : Filed G d'
  ext : Extends d d'
  names : ∀ m ∈ d.names, m ∈ d'.names
  anonymous : ∀ m ∈ d.anonymous, m ∈ d'.anonymous
  productions : d'.productions = d.productions

namespace Keeping

variable {d'' : Draft}

theorem refl (sound : Sound d) (filed : Filed G d) : Keeping G d d :=
  ⟨sound, filed, .refl d, fun _ h => h, fun _ h => h, rfl⟩

theorem trans (h : Keeping G d d') (h' : Keeping G d' d'') : Keeping G d d'' where
  sound := h'.sound
  filed := h'.filed
  ext := h.ext.trans h'.ext
  names m hm := h'.names m (h.names m hm)
  anonymous m hm := h'.anonymous m (h.anonymous m hm)
  productions := h'.productions.trans h.productions

end Keeping

/-- A name that is not there yet is added, and maybe the pattern of its token. -/
theorem keeping_addNamed {name : String} {terminal visible : Bool} (sound : Sound d)
    (filed : Filed G d) (fresh : ∀ m ∈ d.names, m.1 ≠ name)
    (token : terminal = true → TokenName G name)
    (rule : terminal = false → ∃ r, G.rule? name = some r ∧ r.body.isToken = false)
    (hd : d.addNamed name terminal visible = .ok (s, d')) :
    Keeping G d d' ∧ d'.names = (name, s) :: d.names ∧ d'.isTerminal s = terminal ∧
      d'.Known s ∧ ∀ token ∈ d'.tokens, token.symbol ≠ s := by
  obtain ⟨sound', ext, names, known, isTerminal⟩ := addNamed_sound sound hd
  obtain ⟨filed', -, anonymous, tokens, productions⟩ := filed.addNamed fresh token rule hd
  refine ⟨⟨sound', filed', ext, fun m hm => names ▸ List.mem_cons_of_mem _ hm,
    fun m hm => anonymous ▸ hm, productions⟩, names, isTerminal, known, fun t ht same => ?_⟩
  -- A token before this one has a symbol before this one.
  rw [tokens] at ht
  rw [Draft.addNamed] at hd
  obtain ⟨n, hn, hd⟩ := of_bind_eq_ok hd
  cases hd
  have bound := (sound.tokens t ht).1.2
  rw [same, nextSymbol_eq hn] at bound
  exact absurd bound (Nat.lt_irrefl _)

theorem onlyTokens_addNamed (only : OnlyTokens d) (sound : Sound d) {name : String}
    (ext : Extends d d') (names : d'.names = (name, s) :: d.names)
    (isTerminal : d'.isTerminal s = true) : OnlyTokens d' := by
  intro m hm
  rw [names] at hm
  rcases List.mem_cons.mp hm with rfl | hm
  · exact isTerminal
  · rw [ext.isTerminal _ (sound.names m hm).2]
    exact only m hm

theorem keeping_addTokenRules [PatternSyntax] {rs : List Rule} :
    ∀ {d : Draft}, Sound d → Filed G d → OnlyTokens d →
      (∀ r ∈ rs, G.rule? r.name = some r) → (rs.map (·.name)).Nodup →
      (∀ r ∈ rs, ∀ m ∈ d.names, m.1 ≠ r.name) → d.addTokenRules rs = .ok d' →
      Keeping G d d' ∧ OnlyTokens d' ∧
        ∀ r ∈ rs, r.body.isToken = true → ∃ s, (r.name, s) ∈ d'.names := by
  induction rs with
  | nil =>
    intro d sound filed only _ _ _ hd
    rw [addTokenRules] at hd
    cases hd
    exact ⟨.refl sound filed, only, fun _ hr => absurd hr List.not_mem_nil⟩
  | cons r rs ih =>
    intro d sound filed only first distinct fresh hd
    have first' := fun r' hr' => first r' (List.mem_cons_of_mem r hr')
    rw [List.map_cons, List.nodup_cons] at distinct
    rw [addTokenRules] at hd
    split at hd
    · next isToken =>
      obtain ⟨p, -, hd⟩ := of_bind_eq_ok hd
      obtain ⟨⟨s, d₁⟩, hnamed, hd⟩ := of_bind_eq_ok hd
      obtain ⟨d₂, htoken, hd⟩ := of_bind_eq_ok hd
      have here := first r List.mem_cons_self
      obtain ⟨keeping, names, terminal, known, unused⟩ :=
        keeping_addNamed sound filed (fresh r List.mem_cons_self)
          (fun _ => Or.inl ⟨r, here, isToken⟩) (fun h => by cases h) hnamed
      obtain ⟨sound₂, ext₂⟩ := addToken_sound keeping.sound known terminal htoken
      obtain ⟨filed₂, names₂, anonymous₂, productions₂⟩ := keeping.filed.addToken unused htoken
      have only₁ := onlyTokens_addNamed only sound keeping.ext names terminal
      have only₂ : OnlyTokens d₂ := by
        intro m hm
        rw [names₂] at hm
        rw [ext₂.isTerminal _ (keeping.sound.names m hm).2]
        exact only₁ m hm
      have keeping₂ : Keeping G d₁ d₂ :=
        ⟨sound₂, filed₂, ext₂, fun m hm => names₂ ▸ hm, fun m hm => anonymous₂ ▸ hm, productions₂⟩
      obtain ⟨keeping₃, only₃, named⟩ := ih sound₂ filed₂ only₂ first' distinct.2
        (fun r' hr' m hm => by
          rw [names₂, names] at hm
          rcases List.mem_cons.mp hm with rfl | hm
          · exact fun same => distinct.1 (List.mem_map.mpr ⟨r', hr', same.symm⟩)
          · exact fresh r' (List.mem_cons_of_mem r hr') m hm) hd
      refine ⟨(keeping.trans keeping₂).trans keeping₃, only₃, fun r' hr' isToken' => ?_⟩
      rcases List.mem_cons.mp hr' with rfl | hr'
      · refine ⟨s, keeping₃.names _ ?_⟩
        rw [names₂, names]
        exact List.mem_cons_self
      · exact named r' hr' isToken'
    · next inner =>
      obtain ⟨keeping, only', named⟩ := ih sound filed only first' distinct.2
        (fun r' hr' => fresh r' (List.mem_cons_of_mem r hr')) hd
      refine ⟨keeping, only', fun r' hr' isToken => ?_⟩
      rcases List.mem_cons.mp hr' with rfl | hr'
      · exact absurd isToken inner
      · exact named r' hr' isToken

theorem keeping_addExternals {names : List String} :
    ∀ {d : Draft}, Sound d → Filed G d → OnlyTokens d → (∀ name ∈ names, name ∈ G.externals) →
      addExternals (Grammar.distinctRules [] G.rules) d names = .ok d' →
      Keeping G d d' ∧ OnlyTokens d' ∧ ∀ name ∈ names, ∃ s, (name, s) ∈ d'.names := by
  induction names with
  | nil =>
    intro d sound filed only _ hd
    rw [addExternals] at hd
    cases hd
    exact ⟨.refl sound filed, only, fun _ h => absurd h List.not_mem_nil⟩
  | cons name names ih =>
    intro d sound filed only external hd
    have external' := fun name' h => external name' (List.mem_cons_of_mem name h)
    rw [addExternals] at hd
    split at hd
    · next present =>
      obtain ⟨s, mem⟩ := (isTokenName_iff only).mp present
      obtain ⟨keeping, only', named⟩ := ih sound filed only external' hd
      refine ⟨keeping, only', fun name' h => ?_⟩
      rcases List.mem_cons.mp h with rfl | h
      · exact ⟨s, keeping.names _ mem⟩
      · exact named name' h
    · next absent =>
      split at hd
      · cases hd
      · next noRule =>
        obtain ⟨⟨s, d₁⟩, hnamed, hd⟩ := of_bind_eq_ok hd
        have free : G.rule? name = none := by
          refine Grammar.rule?_eq_none fun r hr same => noRule ?_
          exact List.any_eq_true.mpr ⟨r, hr, beq_iff_eq.mpr same⟩
        have fresh : ∀ m ∈ d.names, m.1 ≠ name := by
          rintro ⟨_, t⟩ hm rfl
          exact absent ((isTokenName_iff only).mpr ⟨t, hm⟩)
        obtain ⟨keeping, same, terminal, -⟩ := keeping_addNamed sound filed fresh
          (fun _ => Or.inr ⟨free, external name List.mem_cons_self⟩) (fun h => by cases h) hnamed
        obtain ⟨keeping', only', named⟩ := ih keeping.sound keeping.filed
          (onlyTokens_addNamed only sound keeping.ext same terminal) external' hd
        refine ⟨keeping.trans keeping', only', fun name' h => ?_⟩
        rcases List.mem_cons.mp h with rfl | h
        · exact ⟨s, keeping'.names _ (same ▸ List.mem_cons_self)⟩
        · exact named name' h

/-! ## Anonymous tokens -/

/-- Some tokens have a symbol each. -/
def HasTokens (d : Draft) (es : List Expr) : Prop :=
  ∀ e ∈ es, ∃ p s, e.toTokenPattern = .ok p ∧ (p, s) ∈ d.anonymous

theorem HasTokens.keeping {es : List Expr} (h : HasTokens d es) (keeping : Keeping G d d') :
    HasTokens d' es := by
  intro e he
  obtain ⟨p, s, pattern, mem⟩ := h e he
  exact ⟨p, s, pattern, keeping.anonymous _ mem⟩

theorem keeping_addAnonymous [PatternSyntax] {e : Expr} (sound : Sound d) (filed : Filed G d)
    (hd : d.addAnonymous e = .ok d') :
    Keeping G d d' ∧ d'.names = d.names ∧ HasTokens d' [e] := by
  have sound' := addAnonymous_sound sound hd
  rw [addAnonymous] at hd
  obtain ⟨p, pattern, hd⟩ := of_bind_eq_ok hd
  split at hd
  · next s found =>
    cases hd
    refine ⟨.refl sound filed, rfl, fun e' he' => ⟨p, s, ?_, mem_of_lookup found⟩⟩
    rw [List.mem_singleton.mp he']
    exact pattern
  · next absent =>
    obtain ⟨s, hs, hd⟩ := of_bind_eq_ok hd
    obtain ⟨d₂, htoken, hd⟩ := of_bind_eq_ok hd
    obtain rfl := nextSymbol_eq hs
    rw [Draft.addToken] at htoken
    obtain ⟨-, -, htoken⟩ := of_bind_eq_ok htoken
    cases htoken
    cases hd
    have fresh : ∀ m ∈ d.anonymous, m.1 ≠ p := by
      rintro ⟨_, t⟩ hm rfl
      obtain ⟨t', found⟩ := exists_lookup (List.mem_map.mpr ⟨_, hm, rfl⟩)
      rw [absent] at found
      cases found
    have unused : ∀ token ∈ d.tokens, token.symbol ≠ d.symbols.size := fun token ht same =>
      absurd (same ▸ (sound.tokens token ht).1.2) (Nat.lt_irrefl _)
    refine ⟨⟨sound', ⟨?_, ?_, ?_, filed.names, ?_, tokens_pushed filed.tokens unused⟩,
      (extends_push d _ rfl).1, fun _ h => h, fun _ h => List.mem_cons_of_mem _ h, rfl⟩, rfl, ?_⟩
    · intro m hm
      obtain ⟨info, found, rest⟩ := filed.named m hm
      exact ⟨info, getElem?_pushed found, rest⟩
    · intro m hm
      rcases List.mem_cons.mp hm with rfl | hm
      · exact ⟨_, Array.getElem?_push_size, rfl, rfl, Array.mem_push_self⟩
      · obtain ⟨info, found, named, terminal, mem⟩ := filed.anonymous m hm
        exact ⟨info, getElem?_pushed found, named, terminal, Array.mem_push_of_mem _ mem⟩
    · intro s info own found
      rw [Array.getElem?_push] at found
      split at found
      · next here =>
        cases found
        exact ⟨fun h => (by cases h), fun _ _ => ⟨p, here ▸ List.mem_cons_self⟩⟩
      · obtain ⟨named, anonymous⟩ := filed.filed s info own found
        refine ⟨named, fun h h' => ?_⟩
        obtain ⟨q, hq⟩ := anonymous h h'
        exact ⟨q, List.mem_cons_of_mem _ hq⟩
    · exact unique_cons filed.patterns fresh
    · intro e' he'
      rw [List.mem_singleton.mp he']
      exact ⟨p, _, pattern, List.mem_cons_self⟩

mutual

theorem keeping_collect [PatternSyntax] : ∀ (e : Expr) {d d' : Draft}, Sound d → Filed G d →
    d.collect e = .ok d' → Keeping G d d' ∧ d'.names = d.names ∧ HasTokens d' e.tokens
  | .literal _, _, _, sound, filed, hd => keeping_addAnonymous sound filed hd
  | .pattern _, _, _, sound, filed, hd => keeping_addAnonymous sound filed hd
  | .token _, _, _, sound, filed, hd => keeping_addAnonymous sound filed hd
  | .seq items, _, _, sound, filed, hd => keeping_collectAll items sound filed hd
  | .choice items, _, _, sound, filed, hd => keeping_collectAll items sound filed hd
  | .many item, _, _, sound, filed, hd => keeping_collect item sound filed hd
  | .some item, _, _, sound, filed, hd => keeping_collect item sound filed hd
  | .optional item, _, _, sound, filed, hd => keeping_collect item sound filed hd
  | .prec _ item, _, _, sound, filed, hd => keeping_collect item sound filed hd
  | .precLeft _ item, _, _, sound, filed, hd => keeping_collect item sound filed hd
  | .precRight _ item, _, _, sound, filed, hd => keeping_collect item sound filed hd
  | .precDynamic _ item, _, _, sound, filed, hd => keeping_collect item sound filed hd
  | .blank, _, _, sound, filed, hd => by
    cases hd
    exact ⟨.refl sound filed, rfl, fun _ he => absurd he List.not_mem_nil⟩
  | .ref _, _, _, sound, filed, hd => by
    cases hd
    exact ⟨.refl sound filed, rfl, fun _ he => absurd he List.not_mem_nil⟩

theorem keeping_collectAll [PatternSyntax] : ∀ (es : List Expr) {d d' : Draft},
    Sound d → Filed G d → d.collectAll es = .ok d' → Keeping G d d' ∧ d'.names = d.names ∧
      HasTokens d' (Expr.tokensOf es)
  | [], _, _, sound, filed, hd => by
    cases hd
    exact ⟨.refl sound filed, rfl, fun _ he => absurd he List.not_mem_nil⟩
  | e :: es, _, _, sound, filed, hd => by
    rw [collectAll] at hd
    obtain ⟨d₁, first, hd⟩ := of_bind_eq_ok hd
    obtain ⟨keeping, names, has⟩ := keeping_collect e sound filed first
    obtain ⟨keeping', names', has'⟩ := keeping_collectAll es keeping.sound keeping.filed hd
    refine ⟨keeping.trans keeping', names'.trans names, fun e' he' => ?_⟩
    rcases List.mem_append.mp he' with he' | he'
    · exact has.keeping keeping' e' he'
    · exact has' e' he'

end

theorem OnlyTokens.keeping (only : OnlyTokens d) (sound : Sound d) (keeping : Keeping G d d')
    (names : d'.names = d.names) : OnlyTokens d' := by
  intro m hm
  rw [names] at hm
  rw [keeping.ext.isTerminal _ (sound.names m hm).2]
  exact only m hm

/-! ## Nonterminals -/

theorem keeping_addNonterminals {rs : List Rule} :
    ∀ {d : Draft}, Sound d → Filed G d →
      (∀ r ∈ rs, G.rule? r.name = some r ∧ r.body.isToken = false) → (rs.map (·.name)).Nodup →
      (∀ r ∈ rs, ∀ m ∈ d.names, m.1 ≠ r.name) → d.addNonterminals rs = .ok d' →
      Keeping G d d' := by
  induction rs with
  | nil =>
    intro d sound filed _ _ _ hd
    rw [addNonterminals] at hd
    cases hd
    exact .refl sound filed
  | cons r rs ih =>
    intro d sound filed inner distinct fresh hd
    rw [List.map_cons, List.nodup_cons] at distinct
    rw [addNonterminals] at hd
    obtain ⟨⟨s, d₁⟩, hnamed, hd⟩ := of_bind_eq_ok hd
    obtain ⟨keeping, names, -⟩ := keeping_addNamed sound filed (fresh r List.mem_cons_self)
      (fun h => by cases h) (fun _ => ⟨r, inner r List.mem_cons_self⟩) hnamed
    refine keeping.trans (ih keeping.sound keeping.filed
      (fun r' hr' => inner r' (List.mem_cons_of_mem r hr')) distinct.2 (fun r' hr' m hm => ?_) hd)
    rw [names] at hm
    rcases List.mem_cons.mp hm with rfl | hm
    · exact fun same => distinct.1 (List.mem_map.mpr ⟨r', hr', same.symm⟩)
    · exact fresh r' (List.mem_cons_of_mem r hr') m hm

/-! ## Afterwards -/

/-- Helpers are filed nowhere. -/
theorem Filed.appends {n : Nat} (filed : Filed G d) (appends : Appends d d' n) : Filed G d' := by
  obtain ⟨infos, -, helpers, symbols⟩ := appends.symbols
  have old : ∀ {s : Symbol} {info : SymbolInfo}, d.symbols[s]? = some info →
      d'.symbols[s]? = some info := by
    intro s info found
    rw [← Array.getElem?_toList] at found ⊢
    rw [symbols, List.getElem?_append_left (List.getElem?_eq_some_iff.mp found).1, found]
  refine ⟨?_, ?_, ?_, ?_, ?_, ?_⟩
  · intro m hm
    obtain ⟨info, found, rest⟩ := filed.named m (appends.names ▸ hm)
    exact ⟨info, old found, rest⟩
  · intro m hm
    obtain ⟨info, found, rest⟩ := filed.anonymous m (appends.anonymous ▸ hm)
    exact ⟨info, old found, appends.tokens ▸ rest⟩
  · intro s info own found
    rw [appends.names, appends.anonymous]
    rw [← Array.getElem?_toList, symbols] at found
    rcases Nat.lt_or_ge s d.symbols.toList.length with before | behind
    · rw [List.getElem?_append_left before, Array.getElem?_toList] at found
      exact filed.filed s info own found
    · rw [List.getElem?_append_right behind] at found
      obtain ⟨unnamed, inner⟩ := helpers info (List.mem_of_getElem? found)
      rw [unnamed, inner]
      exact ⟨(nomatch ·), fun _ => (nomatch ·)⟩
  · rw [appends.names]
    exact filed.names
  · rw [appends.anonymous]
    exact filed.patterns
  · rw [appends.tokens]
    exact filed.tokens

end Draft

end Glr
