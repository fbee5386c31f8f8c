import Glr.Proofs.Flattening

/-!
# Where tokens come from

Lowering makes tokens in two places: of the body of each token rule, and of each token that is
written in an extra or in the body of a nonterminal rule.  Every other stage leaves the tokens
alone.  So a token of the flat grammar is that of an expression in the grammar, its pattern has
passed the check for that (`tokens_of_lower`), and every such expression has its token.
-/

namespace Glr

namespace Grammar

/-- An expression that a grammar makes a token of: the body of a token rule, or one that is written
in an extra or in a nonterminal rule. -/
def Tokenizes (G : Grammar) (e : Expr) : Prop :=
  (∃ r, G.rule? r.name = some r ∧ r.body.isToken = true ∧ r.body = e) ∨ G.Uses e

end Grammar

theorem Expr.exists_of_mem_tokensOf {t : Expr} {es : List Expr} (h : t ∈ tokensOf es) :
    ∃ e ∈ es, t ∈ e.tokens := by
  induction es with
  | nil => exact absurd h List.not_mem_nil
  | cons e es ih =>
    rw [tokensOf, List.mem_append] at h
    rw [List.exists_mem_cons_iff]
    exact h.imp_right ih

namespace Draft

variable {G : Grammar} {d d' d'' : Draft} {s : Symbol}

/-- The tokens of a draft are those of an earlier one and new ones.  Each new one is that of an
expression that may have a token, and its pattern was checked. -/
structure Mints [PatternSyntax] (G : Grammar) (d d' : Draft) : Prop where
  kept : ∀ t ∈ d.tokens, t ∈ d'.tokens
  made : ∀ t ∈ d'.tokens, t ∈ d.tokens ∨ (∃ name, t.pattern.check name = .ok ()) ∧
    ∃ e, G.Tokenizes e ∧ e.toTokenPattern = .ok t.pattern

namespace Mints

variable [PatternSyntax]

theorem of_eq (h : d'.tokens = d.tokens) : Mints G d d' :=
  ⟨fun _ mem => h ▸ mem, fun _ mem => Or.inl (h ▸ mem)⟩

theorem trans (h : Mints G d d') (h' : Mints G d' d'') : Mints G d d'' where
  kept t mem := h'.kept t (h.kept t mem)
  made t mem := (h'.made t mem).elim (h.made t) Or.inr

end Mints

theorem mints_addToken [PatternSyntax] {name : String} {e : Expr} {p : TokenPattern}
    (may : G.Tokenizes e) (pattern : e.toTokenPattern = .ok p) (hd : d.addToken name s p = .ok d') :
    Mints G d d' ∧ ⟨s, p⟩ ∈ d'.tokens := by
  rw [addToken] at hd
  obtain ⟨⟨⟩, checked, hd⟩ := of_bind_eq_ok hd
  cases hd
  refine ⟨⟨fun t mem => Array.mem_push_of_mem _ mem, fun t mem => ?_⟩, Array.mem_push_self⟩
  rcases Array.mem_push.mp mem with mem | rfl
  · exact Or.inl mem
  · exact Or.inr ⟨⟨name, checked⟩, e, may, pattern⟩

theorem tokens_addNamed {name : String} {terminal visible : Bool}
    (hd : d.addNamed name terminal visible = .ok (s, d')) : d'.tokens = d.tokens := by
  rw [addNamed] at hd
  obtain ⟨t, -, hd⟩ := of_bind_eq_ok hd
  cases hd
  rfl

theorem mints_addTokenRules [PatternSyntax] {rs : List Rule} :
    ∀ {d : Draft}, (∀ r ∈ rs, G.rule? r.name = some r) → d.addTokenRules rs = .ok d' →
      Mints G d d' ∧ ∀ r ∈ rs, r.body.isToken = true →
        ∃ t ∈ d'.tokens, r.body.toTokenPattern = .ok t.pattern := by
  induction rs with
  | nil =>
    intro d _ hd
    rw [addTokenRules] at hd
    cases hd
    exact ⟨.of_eq rfl, fun _ mem => absurd mem List.not_mem_nil⟩
  | cons r rs ih =>
    intro d first hd
    obtain ⟨here, others⟩ := List.forall_mem_cons.mp first
    rw [addTokenRules] at hd
    split at hd
    · next isToken =>
      obtain ⟨p, pattern, hd⟩ := of_bind_eq_ok hd
      obtain ⟨⟨s, d₁⟩, named, hd⟩ := of_bind_eq_ok hd
      obtain ⟨d₂, token, hd⟩ := of_bind_eq_ok hd
      obtain ⟨mints, mem⟩ := mints_addToken (Or.inl ⟨r, here, isToken, rfl⟩) pattern token
      obtain ⟨rest, defined⟩ := ih others hd
      refine ⟨(Mints.of_eq (tokens_addNamed named)).trans (mints.trans rest),
        List.forall_mem_cons.mpr ⟨fun _ => ⟨_, rest.kept _ mem, pattern⟩, defined⟩⟩
    · next inner =>
      obtain ⟨rest, defined⟩ := ih others hd
      exact ⟨rest, List.forall_mem_cons.mpr ⟨fun isToken => absurd isToken inner, defined⟩⟩

theorem tokens_addExternals {rules : List Rule} {names : List String} :
    ∀ {d : Draft}, addExternals rules d names = .ok d' → d'.tokens = d.tokens := by
  induction names with
  | nil =>
    intro d hd
    rw [addExternals] at hd
    cases hd
    rfl
  | cons name names ih =>
    intro d hd
    rw [addExternals] at hd
    split at hd
    · exact ih hd
    · split at hd
      · cases hd
      · obtain ⟨⟨s, d₁⟩, named, hd⟩ := of_bind_eq_ok hd
        exact (ih hd).trans (tokens_addNamed named)

theorem mints_addAnonymous [PatternSyntax] {e : Expr} (may : G.Tokenizes e)
    (hd : d.addAnonymous e = .ok d') : Mints G d d' := by
  rw [addAnonymous] at hd
  obtain ⟨p, pattern, hd⟩ := of_bind_eq_ok hd
  split at hd
  · cases hd
    exact .of_eq rfl
  · obtain ⟨s, -, hd⟩ := of_bind_eq_ok hd
    obtain ⟨d₂, token, hd⟩ := of_bind_eq_ok hd
    cases hd
    obtain ⟨mints, -⟩ := mints_addToken may pattern token
    exact ⟨mints.kept, mints.made⟩

mutual

theorem mints_collect [PatternSyntax] : ∀ (e : Expr) {d d' : Draft},
    (∀ t ∈ e.tokens, G.Tokenizes t) → d.collect e = .ok d' → Mints G d d'
  | .literal _, _, _, may, hd => mints_addAnonymous (may _ (List.mem_singleton_self _)) hd
  | .pattern _, _, _, may, hd => mints_addAnonymous (may _ (List.mem_singleton_self _)) hd
  | .token _, _, _, may, hd => mints_addAnonymous (may _ (List.mem_singleton_self _)) hd
  | .seq items, _, _, may, hd => mints_collectAll items may hd
  | .choice items, _, _, may, hd => mints_collectAll items may hd
  | .many item, _, _, may, hd => mints_collect item may hd
  | .some item, _, _, may, hd => mints_collect item may hd
  | .optional item, _, _, may, hd => mints_collect item may hd
  | .prec _ item, _, _, may, hd => mints_collect item may hd
  | .precLeft _ item, _, _, may, hd => mints_collect item may hd
  | .precRight _ item, _, _, may, hd => mints_collect item may hd
  | .precDynamic _ item, _, _, may, hd => mints_collect item may hd
  | .blank, _, _, _, hd => .of_eq (congrArg tokens (Except.ok.inj hd).symm)
  | .ref _, _, _, _, hd => .of_eq (congrArg tokens (Except.ok.inj hd).symm)

theorem mints_collectAll [PatternSyntax] : ∀ (es : List Expr) {d d' : Draft},
    (∀ t ∈ Expr.tokensOf es, G.Tokenizes t) → d.collectAll es = .ok d' → Mints G d d'
  | [], _, _, _, hd => .of_eq (congrArg tokens (Except.ok.inj hd).symm)
  | e :: es, _, _, may, hd => by
    rw [collectAll] at hd
    obtain ⟨d₁, first, hd⟩ := of_bind_eq_ok hd
    obtain ⟨own, others⟩ := List.forall_mem_append.mp may
    exact (mints_collect e own first).trans (mints_collectAll es others hd)

end

theorem tokens_addNonterminals {rs : List Rule} :
    ∀ {d : Draft}, d.addNonterminals rs = .ok d' → d'.tokens = d.tokens := by
  induction rs with
  | nil =>
    intro d hd
    rw [addNonterminals] at hd
    cases hd
    rfl
  | cons r rs ih =>
    intro d hd
    rw [addNonterminals] at hd
    obtain ⟨⟨s, d₁⟩, named, hd⟩ := of_bind_eq_ok hd
    exact (ih hd).trans (tokens_addNamed named)

theorem tokens_addExtras {es : List Expr} :
    ∀ {d : Draft} {extras : List Symbol}, d.addExtras es = .ok (extras, d') →
      d'.tokens = d.tokens := by
  induction es with
  | nil =>
    intro d extras hd
    rw [addExtras] at hd
    cases hd
    rfl
  | cons e es ih =>
    intro d extras hd
    obtain ⟨s, ss, -, -, -, rest⟩ := addExtras_cons hd
    exact (ih (d := d.markExtra s) rest).trans rfl

end Draft

namespace Grammar

variable {G : Grammar} {g : FlatGrammar}

/-- The tokens of a flat grammar are those of the expressions that the grammar makes tokens of, and
their patterns were checked. -/
theorem tokens_of_lower [PatternSyntax] (lowered : G.lower = .ok g) :
    (∀ t ∈ g.tokens, (∃ name, t.pattern.check name = .ok ()) ∧
      ∃ e, G.Tokenizes e ∧ e.toTokenPattern = .ok t.pattern) ∧
    ∀ e, G.Tokenizes e → ∃ t ∈ g.tokens, e.toTokenPattern = .ok t.pattern := by
  obtain ⟨st⟩ := exists_stages lowered
  have kept := st.kept
  obtain ⟨rules, defined⟩ := Draft.mints_addTokenRules
    (fun r mem => mem_rules_iff.mp mem) st.addTokenRules
  have externals : Draft.Mints G st.tokenRules st.externals :=
    .of_eq (Draft.tokens_addExternals st.addExternals)
  have extras : Draft.Mints G st.externals st.extras :=
    Draft.mints_collectAll _ (fun t mem => Or.inr (Or.inl mem)) st.collectExtras
  have anonymous : Draft.Mints G st.extras st.anonymous := by
    refine Draft.mints_collectAll _ (fun t mem => ?_) st.collect
    obtain ⟨e, he, mem⟩ := Expr.exists_of_mem_tokensOf mem
    obtain ⟨r, hr, rfl⟩ := List.mem_map.mp he
    obtain ⟨first, inner⟩ := (kept.members r).mp hr
    exact Or.inr (Or.inr ⟨r, first, inner, mem⟩)
  have rest : g.tokens = st.anonymous.tokens.toList := by
    obtain ⟨n, appends⟩ := kept.ruled
    rw [st.tokens, Draft.tokens_addExtras st.addExtras, appends.tokens,
      Draft.tokens_addNonterminals st.addNonterminals]
  have all := rules.trans (externals.trans (extras.trans anonymous))
  refine ⟨fun t mem => ?_, fun e may => ?_⟩
  · rw [rest, Array.mem_toList_iff] at mem
    exact (all.made t mem).resolve_left (Array.not_mem_empty t)
  · rcases may with ⟨r, first, isToken, rfl⟩ | used
    · obtain ⟨t, mem, pattern⟩ := defined r (mem_rules_iff.mpr first) isToken
      refine ⟨t, ?_, pattern⟩
      rw [rest, Array.mem_toList_iff]
      exact (externals.trans (extras.trans anonymous)).kept t mem
    · obtain ⟨d, -, -, filed, -, tokens, -, -, has⟩ := renders_of_lower lowered
      obtain ⟨p, s, pattern, mem⟩ := has e used
      obtain ⟨info, -, -, -, mem⟩ := filed.anonymous _ mem
      rw [tokens]
      exact ⟨_, Array.mem_toList_iff.mpr mem, pattern⟩

end Grammar

end Glr
