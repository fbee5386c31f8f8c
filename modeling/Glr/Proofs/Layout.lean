import Glr.Proofs.Flattening

/-!
# How the symbols of a flat grammar are laid out

A loader expects the two reserved symbols first, then all terminals, then all nonterminals.  No
step of flattening sees to that alone.  Every step puts its symbols behind those there are, and they
are all of one kind (`Lays`): the token rules, the external tokens and the anonymous tokens add
terminals, and only then the rules and the helpers of their repetitions add nonterminals.  Marking
the extras moves nothing.

That a symbol with a role is a terminal was checked for extras and the word token.  It was not for
external tokens, which may also be token rules: they were terminals when they were looked at, and
the books show that a name stays with its symbol.
-/

namespace Glr

namespace Draft

variable {G : Grammar} {d d' d'' : Draft} {s : Symbol} {terminal : Bool}

/-- Symbols of one kind are put behind those of a draft, as far as there is room. -/
structure Lays (terminal : Bool) (d d' : Draft) : Prop where
  symbols : ∃ infos : List SymbolInfo, (∀ info ∈ infos, info.terminal = terminal) ∧
    d'.symbols.toList = d.symbols.toList ++ infos
  room : d.symbols.size ≤ 65535 → d'.symbols.size ≤ 65535

namespace Lays

theorem of_symbols_eq (h : d'.symbols = d.symbols) : Lays terminal d d' where
  symbols := ⟨[], fun _ hi => absurd hi List.not_mem_nil, by rw [h, List.append_nil]⟩
  room := by rw [h]; exact id

theorem refl (d : Draft) : Lays terminal d d := .of_symbols_eq rfl

theorem trans (h : Lays terminal d d') (h' : Lays terminal d' d'') : Lays terminal d d'' := by
  obtain ⟨infos, same, symbols⟩ := h.symbols
  obtain ⟨infos', same', symbols'⟩ := h'.symbols
  refine ⟨⟨infos ++ infos', fun info hi => ?_, ?_⟩, fun room => h'.room (h.room room)⟩
  · exact (List.mem_append.mp hi).elim (same info) (same' info)
  · rw [symbols', symbols, List.append_assoc]

theorem push (info : SymbolInfo) (next : d.nextSymbol = .ok s)
    (symbols : d'.symbols = d.symbols.push info) : Lays info.terminal d d' where
  symbols := by
    refine ⟨[info], fun info' hi => ?_, ?_⟩
    · rw [List.mem_singleton.mp hi]
    · rw [symbols, Array.toList_push]
  room := by
    rw [symbols, Array.size_push]
    exact fun _ => nextSymbol_lt next

theorem of_appends {n : Nat} (h : Appends d d' n) : Lays false d d' := by
  obtain ⟨infos, -, helpers, symbols⟩ := h.symbols
  exact ⟨⟨infos, fun info hi => (helpers info hi).2, symbols⟩, h.room⟩

theorem size_le (h : Lays terminal d d') : d.symbols.size ≤ d'.symbols.size := by
  obtain ⟨infos, -, symbols⟩ := h.symbols
  rw [← Array.length_toList, ← Array.length_toList, symbols, List.length_append]
  exact Nat.le_add_right _ _

theorem old (h : Lays terminal d d') (hs : s < d.symbols.size) :
    d'.symbols[s]? = d.symbols[s]? := by
  obtain ⟨infos, -, symbols⟩ := h.symbols
  rw [← Array.getElem?_toList, symbols, List.getElem?_append_left hs, Array.getElem?_toList]

theorem isTerminal_old (h : Lays terminal d d') (hs : s < d.symbols.size) :
    d'.isTerminal s = d.isTerminal s := by
  rw [Draft.isTerminal, Draft.isTerminal, h.old hs]

theorem isTerminal_new (h : Lays terminal d d') (hs : d.symbols.size ≤ s)
    (hs' : s < d'.symbols.size) : d'.isTerminal s = terminal := by
  obtain ⟨infos, same, symbols⟩ := h.symbols
  have found := Array.getElem?_eq_getElem hs'
  have mem : d'.symbols[s] ∈ infos := by
    rw [← Array.getElem?_toList, symbols, List.getElem?_append_right hs] at found
    exact List.mem_of_getElem? found
  rw [Draft.isTerminal, found]
  exact same _ mem

end Lays

/-! ## Terminals -/

theorem isTerminal_start : ∀ {s : Symbol}, s < 2 → start.isTerminal s = true
  | 0, _ => rfl
  | 1, _ => rfl

theorem addNamed_lays {name : String} {visible : Bool}
    (hd : d.addNamed name terminal visible = .ok (s, d')) : Lays terminal d d' := by
  rw [addNamed] at hd
  obtain ⟨t, next, hd⟩ := of_bind_eq_ok hd
  cases hd
  exact .push ⟨name, terminal, true, visible, false⟩ next rfl

theorem addToken_lays {name : String} {p : TokenPattern} (hd : d.addToken name s p = .ok d') :
    Lays terminal d d' := by
  rw [addToken] at hd
  obtain ⟨-, -, hd⟩ := of_bind_eq_ok hd
  cases hd
  exact .of_symbols_eq rfl

theorem addTokenRules_lays {rs : List Rule} (hd : d.addTokenRules rs = .ok d') :
    Lays true d d' := by
  induction rs generalizing d with
  | nil =>
    rw [addTokenRules] at hd
    cases hd
    exact .refl _
  | cons r rs ih =>
    rw [addTokenRules] at hd
    split at hd
    · obtain ⟨p, -, hd⟩ := of_bind_eq_ok hd
      obtain ⟨⟨s, d₁⟩, named, hd⟩ := of_bind_eq_ok hd
      obtain ⟨d₂, token, hd⟩ := of_bind_eq_ok hd
      exact ((addNamed_lays named).trans (addToken_lays token)).trans (ih hd)
    · exact ih hd

theorem addExternals_lays {rules : List Rule} {names : List String}
    (hd : addExternals rules d names = .ok d') : Lays true d d' := by
  induction names generalizing d with
  | nil =>
    rw [addExternals] at hd
    cases hd
    exact .refl _
  | cons name names ih =>
    rw [addExternals] at hd
    split at hd
    · exact ih hd
    · split at hd
      · cases hd
      · obtain ⟨⟨s, d₁⟩, named, hd⟩ := of_bind_eq_ok hd
        exact (addNamed_lays named).trans (ih hd)

theorem addAnonymous_lays {e : Expr} (hd : d.addAnonymous e = .ok d') : Lays true d d' := by
  rw [addAnonymous] at hd
  obtain ⟨p, -, hd⟩ := of_bind_eq_ok hd
  split at hd
  · cases hd
    exact .refl d
  · obtain ⟨s, next, hd⟩ := of_bind_eq_ok hd
    obtain ⟨d₂, token, hd⟩ := of_bind_eq_ok hd
    cases hd
    have pushed : Lays true d
        { d with
          symbols := d.symbols.push ⟨p.source, true, false, p.isLiteral, false⟩
          origin := d.origin.push s } :=
      .push ⟨p.source, true, false, p.isLiteral, false⟩ next rfl
    exact (pushed.trans (addToken_lays token)).trans (.of_symbols_eq rfl)

mutual

theorem collect_lays : ∀ (e : Expr) {d d' : Draft}, d.collect e = .ok d' → Lays true d d'
  | .literal _, _, _, hd => addAnonymous_lays hd
  | .pattern _, _, _, hd => addAnonymous_lays hd
  | .token _, _, _, hd => addAnonymous_lays hd
  | .seq items, _, _, hd => collectAll_lays items hd
  | .choice items, _, _, hd => collectAll_lays items hd
  | .many item, _, _, hd => collect_lays item hd
  | .some item, _, _, hd => collect_lays item hd
  | .optional item, _, _, hd => collect_lays item hd
  | .prec _ item, _, _, hd => collect_lays item hd
  | .precLeft _ item, _, _, hd => collect_lays item hd
  | .precRight _ item, _, _, hd => collect_lays item hd
  | .precDynamic _ item, _, _, hd => collect_lays item hd
  | .blank, d, _, hd => Except.ok.inj hd ▸ .refl d
  | .ref _, d, _, hd => Except.ok.inj hd ▸ .refl d

theorem collectAll_lays :
    ∀ (es : List Expr) {d d' : Draft}, d.collectAll es = .ok d' → Lays true d d'
  | [], d, _, hd => Except.ok.inj hd ▸ .refl d
  | e :: es, _, _, hd => by
    rw [collectAll] at hd
    obtain ⟨d₁, first, hd⟩ := of_bind_eq_ok hd
    exact (collect_lays e first).trans (collectAll_lays es hd)

end

/-! ## Nonterminals and roles -/

theorem addNonterminals_lays {rs : List Rule} (hd : d.addNonterminals rs = .ok d') :
    Lays false d d' := by
  induction rs generalizing d with
  | nil =>
    rw [addNonterminals] at hd
    cases hd
    exact .refl _
  | cons r rs ih =>
    rw [addNonterminals] at hd
    obtain ⟨⟨s, d₁⟩, named, hd⟩ := of_bind_eq_ok hd
    exact (addNamed_lays named).trans (ih hd)

/-- To mark an extra changes neither reserved symbol. -/
theorem reserved_markExtra {t : Symbol} (known : d.Known s) (ht : t < 2) :
    (d.markExtra s).symbols[t]? = d.symbols[t]? := by
  rw [markExtra, Array.getElem?_modify, if_neg]
  exact Nat.ne_of_gt (Nat.lt_of_lt_of_le ht known.1)

/-- Marking the extras leaves the layout as it is, and they are all terminals. -/
theorem addExtras_lays {es : List Expr} :
    ∀ {d : Draft} {extras : List Symbol}, Sound d → d.addExtras es = .ok (extras, d') →
      d'.symbols.size = d.symbols.size ∧ (∀ t, d'.isTerminal t = d.isTerminal t) ∧
        (∀ t : Symbol, t < 2 → d'.symbols[t]? = d.symbols[t]?) ∧
          ∀ s ∈ extras, d.isTerminal s = true := by
  induction es with
  | nil =>
    intro d extras _ hd
    rw [addExtras] at hd
    cases hd
    exact ⟨rfl, fun _ => rfl, fun _ _ => rfl, fun _ hs => absurd hs List.not_mem_nil⟩
  | cons e es ih =>
    intro d extras sound hd
    obtain ⟨s, ss, rfl, known, terminal, rest⟩ := addExtras_cons hd
    obtain ⟨size, isTerminal, reserved, listed⟩ := ih (sound.markExtra s) rest
    have same := d.isTerminal_markExtra s
    refine ⟨size.trans Array.size_modify, fun t => (isTerminal t).trans (same t),
      fun t ht => (reserved t ht).trans (reserved_markExtra (known sound) ht), fun t ht => ?_⟩
    rcases List.mem_cons.mp ht with rfl | ht
    · exact terminal
    · exact (same t).symm.trans (listed t ht)

end Draft

/-- The symbols of a flat grammar as a loader expects them: the two reserved ones, the other
terminals, the nonterminals; and what has a role is a terminal. -/
structure FlatGrammar.LaidOut (g : FlatGrammar) : Prop where
  endOfText : g.symbols[Symbol.endOfText]? = some ⟨"end", true, false, false, false⟩
  error : g.symbols[Symbol.error]? = some ⟨"ERROR", true, true, true, false⟩
  terminals : ∃ k, 2 ≤ k ∧ k ≤ g.symbols.size ∧ ∀ s, g.isTerminal s = true ↔ s < k
  room : g.symbols.size ≤ 65535
  extras : ∀ s ∈ g.extras, g.isTerminal s = true
  externals : ∀ s ∈ g.externals, g.isTerminal s = true
  word : ∀ s ∈ g.word, g.isTerminal s = true

namespace Grammar

variable {G : Grammar} {g : FlatGrammar}

namespace Stages

variable (st : Stages G g)

theorem terminals_lays : Draft.Lays true .start st.anonymous :=
  (((Draft.addTokenRules_lays st.addTokenRules).trans (Draft.addExternals_lays st.addExternals)
    ).trans (Draft.collectAll_lays _ st.collectExtras)).trans (Draft.collectAll_lays _ st.collect)

theorem nonterminals_lays : Draft.Lays false st.anonymous st.ruled := by
  obtain ⟨n, appends⟩ := st.kept.ruled
  exact (Draft.addNonterminals_lays st.addNonterminals).trans (.of_appends appends)

/-- An external token is the terminal that its name was given to. -/
theorem isTerminal_external {s : Symbol} (hs : s ∈ g.externals) :
    st.marked.isTerminal s = true := by
  have kept := st.kept
  obtain ⟨name, mem, found⟩ := exists_of_mapM_eq_ok st.resolve s hs
  have named : (name, s) ∈ st.marked.names := by
    rw [Draft.resolve] at found
    split at found
    · next found' =>
      cases found
      exact mem_of_lookup found'
    · cases found
  obtain ⟨t, mem'⟩ := kept.hasExternals name mem
  rw [kept.filed.isTerminal_iff named, ← kept.externals.filed.isTerminal_iff mem']
  exact kept.onlyTokens _ mem'

theorem isTerminal_word {s : Symbol} (hs : s ∈ g.word) : st.marked.isTerminal s = true := by
  have found := st.word
  rw [lowerWord] at found
  split at found
  · rw [← Except.ok.inj found] at hs
    cases hs
  · obtain ⟨t, -, found⟩ := of_bind_eq_ok found
    split at found
    · next terminal =>
      rw [← Except.ok.inj found] at hs
      cases hs
      exact terminal
    · cases found

end Stages

theorem laidOut_of_lower (h : G.lower = .ok g) : g.LaidOut := by
  obtain ⟨st⟩ := exists_stages h
  have kept := st.kept
  have first := st.terminals_lays
  have second := st.nonterminals_lays
  obtain ⟨size, isTerminal, reserved, extras⟩ := 
    Draft.addExtras_lays kept.soundRuled st.addExtras
  have isTerminal_eq (s : Symbol) : g.isTerminal s = st.ruled.isTerminal s := by
    rw [← isTerminal s, FlatGrammar.isTerminal, st.symbols]
    rfl
  have two_le : 2 ≤ st.anonymous.symbols.size := first.size_le
  have start {s : Symbol} (hs : s < 2) : g.symbols[s]? = Draft.start.symbols[s]? := by
    rw [st.symbols, reserved s hs, second.old (Nat.lt_of_lt_of_le hs two_le), first.old hs]
  refine {
    endOfText := start Nat.zero_lt_two
    error := start Nat.one_lt_two
    terminals := ⟨st.anonymous.symbols.size, two_le, ?_, fun s => ?_⟩
    room := ?_
    extras := fun s hs => (isTerminal_eq s).trans (extras s hs)
    externals := fun s hs => ?_
    word := fun s hs => ?_ }
  · rw [st.symbols, size]
    exact second.size_le
  · rw [isTerminal_eq]
    constructor
    · intro terminal
      refine Nat.lt_of_not_le fun behind => ?_
      rcases Nat.lt_or_ge s st.ruled.symbols.size with there | absent
      · rw [second.isTerminal_new behind there] at terminal
        cases terminal
      · rw [Draft.isTerminal, Array.getElem?_eq_none absent] at terminal
        cases terminal
    · intro before
      rw [second.isTerminal_old before]
      rcases Nat.lt_or_ge s 2 with reserved | own
      · rw [first.isTerminal_old reserved]
        exact Draft.isTerminal_start reserved
      · exact first.isTerminal_new own before
  · rw [st.symbols, size]
    exact second.room (first.room (by decide))
  · rw [isTerminal_eq, ← isTerminal]
    exact st.isTerminal_external hs
  · rw [isTerminal_eq, ← isTerminal]
    exact st.isTerminal_word hs

end Grammar

end Glr
