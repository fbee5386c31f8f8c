import Glr.Grammar.Lowering
import Glr.Proofs.Derivation
import Glr.Proofs.Growth

/-!
# Flattening gives a well-formed grammar

The proofs about tables assume a `WellFormed` flat grammar, and this file pays for it.  A draft is
kept `Sound` by everything that is done to it: a symbol that a name, an anonymous token or a
production mentions is there, and is none of the reserved two.  Drafts only ever grow, so a symbol
that is known stays known and a terminal stays a terminal (`Extends`).

The one fact that is not inherited is that the left side of a production is a nonterminal.  A helper
is made as one.  A rule is looked up by its name, and the nonterminals are the last to be named, so
their names hide any older ones.
-/

namespace Glr

/-- What comes of one computation after another comes of both. -/
theorem of_bind_eq_ok {ε α β : Type} {x : Except ε α} {f : α → Except ε β} {b : β}
    (h : x >>= f = .ok b) : ∃ a, x = .ok a ∧ f a = .ok b := by
  cases x with
  | error e => cases h
  | ok a => exact ⟨a, rfl, h⟩

theorem ok_of_toOption {ε α : Type} {x : Except ε α} {a : α} (h : x.toOption = some a) :
    x = .ok a := by
  cases x with
  | error e => cases h
  | ok b => exact congrArg Except.ok (Option.some.inj h)

/-- What a list is mapped to comes from its members. -/
theorem exists_of_mapM_eq_ok {ε α β : Type} {f : α → Except ε β} :
    ∀ {xs : List α} {ys : List β}, xs.mapM f = .ok ys → ∀ y ∈ ys, ∃ x ∈ xs, f x = .ok y := by
  intro xs
  induction xs with
  | nil =>
    intro ys h
    rw [List.mapM_nil] at h
    cases h
    exact fun _ hy => absurd hy List.not_mem_nil
  | cons x xs ih =>
    intro ys h
    rw [List.mapM_cons] at h
    obtain ⟨y, first, h⟩ := of_bind_eq_ok h
    obtain ⟨ys, rest, h⟩ := of_bind_eq_ok h
    cases h
    intro z hz
    rcases List.mem_cons.mp hz with rfl | hz
    · exact ⟨x, List.mem_cons_self, first⟩
    · obtain ⟨x', mem, found⟩ := ih rest z hz
      exact ⟨x', List.mem_cons_of_mem x mem, found⟩

namespace Draft

variable {d d' d'' : Draft} {s : Symbol}

/-- A symbol of the draft that is not reserved. -/
def Known (d : Draft) (s : Symbol) : Prop := 2 ≤ s ∧ s < d.symbols.size

/-- A later draft has every symbol of an earlier one. -/
structure Extends (d d' : Draft) : Prop where
  size_le : d.symbols.size ≤ d'.symbols.size
  isTerminal : ∀ s, s < d.symbols.size → d'.isTerminal s = d.isTerminal s

/-- What holds of a draft at any time. -/
structure Sound (d : Draft) : Prop where
  reserved : 2 ≤ d.symbols.size
  terminal_end : d.isTerminal Symbol.endOfText = true
  terminal_error : d.isTerminal Symbol.error = true
  names : ∀ m ∈ d.names, d.Known m.2
  anonymous : ∀ m ∈ d.anonymous, d.Known m.2
  tokens : ∀ token ∈ d.tokens, d.Known token.symbol ∧ d.isTerminal token.symbol = true
  lhs : ∀ p ∈ d.productions, d.Known p.lhs ∧ d.isTerminal p.lhs = false
  rhs : ∀ p ∈ d.productions, ∀ s ∈ p.rhs, d.Known s

namespace Extends

theorem refl (d : Draft) : Extends d d := ⟨Nat.le_refl _, fun _ _ => rfl⟩

theorem trans (h : Extends d d') (h' : Extends d' d'') : Extends d d'' where
  size_le := Nat.le_trans h.size_le h'.size_le
  isTerminal s hs := by
    rw [h'.isTerminal s (Nat.lt_of_lt_of_le hs h.size_le), h.isTerminal s hs]

theorem known (h : Extends d d') (hs : d.Known s) : d'.Known s :=
  ⟨hs.1, Nat.lt_of_lt_of_le hs.2 h.size_le⟩

theorem of_symbols_eq (h : d'.symbols = d.symbols) : Extends d d' where
  size_le := Nat.le_of_eq (congrArg Array.size h.symm)
  isTerminal s _ := by rw [Draft.isTerminal, Draft.isTerminal, h]

end Extends

/-- A draft with one more symbol. -/
theorem extends_push (d d' : Draft) {info : SymbolInfo} (h : d'.symbols = d.symbols.push info) :
    Extends d d' ∧ d'.symbols.size = d.symbols.size + 1 ∧
      d'.isTerminal d.symbols.size = info.terminal := by
  refine ⟨⟨?_, fun s hs => ?_⟩, ?_, ?_⟩
  · rw [h, Array.size_push]
    exact Nat.le_succ _
  · rw [Draft.isTerminal, Draft.isTerminal, h, Array.getElem?_push_lt hs,
      Array.getElem?_eq_getElem hs]
  · rw [h, Array.size_push]
  · rw [Draft.isTerminal, h, Array.getElem?_push_size]

/-- A draft stays sound when what is new in it is. -/
theorem Sound.extend (h : Sound d) (ext : Extends d d')
    (names : ∀ m ∈ d'.names, m ∈ d.names ∨ d'.Known m.2)
    (anonymous : ∀ m ∈ d'.anonymous, m ∈ d.anonymous ∨ d'.Known m.2)
    (tokens : ∀ token ∈ d'.tokens, token ∈ d.tokens ∨
      d'.Known token.symbol ∧ d'.isTerminal token.symbol = true)
    (productions : ∀ p ∈ d'.productions, p ∈ d.productions ∨
      (d'.Known p.lhs ∧ d'.isTerminal p.lhs = false) ∧ ∀ s ∈ p.rhs, d'.Known s) : Sound d' where
  reserved := Nat.le_trans h.reserved ext.size_le
  terminal_end := by
    rw [ext.isTerminal Symbol.endOfText (Nat.lt_of_lt_of_le Nat.zero_lt_two h.reserved),
      h.terminal_end]
  terminal_error := by
    rw [ext.isTerminal Symbol.error (Nat.lt_of_lt_of_le Nat.one_lt_two h.reserved),
      h.terminal_error]
  names m hm := (names m hm).elim (fun old => ext.known (h.names m old)) id
  anonymous m hm := (anonymous m hm).elim (fun old => ext.known (h.anonymous m old)) id
  tokens token ht := by
    rcases tokens token ht with old | new
    · obtain ⟨known, terminal⟩ := h.tokens token old
      exact ⟨ext.known known, by rw [ext.isTerminal _ known.2, terminal]⟩
    · exact new
  lhs p hp := by
    rcases productions p hp with old | new
    · obtain ⟨known, nonterminal⟩ := h.lhs p old
      exact ⟨ext.known known, by rw [ext.isTerminal _ known.2, nonterminal]⟩
    · exact new.1
  rhs p hp s hs := (productions p hp).elim (fun old => ext.known (h.rhs p old s hs))
    fun new => new.2 s hs

theorem sound_start : Sound start where
  reserved := Nat.le_refl 2
  terminal_end := rfl
  terminal_error := rfl
  names := fun _ h => absurd h List.not_mem_nil
  anonymous := fun _ h => absurd h List.not_mem_nil
  tokens := fun _ h => absurd h (Array.not_mem_empty _)
  lhs := fun _ h => absurd h (Array.not_mem_empty _)
  rhs := fun _ h => absurd h (Array.not_mem_empty _)

theorem Sound.resolve (h : Sound d) {name : String} (hs : d.resolve name = .ok s) :
    d.Known s := by
  rw [Draft.resolve] at hs
  split at hs
  · next found =>
    cases hs
    exact h.names _ (mem_of_lookup found)
  · cases hs

theorem Sound.anonymousSymbol (h : Sound d) {e : Expr} (hs : d.anonymousSymbol e = .ok s) :
    d.Known s := by
  rw [Draft.anonymousSymbol] at hs
  obtain ⟨p, -, hs⟩ := of_bind_eq_ok hs
  split at hs
  · next found =>
    cases hs
    exact h.anonymous _ (mem_of_lookup found)
  · cases hs

theorem nextSymbol_eq (h : d.nextSymbol = .ok s) : s = d.symbols.size := by
  rw [nextSymbol] at h
  split at h
  · exact (Except.ok.inj h).symm
  · cases h

theorem nextSymbol_lt (h : d.nextSymbol = .ok s) : d.symbols.size < 65535 := by
  rw [nextSymbol] at h
  split at h
  · assumption
  · cases h

/-! ## Tokens and names -/

theorem addNamed_sound {name : String} {terminal visible : Bool} (h : Sound d)
    (hd : d.addNamed name terminal visible = .ok (s, d')) :
    Sound d' ∧ Extends d d' ∧ d'.names = (name, s) :: d.names ∧ d'.Known s ∧
      d'.isTerminal s = terminal := by
  rw [addNamed] at hd
  obtain ⟨t, ht, hd⟩ := of_bind_eq_ok hd
  cases hd
  obtain rfl := nextSymbol_eq ht
  obtain ⟨ext, size, new⟩ := extends_push d
    { d with
      names := (name, d.symbols.size) :: d.names
      symbols := d.symbols.push ⟨name, terminal, true, visible, false⟩
      origin := d.origin.push d.symbols.size } rfl
  have known : Known _ d.symbols.size := ⟨h.reserved, Nat.lt_of_succ_le (Nat.le_of_eq size.symm)⟩
  refine ⟨h.extend ext (fun m hm => ?_) (fun _ hm => Or.inl hm) (fun _ ht => Or.inl ht)
    (fun _ hp => Or.inl hp), ext, rfl, known, new⟩
  rcases List.mem_cons.mp hm with rfl | hm
  · exact Or.inr known
  · exact Or.inl hm

theorem addToken_sound [PatternSyntax] {name : String} {p : TokenPattern} (h : Sound d)
    (known : d.Known s) (terminal : d.isTerminal s = true) (hd : d.addToken name s p = .ok d') :
    Sound d' ∧ Extends d d' := by
  rw [addToken] at hd
  obtain ⟨-, -, hd⟩ := of_bind_eq_ok hd
  cases hd
  have ext : Extends d { d with tokens := d.tokens.push ⟨s, p⟩ } := .of_symbols_eq rfl
  refine ⟨h.extend ext (fun _ hm => Or.inl hm) (fun _ hm => Or.inl hm) (fun token ht => ?_)
    (fun _ hp => Or.inl hp), ext⟩
  rcases Array.mem_push.mp ht with old | rfl
  · exact Or.inl old
  · exact Or.inr ⟨ext.known known, terminal⟩

theorem addTokenRules_sound [PatternSyntax] {rs : List Rule} (h : Sound d)
    (hd : d.addTokenRules rs = .ok d') : Sound d' := by
  induction rs generalizing d with
  | nil =>
    rw [addTokenRules] at hd
    cases hd
    exact h
  | cons r rs ih =>
    rw [addTokenRules] at hd
    split at hd
    · obtain ⟨p, -, hd⟩ := of_bind_eq_ok hd
      obtain ⟨⟨s, d₁⟩, hnamed, hd⟩ := of_bind_eq_ok hd
      obtain ⟨d₂, htoken, hd⟩ := of_bind_eq_ok hd
      obtain ⟨h₁, -, -, known, terminal⟩ := addNamed_sound h hnamed
      exact ih (addToken_sound h₁ known terminal htoken).1 hd
    · exact ih h hd

theorem addExternals_sound {rules : List Rule} {names : List String} (h : Sound d)
    (hd : addExternals rules d names = .ok d') : Sound d' := by
  induction names generalizing d with
  | nil =>
    rw [addExternals] at hd
    cases hd
    exact h
  | cons name names ih =>
    rw [addExternals] at hd
    split at hd
    · exact ih h hd
    · split at hd
      · cases hd
      · obtain ⟨⟨s, d₁⟩, hnamed, hd⟩ := of_bind_eq_ok hd
        exact ih (addNamed_sound h hnamed).1 hd

theorem addAnonymous_sound [PatternSyntax] {e : Expr} (h : Sound d)
    (hd : d.addAnonymous e = .ok d') : Sound d' := by
  rw [addAnonymous] at hd
  obtain ⟨p, -, hd⟩ := of_bind_eq_ok hd
  split at hd
  · cases hd
    exact h
  · obtain ⟨s, hs, hd⟩ := of_bind_eq_ok hd
    obtain ⟨d₂, htoken, hd⟩ := of_bind_eq_ok hd
    obtain rfl := nextSymbol_eq hs
    cases hd
    obtain ⟨ext, size, terminal⟩ := extends_push d
      { d with
        symbols := d.symbols.push ⟨p.source, true, false, p.isLiteral, false⟩
        origin := d.origin.push d.symbols.size } rfl
    have known : Known _ d.symbols.size := ⟨h.reserved, Nat.lt_of_succ_le (Nat.le_of_eq size.symm)⟩
    have h₁ := h.extend ext (fun _ hm => Or.inl hm) (fun _ hm => Or.inl hm)
      (fun _ ht => Or.inl ht) (fun _ hp => Or.inl hp)
    obtain ⟨h₂, ext₂⟩ := addToken_sound h₁ known terminal htoken
    have ext₃ : Extends d₂ { d₂ with anonymous := (p, d.symbols.size) :: d₂.anonymous } :=
      .of_symbols_eq rfl
    refine h₂.extend ext₃ (fun _ hm => Or.inl hm) (fun m hm => ?_) (fun _ ht => Or.inl ht)
      (fun _ hp => Or.inl hp)
    rcases List.mem_cons.mp hm with rfl | hm
    · exact Or.inr (ext₃.known (ext₂.known known))
    · exact Or.inl hm

mutual

theorem collect_sound [PatternSyntax] :
    ∀ (e : Expr) {d d' : Draft}, Sound d → d.collect e = .ok d' → Sound d'
  | .literal _, _, _, h, hd => addAnonymous_sound h hd
  | .pattern _, _, _, h, hd => addAnonymous_sound h hd
  | .token _, _, _, h, hd => addAnonymous_sound h hd
  | .seq items, _, _, h, hd => collectAll_sound items h hd
  | .choice items, _, _, h, hd => collectAll_sound items h hd
  | .many item, _, _, h, hd => collect_sound item h hd
  | .some item, _, _, h, hd => collect_sound item h hd
  | .optional item, _, _, h, hd => collect_sound item h hd
  | .prec _ item, _, _, h, hd => collect_sound item h hd
  | .precLeft _ item, _, _, h, hd => collect_sound item h hd
  | .precRight _ item, _, _, h, hd => collect_sound item h hd
  | .precDynamic _ item, _, _, h, hd => collect_sound item h hd
  | .blank, _, _, h, hd => Except.ok.inj hd ▸ h
  | .ref _, _, _, h, hd => Except.ok.inj hd ▸ h

theorem collectAll_sound [PatternSyntax] :
    ∀ (es : List Expr) {d d' : Draft}, Sound d → d.collectAll es = .ok d' → Sound d'
  | [], _, _, h, hd => Except.ok.inj hd ▸ h
  | e :: es, _, _, h, hd => by
    rw [collectAll] at hd
    obtain ⟨d₁, first, hd⟩ := of_bind_eq_ok hd
    exact collectAll_sound es (collect_sound e h first) hd

end

/-! ## Nonterminals -/

/-- A name that no rule has stands for what it stood for, and a rule's name for a nonterminal. -/
theorem addNonterminals_sound {rs : List Rule} (h : Sound d)
    (hd : d.addNonterminals rs = .ok d') :
    Sound d' ∧ ∀ name, (∀ s, d.lookup? name = some s → d.isTerminal s = false) ∨
      (∃ r ∈ rs, r.name = name) → ∀ s, d'.lookup? name = some s → d'.isTerminal s = false := by
  induction rs generalizing d with
  | nil =>
    rw [addNonterminals] at hd
    cases hd
    refine ⟨h, fun name hname => hname.elim id ?_⟩
    rintro ⟨r, hr, -⟩
    exact absurd hr List.not_mem_nil
  | cons r rs ih =>
    rw [addNonterminals] at hd
    obtain ⟨⟨s, d₁⟩, hnamed, hd⟩ := of_bind_eq_ok hd
    obtain ⟨h₁, ext, names, known, nonterminal⟩ := addNamed_sound h hnamed
    obtain ⟨h', later⟩ := ih h₁ hd
    have own : ∀ t, d₁.lookup? r.name = some t → d₁.isTerminal t = false := by
      intro t ht
      rw [lookup?, names, List.lookup_cons_self] at ht
      cases ht
      exact nonterminal
    refine ⟨h', fun name hname => later name ?_⟩
    by_cases same : name = r.name
    · subst same
      exact Or.inl own
    · rcases hname with old | ⟨r', hr', rfl⟩
      · refine Or.inl fun t ht => ?_
        rw [lookup?, names, List.lookup_cons, beq_false_of_ne same] at ht
        rw [ext.isTerminal t (h.names _ (mem_of_lookup ht)).2]
        exact old t ht
      · rcases List.mem_cons.mp hr' with rfl | hr'
        · exact absurd rfl same
        · exact Or.inr ⟨r', hr', rfl⟩

/-! ## Productions -/

/-- What expanding a rule does to a draft: it adds helpers and productions, and no names. -/
structure Expands (d d' : Draft) : Prop where
  sound : Sound d'
  ext : Extends d d'
  names : d'.names = d.names

theorem Expands.trans (h : Expands d d') (h' : Expands d' d'') : Expands d d'' :=
  ⟨h'.sound, h.ext.trans h'.ext, h'.names.trans h.names⟩

/-- Alternatives with known symbols. -/
def KnownIn (d : Draft) (as : List Alternative) : Prop := ∀ a ∈ as, ∀ s ∈ a.symbols, d.Known s

theorem KnownIn.mono {as : List Alternative} (h : KnownIn d as) (ext : Extends d d') :
    KnownIn d' as := fun a ha s hs => ext.known (h a ha s hs)

theorem knownIn_single (hs : d.Known s) : KnownIn d [Alternative.single s] := by
  intro a ha t ht
  rw [List.mem_singleton.mp ha] at ht
  exact List.mem_singleton.mp ht ▸ hs

theorem knownIn_blank : KnownIn d [Alternative.blank] := by
  intro a ha t ht
  rw [List.mem_singleton.mp ha] at ht
  exact absurd ht List.not_mem_nil

theorem KnownIn.append {as bs : List Alternative} (ha : KnownIn d as) (hb : KnownIn d bs) :
    KnownIn d (as ++ bs) :=
  fun a h => (List.mem_append.mp h).elim (ha a) (hb a)

/-- Precedences do not matter to what is known. -/
theorem KnownIn.map {as : List Alternative} {f : Alternative → Alternative}
    (h : KnownIn d as) (symbols : ∀ a, (f a).symbols = a.symbols) : KnownIn d (as.map f) := by
  intro a ha s hs
  obtain ⟨b, hb, rfl⟩ := List.mem_map.mp ha
  exact h b hb s (symbols b ▸ hs)

theorem KnownIn.product {as bs : List Alternative} (ha : KnownIn d as) (hb : KnownIn d bs) :
    KnownIn d (Alternative.product as bs) := by
  intro c hc s hs
  obtain ⟨a, hma, hc⟩ := List.mem_flatMap.mp hc
  obtain ⟨b, hmb, rfl⟩ := List.mem_map.mp hc
  exact (List.mem_append.mp hs).elim (ha a hma s) (hb b hmb s)

theorem knownIn_helper {helper : Symbol} {body : List Alternative} (hs : d.Known helper)
    (hb : KnownIn d body) : KnownIn d (helperAlternatives helper body) := by
  refine KnownIn.append (fun c hc s hs' => ?_) hb
  obtain ⟨b, hmb, rfl⟩ := List.mem_map.mp hc
  rcases List.mem_append.mp hs' with hs' | hs'
  · exact List.mem_singleton.mp hs' ▸ hs
  · exact hb b hmb s hs'

theorem knownIn_bounded {as bs : List Alternative} (h : KnownIn d as)
    (hb : bounded as = .ok bs) : KnownIn d bs := by
  rw [bounded] at hb
  split at hb
  · cases hb
  · exact Except.ok.inj hb ▸ h

theorem addProductions_expands {lhs : Symbol} {as : List Alternative} (h : Sound d)
    (known : d.Known lhs) (nonterminal : d.isTerminal lhs = false) (has : KnownIn d as)
    {seen : List (List Symbol)} (hd : d.addProductions lhs seen as = .ok d') : Expands d d' := by
  induction as generalizing d seen with
  | nil =>
    rw [addProductions] at hd
    cases hd
    exact ⟨h, .refl _, rfl⟩
  | cons a as ih =>
    have rest : KnownIn d as := fun b hb => has b (List.mem_cons_of_mem a hb)
    rw [addProductions] at hd
    split at hd
    · exact ih h known nonterminal rest hd
    · split at hd
      · cases hd
      · have ext : Extends d { d with productions := d.productions.push (a.toProduction lhs) } :=
          .of_symbols_eq rfl
        have h₁ := h.extend ext (fun _ hm => Or.inl hm) (fun _ hm => Or.inl hm)
          (fun _ ht => Or.inl ht) fun p hp => by
            rcases Array.mem_push.mp hp with old | rfl
            · exact Or.inl old
            · exact Or.inr ⟨⟨known, nonterminal⟩, has a List.mem_cons_self⟩
        have first := Expands.mk h₁ ext rfl
        exact first.trans (ih h₁ known nonterminal rest hd)

theorem addHelper_expands {rule helper : Symbol} (h : Sound d)
    (hd : d.addHelper rule = .ok (helper, d')) :
    Expands d d' ∧ d'.Known helper ∧ d'.isTerminal helper = false := by
  rw [addHelper] at hd
  obtain ⟨t, ht, hd⟩ := of_bind_eq_ok hd
  cases hd
  obtain rfl := nextSymbol_eq ht
  obtain ⟨ext, size, new⟩ := extends_push d
    { d with
      symbols := d.symbols.push
        ⟨d.nameOf rule ++ "_repeat" ++ toString (d.origin.count rule), false, false, false, false⟩
      origin := d.origin.push rule } rfl
  exact ⟨⟨h.extend ext (fun _ hm => Or.inl hm) (fun _ hm => Or.inl hm) (fun _ ht => Or.inl ht)
    (fun _ hp => Or.inl hp), ext, rfl⟩,
    ⟨h.reserved, Nat.lt_of_succ_le (Nat.le_of_eq size.symm)⟩, new⟩

/-- A repetition: the helper, the body, and the productions of the one over the other. -/
theorem repeat_expands {rule helper : Symbol} {body : List Alternative} {d₁ d₂ d₃ : Draft}
    (h : Sound d) (first : d.addHelper rule = .ok (helper, d₁))
    (second : Sound d₁ → Expands d₁ d₂ ∧ KnownIn d₂ body)
    (third : d₂.addProductions helper [] (helperAlternatives helper body) = .ok d₃) :
    Expands d d₃ ∧ d₃.Known helper := by
  obtain ⟨e₁, known, nonterminal⟩ := addHelper_expands h first
  obtain ⟨e₂, hbody⟩ := second e₁.sound
  have known₂ := e₂.ext.known known
  have e₃ := addProductions_expands e₂.sound known₂
    ((e₂.ext.isTerminal helper known.2).trans nonterminal) (knownIn_helper known₂ hbody) third
  exact ⟨(e₁.trans e₂).trans e₃, e₃.ext.known known₂⟩

mutual

theorem alternatives_expands : ∀ (e : Expr) {d d' : Draft} {rule : Symbol}
    {as : List Alternative}, Sound d → d.alternatives rule e = .ok (as, d') →
      Expands d d' ∧ KnownIn d' as
  | .blank, d, _, _, _, h, hd => by
    rw [alternatives] at hd
    cases hd
    exact ⟨⟨h, .refl d, rfl⟩, knownIn_blank⟩
  | .ref name, d, _, _, _, h, hd => by
    rw [alternatives] at hd
    obtain ⟨s, hs, hd⟩ := of_bind_eq_ok hd
    cases hd
    exact ⟨⟨h, .refl d, rfl⟩, knownIn_single (h.resolve hs)⟩
  | .literal text, d, _, _, _, h, hd => by
    rw [alternatives] at hd
    obtain ⟨s, hs, hd⟩ := of_bind_eq_ok hd
    cases hd
    exact ⟨⟨h, .refl d, rfl⟩, knownIn_single (h.anonymousSymbol hs)⟩
  | .pattern source, d, _, _, _, h, hd => by
    rw [alternatives] at hd
    obtain ⟨s, hs, hd⟩ := of_bind_eq_ok hd
    cases hd
    exact ⟨⟨h, .refl d, rfl⟩, knownIn_single (h.anonymousSymbol hs)⟩
  | .token item, d, _, _, _, h, hd => by
    rw [alternatives] at hd
    obtain ⟨s, hs, hd⟩ := of_bind_eq_ok hd
    cases hd
    exact ⟨⟨h, .refl d, rfl⟩, knownIn_single (h.anonymousSymbol hs)⟩
  | .seq items, _, _, _, _, h, hd => by
    rw [alternatives] at hd
    exact sequence_expands items h knownIn_blank hd
  | .choice items, _, _, _, _, h, hd => by
    rw [alternatives] at hd
    obtain ⟨⟨as, d₁⟩, first, hd⟩ := of_bind_eq_ok hd
    obtain ⟨bs, hbounded, hd⟩ := of_bind_eq_ok hd
    cases hd
    obtain ⟨e₁, known⟩ := branches_expands items h first
    exact ⟨e₁, knownIn_bounded known hbounded⟩
  | .optional item, _, _, _, _, h, hd => by
    rw [alternatives] at hd
    obtain ⟨⟨as, d₁⟩, first, hd⟩ := of_bind_eq_ok hd
    obtain ⟨bs, hbounded, hd⟩ := of_bind_eq_ok hd
    cases hd
    obtain ⟨e₁, known⟩ := alternatives_expands item h first
    exact ⟨e₁, knownIn_bounded (knownIn_blank.append known) hbounded⟩
  | .many item, _, _, _, _, h, hd => by
    rw [alternatives] at hd
    obtain ⟨⟨helper, d₁⟩, first, hd⟩ := of_bind_eq_ok hd
    obtain ⟨⟨body, d₂⟩, second, hd⟩ := of_bind_eq_ok hd
    obtain ⟨d₃, third, hd⟩ := of_bind_eq_ok hd
    cases hd
    obtain ⟨e, known⟩ := repeat_expands h first
      (fun h₁ => alternatives_expands item h₁ second) third
    exact ⟨e, knownIn_blank.append (knownIn_single known)⟩
  | .some item, _, _, _, _, h, hd => by
    rw [alternatives] at hd
    obtain ⟨⟨helper, d₁⟩, first, hd⟩ := of_bind_eq_ok hd
    obtain ⟨⟨body, d₂⟩, second, hd⟩ := of_bind_eq_ok hd
    obtain ⟨d₃, third, hd⟩ := of_bind_eq_ok hd
    cases hd
    obtain ⟨e, known⟩ := repeat_expands h first
      (fun h₁ => alternatives_expands item h₁ second) third
    exact ⟨e, knownIn_single known⟩
  | .prec level item, _, _, _, _, h, hd => by
    rw [alternatives] at hd
    obtain ⟨⟨as, d₁⟩, first, hd⟩ := of_bind_eq_ok hd
    cases hd
    obtain ⟨e₁, known⟩ := alternatives_expands item h first
    exact ⟨e₁, known.map fun _ => rfl⟩
  | .precLeft level item, _, _, _, _, h, hd => by
    rw [alternatives] at hd
    obtain ⟨⟨as, d₁⟩, first, hd⟩ := of_bind_eq_ok hd
    cases hd
    obtain ⟨e₁, known⟩ := alternatives_expands item h first
    exact ⟨e₁, known.map fun _ => rfl⟩
  | .precRight level item, _, _, _, _, h, hd => by
    rw [alternatives] at hd
    obtain ⟨⟨as, d₁⟩, first, hd⟩ := of_bind_eq_ok hd
    cases hd
    obtain ⟨e₁, known⟩ := alternatives_expands item h first
    exact ⟨e₁, known.map fun _ => rfl⟩
  | .precDynamic level item, _, _, _, _, h, hd => by
    rw [alternatives] at hd
    obtain ⟨⟨as, d₁⟩, first, hd⟩ := of_bind_eq_ok hd
    cases hd
    obtain ⟨e₁, known⟩ := alternatives_expands item h first
    exact ⟨e₁, known.map fun _ => rfl⟩

theorem sequence_expands : ∀ (es : List Expr) {d d' : Draft} {rule : Symbol}
    {before as : List Alternative}, Sound d → KnownIn d before →
      d.sequence rule before es = .ok (as, d') → Expands d d' ∧ KnownIn d' as
  | [], d, _, _, _, _, h, hb, hd => by
    rw [sequence] at hd
    cases hd
    exact ⟨⟨h, .refl d, rfl⟩, hb⟩
  | e :: es, _, _, _, _, _, h, hb, hd => by
    rw [sequence] at hd
    obtain ⟨⟨next, d₁⟩, first, hd⟩ := of_bind_eq_ok hd
    obtain ⟨e₁, known⟩ := alternatives_expands e h first
    dsimp only at hd
    split at hd
    · cases hd
    · obtain ⟨e₂, known₂⟩ := sequence_expands es e₁.sound ((hb.mono e₁.ext).product known) hd
      exact ⟨e₁.trans e₂, known₂⟩

theorem branches_expands : ∀ (es : List Expr) {d d' : Draft} {rule : Symbol}
    {as : List Alternative}, Sound d → d.branches rule es = .ok (as, d') →
      Expands d d' ∧ KnownIn d' as
  | [], d, _, _, _, h, hd => by
    rw [branches] at hd
    cases hd
    exact ⟨⟨h, .refl d, rfl⟩, fun _ ha => absurd ha List.not_mem_nil⟩
  | e :: es, _, _, _, _, h, hd => by
    rw [branches] at hd
    obtain ⟨⟨as, d₁⟩, first, hd⟩ := of_bind_eq_ok hd
    obtain ⟨⟨bs, d₂⟩, second, hd⟩ := of_bind_eq_ok hd
    cases hd
    obtain ⟨e₁, known⟩ := alternatives_expands e h first
    obtain ⟨e₂, known₂⟩ := branches_expands es e₁.sound second
    exact ⟨e₁.trans e₂, (known.mono e₂.ext).append known₂⟩

end

theorem isTerminal_eq (t : Symbol) :
    d.isTerminal t = (d.symbols[t]?.map SymbolInfo.terminal).getD false := by
  rw [isTerminal]
  cases d.symbols[t]? <;> rfl

theorem addRules_expands {rs : List Rule} (h : Sound d)
    (nonterminal : ∀ r ∈ rs, ∀ s, d.lookup? r.name = some s → d.isTerminal s = false)
    (hd : d.addRules rs = .ok d') : Expands d d' := by
  induction rs generalizing d with
  | nil =>
    rw [addRules] at hd
    cases hd
    exact ⟨h, .refl _, rfl⟩
  | cons r rs ih =>
    rw [addRules] at hd
    obtain ⟨lhs, hlhs, hd⟩ := of_bind_eq_ok hd
    obtain ⟨⟨as, d₁⟩, first, hd⟩ := of_bind_eq_ok hd
    obtain ⟨d₂, second, hd⟩ := of_bind_eq_ok hd
    have known := h.resolve hlhs
    have hlookup : d.lookup? r.name = some lhs := by
      rw [resolve] at hlhs
      split at hlhs
      · next found => rw [found, Except.ok.inj hlhs]
      · cases hlhs
    obtain ⟨e₁, has⟩ := alternatives_expands r.body h first
    have e₂ := addProductions_expands e₁.sound (e₁.ext.known known)
      ((e₁.ext.isTerminal lhs known.2).trans
        (nonterminal r List.mem_cons_self lhs hlookup)) has second
    have e := e₁.trans e₂
    refine e.trans (ih e.sound (fun r' hr' s hs => ?_) hd)
    rw [lookup?, e.names] at hs
    rw [e.ext.isTerminal s (h.names _ (mem_of_lookup hs)).2]
    exact nonterminal r' (List.mem_cons_of_mem r hr') s hs

/-- A draft in which a symbol is marked as an extra. -/
def markExtra (d : Draft) (s : Symbol) : Draft :=
  { d with symbols := d.symbols.modify s fun info => { info with extra := true } }

/-- The extra in front is a terminal; it is marked, and the others follow. -/
theorem addExtras_cons {e : Expr} {es : List Expr} {extras : List Symbol}
    (hd : d.addExtras (e :: es) = .ok (extras, d')) :
    ∃ s ss, extras = s :: ss ∧ (Sound d → d.Known s) ∧ d.isTerminal s = true ∧
      (d.markExtra s).addExtras es = .ok (ss, d') := by
  have marked : ∀ {s : Symbol},
      (do if !d.isTerminal s then throw (.invalidPattern (d.nameOf s) .extraIsRule)
          let r ← (d.markExtra s).addExtras es
          return (s :: r.1, r.2)) = Except.ok (ε := GrammarError) (extras, d') →
      ∃ ss, extras = s :: ss ∧ d.isTerminal s = true ∧
        (d.markExtra s).addExtras es = .ok (ss, d') := by
    intro s hd
    split at hd
    · cases hd
    · next terminal =>
      obtain ⟨⟨ss, d₂⟩, rest, hd⟩ := of_bind_eq_ok hd
      cases hd
      exact ⟨ss, rfl, by simpa using terminal, rest⟩
  rw [addExtras.eq_def] at hd
  dsimp only at hd
  -- A name and any other expression differ in how the symbol is found, and in nothing else.
  split at hd
  · obtain ⟨s, found, hd⟩ := of_bind_eq_ok hd
    obtain ⟨ss, same, terminal, rest⟩ := marked hd
    exact ⟨s, ss, same, fun h => h.resolve found, terminal, rest⟩
  · obtain ⟨s, found, hd⟩ := of_bind_eq_ok hd
    obtain ⟨ss, same, terminal, rest⟩ := marked hd
    exact ⟨s, ss, same, fun h => h.anonymousSymbol found, terminal, rest⟩

theorem isTerminal_markExtra (d : Draft) (s t : Symbol) :
    (d.markExtra s).isTerminal t = d.isTerminal t := by
  rw [isTerminal_eq, isTerminal_eq, markExtra, Array.getElem?_modify]
  split
  · rw [Option.map_map]
    rfl
  · rfl

theorem extends_markExtra (d : Draft) (s : Symbol) : Extends d (d.markExtra s) :=
  ⟨Nat.le_of_eq (Array.size_modify).symm, fun t _ => d.isTerminal_markExtra s t⟩

theorem Sound.markExtra (h : Sound d) (s : Symbol) : Sound (d.markExtra s) :=
  h.extend (d.extends_markExtra s) (fun _ hm => Or.inl hm) (fun _ hm => Or.inl hm)
    (fun _ ht => Or.inl ht) (fun _ hp => Or.inl hp)

theorem addExtras_expands {es : List Expr} {extras : List Symbol} (h : Sound d)
    (hd : d.addExtras es = .ok (extras, d')) : Expands d d' := by
  induction es generalizing d extras with
  | nil =>
    rw [addExtras] at hd
    cases hd
    exact ⟨h, .refl _, rfl⟩
  | cons e es ih =>
    obtain ⟨s, ss, -, -, -, rest⟩ := addExtras_cons hd
    have first := Expands.mk (h.markExtra s) (d.extends_markExtra s) rfl
    exact first.trans (ih (h.markExtra s) rest)

theorem Sound.resolveAll (h : Sound d) {names : List String} {ss : List Symbol}
    (hd : names.mapM d.resolve = .ok ss) : ∀ s ∈ ss, d.Known s := by
  intro s hs
  obtain ⟨name, -, found⟩ := exists_of_mapM_eq_ok hd s hs
  exact h.resolve found

end Draft

namespace Grammar

variable {G : Grammar} {g : FlatGrammar}

/-- The drafts that flattening goes through, each with what was added last. -/
structure Stages [PatternSyntax] (G : Grammar) (g : FlatGrammar) where
  (tokenRules externals extras anonymous named ruled marked : Draft)
  /-- The rules that name no token. -/
  inner : List Rule
  addTokenRules : Draft.start.addTokenRules (distinctRules [] G.rules) = .ok tokenRules
  addExternals :
    Draft.addExternals (distinctRules [] G.rules) tokenRules G.externals = .ok externals
  collectExtras : externals.collectAll G.extras = .ok extras
  inner_eq : inner = (distinctRules [] G.rules).filter fun r => !extras.isTokenName r.name
  collect : extras.collectAll (inner.map (·.body)) = .ok anonymous
  addNonterminals : anonymous.addNonterminals inner = .ok named
  addRules : named.addRules inner = .ok ruled
  start : ∃ name, ruled.resolve name = .ok g.start
  start_nonterminal : ruled.isTerminal g.start = false
  addExtras : ruled.addExtras G.extras = .ok (g.extras, marked)
  word : G.lowerWord marked = .ok g.word
  resolve : G.externals.mapM marked.resolve = .ok g.externals
  symbols : g.symbols = marked.symbols
  tokens : g.tokens = marked.tokens.toList
  productions : g.productions = marked.productions
  few : marked.productions.size < 65535

theorem exists_stages [PatternSyntax] (h : G.lower = .ok g) : Nonempty (Stages G g) := by
  rw [lower] at h
  split at h
  · cases h
  · next first rest _ =>
    obtain ⟨d₁, h₁, h⟩ := of_bind_eq_ok h
    obtain ⟨d₂, h₂, h⟩ := of_bind_eq_ok h
    obtain ⟨d₃, h₃, h⟩ := of_bind_eq_ok h
    obtain ⟨d₄, h₄, h⟩ := of_bind_eq_ok h
    obtain ⟨d₅, h₅, h⟩ := of_bind_eq_ok h
    obtain ⟨d₆, h₆, h⟩ := of_bind_eq_ok h
    obtain ⟨start, hstart, h⟩ := of_bind_eq_ok h
    dsimp only at h
    split at h
    · cases h
    · next nonterminal =>
      obtain ⟨⟨extras, d₇⟩, h₇, h⟩ := of_bind_eq_ok h
      obtain ⟨word, hword, h⟩ := of_bind_eq_ok h
      obtain ⟨externals, hexternals, h⟩ := of_bind_eq_ok h
      obtain ⟨conflicts, -, h⟩ := of_bind_eq_ok h
      dsimp only at h
      split at h
      · cases h
      · next few =>
        cases h
        exact ⟨{
          tokenRules := d₁
          externals := d₂
          extras := d₃
          anonymous := d₄
          named := d₅
          ruled := d₆
          marked := d₇
          inner := (distinctRules [] G.rules).filter fun r => !d₃.isTokenName r.name
          addTokenRules := h₁
          addExternals := h₂
          collectExtras := h₃
          inner_eq := rfl
          collect := h₄
          addNonterminals := h₅
          addRules := h₆
          start := ⟨first.name, hstart⟩
          start_nonterminal := Bool.eq_false_iff.mpr nonterminal
          addExtras := h₇
          word := hword
          resolve := hexternals
          symbols := rfl
          tokens := rfl
          productions := rfl
          few := Nat.lt_of_not_le few }⟩

/-- Every grammar that can be flattened is well formed when it is flat. -/
theorem wellFormed_of_lower [PatternSyntax] (h : G.lower = .ok g) : g.WellFormed := by
  obtain ⟨st⟩ := exists_stages h
  have sound₁ := Draft.addTokenRules_sound Draft.sound_start st.addTokenRules
  have sound₂ := Draft.addExternals_sound sound₁ st.addExternals
  have sound₃ := Draft.collectAll_sound _ sound₂ st.collectExtras
  have sound₄ := Draft.collectAll_sound _ sound₃ st.collect
  obtain ⟨sound₅, nonterminal⟩ := Draft.addNonterminals_sound sound₄ st.addNonterminals
  have sound₆ := (Draft.addRules_expands sound₅
    (fun r hr => nonterminal r.name (Or.inr ⟨r, hr, rfl⟩)) st.addRules).sound
  obtain ⟨name, hstart⟩ := st.start
  have known := sound₆.resolve hstart
  obtain ⟨sound, ext, -⟩ := Draft.addExtras_expands sound₆ st.addExtras
  have isTerminal (s : Symbol) : g.isTerminal s = st.marked.isTerminal s := by
    rw [FlatGrammar.isTerminal, st.symbols]
    rfl
  refine {
    terminal_end := (isTerminal _).trans sound.terminal_end
    terminal_error := (isTerminal _).trans sound.terminal_error
    lhs_lt := fun p hp => ?_
    lhs_nonterminal := fun p hp => ?_
    rhs_lt := fun p hp s hs => ?_
    rhs_unreserved := fun p hp s hs => ?_
    start_lt := st.symbols ▸ (ext.known known).2
    start_nonterminal := ?_
    token := fun token ht => ?_
    external := fun s hs => (sound.resolveAll st.resolve s hs).1 }
  · rw [st.symbols]
    exact (sound.lhs p (st.productions ▸ hp)).1.2
  · rw [isTerminal]
    exact (sound.lhs p (st.productions ▸ hp)).2
  · rw [st.symbols]
    exact (sound.rhs p (st.productions ▸ hp) s hs).2
  · exact (sound.rhs p (st.productions ▸ hp) s hs).1
  · rw [isTerminal, ext.isTerminal _ known.2]
    exact st.start_nonterminal
  · rw [st.tokens] at ht
    rw [isTerminal]
    have h := sound.tokens token (Array.mem_toList_iff.mp ht)
    exact ⟨h.1.1, h.2⟩

end Grammar

end Glr
