import Glr.Proofs.Names
import Glr.Proofs.Recognition

/-!
# Flattening keeps the language

What a nonterminal rule denotes, its symbol derives in the flat grammar, and nothing else
(`lower_preserves`).  The two sides speak of texts in different alphabets, and the letters of the
terminals lead from the one to the other without any loss: no two terminals have one letter, and
every token that is written anywhere has a terminal with its kind and source.

All the work is done elsewhere.  What is left is to say which legend the symbols have: those that
are filed have that of their letter, and the symbols from the first helper on are the repetitions
in the rules, one after another.
-/

namespace Glr

namespace Draft

variable {G : Grammar} {d d' : Draft} {s : Symbol}

/-- To mark an extra changes nothing that anything is filed under. -/
theorem Filed.markExtra (filed : Filed G d) (s : Symbol) : Filed G (d.markExtra s) := by
  have marked : ∀ {t : Symbol} {info : SymbolInfo}, d.symbols[t]? = some info →
      ∃ info', (d.symbols.modify s fun info => { info with extra := true })[t]? = some info' ∧
        info'.named = info.named ∧ info'.name = info.name ∧ info'.terminal = info.terminal := by
    intro t info found
    rw [Array.getElem?_modify, found]
    split
    · exact ⟨_, rfl, rfl, rfl, rfl⟩
    · exact ⟨_, rfl, rfl, rfl, rfl⟩
  rw [Draft.markExtra]
  refine ⟨?_, ?_, ?_, filed.names, filed.patterns, filed.tokens⟩
  · intro m hm
    obtain ⟨info, found, named, name, source⟩ := filed.named m hm
    obtain ⟨info', found', named', name', terminal'⟩ := marked found
    exact ⟨info', found', named'.trans named, name'.trans name, terminal' ▸ source⟩
  · intro m hm
    obtain ⟨info, found, named, terminal, mem⟩ := filed.anonymous m hm
    obtain ⟨info', found', named', name', terminal'⟩ := marked found
    exact ⟨info', found', named'.trans named, terminal'.trans terminal, mem⟩
  · intro t info' own found'
    have bound : t < d.symbols.size := by
      have bound := (Array.getElem?_eq_some_iff.mp found').1
      rwa [Array.size_modify] at bound
    have found := Array.getElem?_eq_getElem bound
    obtain ⟨info'', found'', named, name, terminal⟩ := marked found
    obtain rfl := Option.some.inj (found'.symm.trans found'')
    rw [named, name, terminal]
    exact filed.filed t _ own found

theorem filed_addExtras {es : List Expr} :
    ∀ {d : Draft} {extras : List Symbol}, Filed G d → d.addExtras es = .ok (extras, d') →
      Filed G d' ∧ d'.names = d.names ∧ d'.anonymous = d.anonymous ∧
        d'.productions = d.productions := by
  induction es with
  | nil =>
    intro d extras filed hd
    rw [addExtras] at hd
    cases hd
    exact ⟨filed, rfl, rfl, rfl⟩
  | cons e es ih =>
    intro d extras filed hd
    obtain ⟨s, ss, -, -, -, rest⟩ := addExtras_cons hd
    have later := ih (filed.markExtra s) rest
    exact later

end Draft

namespace FlatGrammar

variable {G : Grammar} {g : FlatGrammar} {d : Draft} {s : Symbol}

/-! ## What is filed can be read off the flat grammar -/

section

variable (sound : d.Sound) (filed : d.Filed G) (symbols : g.symbols = d.symbols)
  (tokens : g.tokens = d.tokens.toList)

include sound filed symbols

theorem names_iff {name : String} : g.Names s name ↔ (name, s) ∈ d.names := by
  rw [Names, symbols]
  constructor
  · rintro ⟨own, info, found, named, rfl⟩
    exact (filed.filed s info own found).1 named
  · intro mem
    obtain ⟨info, found, named, name, -⟩ := filed.named _ mem
    exact ⟨(sound.names _ mem).1, info, found, named, name⟩

include tokens

theorem letter_iff {p : TokenPattern} :
    g.isTerminal s = true ∧ g.letter? s = some (.anonymous p) ↔ (p, s) ∈ d.anonymous := by
  rw [isTerminal, letter?, symbols, tokens]
  constructor
  · intro h
    cases found : d.symbols[s]? with
    | none =>
      rw [found] at h
      cases h.1
    | some info =>
      rw [found] at h
      dsimp only at h
      obtain ⟨terminal, letter⟩ := h
      split at letter
      · cases letter
      · next unnamed =>
        obtain ⟨token, first, same⟩ := Option.map_eq_some_iff.mp letter
        have here := List.find?_some first
        have here : token.symbol = s := beq_iff_eq.mp here
        have mem := Array.mem_toList_iff.mp (List.mem_of_find?_eq_some first)
        have own : 2 ≤ s := here ▸ (sound.tokens token mem).1.1
        obtain ⟨q, hq⟩ := (filed.filed s info own found).2 (Bool.eq_false_iff.mpr unnamed) terminal
        obtain ⟨-, -, -, -, mem'⟩ := filed.anonymous _ hq
        rw [← Letter.anonymous.inj same,
          filed.tokens s token.pattern q (by rw [← here]; exact mem) mem']
        exact hq
  · intro mem
    obtain ⟨info, found, unnamed, terminal, token⟩ := filed.anonymous _ mem
    rw [found]
    refine ⟨terminal, ?_⟩
    dsimp only
    rw [unnamed]
    have some : (d.tokens.toList.find? (·.symbol == s)).isSome = true :=
      List.find?_isSome.mpr ⟨_, Array.mem_toList_iff.mpr token, beq_self_eq_true s⟩
    obtain ⟨⟨t, q⟩, first⟩ := Option.isSome_iff_exists.mp some
    have here := List.find?_some first
    obtain rfl : t = s := beq_iff_eq.mp here
    have mem' := Array.mem_toList_iff.mp (List.mem_of_find?_eq_some first)
    rw [first, filed.tokens t p q token mem']
    rfl

/-- A terminal that is not reserved has a name or a pattern. -/
theorem name_or_pattern (own : 2 ≤ s) (terminal : g.isTerminal s = true) :
    (∃ name, g.Names s name) ∨ ∃ p, g.letter? s = some (.anonymous p) := by
  rw [isTerminal, symbols] at terminal
  split at terminal
  · next info found =>
    cases named : info.named with
    | true => exact Or.inl ⟨info.name, own, info, symbols ▸ found, named, rfl⟩
    | false =>
      obtain ⟨p, hp⟩ := (filed.filed s info own found).2 named terminal
      exact Or.inr ⟨p, ((letter_iff sound filed symbols tokens).mpr hp).2⟩
  · cases terminal

/-- No two terminals have one letter. -/
theorem letter_injective {t : Symbol} (own : 2 ≤ s) (own' : 2 ≤ t)
    (terminal : g.isTerminal s = true) (terminal' : g.isTerminal t = true)
    (same : g.letter? s = g.letter? t) : s = t := by
  rcases name_or_pattern sound filed symbols tokens own terminal with ⟨name, named⟩ | ⟨p, letter⟩
  · rcases name_or_pattern sound filed symbols tokens own' terminal' with
      ⟨name', named'⟩ | ⟨q, letter'⟩
    · rw [named.letter?, named'.letter?] at same
      obtain rfl := Letter.named.inj (Option.some.inj same)
      exact filed.names name s t ((names_iff sound filed symbols).mp named)
        ((names_iff sound filed symbols).mp named')
    · rw [named.letter?, letter'] at same
      cases same
  · have pattern := (letter_iff sound filed symbols tokens).mp ⟨terminal, letter⟩
    have pattern' := (letter_iff sound filed symbols tokens).mp ⟨terminal', same ▸ letter⟩
    exact filed.patterns p s t pattern pattern'

end

/-- A symbol is the terminal of an anonymous token. -/
def IsTokenOf (g : FlatGrammar) (s : Symbol) (e : Expr) : Prop :=
  2 ≤ s ∧ g.isTerminal s = true ∧
    ∃ p, e.toTokenPattern = .ok p ∧ g.letter? s = some (.anonymous p)

/-! ## The legend -/

/-- The legend of the symbols: from a number on they are the helpers of repetitions, and before
that they have their letters. -/
def legend (g : FlatGrammar) (start : Nat) (items : List Expr) (s : Symbol) : Expr :=
  if start ≤ s then .some (items.getD (s - start) .blank)
  else
    match g.letter? s with
    | some x => x.expr
    | none => .blank

theorem labels_legend (start : Nat) (items : List Expr) :
    Labels (g.legend start items) start items := by
  intro i item found
  rw [legend, if_pos (Nat.le_add_right start i), Nat.add_sub_cancel_left,
    List.getD_eq_getElem?_getD, found]
  rfl

theorem legend_of_letter {start : Nat} {items : List Expr} {x : Letter} (before : s < start)
    (letter : g.letter? s = some x) : g.legend start items s = x.expr := by
  rw [legend, if_neg (Nat.not_le_of_lt before), letter]

end FlatGrammar

namespace Grammar

variable {G : Grammar} {g : FlatGrammar}

/-- An anonymous token is written in an extra or in the body of a nonterminal rule. -/
def Uses (G : Grammar) (e : Expr) : Prop :=
  e ∈ Expr.tokensOf G.extras ∨
    ∃ r, G.rule? r.name = some r ∧ r.body.isToken = false ∧ e ∈ r.body.tokens

section

variable {d₅ d₆ d₇ : Draft}

/-- Where only tokens are named, and all token rules are, the rules without such a name are the
nonterminal ones. -/
theorem mem_nonterminals {d : Draft} (filed : d.Filed G) (only : d.OnlyTokens)
    (named : ∀ r ∈ distinctRules [] G.rules, r.body.isToken = true → ∃ s, (r.name, s) ∈ d.names)
    (r : Rule) :
    r ∈ (distinctRules [] G.rules).filter (fun r => !d.isTokenName r.name) ↔
      G.rule? r.name = some r ∧ r.body.isToken = false := by
  rw [List.mem_filter, Bool.not_eq_true', mem_rules_iff]
  refine and_congr_right fun first => ?_
  constructor
  · intro unnamed
    rw [← Bool.not_eq_true]
    intro isToken
    have isName := (Draft.isTokenName_iff only).mpr (named r (mem_rules_iff.mpr first) isToken)
    rw [unnamed] at isName
    cases isName
  · intro inner
    rw [← Bool.not_eq_true]
    intro isName
    obtain ⟨s, mem⟩ := (Draft.isTokenName_iff only).mp isName
    exact Draft.not_tokenName first inner ((filed.isTerminal_iff mem).mp (only _ mem))

/-- With all symbols given out, the expansion of the rules makes a flat grammar that says what the
grammar says. -/
theorem renders_of_addRules {nonterminals : List Rule} (wf : g.WellFormed)
    (members : ∀ r, r ∈ nonterminals ↔ G.rule? r.name = some r ∧ r.body.isToken = false)
    (sound₅ : d₅.Sound) (filed₅ : d₅.Filed G) (empty : d₅.productions = #[])
    (h₆ : d₅.addRules nonterminals = .ok d₆) (sound : d₇.Sound) (filed : d₇.Filed G)
    (names : d₇.names = d₆.names) (anonymous : d₇.anonymous = d₆.anonymous)
    (productions : d₇.productions = d₆.productions) (symbols : g.symbols = d₇.symbols)
    (tokens : g.tokens = d₇.tokens.toList) (same : g.productions = d₇.productions) :
    ∃ legend, Renders G g legend ∧ ∀ r ∈ nonterminals, ∃ s, (r.name, s) ∈ d₇.names := by
  obtain ⟨appends, flattened⟩ := Draft.addRules_flattened G g
    (g.legend d₅.symbols.size (Expr.repeatedAll (nonterminals.map (·.body)))) h₆
  have names₅ : d₇.names = d₅.names := names.trans appends.names
  have anonymous₅ : d₇.anonymous = d₅.anonymous := anonymous.trans appends.anonymous
  have explains : Explains g
      (g.legend d₅.symbols.size (Expr.repeatedAll (nonterminals.map (·.body)))) := by
    refine ⟨fun s name named => ?_, fun s p terminal letter => ?_⟩
    · have mem := (FlatGrammar.names_iff sound filed symbols).mp named
      rw [names₅] at mem
      exact FlatGrammar.legend_of_letter (sound₅.names _ mem).2 named.letter?
    · have mem := (FlatGrammar.letter_iff sound filed symbols tokens).mp ⟨terminal, letter⟩
      rw [anonymous₅] at mem
      exact FlatGrammar.legend_of_letter (sound₅.anonymous _ mem).2 letter
  have within : d₆.Within g
      (g.legend d₅.symbols.size (Expr.repeatedAll (nonterminals.map (·.body)))) := by
    refine ⟨explains, fun name s found => ?_, fun p s found => ?_, fun p hp => ?_⟩
    · refine (FlatGrammar.names_iff sound filed symbols).mpr ?_
      rw [names]
      exact mem_of_lookup found
    · refine (FlatGrammar.letter_iff sound filed symbols tokens).mpr ?_
      rw [anonymous]
      exact mem_of_lookup found
    · rw [same, productions]
      exact hp
  obtain ⟨rules, faithful⟩ := flattened (fun r hr => (members r).mp hr) within
    (FlatGrammar.labels_legend _ _)
  refine ⟨_, { explains with
    wf := wf
    letter := fun s own terminal =>
      FlatGrammar.name_or_pattern sound filed symbols tokens own terminal
    terminal := fun s name named => ?_
    rules := fun s name r named first inner => ?_
    faithful := fun p hp => ?_ }, fun r hr => ?_⟩
  · rw [FlatGrammar.isTerminal, symbols]
    exact filed.isTerminal_iff ((FlatGrammar.names_iff sound filed symbols).mp named)
  · obtain rfl : r.name = name := name_of_rule? first
    obtain ⟨t, as, found, flattened, has⟩ := rules r ((members r).mpr ⟨first, inner⟩)
    have mem := (FlatGrammar.names_iff sound filed symbols).mp named
    rw [names₅] at mem
    obtain rfl := filed₅.names r.name s t mem (mem_of_lookup found)
    exact ⟨as, flattened, has⟩
  · rw [same, productions] at hp
    rcases faithful p hp with old | new
    · rw [empty] at old
      exact absurd old (Array.not_mem_empty p)
    · exact new
  · obtain ⟨s, as, found, -⟩ := rules r hr
    rw [names₅]
    exact ⟨s, mem_of_lookup found⟩

end

/-- Every stage of flattening keeps the books in order. -/
structure Stages.Kept [PatternSyntax] (st : Stages G g) : Prop where
  tokenRules : Draft.Keeping G .start st.tokenRules
  externals : Draft.Keeping G st.tokenRules st.externals
  onlyTokens : st.externals.OnlyTokens
  hasExternals : ∀ name ∈ G.externals, ∃ s, (name, s) ∈ st.externals.names
  extras : Draft.Keeping G st.externals st.extras
  hasExtras : st.extras.HasTokens (Expr.tokensOf G.extras)
  members : ∀ r, r ∈ st.inner ↔ G.rule? r.name = some r ∧ r.body.isToken = false
  anonymous : Draft.Keeping G st.extras st.anonymous
  hasTokens : st.anonymous.HasTokens (Expr.tokensOf (st.inner.map (·.body)))
  named : Draft.Keeping G st.anonymous st.named
  ruled : ∃ n, Draft.Appends st.named st.ruled n
  soundRuled : st.ruled.Sound
  sound : st.marked.Sound
  filed : st.marked.Filed G
  names : st.marked.names = st.ruled.names
  patterns : st.marked.anonymous = st.ruled.anonymous
  productions : st.marked.productions = st.ruled.productions

theorem Stages.kept [PatternSyntax] (st : Stages G g) : st.Kept := by
  have first : ∀ r ∈ distinctRules [] G.rules, G.rule? r.name = some r :=
    fun r hr => mem_rules_iff.mp hr
  obtain ⟨k₁, only₁, named₁⟩ := Draft.keeping_addTokenRules Draft.sound_start
    Draft.filed_start (fun _ h => absurd h List.not_mem_nil) first distinctRules_nodup
    (fun _ _ _ h => absurd h List.not_mem_nil) st.addTokenRules
  obtain ⟨k₂, only₂, named₂⟩ :=
    Draft.keeping_addExternals k₁.sound k₁.filed only₁ (fun _ h => h) st.addExternals
  obtain ⟨k₃, names₃, has₃⟩ := Draft.keeping_collectAll _ k₂.sound k₂.filed st.collectExtras
  have only₃ := only₂.keeping k₂.sound k₃ names₃
  have members := mem_nonterminals k₃.filed only₃ fun r hr isToken => by
    obtain ⟨s, mem⟩ := named₁ r hr isToken
    exact ⟨s, k₃.names _ (k₂.names _ mem)⟩
  rw [← st.inner_eq] at members
  obtain ⟨k₄, names₄, has₄⟩ := Draft.keeping_collectAll _ k₃.sound k₃.filed st.collect
  have distinct : (st.inner.map (·.name)).Nodup := by
    rw [st.inner_eq]
    exact distinctRules_nodup.sublist (List.filter_sublist.map _)
  have k₅ := Draft.keeping_addNonterminals k₄.sound k₄.filed (fun r hr => (members r).mp hr)
    distinct (fun r hr m hm same => by
      rw [st.inner_eq] at hr
      have unnamed := (List.mem_filter.mp hr).2
      rw [names₄] at hm
      rw [(Draft.isTokenName_iff only₃).mpr ⟨m.2, same ▸ hm⟩] at unnamed
      cases unnamed) st.addNonterminals
  have inner : ∀ r ∈ st.inner, ∀ s, st.named.lookup? r.name = some s →
      st.named.isTerminal s = false := by
    intro r hr s found
    obtain ⟨first, inner⟩ := (members r).mp hr
    rw [← Bool.not_eq_true, k₅.filed.isTerminal_iff (mem_of_lookup found)]
    exact Draft.not_tokenName first inner
  have sound₆ := (Draft.addRules_expands k₅.sound inner st.addRules).sound
  have appends := (Draft.addRules_flattened G default (fun _ => .blank) st.addRules).1
  obtain ⟨filed₇, names₇, anonymous₇, productions₇⟩ :=
    Draft.filed_addExtras (k₅.filed.appends appends) st.addExtras
  exact ⟨k₁, k₂, only₂, named₂, k₃, has₃, members, k₄, has₄, k₅, ⟨_, appends⟩, sound₆,
    (Draft.addExtras_expands sound₆ st.addExtras).sound, filed₇, names₇, anonymous₇,
    productions₇⟩

/-- What lowering a grammar comes to: the books of the last draft are in order, and with the right
legend the flat grammar says what the grammar says. -/
theorem renders_of_lower [PatternSyntax] (lowered : G.lower = .ok g) :
    ∃ (d : Draft) (legend : Symbol → Expr), d.Sound ∧ d.Filed G ∧ g.symbols = d.symbols ∧
      g.tokens = d.tokens.toList ∧ Renders G g legend ∧
      (∀ r, G.rule? r.name = some r → r.body.isToken = false → ∃ s, (r.name, s) ∈ d.names) ∧
      ∀ e, G.Uses e → ∃ p s, e.toTokenPattern = .ok p ∧ (p, s) ∈ d.anonymous := by
  obtain ⟨st⟩ := exists_stages lowered
  have kept := st.kept
  have keeps := (((kept.tokenRules.trans kept.externals).trans kept.extras).trans
    kept.anonymous).trans kept.named
  obtain ⟨legend, renders, ruled⟩ := renders_of_addRules (wellFormed_of_lower lowered)
    kept.members kept.named.sound kept.named.filed keeps.productions st.addRules kept.sound
    kept.filed kept.names kept.patterns kept.productions st.symbols st.tokens st.productions
  refine ⟨st.marked, legend, kept.sound, kept.filed, st.symbols, st.tokens, renders,
    fun r first inner => ruled r ((kept.members r).mpr ⟨first, inner⟩), fun e used => ?_⟩
  obtain ⟨n, appends⟩ := kept.ruled
  rw [kept.patterns, appends.anonymous]
  rcases used with extra | ⟨r, first, inner, mem⟩
  · exact kept.hasExtras.keeping (kept.anonymous.trans kept.named) e extra
  · refine kept.hasTokens.keeping kept.named e (Expr.mem_tokensOf ?_ mem)
    exact List.mem_map_of_mem ((kept.members r).mpr ⟨first, inner⟩)

/-- Flattening keeps the language of every nonterminal rule: its symbol derives just the texts that
its body denotes.  The terminals of two anonymous tokens are the same just if the tokens have one
kind and source. -/
theorem lower_preserves (lowered : G.lower = .ok g) :
    (∀ s t, 2 ≤ s → 2 ≤ t → g.isTerminal s = true → g.isTerminal t = true →
      g.letter? s = g.letter? t → s = t) ∧
    (∀ e, G.Uses e → ∃ s, g.IsTokenOf s e) ∧
    (∀ s s' e e', g.IsTokenOf s e → g.IsTokenOf s' e' →
      (s = s' ↔ e.toTokenPattern = e'.toTokenPattern)) ∧
    ∀ r, G.rule? r.name = some r → r.body.isToken = false →
      ∃ s, g.Names s r.name ∧ g.isTerminal s = false ∧ (∀ t, g.Names t r.name → t = s) ∧
        ∀ ts, G.Denotes r.body ts ↔
          ∃ w, (∀ t ∈ w, g.isTerminal t = true) ∧ g.Derives [s] w ∧ g.Spells w ts := by
  obtain ⟨d, legend, sound, filed, symbols, tokens, renders, ruled, has⟩ :=
    renders_of_lower lowered
  have injective : ∀ s t, 2 ≤ s → 2 ≤ t → g.isTerminal s = true → g.isTerminal t = true →
      g.letter? s = g.letter? t → s = t := fun s t own own' terminal terminal' =>
    FlatGrammar.letter_injective sound filed symbols tokens own own' terminal terminal'
  refine ⟨injective, fun e used => ?_, fun s s' e e' isToken isToken' => ?_,
    fun r first inner => ?_⟩
  · obtain ⟨p, s, pattern, mem⟩ := has e used
    obtain ⟨terminal, letter⟩ := (FlatGrammar.letter_iff sound filed symbols tokens).mpr mem
    exact ⟨s, (sound.anonymous _ mem).1, terminal, p, pattern, letter⟩
  · obtain ⟨own, terminal, p, pattern, letter⟩ := isToken
    obtain ⟨own', terminal', p', pattern', letter'⟩ := isToken'
    rw [pattern, pattern']
    constructor
    · rintro rfl
      rw [Letter.anonymous.inj (Option.some.inj (letter.symm.trans letter'))]
    · intro same
      obtain rfl := Except.ok.inj same
      exact injective s s' own own' terminal terminal' (letter.trans letter'.symm)
  · obtain ⟨s, mem⟩ := ruled r first inner
    have named := (FlatGrammar.names_iff sound filed symbols).mpr mem
    refine ⟨s, named, ?_, fun t named' => ?_, fun ts => renders.denotes_iff named first inner⟩
    · rw [← Bool.not_eq_true, renders.terminal s r.name named]
      exact Draft.not_tokenName first inner
    · exact filed.names r.name t s ((FlatGrammar.names_iff sound filed symbols).mp named') mem

/-- A repetition of an item that may be empty; the second rule of the name does not count. -/
def gaps : Grammar where
  name := "gaps"
  rules := [⟨"s", .many (.optional (.literal "a"))⟩, ⟨"s", .ref "t"⟩]
  extras := []
  word := none
  conflicts := []
  externals := []
  strict := false

/-- Two letters with a gap between. -/
theorem gaps_derives : ∃ g s w, gaps.lower = .ok g ∧ g.Names s "s" ∧ g.Derives [s] w ∧
    g.Spells w [.anonymous (.literal "a"), .anonymous (.literal "a")] := by
  have succeeds : gaps.lower.toOption.isSome = true := by cbv
  cases lowered : gaps.lower with
  | error e =>
    rw [lowered] at succeeds
    cases succeeds
  | ok g =>
    obtain ⟨-, -, -, rules⟩ := lower_preserves lowered
    obtain ⟨s, named, -, -, language⟩ :=
      rules ⟨"s", .many (.optional (.literal "a"))⟩ (by rfl) (by rfl)
    have letter : gaps.Denotes (.optional (.literal "a")) [.anonymous (.literal "a")] :=
      .present (.anonymous rfl rfl)
    have items : ∀ u ∈ [[.anonymous (.literal "a")], [], [.anonymous (.literal "a")]],
        gaps.Denotes (.optional (.literal "a")) u := by
      intro u hu
      simp only [List.mem_cons, List.not_mem_nil, or_false] at hu
      rcases hu with rfl | rfl | rfl
      · exact letter
      · exact .absent
      · exact letter
    obtain ⟨w, -, derives, spells⟩ := (language _).mp (.many items)
    exact ⟨g, s, w, rfl, named, derives, spells⟩

end Grammar

end Glr
