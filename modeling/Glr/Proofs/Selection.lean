import Glr.Proofs.Lexing
import Glr.Proofs.Loaded

/-!
# Which token is chosen

At one place of a text several token definitions may match, and one of them several times.  This
module says which match becomes the token without saying how it is looked for: the specification
(`Finds`, `Leads`, `Candidate`, `FirstStop`, `Chosen`) speaks of the tables and of the strings that
their patterns denote, and `nextTokenIn_chosen` proves that the lexer returns what it determines.

The order in which matches are met drops out on the way.  A fold that keeps the better of two
matches ends with one that leads all (`best?_eq_some_iff`), and there is only one such match, since
matches that lead each other are equal.  The word that a keyword has to give way to is the last one
met, which is the longest since ends only grow.
-/

namespace Glr

namespace TokenMatch

/-- Whether a match comes before another in the order of preference or is the same: it is longer, or
as long and a literal against a pattern, or otherwise of no higher a symbol. -/
def Leads (m n : TokenMatch) : Prop :=
  n.stop < m.stop ∨ n.stop = m.stop ∧
    (m.literal = true ∧ n.literal = false ∨ m.literal = n.literal ∧ m.symbol ≤ n.symbol)

variable {m n k : TokenMatch} {found : List TokenMatch}

theorem Leads.refl (m : TokenMatch) : m.Leads m := Or.inr ⟨rfl, Or.inr ⟨rfl, Nat.le_refl _⟩⟩

theorem Leads.trans (h : m.Leads n) (h' : n.Leads k) : m.Leads k := by
  rcases h with h | ⟨h, h₁ | h₁⟩ <;> rcases h' with h' | ⟨h', h₂ | h₂⟩
  all_goals simp only [Leads]
  all_goals first
    | exact Or.inl (by omega)
    | refine Or.inr ⟨by omega, ?_⟩
  · rw [h₁.2] at h₂
    exact absurd h₂.1 Bool.false_ne_true
  · exact Or.inl ⟨h₁.1, h₂.1 ▸ h₁.2⟩
  · exact Or.inl ⟨h₁.1.trans h₂.1, h₂.2⟩
  · exact Or.inr ⟨h₁.1.trans h₂.1, Nat.le_trans h₁.2 h₂.2⟩

/-- Matches that lead each other are the same. -/
theorem Leads.antisymm (h : m.Leads n) (h' : n.Leads m) : m = n := by
  obtain ⟨stop, symbol, literal⟩ := m
  obtain ⟨stop', symbol', literal'⟩ := n
  rcases h with h | ⟨same, h | h⟩ <;> rcases h' with h' | ⟨same', h' | h'⟩
  all_goals dsimp only at *
  all_goals try omega
  · rw [h.1] at h'
    exact absurd h'.2.symm Bool.false_ne_true
  · rw [h.1, h.2] at h'
    exact absurd h'.1 Bool.false_ne_true
  · rw [h'.1, h'.2] at h
    exact absurd h.1 Bool.false_ne_true
  · rw [same', h.1, Nat.le_antisymm h.2 h'.2]

theorem Leads.total (m n : TokenMatch) : m.Leads n ∨ n.Leads m := by
  simp only [Leads]
  cases m.literal <;> cases n.literal <;> grind

theorem beats_iff : m.beats n = true ↔ ¬ n.Leads m := by
  simp only [beats, Leads, Bool.or_eq_true, Bool.and_eq_true, decide_eq_true_eq, beq_iff_eq,
    Bool.not_eq_true']
  cases m.literal <;> cases n.literal <;> grind

theorem better_leads {best : Option TokenMatch} {b : TokenMatch} (h : better best m = some b) :
    b.Leads m ∧ ∀ n ∈ best, b.Leads n := by
  cases best with
  | none =>
    obtain rfl : m = b := Option.some.inj h
    exact ⟨Leads.refl m, fun _ mem => by cases mem⟩
  | some n =>
    rw [better] at h
    split at h
    · next wins =>
      obtain rfl : m = b := Option.some.inj h
      refine ⟨Leads.refl m, fun _ mem => Option.some.inj mem ▸ ?_⟩
      exact (Leads.total m n).resolve_right (beats_iff.mp wins)
    · next loses =>
      obtain rfl : n = b := Option.some.inj h
      refine ⟨?_, fun _ mem => Option.some.inj mem ▸ Leads.refl n⟩
      exact Classical.not_not.mp (mt beats_iff.mpr loses)

theorem foldl_better {best : Option TokenMatch} {b : TokenMatch}
    (h : found.foldl better best = some b) :
    (∀ n ∈ found, b.Leads n) ∧ ∀ n ∈ best, b.Leads n := by
  induction found generalizing best with
  | nil => exact ⟨fun _ mem => absurd mem List.not_mem_nil, fun n hn => by
      rw [List.foldl_nil, hn] at h
      exact Option.some.inj h ▸ Leads.refl n⟩
  | cons m found ih =>
    obtain ⟨others, kept⟩ := ih h
    cases now : better best m with
    | none =>
      unfold better at now
      split at now
      · cases now
      · split at now <;> cases now
    | some c =>
      obtain ⟨own, before⟩ := better_leads now
      have leads := kept c now
      exact ⟨List.forall_mem_cons.mpr ⟨leads.trans own, others⟩,
        fun n hn => leads.trans (before n hn)⟩

theorem best?_eq_none_iff : best? found = none ↔ found = [] := by
  constructor
  · intro none
    have kept : ∀ (found : List TokenMatch) (b : TokenMatch),
        found.foldl better (some b) ≠ .none := by
      intro found
      induction found with
      | nil => exact fun b h => by cases h
      | cons m found ih =>
        intro b
        rw [List.foldl_cons, better]
        split
        · exact ih m
        · exact ih b
    cases found with
    | nil => rfl
    | cons m found => exact absurd none (kept found m)
  · rintro rfl
    rfl

/-- The preferred match of a list is the one that leads all. -/
theorem best?_eq_some_iff : best? found = some m ↔ m ∈ found ∧ ∀ n ∈ found, m.Leads n := by
  constructor
  · exact fun h => ⟨mem_of_best? h, (foldl_better h).1⟩
  · rintro ⟨mem, leads⟩
    cases best : best? found with
    | none => exact absurd mem (best?_eq_none_iff.mp best ▸ List.not_mem_nil)
    | some b => rw [(foldl_better best).1 m mem |>.antisymm (leads b (mem_of_best? best))]

/-- The last of matches in the order of their ends has the greatest end. -/
theorem stop_le_getLast? (sorted : found.Pairwise fun m n => m.stop ≤ n.stop)
    (last : found.getLast? = some m) (mem : n ∈ found) : n.stop ≤ m.stop := by
  obtain ⟨front, rfl⟩ := List.getLast?_eq_some_iff.mp last
  rcases List.mem_append.mp mem with mem | mem
  · exact (List.pairwise_append.mp sorted).2.2 n mem m (List.mem_singleton_self m)
  · exact Nat.le_of_eq (congrArg TokenMatch.stop (List.mem_singleton.mp mem))

end TokenMatch

namespace Language

/-! ## The specification -/

/-- A match from an offset on: a token definition has the text up to its end, which is not empty. -/
structure Finds (l : Language) (text : Text) (offset : Nat) (m : TokenMatch) : Prop where
  lt_stop : offset < m.stop
  stop_le : m.stop ≤ text.size
  defined : ∃ d ∈ l.tables.tokens, d.symbol = m.symbol ∧ d.pattern.isLiteral = m.literal ∧
    d.pattern.Matches (text.extract offset m.stop).toList

/-- What may be lexed where some symbols are valid: those and the extras. -/
def Allowed (l : Language) (V : Symbol → Prop) (s : Symbol) : Prop := V s ∨ s ∈ l.tables.extras

/-- The match that leads all others that are allowed. -/
structure BestMatch (l : Language) (text : Text) (offset : Nat) (V : Symbol → Prop)
    (m : TokenMatch) : Prop where
  finds : l.Finds text offset m
  allowed : l.Allowed V m.symbol
  leads : ∀ n, l.Finds text offset n → l.Allowed V n.symbol → m.Leads n

/-- Where the longest match of the word token ends, allowed or not. -/
structure LongestWord (l : Language) (text : Text) (offset : Nat) (word : Symbol) (stop : Nat) :
    Prop where
  isWord : l.wordToken = some word
  finds : ∃ n, l.Finds text offset n ∧ n.symbol = word ∧ n.stop = stop
  longest : ∀ n, l.Finds text offset n → n.symbol = word → n.stop ≤ stop

/-- The end and the symbol of the candidate among the matches that are allowed: the best one, unless
it is a keyword and the word has a longer match.  Then it is the word, if that is allowed. -/
inductive Candidate (l : Language) (text : Text) (offset : Nat) (V : Symbol → Prop) :
    Nat → Symbol → Prop where
  | own {m : TokenMatch} (best : l.BestMatch text offset V m)
      (whole : l.Keyword m.symbol → ∀ word stop, l.LongestWord text offset word stop →
        stop ≤ m.stop) : Candidate l text offset V m.stop m.symbol
  | word {m : TokenMatch} {word : Symbol} {stop : Nat} (best : l.BestMatch text offset V m)
      (keyword : l.Keyword m.symbol) (longest : l.LongestWord text offset word stop)
      (longer : m.stop < stop) (allowed : l.Allowed V word) : Candidate l text offset V stop word

/-- The first place behind an offset, going from character to character by their announced widths,
where a terminal that recovers has a candidate, or the end of the text. -/
inductive FirstStop (l : Language) (text : Text) : Nat → Nat → Prop where
  | atEnd {offset : Nat} (h : offset < text.size)
      (last : text.size ≤ offset + Utf8.width text[offset]) : FirstStop l text offset text.size
  | here {offset stop : Nat} {s : Symbol} (h : offset < text.size)
      (inside : offset + Utf8.width text[offset] < text.size)
      (candidate : l.Candidate text (offset + Utf8.width text[offset]) l.Recovers stop s) :
      FirstStop l text offset (offset + Utf8.width text[offset])
  | later {offset stop : Nat} (h : offset < text.size)
      (inside : offset + Utf8.width text[offset] < text.size)
      (none : ∀ stop s, ¬ l.Candidate text (offset + Utf8.width text[offset]) l.Recovers stop s)
      (rest : FirstStop l text (offset + Utf8.width text[offset]) stop) :
      FirstStop l text offset stop

/-- The symbol, the end, the recorded lex mode and the error mark of the token at an offset. -/
inductive Chosen (l : Language) (text : Text) (offset : Nat) (V : Symbol → Prop) (mode : Nat) :
    Symbol → Nat → Nat → Bool → Prop where
  | valid {s : Symbol} {stop : Nat} (candidate : l.Candidate text offset V stop s) :
      Chosen l text offset V mode s stop mode false
  | recovered {s : Symbol} {stop : Nat} (none : ∀ stop s, ¬ l.Candidate text offset V stop s)
      (candidate : l.Candidate text offset l.Recovers stop s) :
      Chosen l text offset V mode s stop LexMode.recovery false
  | unknown {stop : Nat} (none : ∀ stop s, ¬ l.Candidate text offset V stop s)
      (none' : ∀ stop s, ¬ l.Candidate text offset l.Recovers stop s)
      (first : l.FirstStop text offset stop) :
      Chosen l text offset V mode Symbol.error stop LexMode.recovery true

/-! ## The candidate -/

section Unique

variable {l : Language} {text : Text} {offset stop stop' : Nat} {V : Symbol → Prop}
  {s s' word word' : Symbol}

theorem BestMatch.unique {m m' : TokenMatch} (h : l.BestMatch text offset V m)
    (h' : l.BestMatch text offset V m') : m = m' :=
  (h.leads m' h'.finds h'.allowed).antisymm (h'.leads m h.finds h.allowed)

theorem LongestWord.unique (h : l.LongestWord text offset word stop)
    (h' : l.LongestWord text offset word' stop') : word = word' ∧ stop = stop' := by
  obtain rfl : word = word' := Option.some.inj (h.isWord.symm.trans h'.isWord)
  obtain ⟨n, finds, symbol, rfl⟩ := h.finds
  obtain ⟨n', finds', symbol', rfl⟩ := h'.finds
  exact ⟨rfl, Nat.le_antisymm (h'.longest n finds symbol) (h.longest n' finds' symbol')⟩

theorem Candidate.unique (h : l.Candidate text offset V stop s)
    (h' : l.Candidate text offset V stop' s') : stop = stop' ∧ s = s' := by
  cases h with
  | own best whole =>
    cases h' with
    | own best' =>
      cases best.unique best'
      exact ⟨rfl, rfl⟩
    | word best' keyword longest longer =>
      cases best.unique best'
      exact absurd (whole keyword _ _ longest) (Nat.not_le_of_lt longer)
  | word best keyword longest longer =>
    cases h' with
    | own best' whole =>
      cases best.unique best'
      exact absurd (whole keyword _ _ longest) (Nat.not_le_of_lt longer)
    | word _ _ longest' => exact (longest.unique longest').symm

/-- A best match that is no keyword in a longer word is the candidate. -/
theorem BestMatch.candidate_iff {m : TokenMatch} (best : l.BestMatch text offset V m)
    (whole : l.Keyword m.symbol → ∀ word stop, l.LongestWord text offset word stop →
      stop ≤ m.stop) : l.Candidate text offset V stop s ↔ m.stop = stop ∧ m.symbol = s :=
  ⟨(Candidate.own best whole).unique, fun ⟨end_eq, symbol⟩ => end_eq ▸ symbol ▸ .own best whole⟩

/-- In the place of a best match that is a keyword in a longer word, the word is the candidate, if
it is allowed. -/
theorem BestMatch.candidate_iff_word {m : TokenMatch} (best : l.BestMatch text offset V m)
    (keyword : l.Keyword m.symbol) (longest : l.LongestWord text offset word stop')
    (longer : m.stop < stop') :
    l.Candidate text offset V stop s ↔ l.Allowed V word ∧ stop' = stop ∧ word = s := by
  constructor
  · rintro (⟨best', whole⟩ | ⟨-, -, longest', -, allowed⟩)
    · cases best.unique best'
      exact absurd (whole keyword word stop' longest) (Nat.not_le_of_lt longer)
    · obtain ⟨rfl, rfl⟩ := longest.unique longest'
      exact ⟨allowed, rfl, rfl⟩
  · rintro ⟨allowed, rfl, rfl⟩
    exact .word best keyword longest longer allowed

/-- A keyword that is a candidate is no beginning of a longer word. -/
theorem Candidate.whole {wordStop : Nat} (h : l.Candidate text offset V stop s)
    (keyword : l.Keyword s) (longest : l.LongestWord text offset word wordStop) :
    wordStop ≤ stop := by
  cases h with
  | own _ whole => exact whole keyword word wordStop longest
  | word _ _ longest' => exact Nat.le_of_eq (longest.unique longest').2

theorem Chosen.whole {mode recorded wordStop : Nat}
    (h : l.Chosen text offset V mode s stop recorded false) (keyword : l.Keyword s)
    (longest : l.LongestWord text offset word wordStop) : wordStop ≤ stop := by
  cases h with
  | valid candidate => exact candidate.whole keyword longest
  | recovered _ candidate => exact candidate.whole keyword longest

theorem FirstStop.unique (h : l.FirstStop text offset stop) (h' : l.FirstStop text offset stop') :
    stop = stop' := by
  induction h with
  | atEnd _ last =>
    cases h' with
    | atEnd => rfl
    | here _ inside | later _ inside => exact absurd last (Nat.not_le_of_lt inside)
  | here _ inside candidate =>
    cases h' with
    | atEnd _ last => exact absurd last (Nat.not_le_of_lt inside)
    | here => rfl
    | later _ _ none => exact absurd candidate (none _ _)
  | later _ inside none _ ih =>
    cases h' with
    | atEnd _ last => exact absurd last (Nat.not_le_of_lt inside)
    | here _ _ candidate => exact absurd candidate (none _ _)
    | later _ _ _ rest => exact ih rest

theorem Chosen.unique {mode recorded recorded' : Nat} {wrong wrong' : Bool}
    (h : l.Chosen text offset V mode s stop recorded wrong)
    (h' : l.Chosen text offset V mode s' stop' recorded' wrong') :
    s = s' ∧ stop = stop' ∧ recorded = recorded' ∧ wrong = wrong' := by
  cases h with
  | valid candidate =>
    cases h' with
    | valid candidate' =>
      obtain ⟨same, same'⟩ := candidate.unique candidate'
      exact ⟨same', same, rfl, rfl⟩
    | recovered none | unknown none => exact absurd candidate (none _ _)
  | recovered none candidate =>
    cases h' with
    | valid candidate' => exact absurd candidate' (none _ _)
    | recovered _ candidate' =>
      obtain ⟨same, same'⟩ := candidate.unique candidate'
      exact ⟨same', same, rfl, rfl⟩
    | unknown _ none' => exact absurd candidate (none' _ _)
  | unknown none none' first =>
    cases h' with
    | valid candidate => exact absurd candidate (none _ _)
    | recovered _ candidate => exact absurd candidate (none' _ _)
    | unknown _ _ first' => exact ⟨rfl, first.unique first', rfl, rfl⟩

end Unique

section Choose

variable {l : Language} {valid : SymbolSet} {found : List TokenMatch} {m : TokenMatch}
  (best : TokenMatch.best? (found.filter fun m => l.accepts valid m.symbol) = some m)

include best

theorem choose_of_wordEnd?_eq_none (ends : l.wordEnd? found = none) :
    l.choose valid found = some m := by
  rw [choose, best, ends]
  cases l.wordToken <;> rfl

theorem choose_of_wordEnd?_eq_some {word : Symbol} {stop : Nat} (isWord : l.wordToken = some word)
    (ends : l.wordEnd? found = some stop) :
    l.choose valid found =
      if l.isKeyword m.symbol && stop > m.stop then
        if l.accepts valid word then some ⟨stop, word, false⟩ else none
      else some m := by
  rw [choose, best, ends, isWord]

end Choose

section Loaded

variable {l : Language} {text : Text} {offset : Nat} {valid : SymbolSet} {m : TokenMatch}
  (loaded : l.Loaded) (inside : offset ≤ text.size)

include loaded

theorem accepts_iff {s : Symbol} :
    l.accepts valid s = true ↔ l.Allowed (fun s => valid.contains s = true) s := by
  rw [accepts, Bool.or_eq_true, loaded.isExtra_iff, Allowed]

include inside

theorem mem_found_iff :
    m ∈ (l.matcher.scan text offset).found.filter (fun m => m.stop != offset) ↔
      l.Finds text offset m := by
  rw [List.mem_filter, loaded.mem_scan_iff inside, bne_iff_ne]
  constructor
  · rintro ⟨⟨le, stop_le, defined⟩, ne⟩
    exact ⟨Nat.lt_of_le_of_ne le (Ne.symm ne), stop_le, defined⟩
  · rintro ⟨lt, stop_le, defined⟩
    exact ⟨⟨Nat.le_of_lt lt, stop_le, defined⟩, Nat.ne_of_gt lt⟩

/-- The fold over the accepted matches gives the best one. -/
theorem best?_iff (valid : SymbolSet) (m : TokenMatch) :
    TokenMatch.best? (((l.matcher.scan text offset).found.filter fun m => m.stop != offset).filter
        fun m => l.accepts valid m.symbol) = some m ↔
      l.BestMatch text offset (fun s => valid.contains s = true) m := by
  rw [TokenMatch.best?_eq_some_iff]
  simp only [List.mem_filter (p := fun m : TokenMatch => l.accepts valid m.symbol),
    mem_found_iff loaded inside, accepts_iff loaded]
  exact ⟨fun ⟨⟨finds, allowed⟩, leads⟩ => ⟨finds, allowed, fun n h h' => leads n ⟨h, h'⟩⟩,
    fun ⟨finds, allowed, leads⟩ => ⟨⟨finds, allowed⟩, fun n h => leads n h.1 h.2⟩⟩

/-- The last match of the word is the longest. -/
theorem wordEnd?_iff (stop : Nat) :
    l.wordEnd? ((l.matcher.scan text offset).found.filter fun m => m.stop != offset) = some stop ↔
      ∃ word, l.LongestWord text offset word stop := by
  rw [wordEnd?]
  have sorted := (l.matcher.found_sorted text offset).filter fun m => m.stop != offset
  have mem {m : TokenMatch} := mem_found_iff (m := m) loaded inside
  generalize (l.matcher.scan text offset).found.filter (fun m => m.stop != offset) = found
    at sorted mem ⊢
  cases isWord : l.wordToken with
  | none =>
    constructor
    · intro h
      cases h
    · rintro ⟨word, longest⟩
      rw [longest.isWord] at isWord
      cases isWord
  | some word =>
    have words {m : TokenMatch} : m ∈ found.filter (fun m => m.symbol == word) ↔
        l.Finds text offset m ∧ m.symbol = word := by
      rw [List.mem_filter, mem, beq_iff_eq]
    have sorted := sorted.filter fun m => m.symbol == word
    dsimp only
    generalize found.filter (fun m => m.symbol == word) = found at sorted words ⊢
    rw [Option.map_eq_some_iff]
    constructor
    · rintro ⟨m, hm, rfl⟩
      have own := words.mp (List.mem_of_getLast? hm)
      exact ⟨word, isWord, ⟨m, own.1, own.2, rfl⟩, fun n hn symbol =>
        TokenMatch.stop_le_getLast? sorted hm (words.mpr ⟨hn, symbol⟩)⟩
    · rintro ⟨word', isWord', ⟨m, finds, symbol, rfl⟩, longest⟩
      obtain rfl : word = word' := Option.some.inj (isWord.symm.trans isWord')
      have own := words.mpr ⟨finds, symbol⟩
      obtain ⟨n, hn⟩ := Option.isSome_iff_exists.mp
        (List.getLast?_isSome.mpr (List.ne_nil_of_mem own))
      have inside := words.mp (List.mem_of_getLast? hn)
      exact ⟨n, hn, Nat.le_antisymm (longest n inside.1 inside.2)
        (TokenMatch.stop_le_getLast? sorted hn own)⟩

theorem exists_longestWord (finds : l.Finds text offset m) (isWord : l.wordToken = some m.symbol) :
    ∃ stop, l.LongestWord text offset m.symbol stop := by
  have wordEnd {stop : Nat} := wordEnd?_iff loaded inside stop
  have mem := (mem_found_iff loaded inside).mpr finds
  generalize (l.matcher.scan text offset).found.filter (fun m => m.stop != offset) = found
    at wordEnd mem
  cases ends : l.wordEnd? found with
  | some stop =>
    obtain ⟨word, longest⟩ := wordEnd.mp ends
    obtain rfl : word = m.symbol := Option.some.inj (longest.isWord.symm.trans isWord)
    exact ⟨stop, longest⟩
  | none =>
    rw [wordEnd?, isWord, Option.map_eq_none_iff, List.getLast?_eq_none_iff] at ends
    have own : m ∈ found.filter fun n => n.symbol == m.symbol :=
      List.mem_filter.mpr ⟨mem, beq_self_eq_true m.symbol⟩
    exact absurd own (ends ▸ List.not_mem_nil)

/-- The candidate is the one specified. -/
theorem candidate?_iff {stop : Nat} {s : Symbol} :
    (∃ literal, l.candidate? offset valid (l.matcher.scan text offset) = some ⟨stop, s, literal⟩) ↔
      l.Candidate text offset (fun s => valid.contains s = true) stop s := by
  have best {m : TokenMatch} := best?_iff loaded inside valid m
  have wordEnd {stop : Nat} := wordEnd?_iff loaded inside stop
  rw [candidate?]
  generalize (l.matcher.scan text offset).found.filter (fun m => m.stop != offset) = found
    at best wordEnd ⊢
  cases chosen : TokenMatch.best? (found.filter fun m => l.accepts valid m.symbol) with
  | none =>
    rw [choose, chosen]
    constructor
    · rintro ⟨_, h⟩
      cases h
    · rintro (⟨first, -⟩ | ⟨first, -, -, -, -⟩)
      all_goals
        rw [best.mpr first] at chosen
        cases chosen
  | some m =>
    have first := best.mp chosen
    have kept : (∃ literal, some m = some ⟨stop, s, literal⟩) ↔ m.stop = stop ∧ m.symbol = s := by
      constructor
      · rintro ⟨_, h⟩
        obtain rfl := Option.some.inj h
        exact ⟨rfl, rfl⟩
      · rintro ⟨rfl, rfl⟩
        exact ⟨_, rfl⟩
    cases ends : l.wordEnd? found with
    | none =>
      rw [choose_of_wordEnd?_eq_none chosen ends, kept, first.candidate_iff]
      intro _ word stop longest
      rw [wordEnd.mpr ⟨word, longest⟩] at ends
      cases ends
    | some wordStop =>
      obtain ⟨word, longest⟩ := wordEnd.mp ends
      rw [choose_of_wordEnd?_eq_some chosen longest.isWord ends]
      split
      · next overtaken =>
        rw [Bool.and_eq_true, loaded.isKeyword_iff, decide_eq_true_eq] at overtaken
        rw [first.candidate_iff_word overtaken.1 longest overtaken.2, ← accepts_iff loaded]
        constructor
        · rintro ⟨_, h⟩
          split at h
          · next accepted =>
            cases h
            exact ⟨accepted, rfl, rfl⟩
          · cases h
        · rintro ⟨accepted, rfl, rfl⟩
          exact ⟨_, if_pos accepted⟩
      · next whole =>
        rw [kept, first.candidate_iff]
        intro keyword word' stop longest'
        obtain ⟨rfl, rfl⟩ := longest.unique longest'
        rw [Bool.and_eq_true, loaded.isKeyword_iff, decide_eq_true_eq] at whole
        exact Nat.not_lt.mp fun longer => whole ⟨keyword, longer⟩

theorem candidate?_eq_none_iff :
    l.candidate? offset valid (l.matcher.scan text offset) = none ↔
      ∀ stop s, ¬ l.Candidate text offset (fun s => valid.contains s = true) stop s := by
  constructor
  · intro none stop s candidate
    obtain ⟨_, h⟩ := (candidate?_iff loaded inside).mpr candidate
    rw [none] at h
    cases h
  · intro none
    cases found : l.candidate? offset valid (l.matcher.scan text offset) with
    | none => rfl
    | some m => exact absurd ((candidate?_iff loaded inside).mp ⟨m.literal, found⟩) (none _ _)

theorem candidate_of_eq_some
    (h : l.candidate? offset valid (l.matcher.scan text offset) = some m) :
    l.Candidate text offset (fun s => valid.contains s = true) m.stop m.symbol :=
  (candidate?_iff loaded inside).mp ⟨m.literal, h⟩

omit inside in
theorem recovers_eq : (fun s => l.recoveryTerminals.contains s = true) = l.Recovers :=
  funext fun _ => propext loaded.recovers_iff

end Loaded

/-! ## The token -/

section Loaded

variable {l : Language} {text : Text} {offset : Nat} (loaded : l.Loaded)

include loaded

theorem recovery_isSome_iff (inside : offset ≤ text.size) :
    (l.candidate? offset l.recoveryTerminals (l.matcher.scan text offset)).isSome = true ↔
      ∃ stop s, l.Candidate text offset l.Recovers stop s := by
  rw [Option.isSome_iff_ne_none, ne_eq, candidate?_eq_none_iff loaded inside, recovers_eq loaded]
  simp

/-- Skipping ends at the first place where it can. -/
theorem firstStop_skipUnknown (inside : offset < text.size) (examined : Nat) :
    l.FirstStop text offset (l.skipUnknown text offset examined).1 := by
  fun_induction skipUnknown l text offset examined with
  | case1 offset examined h stop atEnd =>
    rw [atEnd]
    exact .atEnd h (by omega)
  | case2 offset examined h stop notEnd next examined' found =>
    have same : stop = offset + Utf8.width text[offset] := by omega
    have within : stop ≤ text.size := by omega
    obtain ⟨_, _, candidate⟩ := (recovery_isSome_iff loaded within).mp found
    rw [same] at candidate ⊢
    exact .here h (by omega) candidate
  | case3 offset examined h stop notEnd next examined' none ih =>
    have same : stop = offset + Utf8.width text[offset] := by omega
    have inside : offset + Utf8.width text[offset] < text.size := by omega
    refine .later h inside (fun last s candidate => none ?_) (same ▸ ih (by omega))
    have within : stop ≤ text.size := by omega
    exact (recovery_isSome_iff loaded within).mpr ⟨last, s, same ▸ candidate⟩
  | case4 offset examined h => exact absurd inside h

/-- Behind the end of a text a token is lexed as it is at the end. -/
theorem nextTokenIn_of_loaded (text : Text) (offset : Nat) (valid : SymbolSet) (mode : Nat) :
    l.nextTokenIn text offset valid mode =
      l.patternToken text (min offset text.size) (min offset text.size + 1) valid mode := by
  rw [nextTokenIn, consultScanner, loaded.scanner_eq]

theorem chosen_patternToken (inside : offset < text.size) (examined : Nat) (valid : SymbolSet)
    (mode : Nat) :
    let t := l.patternToken text offset examined valid mode
    l.Chosen text offset (fun s => valid.contains s = true) mode t.symbol t.span.stop t.lexMode
      t.isError := by
  intro t
  have within := Nat.le_of_lt inside
  show l.Chosen text offset _ mode t.symbol t.span.stop t.lexMode t.isError
  have token : t = l.patternToken text offset examined valid mode := rfl
  rw [patternToken, if_neg (Nat.not_le_of_lt inside)] at token
  dsimp only at token
  cases here : l.candidate? offset valid (l.matcher.scan text offset) with
  | some m =>
    rw [here] at token
    rw [token]
    exact .valid (candidate_of_eq_some loaded within here)
  | none =>
    have none := (candidate?_eq_none_iff loaded within).mp here
    rw [here] at token
    cases recovered : l.candidate? offset l.recoveryTerminals (l.matcher.scan text offset) with
    | some m =>
      rw [recovered] at token
      rw [token]
      exact .recovered none (recovers_eq loaded ▸ candidate_of_eq_some loaded within recovered)
    | none =>
      rw [recovered] at token
      rw [token]
      refine .unknown none ?_ (firstStop_skipUnknown loaded inside _)
      rw [← recovers_eq loaded]
      exact (candidate?_eq_none_iff loaded within).mp recovered

end Loaded

/-- Before the end of a text a loaded language lexes the token that is specified, and no other. -/
theorem nextTokenIn_chosen {l : Language} (loaded : l.Loaded) {text : Text} {offset : Nat}
    (inside : offset < text.size) (valid : SymbolSet) (mode : Nat) :
    let t := l.nextTokenIn text offset valid mode
    t.span.start = offset ∧
      (∀ s stop recorded wrong,
        l.Chosen text offset (fun s => valid.contains s = true) mode s stop recorded wrong ↔
          t.symbol = s ∧ t.span.stop = stop ∧ t.lexMode = recorded ∧ t.isError = wrong) ∧
      (t.isError = false → l.Keyword t.symbol → ∀ m, l.Finds text offset m →
        l.wordToken = some m.symbol → m.stop ≤ t.span.stop) := by
  have start := (l.placed_nextTokenIn text offset valid mode).start
  have chosen := chosen_patternToken loaded inside (offset + 1) valid mode
  have token := nextTokenIn_of_loaded loaded text offset valid mode
  rw [Nat.min_eq_left (Nat.le_of_lt inside)] at start token
  rw [← token] at chosen
  dsimp only at chosen ⊢
  generalize l.nextTokenIn text offset valid mode = t at start chosen ⊢
  refine ⟨start, fun s stop recorded wrong => ⟨fun h => chosen.unique h, ?_⟩, ?_⟩
  · rintro ⟨rfl, rfl, rfl, rfl⟩
    exact chosen
  · intro right keyword m finds isWord
    obtain ⟨stop, longest⟩ := exists_longestWord loaded (Nat.le_of_lt inside) finds isWord
    rw [right] at chosen
    exact Nat.le_trans (longest.longest m finds rfl) (chosen.whole keyword longest)

/-- Tables of a language whose one sentence is the keyword `if` or a word of two letters `f` and
`i`, or more of them. -/
def wordTables : Tables where
  name := "word"
  symbols := #[⟨"end", true, false, false, false⟩, ⟨"ERROR", true, true, true, false⟩,
    ⟨"if", true, false, true, false⟩, ⟨"word", true, true, true, false⟩,
    ⟨"s", false, true, true, false⟩]
  productions := #[⟨4, 1, 0, .neither, 0⟩, ⟨4, 1, 0, .neither, 0⟩]
  states := #[⟨[(2, [.shift 1]), (3, [.shift 2])], [(4, 3)], 0⟩, ⟨[(0, [.reduce 0])], [], 1⟩,
    ⟨[(0, [.reduce 1])], [], 1⟩, ⟨[(0, [.accept])], [], 1⟩]
  lexModes := #[[2, 3], []]
  tokens := [⟨3, .regex "[fi]+"⟩, ⟨2, .literal "if"⟩]
  extras := []
  wordToken := some 3
  externalTokens := []
  startSymbol := 4

/-- The language loaded from these tables. -/
def wordLanguage : Language where
  version := 14
  tables := wordTables
  matcher := ⟨[⟨3, false, .repeated (.chars ⟨[(102, 102), (105, 105)]⟩) 1 none⟩,
    ⟨2, true, .seq (.chars ⟨[(105, 105)]⟩) (.chars ⟨[(102, 102)]⟩)⟩]⟩
  validSets := #[⟨#[false, false, true, true, false]⟩, ⟨#[false, false, false, false, false]⟩]
  recoveryTerminals := ⟨#[false, false, true, true, false]⟩
  extras := ⟨#[false, false, false, false, false]⟩
  keywords := ⟨#[false, false, true, false, false]⟩
  externals := ⟨#[false, false, false, false, false]⟩
  scanner := none

theorem wordTables_load : ofTables wordTables = .ok wordLanguage := by
  have matcher : Matcher.ofTokens wordTables.tokens (nameIn wordTables) =
      .ok wordLanguage.matcher := by cbv
  exact ofTables_eq_ok.mpr ⟨by decide +kernel, prepare_eq_ok.mpr ⟨_, matcher, by cbv⟩⟩

/-- Where only the keyword is valid, a longer word is lexed as the word nevertheless, and what is
neither is skipped up to the next keyword. -/
theorem word_chosen :
    let keyword : SymbolSet := ⟨#[false, false, true, false, false]⟩
    let longer : Text := #[105, 102, 102, 105]
    let behind : Text := #[63, 63, 105, 102]
    wordLanguage.Loaded ∧ 0 < longer.size ∧ 0 < behind.size ∧
      wordLanguage.Chosen longer 0 (fun s => keyword.contains s = true) 0 3 4 LexMode.recovery
        false ∧
      wordLanguage.Chosen behind 0 (fun s => keyword.contains s = true) 0 Symbol.error 2
        LexMode.recovery true := by
  intro keyword longer behind
  have loaded : wordLanguage.Loaded := Or.inl ⟨wordTables, wordTables_load⟩
  have word : wordLanguage.nextTokenIn longer 0 keyword 0 =
      ⟨3, ⟨0, 4⟩, ⟨0, 4⟩, 1, LexMode.recovery, false⟩ := by cbv
  have skipped : wordLanguage.nextTokenIn behind 0 keyword 0 =
      ⟨Symbol.error, ⟨0, 2⟩, ⟨0, 2⟩, 3, LexMode.recovery, true⟩ := by cbv
  have chosen := (nextTokenIn_chosen loaded (show 0 < longer.size by decide) keyword 0).2.1
  have chosen' := (nextTokenIn_chosen loaded (show 0 < behind.size by decide) keyword 0).2.1
  rw [word] at chosen
  rw [skipped] at chosen'
  exact ⟨loaded, by decide, by decide, (chosen _ _ _ _).mpr ⟨rfl, rfl, rfl, rfl⟩,
    (chosen' _ _ _ _).mpr ⟨rfl, rfl, rfl, rfl⟩⟩

end Language

end Glr
