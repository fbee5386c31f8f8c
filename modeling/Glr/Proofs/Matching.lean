import Glr.Proofs.Lowered
import Glr.Proofs.ReadPatterns
import Glr.Language.Basic

/-!
# What a scan finds

A scan runs all patterns of a language side by side, one derivative after another, and stops when
none of them can go on.  What it finds is what there is: a match for every place where the text from
the offset on is one that a pattern denotes, and no other (`mem_scan_iff`).  The run carries the
invariant from byte to byte.  What is left of a rule after some bytes of the text denotes what is
left of its strings, so a rule that is dropped could not have matched any more.

The ends of the matches come in ascending order (`found_sorted`), so the last match of a symbol is
its longest.
-/

namespace Glr

/-- The strings that a token pattern matches are those of the pattern it is written as. -/
def TokenPattern.Matches (p : TokenPattern) (w : List UInt8) : Prop :=
  ∃ q, Pattern.read? p.pattern = some q ∧ w ∈ q.texts

/-! ## Texts piece by piece -/

theorem Text.extract_self (text : Text) (offset : Nat) :
    (text.extract offset offset).toList = [] := by
  rw [Array.extract_empty_of_stop_le_start (Nat.le_refl _)]

theorem Text.extract_cons {text : Text} {offset stop : Nat} (h : offset < text.size)
    (lt : offset < stop) :
    (text.extract offset stop).toList =
      text[offset] :: (text.extract (offset + 1) stop).toList := by
  rw [Array.toList_extract, Array.toList_extract, List.extract_eq_take_drop,
    List.extract_eq_take_drop, List.drop_eq_getElem_cons (by simpa using h),
    show stop - offset = stop - (offset + 1) + 1 by omega, List.take_succ_cons,
    Array.getElem_toList]

namespace LiveRule

/-- What is left to match of a rule. -/
def rest (l : LiveRule) : ByteLanguage := Regex.textsOfAny l.states

/-- Whether what is left can be run. -/
def Sound (l : LiveRule) : Prop := ∀ r ∈ l.states, r.Sound

variable {l l' : LiveRule} {b : UInt8} {w : List UInt8}

theorem accepts_iff (sound : l.Sound) : l.accepts = true ↔ [] ∈ l.rest := by
  rw [accepts, List.any_eq_true]
  exact exists_congr fun r => and_congr_right fun mem => Regex.nullable_iff (sound r mem)

theorem advance?_eq_some (h : l.advance? b = some l') :
    l' = { l with states := Regex.advance b l.states } := by
  rw [advance?] at h
  split at h
  · cases h
  · exact (Option.some.inj h).symm

theorem sound_advance? (sound : l.Sound) (h : l.advance? b = some l') : l'.Sound := by
  rw [advance?_eq_some h]
  exact Regex.sound_advance sound

/-- After a byte, what is left of a rule is what is left of its strings with that byte. -/
theorem mem_rest_advance? (sound : l.Sound) :
    (∃ l', l.advance? b = some l' ∧ w ∈ l'.rest) ↔ b :: w ∈ l.rest := by
  rw [rest, ← Regex.mem_textsOfAny_advance sound, advance?]
  split
  · next none =>
    rw [none]
    refine ⟨fun ⟨_, h, _⟩ => ?_, fun ⟨_, mem, _⟩ => absurd mem List.not_mem_nil⟩
    cases h
  · refine ⟨fun ⟨_, same, h⟩ => ?_, fun h => ⟨_, rfl, h⟩⟩
    cases same
    exact h

end LiveRule

namespace Matcher

variable {text : Text} {live : List LiveRule} {found : List TokenMatch} {offset : Nat}
  {m : TokenMatch}

/-- Whether a rule of some, from an offset on, matches a text up to where a match ends. -/
def MatchedBy (text : Text) (offset : Nat) (live : List LiveRule) (m : TokenMatch) : Prop :=
  offset ≤ m.stop ∧ m.stop ≤ text.size ∧ ∃ l ∈ live, l.rule.symbol = m.symbol ∧
    l.rule.literal = m.literal ∧ (text.extract offset m.stop).toList ∈ l.rest

theorem mem_matchesAt (sound : ∀ l ∈ live, l.Sound) :
    m ∈ matchesAt live offset ↔ m.stop = offset ∧ ∃ l ∈ live, l.rule.symbol = m.symbol ∧
      l.rule.literal = m.literal ∧ [] ∈ l.rest := by
  rw [matchesAt, List.mem_map]
  constructor
  · rintro ⟨l, mem, rfl⟩
    obtain ⟨mem, accepts⟩ := List.mem_filter.mp mem
    exact ⟨rfl, l, mem, rfl, rfl, (LiveRule.accepts_iff (sound l mem)).mp accepts⟩
  · rintro ⟨rfl, l, mem, symbol, literal, none⟩
    refine ⟨l, List.mem_filter.mpr ⟨mem, (LiveRule.accepts_iff (sound l mem)).mpr none⟩, ?_⟩
    rw [symbol, literal]

theorem matchedBy_size : MatchedBy text text.size live m ↔ m.stop = text.size ∧
    ∃ l ∈ live, l.rule.symbol = m.symbol ∧ l.rule.literal = m.literal ∧ [] ∈ l.rest := by
  constructor
  · rintro ⟨le, ge, l, mem, symbol, literal, h⟩
    have same := Nat.le_antisymm ge le
    rw [same, Text.extract_self] at h
    exact ⟨same, l, mem, symbol, literal, h⟩
  · rintro ⟨same, l, mem, symbol, literal, h⟩
    refine ⟨Nat.le_of_eq same.symm, Nat.le_of_eq same, l, mem, symbol, literal, ?_⟩
    rwa [same, Text.extract_self]

/-- What matches from an offset on matches there or, of what is left behind the next byte, from
there on. -/
theorem matchedBy_step (sound : ∀ l ∈ live, l.Sound) (h : offset < text.size) :
    MatchedBy text offset live m ↔ (m.stop = offset ∧ ∃ l ∈ live, l.rule.symbol = m.symbol ∧
      l.rule.literal = m.literal ∧ [] ∈ l.rest) ∨
      MatchedBy text (offset + 1) (live.filterMap (·.advance? text[offset])) m := by
  constructor
  · rintro ⟨le, ge, l, mem, symbol, literal, h'⟩
    rcases Nat.eq_or_lt_of_le le with rfl | lt
    · rw [Text.extract_self] at h'
      exact Or.inl ⟨rfl, l, mem, symbol, literal, h'⟩
    · rw [Text.extract_cons h lt] at h'
      obtain ⟨l', advanced, h'⟩ := (LiveRule.mem_rest_advance? (sound l mem)).mpr h'
      refine Or.inr ⟨lt, ge, l', List.mem_filterMap.mpr ⟨l, mem, advanced⟩, ?_⟩
      rw [LiveRule.advance?_eq_some advanced] at h' ⊢
      exact ⟨symbol, literal, h'⟩
  · rintro (⟨rfl, l, mem, symbol, literal, none⟩ | ⟨lt, ge, l', mem, symbol, literal, h'⟩)
    · refine ⟨Nat.le_refl _, Nat.le_of_lt h, l, mem, symbol, literal, ?_⟩
      rwa [Text.extract_self]
    · obtain ⟨l, mem, advanced⟩ := List.mem_filterMap.mp mem
      have begun := (LiveRule.mem_rest_advance? (sound l mem)).mp ⟨l', advanced, h'⟩
      rw [LiveRule.advance?_eq_some advanced] at symbol literal
      refine ⟨Nat.le_of_lt lt, ge, l, mem, symbol, literal, ?_⟩
      rwa [Text.extract_cons h lt]

theorem not_matchedBy_nil : ¬MatchedBy text offset [] m :=
  fun ⟨_, _, _, mem, _⟩ => List.not_mem_nil mem

theorem sound_filterMap_advance? (sound : ∀ l ∈ live, l.Sound) (b : UInt8) :
    ∀ l ∈ live.filterMap (·.advance? b), l.Sound := by
  intro l' mem
  obtain ⟨l, mem, advanced⟩ := List.mem_filterMap.mp mem
  exact LiveRule.sound_advance? (sound l mem) advanced

/-- A run adds to what was found just what the live rules match from where it is. -/
theorem mem_scanFrom_iff : ∀ {ahead offset : Nat} {live : List LiveRule} {found : List TokenMatch},
    text.size - offset = ahead → offset ≤ text.size → (∀ l ∈ live, l.Sound) →
      (m ∈ (scanFrom text offset live found).found ↔ m ∈ found ∨ MatchedBy text offset live m) := by
  intro ahead
  induction ahead with
  | zero =>
    intro offset live found left inside sound
    obtain rfl : offset = text.size := by omega
    rw [scanFrom, dif_neg (Nat.lt_irrefl _), List.mem_reverse, List.mem_append, List.mem_reverse,
      mem_matchesAt sound, matchedBy_size, or_comm]
  | succ ahead ih =>
    intro offset live found left inside sound
    have h : offset < text.size := by omega
    have here : m ∈ (matchesAt live offset).reverse ++ found ↔
        m ∈ found ∨ (m.stop = offset ∧ ∃ l ∈ live, l.rule.symbol = m.symbol ∧
          l.rule.literal = m.literal ∧ [] ∈ l.rest) := by
      rw [List.mem_append, List.mem_reverse, mem_matchesAt sound, or_comm]
    rw [scanFrom, dif_pos h, matchedBy_step sound h, ← or_assoc, ← here]
    split
    · next none =>
      rw [List.mem_reverse, none]
      exact (or_iff_left not_matchedBy_nil).symm
    · exact ih (by omega) h (sound_filterMap_advance? sound _)

/-- The matches of a scan are those of the rules with the text from the offset on. -/
theorem mem_scan_iff (rules : Matcher) (sound : ∀ r ∈ rules.rules, r.regex.Sound)
    (inside : offset ≤ text.size) :
    m ∈ (rules.scan text offset).found ↔ offset ≤ m.stop ∧ m.stop ≤ text.size ∧
      ∃ r ∈ rules.rules, r.symbol = m.symbol ∧ r.literal = m.literal ∧
        (text.extract offset m.stop).toList ∈ r.regex.texts := by
  have start : MatchedBy text offset rules.start m ↔ offset ≤ m.stop ∧ m.stop ≤ text.size ∧
      ∃ r ∈ rules.rules, r.symbol = m.symbol ∧ r.literal = m.literal ∧
        (text.extract offset m.stop).toList ∈ r.regex.texts := by
    refine and_congr_right fun _ => and_congr_right fun _ => ?_
    constructor
    · rintro ⟨l, mem, symbol, literal, r', own, held⟩
      obtain ⟨r, hr, rfl⟩ := List.mem_map.mp mem
      obtain rfl := List.mem_singleton.mp own
      exact ⟨r, hr, symbol, literal, held⟩
    · rintro ⟨r, mem, symbol, literal, held⟩
      exact ⟨_, List.mem_map_of_mem mem, symbol, literal, _, List.mem_singleton_self _, held⟩
  rw [scan, ← start]
  split
  · next none =>
    rw [Matcher.start, List.isEmpty_iff.mp none]
    exact iff_of_false List.not_mem_nil not_matchedBy_nil
  · rw [mem_scanFrom_iff rfl inside fun l mem => ?_]
    · exact or_iff_right List.not_mem_nil
    · obtain ⟨r, hr, rfl⟩ := List.mem_map.mp mem
      exact fun x hx => List.mem_singleton.mp hx ▸ sound r hr

/-! ## Order -/

theorem scanFrom_sorted :
    ∀ {ahead offset : Nat} {live : List LiveRule} {found : List TokenMatch},
      text.size - offset = ahead → found.Pairwise (fun m n => n.stop ≤ m.stop) →
      (∀ m ∈ found, m.stop < offset) →
      (scanFrom text offset live found).found.Pairwise fun m n => m.stop ≤ n.stop := by
  have here {live : List LiveRule} {found : List TokenMatch} {offset : Nat}
      (sorted : found.Pairwise fun m n => n.stop ≤ m.stop) (before : ∀ m ∈ found, m.stop < offset) :
      ((matchesAt live offset).reverse ++ found).Pairwise (fun m n => n.stop ≤ m.stop) ∧
        ∀ m ∈ (matchesAt live offset).reverse ++ found, m.stop < offset + 1 := by
    have stops : ∀ m ∈ (matchesAt live offset).reverse, m.stop = offset := by
      intro m mem
      obtain ⟨l, -, rfl⟩ := List.mem_map.mp (List.mem_reverse.mp mem)
      rfl
    refine ⟨List.pairwise_append.mpr ⟨?_, sorted, ?_⟩, fun m mem => ?_⟩
    · exact List.pairwise_of_forall_mem_list fun m hm n hn => by rw [stops m hm, stops n hn]
    · exact fun m hm n hn => by rw [stops m hm]; exact Nat.le_of_lt (before n hn)
    · rcases List.mem_append.mp mem with mem | mem
      · rw [stops m mem]
        exact Nat.lt_succ_self offset
      · exact Nat.lt_succ_of_lt (before m mem)
  intro ahead
  induction ahead with
  | zero =>
    intro offset live found left sorted before
    rw [scanFrom, dif_neg (by omega)]
    exact List.pairwise_reverse.mpr (here sorted before).1
  | succ ahead ih =>
    intro offset live found left sorted before
    rw [scanFrom, dif_pos (by omega)]
    split
    · exact List.pairwise_reverse.mpr (here sorted before).1
    · exact ih (by omega) (here sorted before).1 (here sorted before).2

/-- A scan finds matches in the order of their ends. -/
theorem found_sorted (rules : Matcher) (text : Text) (offset : Nat) :
    (rules.scan text offset).found.Pairwise fun m n => m.stop ≤ n.stop := by
  rw [scan]
  split
  · exact List.Pairwise.nil
  · exact scanFrom_sorted rfl List.Pairwise.nil fun _ mem => absurd mem List.not_mem_nil

/-! ## Rules and definitions -/

/-- The rules of a matcher are the token definitions with their patterns read. -/
theorem mem_rules_of_ofTokens {tokens : List TokenDef} {nameOf : Symbol → String}
    {rules : Matcher} (h : ofTokens tokens nameOf = .ok rules) {r : TokenRule} :
    r ∈ rules.rules ↔ ∃ d ∈ tokens, ∃ q, Pattern.read? d.pattern.pattern = some q ∧
      r = ⟨d.symbol, d.pattern.isLiteral, q.toRegex⟩ := by
  rw [ofTokens] at h
  obtain ⟨read, hread, same⟩ := of_bind_eq_ok h
  cases same
  clear h
  show r ∈ read ↔ _
  induction tokens generalizing read with
  | nil =>
    rw [List.mapM_nil] at hread
    cases hread
    simp
  | cons d ds ih =>
    rw [List.mapM_cons] at hread
    obtain ⟨first, hfirst, hread⟩ := of_bind_eq_ok hread
    obtain ⟨others, hothers, hread⟩ := of_bind_eq_ok hread
    cases hread
    rw [List.mem_cons, ih others hothers, List.exists_mem_cons_iff]
    refine or_congr_left ?_
    split at hfirst
    · next q hq =>
      cases hfirst
      exact ⟨fun h => ⟨q, hq, h⟩, fun ⟨q', hq', h⟩ => by rw [hq] at hq'; cases hq'; exact h⟩
    · cases hfirst

theorem sound_of_ofTokens {tokens : List TokenDef} {nameOf : Symbol → String} {rules : Matcher}
    (h : ofTokens tokens nameOf = .ok rules) : ∀ r ∈ rules.rules, r.regex.Sound := by
  intro r mem
  obtain ⟨d, -, q, read, rfl⟩ := (mem_rules_of_ofTokens h).mp mem
  exact (Pattern.fit_of_read? read).sound_toRegex

/-- The matches of a scan are those of the token definitions. -/
theorem mem_scan_iff_of_ofTokens {tokens : List TokenDef} {nameOf : Symbol → String}
    {rules : Matcher} (h : ofTokens tokens nameOf = .ok rules) (inside : offset ≤ text.size) :
    m ∈ (rules.scan text offset).found ↔ offset ≤ m.stop ∧ m.stop ≤ text.size ∧
      ∃ d ∈ tokens, d.symbol = m.symbol ∧ d.pattern.isLiteral = m.literal ∧
        d.pattern.Matches (text.extract offset m.stop).toList := by
  rw [mem_scan_iff rules (sound_of_ofTokens h) inside]
  refine and_congr_right fun _ => and_congr_right fun _ => ?_
  constructor
  · rintro ⟨r, mem, symbol, literal, held⟩
    obtain ⟨d, hd, q, read, rfl⟩ := (mem_rules_of_ofTokens h).mp mem
    exact ⟨d, hd, symbol, literal, q, read, held⟩
  · rintro ⟨d, mem, symbol, literal, q, read, held⟩
    exact ⟨_, (mem_rules_of_ofTokens h).mpr ⟨d, mem, q, read, rfl⟩, symbol, literal, held⟩

end Matcher

end Glr
