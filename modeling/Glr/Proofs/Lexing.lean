import Glr.Lexer.Token

/-!
# Where tokens end and what they are

The patterns, the scanner and the skipping of what nothing matches all give a token that starts at
the offset it was asked for, or at the end of a shorter text, and ends in the text.  And unless the
language has a token pattern or an external token for it, no token is the end of the text but the
one of no width that stands there.
-/

namespace Glr

/-! ## Matches -/

/-- A match of one of some rules, that ends in a text at an offset or behind it. -/
structure TokenMatch.Proper (rules : List TokenRule) (text : Text) (offset : Nat)
    (m : TokenMatch) : Prop where
  le_stop : offset ≤ m.stop
  stop_le : m.stop ≤ text.size
  symbol : ∃ rule ∈ rules, rule.symbol = m.symbol

namespace Matcher

theorem matchesAt_proper {rules : List TokenRule} {text : Text} {start offset : Nat}
    {live : List LiveRule} (le_offset : start ≤ offset) (le_size : offset ≤ text.size)
    (known : ∀ rule ∈ live, rule.rule ∈ rules) :
    ∀ m ∈ matchesAt live offset, m.Proper rules text start := by
  intro m hm
  obtain ⟨rule, hrule, rfl⟩ := List.mem_map.mp hm
  exact ⟨le_offset, le_size, rule.rule, known rule ((List.mem_filter.mp hrule).1), rfl⟩

theorem scanFrom_proper {rules : List TokenRule} {text : Text} {start : Nat} :
    ∀ {ahead offset : Nat} {live : List LiveRule} {found : List TokenMatch},
      text.size - offset = ahead → start ≤ offset → offset ≤ text.size →
      (∀ rule ∈ live, rule.rule ∈ rules) → (∀ m ∈ found, m.Proper rules text start) →
      ∀ m ∈ (scanFrom text offset live found).found, m.Proper rules text start := by
  intro ahead
  induction ahead with
  | zero =>
    intro offset live found left le_offset le_size known before
    rw [scanFrom, dif_neg (by omega)]
    intro m hm
    rcases List.mem_append.mp (List.mem_reverse.mp hm) with hm | hm
    · exact matchesAt_proper le_offset le_size known m (List.mem_reverse.mp hm)
    · exact before m hm
  | succ ahead ih =>
    intro offset live found left le_offset le_size known before
    have here : ∀ m ∈ (matchesAt live offset).reverse ++ found, m.Proper rules text start := by
      intro m hm
      rcases List.mem_append.mp hm with hm | hm
      · exact matchesAt_proper le_offset le_size known m (List.mem_reverse.mp hm)
      · exact before m hm
    rw [scanFrom, dif_pos (by omega)]
    split
    · exact fun m hm => here m (List.mem_reverse.mp hm)
    · refine ih (by omega) (by omega) (by omega) (fun rule hrule => ?_) here
      obtain ⟨rule', hrule', advanced⟩ := List.mem_filterMap.mp hrule
      rw [LiveRule.advance?] at advanced
      split at advanced
      · cases advanced
      · cases advanced
        exact known rule' hrule'

theorem scan_proper (m : Matcher) {text : Text} {offset : Nat} (h : offset ≤ text.size) :
    ∀ found ∈ (m.scan text offset).found, found.Proper m.rules text offset := by
  rw [scan]
  split
  · exact fun _ hf => absurd hf List.not_mem_nil
  · refine scanFrom_proper rfl (Nat.le_refl _) h (fun rule hrule => ?_)
      fun _ hf => absurd hf List.not_mem_nil
    obtain ⟨r, hr, rfl⟩ := List.mem_map.mp hrule
    exact hr

end Matcher

namespace TokenMatch

/-- The preferred one of a match and what was preferred before it. -/
def better (best : Option TokenMatch) (m : TokenMatch) : Option TokenMatch :=
  match best with
  | none => some m
  | some b => if m.beats b then some m else some b

theorem best?_eq_foldl (found : List TokenMatch) : best? found = found.foldl better none := rfl

theorem mem_of_best? {found : List TokenMatch} {m : TokenMatch} (h : best? found = some m) :
    m ∈ found := by
  have kept : ∀ (found : List TokenMatch) (best : Option TokenMatch),
      found.foldl better best = some m → m ∈ found ∨ best = some m := by
    intro found
    induction found with
    | nil => exact fun best h => Or.inr h
    | cons n found ih =>
      intro best h
      rcases ih _ h with mem | eq
      · exact Or.inl (List.mem_cons_of_mem n mem)
      · cases best with
        | none =>
          cases eq
          exact Or.inl List.mem_cons_self
        | some b =>
          rw [better] at eq
          split at eq
          · cases eq
            exact Or.inl List.mem_cons_self
          · exact Or.inr eq
  rw [best?_eq_foldl] at h
  rcases kept found none h with mem | eq
  · exact mem
  · cases eq

end TokenMatch

namespace Language

variable {l : Language} {text : Text} {offset : Nat}

/-- What is chosen ends where one of the matches does and is of its symbol. -/
theorem choose_mem {valid : SymbolSet} {found : List TokenMatch} {m : TokenMatch}
    (h : l.choose valid found = some m) :
    ∃ n ∈ found, n.stop = m.stop ∧ n.symbol = m.symbol := by
  rw [choose] at h
  split at h
  · cases h
  · next best eq =>
    have own : best ∈ found := (List.mem_filter.mp (TokenMatch.mem_of_best? eq)).1
    split at h
    · next word stop _ wordEnd =>
      split at h
      · split at h
        · cases h
          rw [wordEnd?] at wordEnd
          split at wordEnd
          · cases wordEnd
          · next word' same =>
            obtain rfl : word = word' := by simp_all
            obtain ⟨n, last, rfl⟩ := Option.map_eq_some_iff.mp wordEnd
            obtain ⟨mem, symbol⟩ := List.mem_filter.mp (List.mem_of_getLast? last)
            exact ⟨n, mem, rfl, beq_iff_eq.mp symbol⟩
        · cases h
      · exact ⟨m, Option.some.inj h ▸ own, rfl, rfl⟩
    · exact ⟨m, Option.some.inj h ▸ own, rfl, rfl⟩

theorem candidate_proper {valid : SymbolSet} {m : TokenMatch} (inside : offset ≤ text.size)
    (h : l.candidate? offset valid (l.matcher.scan text offset) = some m) :
    offset ≤ m.stop ∧ m.stop ≤ text.size ∧ ∃ rule ∈ l.matcher.rules, rule.symbol = m.symbol := by
  obtain ⟨n, hn, stop, symbol⟩ := choose_mem h
  have proper := l.matcher.scan_proper inside n (List.mem_filter.mp hn).1
  rw [← stop, ← symbol]
  exact ⟨proper.le_stop, proper.stop_le, proper.symbol⟩

theorem skipUnknown_bounds (l : Language) (text : Text) (offset examined : Nat)
    (inside : offset ≤ text.size) :
    offset ≤ (l.skipUnknown text offset examined).1 ∧
      (l.skipUnknown text offset examined).1 ≤ text.size := by
  fun_induction skipUnknown l text offset examined with
  | case1 => grind
  | case2 => grind
  | case3 => grind
  | case4 => grind

/-! ## Tokens -/

/-- What is known of a token at an offset. -/
structure Placed (l : Language) (text : Text) (offset : Nat) (t : Token) : Prop where
  start : t.span.start = offset
  le_stop : offset ≤ t.span.stop
  stop_le : t.span.stop ≤ text.size
  symbol : t.symbol = Symbol.endOfText ∧ t.span.stop = text.size ∧ offset = text.size ∨
    t.isError = true ∨ (∃ rule ∈ l.matcher.rules, rule.symbol = t.symbol) ∨
      l.isExternal t.symbol = true
  wrong : t.isError = true → t.symbol = Symbol.error

theorem placed_patternToken (inside : offset ≤ text.size) (examined : Nat) (valid : SymbolSet)
    (mode : Nat) : l.Placed text offset (l.patternToken text offset examined valid mode) := by
  rw [patternToken]
  split
  · next atEnd =>
    have same : offset = text.size := Nat.le_antisymm inside atEnd
    exact ⟨rfl, Nat.le_refl _, inside, Or.inl ⟨rfl, same, same⟩, fun h => nomatch h⟩
  · dsimp only
    split
    · next m found =>
      obtain ⟨le_stop, stop_le, symbol⟩ := candidate_proper inside found
      exact ⟨rfl, le_stop, stop_le, Or.inr (Or.inr (Or.inl symbol)), fun h => nomatch h⟩
    · split
      · next m found =>
        obtain ⟨le_stop, stop_le, symbol⟩ := candidate_proper inside found
        exact ⟨rfl, le_stop, stop_le, Or.inr (Or.inr (Or.inl symbol)), fun h => nomatch h⟩
      · obtain ⟨le_stop, stop_le⟩ := skipUnknown_bounds l text offset
          (max examined (l.matcher.scan text offset).examined) inside
        exact ⟨rfl, le_stop, stop_le, Or.inr (Or.inl rfl), fun _ => rfl⟩

/-- Every token starts at its offset, or at the end of the text if that is before it, and ends in
the text. -/
theorem placed_nextTokenIn (l : Language) (text : Text) (offset : Nat) (valid : SymbolSet)
    (mode : Nat) : l.Placed text (min offset text.size) (l.nextTokenIn text offset valid mode) := by
  have inside : min offset text.size ≤ text.size := Nat.min_le_right _ _
  rw [nextTokenIn]
  dsimp only
  split
  · exact placed_patternToken inside _ valid mode
  · next report _ =>
    split
    · next s _ =>
      split
      · next external =>
        rw [Bool.and_eq_true] at external
        exact ⟨rfl, Nat.le_min.mpr ⟨Nat.le_max_right _ _, inside⟩, Nat.min_le_right _ _,
          Or.inr (Or.inr (Or.inr external.1)), fun h => nomatch h⟩
      · exact placed_patternToken inside _ valid mode
    · exact placed_patternToken inside _ valid mode

theorem extent_patternToken (l : Language) (text : Text) (offset examined : Nat)
    (valid : SymbolSet) (mode : Nat) :
    (l.patternToken text offset examined valid mode).extent = Point.extentOf (text.extract
      (l.patternToken text offset examined valid mode).span.start
      (l.patternToken text offset examined valid mode).span.stop) := by
  rw [patternToken]
  split
  · rfl
  · dsimp only
    split
    · rfl
    · split <;> rfl

/-- Every token has the extent of its bytes. -/
theorem extent_nextTokenIn (l : Language) (text : Text) (offset : Nat) (valid : SymbolSet)
    (mode : Nat) : (l.nextTokenIn text offset valid mode).extent = Point.extentOf (text.extract
      (l.nextTokenIn text offset valid mode).span.start
      (l.nextTokenIn text offset valid mode).span.stop) := by
  rw [nextTokenIn]
  dsimp only
  split
  · exact extent_patternToken l text _ _ valid mode
  · split
    · split
      · rfl
      · exact extent_patternToken l text _ _ valid mode
    · exact extent_patternToken l text _ _ valid mode

end Language

end Glr
