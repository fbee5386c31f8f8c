import Glr.Proofs.Lexing

/-!
# What a token depends on

A token records how far behind its end the text was looked at.  The record is honest: a text that
has the same bytes up to there, at whatever offset, gives the same token at that offset
(`patternToken_moved`).  So a token is good for as long as no edit comes near it, and it moves with
the text around it.

A run of the patterns is followed in lockstep on both texts.  They agree on a byte as long as the
run goes on to look at it, and in agreeing on the end of the text they agree on that as well, since
a run that reaches the end has looked one place behind it.
-/

namespace Glr

/-- Behind an offset of each, two texts go on alike up to a place of the first, their ends
included. -/
def Text.Agree (text : Text) (start : Nat) (text' : Text) (start' stop : Nat) : Prop :=
  ∀ k, start + k < stop → text'[start' + k]? = text[start + k]?

namespace Text.Agree

variable {text text' : Text} {start start' stop : Nat}

theorem mono (agree : Agree text start text' start' stop) {stop₀ : Nat} (le : stop₀ ≤ stop) :
    Agree text start text' start' stop₀ := fun k hk => agree k (Nat.lt_of_lt_of_le hk le)

theorem behind (agree : Agree text start text' start' stop) (j : Nat) :
    Agree text (start + j) text' (start' + j) stop := by
  intro k hk
  rw [Nat.add_assoc, Nat.add_assoc]
  exact agree (j + k) (by omega)

theorem lt_size (agree : Agree text start text' start' stop) {k : Nat} (hk : start + k < stop)
    (inside : start + k < text.size) : start' + k < text'.size := by
  have found := agree k hk
  rw [Array.getElem?_eq_getElem inside] at found
  exact (Array.getElem?_eq_some_iff.mp found).1

/-- Texts that agree on the end of one of them end alike. -/
theorem size_eq (agree : Agree text start text' start' stop) (all : text.size < stop)
    (inside : start ≤ text.size) (inside' : start' ≤ text'.size) :
    text'.size = start' + (text.size - start) := by
  refine Nat.le_antisymm ?_ ?_
  · refine Array.getElem?_eq_none_iff.mp ?_
    rw [agree _ (by omega)]
    exact Array.getElem?_eq_none (by omega)
  · rcases Nat.eq_zero_or_pos (text.size - start) with none | some
    · rw [none]
      exact inside'
    · have := agree.lt_size (k := text.size - start - 1) (by omega) (by omega)
      omega

theorem extract_eq (agree : Agree text start text' start' stop) {last : Nat}
    (inside : last ≤ text.size) (le : last ≤ stop) :
    text'.extract start' (start' + (last - start)) = text.extract start last := by
  refine Array.ext_getElem? fun k => ?_
  rw [Array.getElem?_extract, Array.getElem?_extract]
  rcases Nat.lt_or_ge k (last - start) with hk | hk
  · have := agree.lt_size (k := k) (by omega) (by omega)
    rw [if_pos (by omega), if_pos (by omega)]
    exact agree k (by omega)
  · rw [if_neg (by omega), if_neg (by omega)]

end Text.Agree

/-- A match behind another offset. -/
def TokenMatch.moved (start start' : Nat) (m : TokenMatch) : TokenMatch :=
  { m with stop := start' + (m.stop - start) }

/-- A token behind another offset. -/
def Token.moved (start start' : Nat) (t : Token) : Token :=
  { t with span := ⟨start' + (t.span.start - start), start' + (t.span.stop - start)⟩ }

namespace Matcher

/-! ## Runs of the patterns -/

section Scan

variable {text : Text} {offset : Nat} {live : List LiveRule} {found : List TokenMatch}

theorem scanFrom_at_end (h : text.size ≤ offset) :
    scanFrom text offset live found =
      ⟨((matchesAt live offset).reverse ++ found).reverse, text.size + 1⟩ := by
  rw [scanFrom, dif_neg (Nat.not_lt_of_le h)]

theorem scanFrom_stop {byte : UInt8} (h : text[offset]? = some byte)
    (none : live.filterMap (·.advance? byte) = []) :
    scanFrom text offset live found =
      ⟨((matchesAt live offset).reverse ++ found).reverse,
        if (matchesAt live offset).isEmpty then offset + 1 else offset + 2⟩ := by
  obtain ⟨inside, rfl⟩ := Array.getElem?_eq_some_iff.mp h
  rw [scanFrom, dif_pos inside, none]

theorem scanFrom_step {byte : UInt8} {live' : List LiveRule} (h : text[offset]? = some byte)
    (some : live.filterMap (·.advance? byte) = live') (more : live' ≠ []) :
    scanFrom text offset live found =
      scanFrom text (offset + 1) live' ((matchesAt live offset).reverse ++ found) := by
  obtain ⟨inside, rfl⟩ := Array.getElem?_eq_some_iff.mp h
  rw [scanFrom, dif_pos inside, some]
  split
  · exact absurd rfl more
  · rfl

/-- A run looks at the place it is at, and at no more than one place behind the text. -/
theorem examined_scanFrom :
    ∀ {ahead : Nat} (offset : Nat) (live : List LiveRule) (found : List TokenMatch),
      text.size - offset = ahead → offset ≤ text.size →
      offset < (scanFrom text offset live found).examined ∧
        (scanFrom text offset live found).examined ≤ text.size + 1 := by
  intro ahead
  induction ahead with
  | zero =>
    intro offset live found left inside
    rw [scanFrom_at_end (by omega)]
    exact ⟨Nat.lt_succ_of_le inside, Nat.le_refl _⟩
  | succ ahead ih =>
    intro offset live found left inside
    obtain ⟨byte, here⟩ : ∃ byte, text[offset]? = some byte :=
      ⟨_, Array.getElem?_eq_getElem (by omega)⟩
    cases next : live.filterMap (·.advance? byte) with
    | nil =>
      rw [scanFrom_stop here next]
      dsimp only
      split <;> omega
    | cons rule rules =>
      rw [scanFrom_step here next (List.cons_ne_nil _ _)]
      obtain ⟨looked, bounded⟩ := ih (offset + 1) (rule :: rules)
        ((matchesAt live offset).reverse ++ found) (by omega) (by omega)
      exact ⟨by omega, bounded⟩

end Scan

section Moved

variable {text text' : Text} {start start' : Nat}

theorem matchesAt_moved (live : List LiveRule) (k : Nat) :
    matchesAt live (start' + k) = (matchesAt live (start + k)).map (.moved start start') := by
  rw [matchesAt, matchesAt, List.map_map]
  refine List.map_congr_left fun rule _ => ?_
  rw [Function.comp_apply, TokenMatch.moved, Nat.add_sub_cancel_left]

/-- Two runs in lockstep. -/
theorem scanFrom_moved :
    ∀ {ahead k : Nat} {live : List LiveRule} (found : List TokenMatch),
      text.size - (start + k) = ahead → start + k ≤ text.size → start' + k ≤ text'.size →
      Text.Agree text start text' start' (scanFrom text (start + k) live found).examined →
      scanFrom text' (start' + k) live (found.map (.moved start start')) =
        ⟨(scanFrom text (start + k) live found).found.map (.moved start start'),
          start' + ((scanFrom text (start + k) live found).examined - start)⟩ := by
  intro ahead
  induction ahead with
  | zero =>
    intro k live found left inside inside' agree
    have atEnd : text.size ≤ start + k := by omega
    rw [scanFrom_at_end atEnd] at agree ⊢
    have ends := (agree.behind k).size_eq (Nat.lt_succ_self _) inside inside'
    rw [scanFrom_at_end (show text'.size ≤ start' + k by omega), Scan.mk.injEq]
    refine ⟨?_, ?_⟩
    · rw [matchesAt_moved live k, List.map_reverse, List.map_append, List.map_reverse]
    · show text'.size + 1 = start' + (text.size + 1 - start)
      omega
  | succ ahead ih =>
    intro k live found left inside inside' agree
    obtain ⟨byte, here⟩ : ∃ byte, text[start + k]? = some byte :=
      ⟨_, Array.getElem?_eq_getElem (by omega)⟩
    have looked := (examined_scanFrom _ live found left inside).1
    have here' := (agree k looked).trans here
    have room := agree.lt_size looked (by omega)
    have both : (matchesAt live (start' + k)).reverse ++ found.map (.moved start start') =
        ((matchesAt live (start + k)).reverse ++ found).map (.moved start start') := by
      rw [matchesAt_moved live k, List.map_append, List.map_reverse]
    cases next : live.filterMap (·.advance? byte) with
    | nil =>
      rw [scanFrom_stop here next, scanFrom_stop here' next, both]
      rw [Scan.mk.injEq]
      refine ⟨List.map_reverse.symm, ?_⟩
      rw [matchesAt_moved live k, List.isEmpty_map]
      cases (matchesAt live (start + k)).isEmpty with
      | true =>
        show start' + k + 1 = start' + (start + k + 1 - start)
        omega
      | false =>
        show start' + k + 2 = start' + (start + k + 2 - start)
        omega
    | cons rule rules =>
      rw [scanFrom_step here next (List.cons_ne_nil _ _)] at agree ⊢
      rw [scanFrom_step here' next (List.cons_ne_nil _ _), both]
      exact ih (k := k + 1) _ (by omega) (by omega) (by omega) agree

theorem examined_scan (m : Matcher) (inside : start ≤ text.size) :
    start < (m.scan text start).examined ∧ (m.scan text start).examined ≤ text.size + 1 := by
  rw [scan]
  split
  · exact ⟨Nat.lt_succ_self start, Nat.succ_le_succ inside⟩
  · exact examined_scanFrom _ _ _ rfl inside

theorem scan_moved {m : Matcher} (inside : start ≤ text.size) (inside' : start' ≤ text'.size)
    (agree : Text.Agree text start text' start' (m.scan text start).examined) :
    m.scan text' start' = ⟨(m.scan text start).found.map (.moved start start'),
      start' + ((m.scan text start).examined - start)⟩ := by
  rw [scan] at agree ⊢
  rw [scan]
  split
  · rw [Nat.add_sub_cancel_left]
    rfl
  · next some =>
    rw [if_neg some] at agree
    exact scanFrom_moved (k := 0) [] rfl inside inside' agree

end Moved

end Matcher

/-! ## Choosing a match -/

namespace TokenMatch

variable {start start' : Nat}

theorem beats_moved {a b : TokenMatch} (ha : start ≤ a.stop) (hb : start ≤ b.stop) :
    (a.moved start start').beats (b.moved start start') = a.beats b := by
  have longer : decide (start' + (a.stop - start) > start' + (b.stop - start)) =
      decide (a.stop > b.stop) := decide_eq_decide.mpr (by omega)
  have same : (start' + (a.stop - start) == start' + (b.stop - start)) = (a.stop == b.stop) := by
    rw [Bool.eq_iff_iff, beq_iff_eq, beq_iff_eq]
    omega
  simp only [beats, moved, same]
  exact congrArg (· || _) longer

theorem best?_moved {found : List TokenMatch} (behind : ∀ m ∈ found, start ≤ m.stop) :
    best? (found.map (.moved start start')) = (best? found).map (.moved start start') := by
  have walk : ∀ (found : List TokenMatch) (best : Option TokenMatch),
      (∀ m ∈ found, start ≤ m.stop) → (∀ b ∈ best, start ≤ b.stop) →
      (found.map (moved start start')).foldl better (best.map (moved start start')) =
        (found.foldl better best).map (moved start start') := by
    intro found
    induction found with
    | nil => exact fun _ _ _ => rfl
    | cons m found ih =>
      intro best behind known
      have here := behind m List.mem_cons_self
      have later := fun m' h => behind m' (List.mem_cons_of_mem m h)
      rw [List.map_cons, List.foldl_cons, List.foldl_cons]
      cases best with
      | none => exact ih (some m) later fun b hb => Option.some.inj hb ▸ here
      | some b =>
        have before := known b rfl
        rw [Option.map_some, better, better, beats_moved here before]
        split
        · exact ih (some m) later fun b hb => Option.some.inj hb ▸ here
        · exact ih (some b) later known
  rw [best?_eq_foldl, best?_eq_foldl]
  exact walk found none behind fun _ h => by cases h

end TokenMatch

namespace Language

variable {l : Language} {start start' : Nat}

theorem wordEnd?_moved (found : List TokenMatch) :
    l.wordEnd? (found.map (.moved start start')) =
      (l.wordEnd? found).map fun stop => start' + (stop - start) := by
  rw [wordEnd?, wordEnd?]
  split
  · rfl
  · rw [List.filter_map, List.getLast?_map, Option.map_map, Option.map_map]
    rfl

theorem le_of_wordEnd? {found : List TokenMatch} (behind : ∀ m ∈ found, start ≤ m.stop)
    {stop : Nat} (h : l.wordEnd? found = some stop) : start ≤ stop := by
  rw [wordEnd?] at h
  split at h
  · cases h
  · obtain ⟨m, last, rfl⟩ := Option.map_eq_some_iff.mp h
    exact behind m (List.mem_filter.mp (List.mem_of_getLast? last)).1

theorem choose_moved (valid : SymbolSet) {found : List TokenMatch}
    (behind : ∀ m ∈ found, start ≤ m.stop) :
    l.choose valid (found.map (.moved start start')) =
      (l.choose valid found).map (.moved start start') := by
  have wanted : ∀ m ∈ found.filter fun m => l.accepts valid m.symbol, start ≤ m.stop :=
    fun m hm => behind m (List.mem_filter.mp hm).1
  have filtered :
      (found.map (TokenMatch.moved start start')).filter (fun m => l.accepts valid m.symbol) =
        (found.filter fun m => l.accepts valid m.symbol).map (.moved start start') := by
    rw [List.filter_map]
    rfl
  rw [choose, choose, filtered, TokenMatch.best?_moved wanted, wordEnd?_moved]
  cases best : TokenMatch.best? (found.filter fun m => l.accepts valid m.symbol) with
  | none => rfl
  | some m =>
    cases word : l.wordToken with
    | none => rfl
    | some w =>
      cases longest : l.wordEnd? found with
      | none => rfl
      | some stop =>
        have here := wanted m (TokenMatch.mem_of_best? best)
        have there := le_of_wordEnd? behind longest
        have longer : (start' + (stop - start) > start' + (m.stop - start)) =
            (stop > m.stop) := by
          rw [eq_iff_iff]
          omega
        simp only [Option.map_some, TokenMatch.moved, longer]
        split
        · split
          · rfl
          · rfl
        · rfl

variable {text text' : Text} {scan : Scan} {valid : SymbolSet}

theorem candidate?_moved (behind : ∀ m ∈ scan.found, start ≤ m.stop) (examined : Nat) :
    l.candidate? start' valid ⟨scan.found.map (.moved start start'), examined⟩ =
      (l.candidate? start valid scan).map (.moved start start') := by
  have wide : (scan.found.map (TokenMatch.moved start start')).filter (fun m => m.stop != start') =
      (scan.found.filter fun m => m.stop != start).map (.moved start start') := by
    rw [List.filter_map]
    refine congrArg (List.map _) (List.filter_congr fun m hm => ?_)
    have := behind m hm
    rw [Function.comp_apply, Bool.eq_iff_iff, bne_iff_ne, bne_iff_ne, TokenMatch.moved]
    dsimp only
    omega
  rw [candidate?, candidate?, wide]
  exact choose_moved valid fun m hm => behind m (List.mem_filter.mp hm).1

theorem candidate?_scan_moved (inside : start ≤ text.size) (inside' : start' ≤ text'.size)
    (agree : Text.Agree text start text' start' (l.matcher.scan text start).examined) :
    l.candidate? start' valid (l.matcher.scan text' start') =
      (l.candidate? start valid (l.matcher.scan text start)).map (.moved start start') := by
  rw [Matcher.scan_moved inside inside' agree]
  exact candidate?_moved (fun m hm => (l.matcher.scan_proper inside m hm).le_stop) _

/-! ## Characters that nothing matches -/

theorem le_skipUnknown (l : Language) (text : Text) (offset examined : Nat) :
    examined ≤ (l.skipUnknown text offset examined).2 := by
  fun_induction skipUnknown l text offset examined with
  | case1 => exact Nat.le_refl _
  | case2 => exact Nat.le_max_left _ _
  | case3 offset examined _ stop _ next looked _ ih =>
    exact Nat.le_trans (Nat.le_max_left _ _) ih
  | case4 => exact Nat.le_refl _

theorem skipUnknown_le (l : Language) (text : Text) (offset examined : Nat) :
    (l.skipUnknown text offset examined).2 ≤ max examined (text.size + 1) := by
  fun_induction skipUnknown l text offset examined with
  | case1 => exact Nat.le_max_left _ _
  | case2 offset examined here stop more next looked _ =>
    have bound : next.examined ≤ text.size + 1 :=
      (l.matcher.examined_scan (Nat.min_le_right _ _)).2
    omega
  | case3 offset examined here stop more next looked _ ih =>
    have bound : next.examined ≤ text.size + 1 :=
      (l.matcher.examined_scan (Nat.min_le_right _ _)).2
    omega
  | case4 => exact Nat.le_max_left _ _

theorem lt_skipUnknown (l : Language) {offset : Nat} (inside : offset < text.size)
    (examined : Nat) : offset < (l.skipUnknown text offset examined).1 := by
  have wide := Utf8.width_pos text[offset]
  rw [skipUnknown, dif_pos inside]
  dsimp only
  split
  · omega
  · split
    · omega
    · exact Nat.lt_of_lt_of_le (by omega) (skipUnknown_bounds l text _ _ (Nat.min_le_right _ _)).1

theorem skipUnknown_at_end {offset examined : Nat} (h : text.size ≤ offset) :
    l.skipUnknown text offset examined = (offset, examined) := by
  rw [skipUnknown, dif_neg (Nat.not_lt_of_le h)]

/-- Behind a character, unless it is the last, the patterns are tried before it is gone on from
there. -/
theorem skipUnknown_of_byte {offset examined : Nat} {byte : UInt8}
    (here : text[offset]? = some byte) {stop : Nat}
    (ends : min (offset + Utf8.width byte) text.size = stop) :
    l.skipUnknown text offset examined =
      if stop = text.size then (stop, examined)
      else
        if (l.candidate? stop l.recoveryTerminals (l.matcher.scan text stop)).isSome then
          (stop, max examined (l.matcher.scan text stop).examined)
        else l.skipUnknown text stop (max examined (l.matcher.scan text stop).examined) := by
  obtain ⟨inside, rfl⟩ := Array.getElem?_eq_some_iff.mp here
  rw [skipUnknown, dif_pos inside, ends]

theorem skipUnknown_moved :
    ∀ {ahead k examined : Nat}, text.size - (start + k) = ahead →
      start + k ≤ text.size → start' + k ≤ text'.size → start ≤ examined →
      Text.Agree text start text' start'
        (max (l.skipUnknown text (start + k) examined).1
          (l.skipUnknown text (start + k) examined).2 + 1) →
      l.skipUnknown text' (start' + k) (start' + (examined - start)) =
        (start' + ((l.skipUnknown text (start + k) examined).1 - start),
          start' + ((l.skipUnknown text (start + k) examined).2 - start)) := by
  intro ahead
  induction ahead using Nat.strongRecOn with
  | ind ahead ih =>
    intro k examined left inside inside' le agree
    rcases Nat.lt_or_ge (start + k) text.size with more | atEnd
    · have here := Array.getElem?_eq_getElem more
      have wide := Utf8.width_pos text[start + k]
      have le : start ≤ min (start + k + Utf8.width text[start + k]) text.size := by omega
      obtain ⟨j, hj⟩ := Nat.exists_eq_add_of_le le
      rw [skipUnknown_of_byte here hj] at agree ⊢
      by_cases last : start + j = text.size
      · rw [if_pos last] at agree ⊢
        dsimp only at agree ⊢
        have ends := (agree.behind k).size_eq (by omega) inside inside'
        have hj' : min (start' + k + Utf8.width text[start + k]) text'.size = start' + j := by omega
        rw [skipUnknown_of_byte ((agree k (by omega)).trans here) hj', if_pos (by omega),
          Nat.add_sub_cancel_left]
      · rw [if_neg last] at agree ⊢
        have tried : max examined (l.matcher.scan text (start + j)).examined ≤
            (if (l.candidate? (start + j) l.recoveryTerminals
                (l.matcher.scan text (start + j))).isSome = true then
              (start + j, max examined (l.matcher.scan text (start + j)).examined)
            else l.skipUnknown text (start + j)
              (max examined (l.matcher.scan text (start + j)).examined)).2 := by
          split
          · exact Nat.le_refl _
          · exact le_skipUnknown l text _ _
        have looked := (l.matcher.examined_scan (show start + j ≤ text.size by omega)).1
        have room := agree.lt_size (k := j) (by omega) (by omega)
        have hj' : min (start' + k + Utf8.width text[start + k]) text'.size = start' + j := by omega
        have on : Text.Agree text (start + j) text' (start' + j)
            (l.matcher.scan text (start + j)).examined := (agree.mono (by omega)).behind j
        rw [skipUnknown_of_byte ((agree k (by omega)).trans here) hj', if_neg (by omega),
          candidate?_scan_moved (by omega) (by omega) on,
          Matcher.scan_moved (by omega) (by omega) on, Option.isSome_map]
        have reach : max (start' + (examined - start)) (start' + j +
              ((l.matcher.scan text (start + j)).examined - (start + j))) =
            start' + (max examined (l.matcher.scan text (start + j)).examined - start) := by omega
        dsimp only
        rw [reach]
        split
        · rw [Nat.add_sub_cancel_left]
        · next unmatched =>
          rw [if_neg unmatched] at agree
          exact ih _ (by omega) rfl (by omega) (by omega) (by omega) agree
    · rw [skipUnknown_at_end atEnd] at agree ⊢
      have ends := (agree.behind k).size_eq (by dsimp only; omega) inside inside'
      rw [skipUnknown_at_end (show text'.size ≤ start' + k by omega), Nat.add_sub_cancel_left]

/-! ## Tokens -/

theorem tokenOf_moved (symbol : Symbol) {stop examined : Nat} (mode : Nat) (isError : Bool)
    (le_stop : start ≤ stop) (inside : stop ≤ text.size) (le : start ≤ examined)
    (agree : Text.Agree text start text' start' (max stop examined + 1)) :
    tokenOf text' symbol start' (start' + (stop - start)) (start' + (examined - start)) mode
        isError =
      (tokenOf text symbol start stop examined mode isError).moved start start' := by
  have same := agree.extract_eq inside (by omega)
  rw [tokenOf, tokenOf, Token.moved, same, Token.mk.injEq, Span.mk.injEq]
  refine ⟨rfl, ⟨?_, rfl⟩, rfl, ?_, rfl, rfl⟩
  · show start' = start' + (start - start)
    omega
  · show start' + (examined - start) - (start' + (stop - start)) = examined - stop
    omega

/-- Where a token ends or the text was looked at for it, whichever is later. -/
theorem reach_tokenOf (symbol : Symbol) (start stop examined mode : Nat) (isError : Bool) :
    (tokenOf text symbol start stop examined mode isError).span.stop +
      (tokenOf text symbol start stop examined mode isError).lookahead = max stop examined := by
  show stop + (examined - stop) = max stop examined
  omega

theorem patternToken_moved {examined mode : Nat} (inside : start ≤ text.size)
    (inside' : start' ≤ text'.size) (le : start ≤ examined)
    (agree : Text.Agree text start text' start'
      ((l.patternToken text start examined valid mode).span.stop +
        (l.patternToken text start examined valid mode).lookahead + 1)) :
    l.patternToken text' start' (start' + (examined - start)) valid mode =
      (l.patternToken text start examined valid mode).moved start start' := by
  rw [patternToken] at agree ⊢
  rw [patternToken]
  by_cases atEnd : text.size ≤ start
  · rw [if_pos atEnd] at agree ⊢
    rw [reach_tokenOf] at agree
    have ends := agree.size_eq (by omega) inside inside'
    have moved := tokenOf_moved Symbol.endOfText mode false (Nat.le_refl start)
      inside le agree
    rw [Nat.sub_self] at moved
    rw [if_pos (show text'.size ≤ start' by omega)]
    exact moved
  · rw [if_neg atEnd] at agree ⊢
    dsimp only at agree ⊢
    have looked := (l.matcher.examined_scan inside).1
    -- Whatever comes of it, the scan is within what the token records.
    have alike (on : Text.Agree text start text' start' (l.matcher.scan text start).examined) :
        ¬text'.size ≤ start' ∧
        (∀ valid, l.candidate? start' valid (l.matcher.scan text' start') =
          (l.candidate? start valid (l.matcher.scan text start)).map (.moved start start')) ∧
        max (start' + (examined - start)) (l.matcher.scan text' start').examined =
          start' + (max examined (l.matcher.scan text start).examined - start) := by
      have room := on.lt_size (k := 0) looked (by omega)
      refine ⟨by omega, fun valid => candidate?_scan_moved inside inside' on, ?_⟩
      rw [Matcher.scan_moved inside inside' on]
      dsimp only
      omega
    cases wanted : l.candidate? start valid (l.matcher.scan text start) with
    | some m =>
      rw [wanted] at agree
      dsimp only at agree ⊢
      rw [reach_tokenOf] at agree
      obtain ⟨more, candidates, reach⟩ := alike (agree.mono (by omega))
      obtain ⟨le_stop, stop_le, -⟩ := candidate_proper inside wanted
      rw [if_neg more, candidates, wanted, reach]
      exact tokenOf_moved _ _ _ le_stop stop_le (by omega) agree
    | none =>
      rw [wanted] at agree
      dsimp only at agree ⊢
      cases fallback : l.candidate? start l.recoveryTerminals (l.matcher.scan text start) with
      | some m =>
        rw [fallback] at agree
        dsimp only at agree ⊢
        rw [reach_tokenOf] at agree
        obtain ⟨more, candidates, reach⟩ := alike (agree.mono (by omega))
        obtain ⟨le_stop, stop_le, -⟩ := candidate_proper inside fallback
        rw [if_neg more, candidates, wanted]
        dsimp only [Option.map_none]
        rw [candidates, fallback, reach]
        exact tokenOf_moved _ _ _ le_stop stop_le (by omega) agree
      | none =>
        rw [fallback] at agree
        dsimp only at agree ⊢
        rw [reach_tokenOf] at agree
        have further := le_skipUnknown l text start
          (max examined (l.matcher.scan text start).examined)
        obtain ⟨more, candidates, reach⟩ := alike (agree.mono (by omega))
        obtain ⟨le_stop, stop_le⟩ := skipUnknown_bounds l text start
          (max examined (l.matcher.scan text start).examined) inside
        rw [if_neg more, candidates, wanted]
        dsimp only [Option.map_none]
        rw [candidates, fallback, reach]
        dsimp only [Option.map_none]
        have skipped := skipUnknown_moved (k := 0) rfl inside inside' (by omega) agree
        rw [Nat.add_zero, Nat.add_zero] at skipped
        rw [skipped]
        exact tokenOf_moved _ _ _ le_stop stop_le (by omega) agree

/-- Lexing is local: a text that agrees on what a token is made of and on what was looked at for
it, and on one place more, has the token too. -/
theorem nextTokenIn_moved (unaided : l.scanner = none) {mode : Nat} (inside : start ≤ text.size)
    (inside' : start' ≤ text'.size)
    (agree : Text.Agree text start text' start'
      ((l.nextTokenIn text start valid mode).span.stop +
        (l.nextTokenIn text start valid mode).lookahead + 1)) :
    l.nextTokenIn text' start' valid mode =
      (l.nextTokenIn text start valid mode).moved start start' := by
  have alone (text : Text) {start : Nat} (inside : start ≤ text.size) :
      l.nextTokenIn text start valid mode = l.patternToken text start (start + 1) valid mode := by
    rw [nextTokenIn, consultScanner, unaided, Nat.min_eq_left inside]
  rw [alone text inside] at agree ⊢
  rw [alone text' inside', show start' + 1 = start' + (start + 1 - start) by omega]
  exact patternToken_moved inside inside' (Nat.le_succ start) agree

theorem lt_of_candidate? {offset : Nat} {m : TokenMatch} (inside : offset ≤ text.size)
    (h : l.candidate? offset valid (l.matcher.scan text offset) = some m) : offset < m.stop := by
  obtain ⟨n, hn, stop, -⟩ := choose_mem h
  have moved := (List.mem_filter.mp hn).2
  rw [bne_iff_ne, stop] at moved
  exact Nat.lt_of_le_of_ne (candidate_proper inside h).1 (Ne.symm moved)

/-- Nothing is looked at but the text and its end. -/
theorem lookahead_nextTokenIn (unaided : l.scanner = none) (text : Text) (offset : Nat)
    (valid : SymbolSet) (mode : Nat) :
    (l.nextTokenIn text offset valid mode).lookahead ≤ max 1 text.size := by
  have inside : min offset text.size ≤ text.size := Nat.min_le_right _ _
  have scanned := (l.matcher.examined_scan inside).2
  rw [nextTokenIn, consultScanner, unaided]
  dsimp only
  rw [patternToken]
  generalize min offset text.size = start at *
  split
  · show start + 1 - start ≤ max 1 text.size
    omega
  · next more =>
    dsimp only
    split
    · next m found =>
      have := lt_of_candidate? inside found
      show max (start + 1) (l.matcher.scan text start).examined - m.stop ≤ _
      omega
    · split
      · next m found =>
        have := lt_of_candidate? inside found
        show max (start + 1) (l.matcher.scan text start).examined - m.stop ≤ _
        omega
      · have looked := skipUnknown_le l text start
          (max (start + 1) (l.matcher.scan text start).examined)
        have moved := lt_skipUnknown l (Nat.lt_of_not_le more)
          (max (start + 1) (l.matcher.scan text start).examined)
        rw [tokenOf]
        dsimp only
        omega

/-- A token has the mode it was lexed in, unless the recovery terminals were fallen back on. -/
theorem lexMode_nextTokenIn (l : Language) (text : Text) (offset : Nat) (valid : SymbolSet)
    (mode : Nat) : (l.nextTokenIn text offset valid mode).lexMode = mode ∨
      (l.nextTokenIn text offset valid mode).lexMode = LexMode.recovery := by
  have pattern (offset examined : Nat) :
      (l.patternToken text offset examined valid mode).lexMode = mode ∨
        (l.patternToken text offset examined valid mode).lexMode = LexMode.recovery := by
    rw [patternToken]
    split
    · exact Or.inl rfl
    · dsimp only
      split
      · exact Or.inl rfl
      · split
        · exact Or.inr rfl
        · exact Or.inr rfl
  rw [nextTokenIn]
  dsimp only
  split
  · exact pattern _ _
  · split
    · split
      · exact Or.inl rfl
      · exact pattern _ _
    · exact pattern _ _

end Language

end Glr
