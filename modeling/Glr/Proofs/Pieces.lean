import Glr.Regex.Escape
import Glr.Proofs.Enclosed

/-!
# Patterns written part by part

A pattern that is put together from sources is read as what its parts are read as, if each part
stays in one piece.  `ArePieces` says that of a source: wherever it stands, its characters add
pieces to the branch they stand in and change nothing else that is read.  An escaped text is such a
source, and so is whatever is in parentheses; one such source behind another is a third.  Between
bars in parentheses they are the branches of a group (`isGroup_branches`), and a group may have a
repetition behind it.  A lazy mark is the one thing that would reach back over the end of a source,
so no source starts with it.

What a grammar relies on is no more than these ways to put patterns together, and they are the same
in all of the syntax of patterns.  They are said for any syntax (`PatternSyntax.Meaning`), and the
patterns that are read here keep to them (`PatternSyntax.readableMeaning`).
-/

namespace Glr.Pattern

open Regex (between just)

/-- Whether some characters are read as pieces that match given strings one after another, whatever
is read before.  A mark of laziness must not come next, and they do not start with one. -/
structure ArePieces (source : List Char) (L : ByteLanguage) : Prop where
  unmarked : source.head? ≠ some '?'
  run : ∀ {r : Reading}, r.Fit → ∀ tail : List Char, tail.head? ≠ some '?' →
    ∃ pieces n, (∀ m ∈ pieces, m.pattern.Fit) ∧
      (pieces.map (·.pattern.texts)).reverse.prod = L ∧
      r.run (source ++ tail) =
        Reading.run ⟨{ r.inner with pieces := pieces ++ r.inner.pieces }, r.outer, n⟩ tail

/-- Whether some characters in parentheses are read as one piece that matches given strings. -/
def IsGroup (source : List Char) (L : ByteLanguage) : Prop :=
  ∀ r : Reading, r.Fit → ∀ tail : List Char, ∃ piece n, piece.pattern.Fit ∧
    piece.pattern.texts = L ∧ r.run ('(' :: '?' :: ':' :: source ++ ')' :: tail) =
      Reading.run ⟨r.inner.push piece, r.outer, n⟩ tail

variable {source source' : List Char} {L M : ByteLanguage}

namespace ArePieces

theorem nil : ArePieces [] 1 where
  unmarked h := by cases h
  run {r} _ tail _ := ⟨[], r.numbered, fun _ mem => absurd mem List.not_mem_nil, rfl, rfl⟩

theorem append (h : ArePieces source L) (h' : ArePieces source' M) :
    ArePieces (source ++ source') (L * M) where
  unmarked := by
    cases source with
    | nil => exact h'.unmarked
    | cons c cs => exact h.unmarked
  run {r} fit tail unmarked := by
    have between : (source' ++ tail).head? ≠ some '?' := by
      cases source' with
      | nil => exact unmarked
      | cons c cs => exact h'.unmarked
    obtain ⟨first, n, fits, texts, run⟩ := h.run fit (source' ++ tail) between
    have fit' : Reading.Fit ⟨{ r.inner with pieces := first ++ r.inner.pieces }, r.outer, n⟩ :=
      ⟨⟨fit.inner.branches, List.forall_mem_append.mpr ⟨fits, fit.inner.pieces⟩⟩, fit.outer⟩
    obtain ⟨second, n', fits', texts', run'⟩ := h'.run fit' tail unmarked
    refine ⟨second ++ first, n', List.forall_mem_append.mpr ⟨fits', fits⟩, ?_, ?_⟩
    · rw [List.map_append, List.reverse_append, List.prod_append, texts, texts']
    · rw [List.append_assoc, run, run', List.append_assoc]

/-- What a step reads as one piece. -/
theorem of_step {c : Char} {cs : List Char} (piece : Nested) (mark : c ≠ '?')
    (fit : piece.pattern.Fit)
    (step : ∀ (r : Reading) tail, r.step? c (cs ++ tail) = some (r.push piece, tail)) :
    ArePieces (c :: cs) piece.pattern.texts where
  unmarked h := mark (Option.some.inj h)
  run {r} _ tail _ := by
    refine ⟨[piece], r.numbered, fun m mem => List.mem_singleton.mp mem ▸ fit, ?_, ?_⟩
    · exact mul_one _
    · refine Reading.run_step (step r tail) ?_
      exact List.length_append ▸ Nat.le_add_left _ _

end ArePieces

/-! ## Literal text -/

section

variable {c : Char}

/-- The characters that the reader treats in a way of their own carry a backslash in a text. -/
theorem isMeta_special :
    ∀ c ∈ ['(', ')', '|', '[', '*', '+', '?', '\x7b', '\\', '.', '^', '$'],
      Regex.isMeta c = true :=
  List.all_eq_true.mp (by cbv)

/-- The letters that stand for something else behind a backslash never carry one. -/
theorem not_isMeta_letter :
    ∀ c ∈ ['s', 'S', 'a', 'f', 't', 'n', 'r', 'v', 'x', 'u', 'U'], Regex.isMeta c = false := by
  have all : ['s', 'S', 'a', 'f', 't', 'n', 'r', 'v', 'x', 'u', 'U'].any Regex.isMeta = false := by
    cbv
  exact fun c mem => Bool.eq_false_iff.mpr (List.any_eq_false.mp all c mem)

theorem texts_char (c : Char) : (text [c]).texts = just (String.utf8EncodeChar c) := by
  rw [texts_text, List.flatMap_singleton]

theorem fit_text (cs : List Char) : (text cs).Fit := by
  rw [Fit]
  exact True.intro

theorem step?_plain (plain : Regex.isMeta c = false) (r : Reading) (cs : List Char) :
    r.step? c cs = some (r.pushChar c, cs) := by
  unfold Reading.step?
  split
  case h_13 => rfl
  all_goals
    rw [isMeta_special _ (by decide)] at plain
    cases plain

theorem readEscape_special (special : Regex.isMeta c = true) (cs : List Char) :
    readEscape (c :: cs) = some (.literal c, cs) := by
  unfold readEscape
  split
  case h_1 same => cases same
  case h_13 same =>
    cases same
    rw [isEscapable, special]
    rfl
  all_goals
    next same =>
    cases same
    rw [not_isMeta_letter _ (by decide)] at special
    cases special

theorem arePieces_char (plain : Regex.isMeta c = false) :
    ArePieces [c] (just (String.utf8EncodeChar c)) := by
  have unmarked : c ≠ '?' := by
    rintro rfl
    rw [isMeta_special _ (by decide)] at plain
    cases plain
  rw [← texts_char]
  exact .of_step ⟨text [c], 0⟩ unmarked (fit_text [c]) fun r tail =>
    step?_plain plain r tail

theorem arePieces_escaped (special : Regex.isMeta c = true) :
    ArePieces ['\\', c] (just (String.utf8EncodeChar c)) := by
  rw [← texts_char]
  refine .of_step ⟨text [c], 0⟩ (by decide) (fit_text [c]) fun r tail => ?_
  exact Option.bind_eq_some_iff.mpr ⟨_, readEscape_special special tail, rfl⟩

end

theorem toList_escapePattern (text : String) :
    (Regex.escapePattern text).toList =
      text.toList.flatMap fun c => if Regex.isMeta c then ['\\', c] else [c] := by
  rw [Regex.escapePattern, String.foldl_eq_foldl_toList]
  have from_ (out : String) (cs : List Char) :
      (cs.foldl (fun out c => if Regex.isMeta c then (out.push '\\').push c else out.push c)
        out).toList =
          out.toList ++ cs.flatMap fun c => if Regex.isMeta c then ['\\', c] else [c] := by
    induction cs generalizing out with
    | nil => simp
    | cons c cs ih =>
      rw [List.foldl_cons, ih, List.flatMap_cons]
      split <;> simp
  exact from_ "" text.toList

theorem arePieces_escapePattern (text : String) :
    ArePieces (Regex.escapePattern text).toList
      (just (text.toList.flatMap String.utf8EncodeChar)) := by
  rw [toList_escapePattern]
  induction text.toList with
  | nil => exact .nil
  | cons c cs ih =>
    rw [List.flatMap_cons, List.flatMap_cons, Regex.just_append]
    refine ArePieces.append ?_ ih
    split
    · next special => exact arePieces_escaped special
    · next plain => exact arePieces_char (Bool.eq_false_iff.mpr plain)

/-! ## Groups -/

namespace IsGroup

theorem arePieces (h : IsGroup source L) :
    ArePieces ('(' :: '?' :: ':' :: source ++ [')']) L where
  unmarked same := by cases same
  run {r} fit tail _ := by
    obtain ⟨piece, n, fits, texts, run⟩ := h r fit tail
    refine ⟨[piece], n, fun m mem => List.mem_singleton.mp mem ▸ fits, ?_, ?_⟩
    · exact (mul_one _).trans texts
    · rw [List.append_assoc]
      exact run

/-- A mark behind a group repeats it. -/
theorem repeated (h : IsGroup source L) {mark : Char} {least : Nat} {greatest : Option Nat}
    (ordered : ∀ g ∈ greatest, least ≤ g)
    (marks : ∀ (r : Reading) cs, r.step? mark cs = r.repeatLast? least greatest cs) :
    ArePieces ('(' :: '?' :: ':' :: source ++ [')', mark]) (between L least greatest) where
  unmarked same := by cases same
  run {r} fit tail unmarked := by
    obtain ⟨piece, n, fits, texts, run⟩ := h r fit (mark :: tail)
    have plain : readLazy tail = (false, tail) := by
      cases tail with
      | nil => rfl
      | cons c cs =>
        refine readLazy.eq_2 _ fun rest same => unmarked ?_
        rw [same]
        rfl
    have step : Reading.step? ⟨r.inner.push piece, r.outer, n⟩ mark tail = _ :=
      (marks _ tail).trans (Reading.repeatLast?_cons rfl least greatest tail)
    rw [plain] at step
    refine ⟨[⟨piece.pattern.repeated least greatest false, piece.depth + 1⟩], n,
      fun m mem => List.mem_singleton.mp mem ▸ fit_repeated fits ordered false, ?_, ?_⟩
    · exact (mul_one _).trans ((texts_repeated fits ordered false).trans
        (congrArg (between · least greatest) texts))
    · rw [List.append_assoc]
      exact run.trans (Reading.run_step step (Nat.le_refl _))

end IsGroup

/-- The branches of a group are read one after another. -/
theorem exists_run_branches {sources : List (List Char)} {Ls : List ByteLanguage}
    (h : List.Forall₂ ArePieces sources Ls) (some : sources ≠ []) {r : Reading} (fit : r.Fit)
    (none : r.inner.pieces = []) (tail : List Char) :
    ∃ q : Reading, q.Fit ∧ q.outer = r.outer ∧
      q.inner.content.pattern.texts = r.inner.strings.1.sum + Ls.sum ∧
      r.run (['|'].intercalate sources ++ ')' :: tail) = q.run (')' :: tail) := by
  induction h generalizing r with
  | nil => exact absurd rfl some
  | @cons source L sources Ls first others ih =>
    have read (tail : List Char) (unmarked : tail.head? ≠ '?') :
        ∃ q : Reading, q.Fit ∧ q.outer = r.outer ∧ q.inner.strings.1 = r.inner.strings.1 ∧
          q.inner.strings.2.reverse.prod = L ∧ r.run (source ++ tail) = q.run tail := by
      obtain ⟨pieces, n, fits, texts, run⟩ := first.run fit tail unmarked
      rw [none, List.append_nil] at run
      exact ⟨⟨{ r.inner with pieces }, r.outer, n⟩, ⟨⟨fit.inner.branches, fits⟩, fit.outer⟩, rfl,
        rfl, texts, run⟩
    cases others with
    | nil =>
      obtain ⟨q, fit', outer, branches, texts, run⟩ :=
        read (')' :: tail) (fun same => by cases same)
      refine ⟨q, fit', outer, ?_, ?_⟩
      · rw [Group.texts_content fit'.inner, texts, branches, List.sum_singleton, add_comm]
      · rw [List.intercalate_singleton, run]
    | @cons source' L' sources Ls second others =>
      obtain ⟨q, fit', outer, branches, texts, run⟩ :=
        read ('|' :: (['|'].intercalate (source' :: sources) ++ ')' :: tail))
          (fun same => by cases same)
      have fit'' : Reading.Fit { q with inner := q.inner.nextBranch } :=
        ⟨fit'.inner.nextBranch, fit'.outer⟩
      obtain ⟨q', fit'', outer', texts', run'⟩ := ih (List.cons_ne_nil _ _) fit'' rfl
      refine ⟨q', fit'', outer'.trans outer, ?_, ?_⟩
      · rw [texts', Group.strings_nextBranch, List.sum_cons, texts, branches,
          List.sum_cons (a := L), add_comm L, add_assoc]
      · rw [List.intercalate_cons_cons, List.append_assoc, List.append_assoc,
          List.singleton_append, run, Reading.run_step rfl (Nat.le_refl _), run']

theorem isGroup_branches {sources : List (List Char)} {Ls : List ByteLanguage}
    (h : List.Forall₂ ArePieces sources Ls) (some : sources ≠ []) :
    IsGroup (['|'].intercalate sources) Ls.sum := by
  intro r fit tail
  have fit' : Reading.Fit ⟨.start none, r.inner :: r.outer, r.numbered⟩ :=
    ⟨Group.fit_start none, List.forall_mem_cons.mpr ⟨fit.inner, fit.outer⟩⟩
  obtain ⟨q, fit'', outer, texts, run⟩ := exists_run_branches h some fit' rfl tail
  refine ⟨q.inner.close, q.numbered, fit''.inner.close, ?_, ?_⟩
  · rw [Group.texts_close, texts]
    exact zero_add _
  · rw [List.cons_append, List.cons_append, List.cons_append, Reading.run_open, run,
      Reading.run_close outer]

theorem ArePieces.isGroup (h : ArePieces source L) : IsGroup source L := by
  have alone := isGroup_branches (.cons h .nil) (List.cons_ne_nil _ _)
  rwa [List.intercalate_singleton, List.sum_singleton] at alone

/-- A pattern that can be read by itself is a group in parentheses. -/
theorem isGroup_of_read? {source : String} {p : Pattern} (h : read? source = some p) :
    IsGroup source.toList p.texts :=
  fun _ fit tail => exists_run_of_read? h fit tail

/-- What is read as pieces makes the whole of a pattern as well. -/
theorem ArePieces.texts_of_read? {source : String} {p : Pattern}
    (h : ArePieces source.toList L) (read : read? source = some p) : p.texts = L := by
  obtain ⟨pieces, n, fits, texts, run⟩ := h.run Reading.fit_start [] (by decide)
  have fit : Group.Fit { Group.start none with pieces := pieces ++ [] } :=
    ⟨(Group.fit_start none).branches, by rwa [List.append_nil]⟩
  rw [List.append_nil, Reading.run] at run
  have whole : Reading.start.run source.toList =
      some { Group.start none with pieces := pieces ++ [] : Group }.content := run
  rw [read?, whole] at read
  dsimp only at read
  split at read
  · cases read
    refine (Group.texts_content fit).trans ((add_zero _).trans ?_)
    rw [← texts, Group.strings, List.append_nil]
  · cases read

end Glr.Pattern

namespace Glr.PatternSyntax

open Regex (just)

/-- What the patterns of a syntax match, and how a pattern is put together from others. -/
structure Meaning [PatternSyntax] where
  /-- The strings that a pattern matches. -/
  texts : String → ByteLanguage
  /-- Whether a source, wherever it stands in a branch of a pattern, is read there as a part of that
  branch that matches given strings. -/
  Part : String → ByteLanguage → Prop
  /-- Whether a source in parentheses is read as a group that matches given strings: the parentheses
  around it are partners. -/
  Inside : String → ByteLanguage → Prop
  blank : Part "" 1
  append {source source' : String} {L M : ByteLanguage} (first : Part source L)
    (second : Part source' M) : Part (source ++ source') (L * M)
  escaped (text : String) : Part (Regex.escapePattern text) (just (Text.ofString text).toList)
  group {source : String} {L : ByteLanguage} (inside : Inside source L) :
    Part ("(?:" ++ source ++ ")") L
  many {source : String} {L : ByteLanguage} (inside : Inside source L) :
    Part ("(?:" ++ source ++ ")*") (KStar.kstar L)
  some {source : String} {L : ByteLanguage} (inside : Inside source L) :
    Part ("(?:" ++ source ++ ")+") (L * KStar.kstar L)
  optional {source : String} {L : ByteLanguage} (inside : Inside source L) :
    Part ("(?:" ++ source ++ ")?") (1 + L)
  branches {sources : List String} {Ls : List ByteLanguage} (parts : List.Forall₂ Part sources Ls)
    (any : sources ≠ []) : Inside ("|".intercalate sources) Ls.sum
  /-- What takes a parenthesis behind it for its own is a comment, so a pattern without the mark of
  one is read in parentheses as it is by itself. -/
  closed {source : String} (valid : (shortest? source).isSome = true)
    (quiet : '#' ∉ source.toList) : Inside source (texts source)
  /-- A pattern that is a part as a whole matches what the part does. -/
  whole {source : String} {L : ByteLanguage} (part : Part source L)
    (valid : (shortest? source).isSome = true) : texts source = L

theorem Meaning.inside_of_part [PatternSyntax] (M : Meaning) {source : String} {L : ByteLanguage}
    (part : M.Part source L) : M.Inside source L := by
  have alone := M.branches (.cons part .nil) (List.cons_ne_nil _ _)
  rwa [String.intercalate_singleton, List.sum_singleton] at alone

/-- The strings of a pattern that can be read here. -/
def readableTexts (source : String) : ByteLanguage :=
  {w | ∃ p, Pattern.read? source = some p ∧ w ∈ p.texts}

theorem readableTexts_eq {source : String} {p : Pattern} (h : Pattern.read? source = some p) :
    readableTexts source = p.texts := by
  ext w
  refine ⟨fun ⟨q, read, mem⟩ => ?_, fun mem => ⟨p, h, mem⟩⟩
  obtain rfl := Option.some.inj (h.symm.trans read)
  exact mem

theorem valid_iff {source : String} :
    (shortest? source).isSome = true ↔ ∃ p, Pattern.read? source = some p := by
  rw [← Option.isSome_iff_exists]
  exact Eq.congr_left Option.isSome_map

/-- What the patterns that can be read here match. -/
def readableMeaning : Meaning where
  texts := readableTexts
  Part source := Pattern.ArePieces source.toList
  Inside source := Pattern.IsGroup source.toList
  blank := .nil
  append first second := String.toList_append ▸ first.append second
  escaped text := Utf8.toList_ofString text ▸ Pattern.arePieces_escapePattern text
  group inside := by
    rw [String.toList_append, String.toList_append]
    exact inside.arePieces
  many inside := by
    rw [String.toList_append, String.toList_append, ← Regex.between_any]
    exact inside.repeated (fun g hg => by cases hg) fun _ _ => rfl
  some inside := by
    rw [String.toList_append, String.toList_append, ← Regex.between_some]
    exact inside.repeated (fun g hg => by cases hg) fun _ _ => rfl
  optional inside := by
    rw [String.toList_append, String.toList_append, ← Regex.between_optional]
    exact inside.repeated (fun g _ => Nat.zero_le g) fun _ _ => rfl
  branches parts any := by
    rw [String.toList_intercalate]
    exact Pattern.isGroup_branches (List.forall₂_map_left_iff.mpr parts) (by simpa using any)
  closed valid _ := by
    obtain ⟨p, read⟩ := valid_iff.mp valid
    rw [readableTexts_eq read]
    exact Pattern.isGroup_of_read? read
  whole part valid := by
    obtain ⟨p, read⟩ := valid_iff.mp valid
    rw [readableTexts_eq read]
    exact part.texts_of_read? read

end Glr.PatternSyntax
