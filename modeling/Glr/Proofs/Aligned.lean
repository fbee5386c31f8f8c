import Glr.Proofs.Arisen
import Glr.Proofs.Boundaries
import Glr.Proofs.Laying
import Glr.Proofs.Places
import Glr.Proofs.Scanning

/-!
# Trees that respect characters

From a place between two characters a token leads to another such place, in a text that is valid.
A pattern matches characters as a whole (`Pattern.whole_texts`), a scanner moves over one after
another as long as it has nothing but its cursor to move with (`Cursor.Aligned.walk`), and what
nothing matches is skipped by the widths that leading bytes announce.

So a parse without an old tree cuts a valid text between its characters only (`lays_aligned`), and
every node of its tree has a text (`Parser.aligned_parse`).  An old tree may be of another text, and
an edit may cut a character in two.
-/

namespace Glr

/-! ## Patterns -/

namespace Regex

/-- All strings of a language are valid. -/
def Whole (L : ByteLanguage) : Prop := ∀ w ∈ L, Utf8.Valid w

variable {L M : ByteLanguage} {Ls : List ByteLanguage}

theorem whole_one : Whole 1 := by
  rintro w rfl
  exact Utf8.valid_nil

theorem Whole.mul (hL : Whole L) (hM : Whole M) : Whole (L * M) := by
  intro w hw
  obtain ⟨u, hu, v, hv, rfl⟩ := Language.mem_mul.mp hw
  exact (hL u hu).append (hM v hv)

theorem whole_prod (h : ∀ L ∈ Ls, Whole L) : Whole Ls.prod := by
  induction Ls with
  | nil => exact whole_one
  | cons L Ls ih =>
    obtain ⟨first, rest⟩ := List.forall_mem_cons.mp h
    rw [List.prod_cons]
    exact first.mul (ih rest)

theorem whole_sum (h : ∀ L ∈ Ls, Whole L) : Whole Ls.sum := by
  induction Ls with
  | nil => exact fun w hw => absurd hw (Language.notMem_zero w)
  | cons L Ls ih =>
    obtain ⟨first, rest⟩ := List.forall_mem_cons.mp h
    rw [List.sum_cons]
    exact fun w hw => hw.elim (first w) (ih rest w)

theorem Whole.between {least : Nat} {greatest : Option Nat} (h : Whole L) :
    Whole (between L least greatest) := by
  rintro w ⟨k, -, -, hw⟩
  rw [← List.prod_replicate] at hw
  exact whole_prod (fun M hM => (List.eq_of_mem_replicate hM).symm ▸ h) w hw

end Regex

namespace Pattern

open Regex (Whole whole_one whole_prod whole_sum)

mutual

/-- A pattern matches characters as a whole. -/
theorem whole_texts : ∀ p : Pattern, Whole p.texts
  | blank => whole_one
  | text cs => by
    rw [texts_text]
    rintro w rfl
    exact ⟨cs, rfl⟩
  | oneOf s => by
    rintro w ⟨c, -, rfl⟩
    exact Utf8.valid_encodeChar c
  | counted body _ _ _ => (whole_texts body).between
  | group _ body => whole_texts body
  | seq parts => by
    rw [texts_seq]
    exact whole_prod (whole_each parts)
  | alt branches => by
    rw [texts_alt]
    exact whole_sum (whole_each branches)

theorem whole_each : ∀ ps : List Pattern, ∀ L ∈ ps.map texts, Whole L
  | [] => fun _ hL => absurd hL List.not_mem_nil
  | p :: ps => by
    rw [List.map_cons, List.forall_mem_cons]
    exact ⟨whole_texts p, whole_each ps⟩

end

end Pattern

/-! ## Cursors -/

namespace Cursor

/-- A later cursor, after using it in any of the ways that there are. -/
abbrev Walk : Cursor → Cursor → Prop :=
  Relation.ReflTransGen fun c d => ∃ g : Glance, (g.run c).2 = d

/-- A cursor that is between characters, as the end is that it has marked. -/
structure Aligned (text : Text) (c : Cursor) : Prop where
  same : c.text = text
  position : text.Boundary c.position
  marked : ∀ m ∈ c.marked, text.Boundary m

variable {text : Text} {c d : Cursor}

theorem aligned_atOffset {offset : Nat} (here : text.Boundary offset) :
    (atOffset text offset).Aligned text := ⟨rfl, here, fun _ h => nomatch h⟩

theorem Aligned.tokenEnd (h : c.Aligned text) : text.Boundary c.tokenEnd := by
  rw [Cursor.tokenEnd]
  cases marked : c.marked with
  | none => exact h.position
  | some m => exact h.marked m marked

/-- However a cursor is used, it stays between characters. -/
theorem Aligned.run (g : Glance) (h : c.Aligned text) : (g.run c).2.Aligned text := by
  obtain ⟨rfl, position, marked⟩ := h
  cases g with
  | byte => exact ⟨rfl, position, marked⟩
  | char =>
    cases here : c.text[c.position]? with
    | none =>
      rw [Glance.run, lookaheadChar_at_end here]
      exact ⟨rfl, position, marked⟩
    | some byte =>
      rw [Glance.run, lookaheadChar_of_byte here]
      exact ⟨rfl, position, marked⟩
  | atEnd => exact ⟨rfl, position, marked⟩
  | advance =>
    cases here : c.text[c.position]? with
    | none =>
      rw [Glance.run, advance_at_end here]
      exact ⟨rfl, position, marked⟩
    | some byte =>
      obtain ⟨inside, rfl⟩ := Array.getElem?_eq_some_iff.mp here
      have next := position.next inside
      rw [Glance.run, advance_of_byte here]
      refine ⟨rfl, ?_, marked⟩
      show c.text.Boundary (min (c.position + Utf8.width c.text[c.position]) c.text.size)
      rwa [Nat.min_eq_left next.inside]
  | markEnd => exact ⟨rfl, position, fun m hm => Option.some.inj hm ▸ position⟩

theorem Aligned.walk (h : c.Aligned text) (walk : c.Walk d) : d.Aligned text := by
  induction walk with
  | refl => exact h
  | tail _ step ih =>
    obtain ⟨g, rfl⟩ := step
    exact ih.run g

end Cursor

theorem Procedure.Plays.walk {α : Type} {p : Procedure α} {s : p.State} {c d : Cursor} {a : α}
    (h : p.Plays s c a d) : c.Walk d := by
  induction h with
  | answer => exact .refl
  | think _ _ ih => exact ih
  | ask _ _ ih => exact .head ⟨_, rfl⟩ ih

/-- A scanner that moves with its cursor only: the cursor that it leaves is one that the ways to use
the cursor lead to.  What it learns of and what it keeps in mind may be anything. -/
def Scanner.Walks (s : Scanner) : Prop :=
  ∀ text offset wanted, offset ≤ text.size →
    (Cursor.atOffset text offset).Walk (s.scan (.atOffset text offset) wanted).cursor

/-- A scanner that learns from the cursor only moves with it only. -/
theorem Scanner.Observes.walks {s : Scanner} (observes : s.Observes) : s.Walks := by
  intro text offset wanted inside
  obtain ⟨f, ⟨p, plays⟩, same⟩ := observes wanted
  have walk := (plays (.atOffset text offset)).walk
  rwa [← same text offset inside] at walk

/-! ## Tokens -/

namespace Language

variable {l : Language} {text : Text} {offset : Nat}

theorem Usable.matcher_eq (usable : l.Usable) :
    ∃ nameOf, Matcher.ofTokens l.tables.tokens nameOf = .ok l.matcher := by
  obtain ⟨loaded, scanner, isLoaded, rfl⟩ := usable
  exact ⟨_, isLoaded.matcher_eq⟩

section Usable

variable (usable : l.Usable)

include usable

theorem boundary_candidate {valid : SymbolSet} {m : TokenMatch} (here : text.Boundary offset)
    (found : l.candidate? offset valid (l.matcher.scan text offset) = some m) :
    text.Boundary m.stop := by
  obtain ⟨nameOf, read⟩ := usable.matcher_eq
  obtain ⟨n, hn, stop, -⟩ := choose_mem found
  obtain ⟨le_stop, stop_le, d, -, -, -, p, -, held⟩ :=
    (Matcher.mem_scan_iff_of_ofTokens read here.inside).mp (List.mem_filter.mp hn).1
  rw [← stop]
  exact here.behind_valid le_stop stop_le (p.whole_texts _ held)

omit usable in
theorem boundary_skipUnknown (here : text.Boundary offset) (examined : Nat) :
    text.Boundary (l.skipUnknown text offset examined).1 := by
  have step {offset : Nat} (here : text.Boundary offset) (h : offset < text.size) :
      text.Boundary (min (offset + Utf8.width text[offset]) text.size) := by
    have next := here.next h
    rwa [Nat.min_eq_left next.inside]
  fun_induction skipUnknown l text offset examined with
  | case1 offset examined h => exact step here h
  | case2 offset examined h => exact step here h
  | case3 offset examined h _ _ _ _ _ ih => exact ih (step here h)
  | case4 => exact here

theorem boundary_patternToken (here : text.Boundary offset) (examined : Nat) (valid : SymbolSet)
    (mode : Nat) : text.Boundary (l.patternToken text offset examined valid mode).span.stop := by
  rw [patternToken]
  split
  · exact here
  · dsimp only
    split
    · next m found => exact boundary_candidate usable here found
    · split
      · next m found => exact boundary_candidate usable here found
      · exact boundary_skipUnknown here _

/-- A token that starts between two characters ends between two characters. -/
theorem boundary_nextTokenIn (walks : ∀ s, l.scanner = some s → s.Walks)
    (here : text.Boundary offset) (valid : SymbolSet) (mode : Nat) :
    text.Boundary (l.nextTokenIn text offset valid mode).span.stop := by
  cases consulted : l.consultScanner text offset valid with
  | none =>
    rw [nextTokenIn_of_none here.inside consulted]
    exact boundary_patternToken usable here _ valid mode
  | some report =>
    by_cases taken : ∃ s, report.symbol = some s ∧ (l.isExternal s && valid.contains s) = true
    · obtain ⟨s, symbol, taken⟩ := taken
      rw [nextTokenIn_of_taken here.inside consulted symbol taken]
      obtain ⟨scanner, own, -, rfl⟩ := consultScanner_eq_some.mp consulted
      rw [Nat.min_eq_left here.inside]
      have stop := ((Cursor.aligned_atOffset here).walk
        (walks scanner own text offset valid here.inside)).tokenEnd
      generalize (scanner.scan (.atOffset text offset) valid).cursor.tokenEnd = reached at stop ⊢
      show text.Boundary (min (max reached offset) text.size)
      -- An end that is set back before the start is taken for the start.
      rcases Nat.le_total reached offset with back | forward
      · rwa [Nat.max_eq_right back, Nat.min_eq_left here.inside]
      · rwa [Nat.max_eq_left forward, Nat.min_eq_left stop.inside]
    · rw [nextTokenIn_of_declined here.inside consulted fun s symbol h => taken ⟨s, symbol, h⟩]
      exact boundary_patternToken usable here _ valid mode

end Usable

end Language

/-! ## Trees -/

/-- A parse without an old tree cuts a valid text between its characters only. -/
theorem lays_aligned {task : ParseTask} (usable : task.language.Usable)
    (walks : ∀ s, task.language.scanner = some s → s.Walks) (valid : Utf8.Valid task.text.toList)
    (small : task.text.size ≤ Size.largest) :
    Lays task none task.text.Boundary fun _ _ => True where
  start := Text.boundary_zero valid
  inside here := here.inside
  empty _ _ _ _ _ _ := trivial
  token ahead here _ _ _ := by
    refine ⟨trivial, ?_⟩
    cases ahead with
    | reused held =>
      obtain ⟨root, none, -⟩ := held
      cases none
    | lexed place valid mode => exact Language.boundary_nextTokenIn usable walks here valid mode
  rest {o} here := by
    rw [Green.laid_of_leaf rfl, Repair.length_errorLeaf, Size.ofText, Array.size_extract,
      Nat.min_self, Nat.min_eq_left (by omega), Nat.add_sub_cancel' here.inside]
    exact ⟨here, trivial, Text.boundary_size valid⟩
  old _ none := nomatch none

/-- A tree that respects the characters of a text: every leaf starts and ends between two of them,
and every node has a text. -/
structure Tree.Aligned (t : Tree) (text : Text) : Prop where
  leaves : ∀ n ∈ t.leaves, text.Boundary n.span.start ∧ text.Boundary n.span.stop
  texts : ∀ n : Node, n.Of t.language t.root → (n.text? text).isSome = true

theorem Tree.aligned {t : Tree} {text : Text}
    (laid : t.root.Laid text.Boundary (fun _ _ => True) 0) : t.Aligned text := by
  have bounds (n : Node) (of : n.Of t.language t.root) :
      text.Boundary n.span.start ∧ text.Boundary n.span.stop := by
    have here := laid.of_holds of.within.holds
    rw [Nat.zero_add] at here
    exact ⟨here.start, here.stop⟩
  refine ⟨fun n leaf => bounds n (Node.mem_leavesOf_iff.mp leaf).1, fun n of => ?_⟩
  obtain ⟨start, stop⟩ := bounds n of
  have forward : n.span.start ≤ n.span.stop := Nat.le_add_right _ _
  rw [Node.text?, if_pos stop.inside, Utf8.isSome_decode?_iff]
  exact start.valid_between stop forward

namespace Parser

variable {p : Parser} {text : Text}

/-- A parse of a valid text without an old tree, whatever becomes of it, respects the characters of
the text if it covers the text. -/
theorem aligned_parse (usable : p.language.Usable)
    (walks : ∀ s, p.language.scanner = some s → s.Walks)
    (valid : (Utf8.decode? text).isSome = true) (small : text.size ≤ Size.largest)
    (interrupts : Interrupts)
    (whole : (p.parse text none interrupts).value.tree.textLength = text.size) :
    (p.parse text none interrupts).value.tree.Aligned text :=
  have lays : Lays (p.task text) (p.oldRoot none) text.Boundary fun _ _ => True :=
    lays_aligned usable walks (Utf8.isSome_decode?_iff.mp valid) small
  Tree.aligned (p.laid_parse lays interrupts whole)

/-- In `(é)é` a scanner finds a remark, and the letter behind it is skipped. -/
theorem remark_aligned :
    let p : Parser := ⟨Language.remarkPatterns.withScanner Language.remarkScript.toScanner, {}⟩
    let text : Text := #[40, 195, 169, 41, 195, 169]
    let t := (p.parse text none .never).value.tree
    t.Aligned text ∧ t.leaves.map (·.span) = [⟨0, 4⟩, ⟨4, 6⟩] ∧
      t.leaves.map (·.text? text) = [some "(é)", some "é"] := by
  intro p text t
  have usable : p.language.Usable := ⟨Language.remarkPatterns, some _,
    Or.inl ⟨Language.remarkTables, Language.remarkTables_load⟩, rfl⟩
  have walks : ∀ s, p.language.scanner = some s → s.Walks := by
    rintro s ⟨⟩
    exact Language.remarkScript.observes.walks
  exact ⟨aligned_parse usable walks (by decide +kernel) (by decide) .never (by decide +kernel),
    by decide +kernel, by decide +kernel⟩

end Parser

end Glr
