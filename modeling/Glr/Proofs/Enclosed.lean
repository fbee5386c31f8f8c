import Glr.Proofs.ReadPatterns

/-!
# Patterns in parentheses

A pattern that can be read by itself can be put in parentheses wherever a piece may stand, and is
read there as the same strings.  Two things could go wrong.  What the reader takes might depend on
what comes behind.  It does not where that is a closing parenthesis: nothing the reader takes runs
on over one, and nothing that is left open at the end of a pattern by itself is closed by it
(`Enclosed`).  And the groups around might get in the way.  A reading among others keeps in step
with the reading by itself (`Within`): it has the same groups open inside the ones around, and in
each of them branches and pieces of the same strings, though its groups have other numbers.  Every
step keeps the two so, and at the end the parenthesis closes what is read (`exists_run_of_read?`).
-/

namespace Glr.Pattern

/-! ## What is read by itself -/

/-- Whether a reader takes what it takes in front of a closing parenthesis as well. -/
def Enclosed {α : Type} (read : List Char → Option (α × List Char)) : Prop :=
  ∀ {cs rest : List Char} {a : α}, read cs = some (a, rest) → ∀ tail,
    read (cs ++ ')' :: tail) = some (a, rest ++ ')' :: tail)

theorem enclosed_readHexFixed (n code : Nat) : Enclosed (readHexFixed n code) := by
  induction n generalizing code with
  | zero =>
    intro cs rest a h tail
    rw [readHexFixed] at h ⊢
    cases h
    rfl
  | succ n ih =>
    intro cs rest a h tail
    cases cs with
    | nil => cases h
    | cons c cs =>
      rw [readHexFixed] at h
      obtain ⟨d, digit, h⟩ := Option.bind_eq_some_iff.mp h
      rw [List.cons_append, readHexFixed, digit]
      exact ih _ h tail

theorem enclosed_readHexBraced (seen : Bool) (code : Nat) : Enclosed (readHexBraced seen code) := by
  intro cs rest a h tail
  fun_induction readHexBraced seen code cs with
  | case1 => cases h
  | case2 code cs =>
    cases h
    rfl
  | case3 => cases h
  | case4 seen code c cs plain ih =>
    obtain ⟨d, digit, h⟩ := Option.bind_eq_some_iff.mp h
    rw [List.cons_append, readHexBraced.eq_3 _ _ _ _ plain, digit]
    exact ih d h

/-- A text does not start with anything but a closing parenthesis that it does not start with by
itself. -/
theorem not_starts_enclosed {c : Char} {cs : List Char} (plain : ∀ rest, cs = c :: rest → False)
    (other : c ≠ ')') (tail : List Char) : ∀ rest, cs ++ ')' :: tail = c :: rest → False := by
  intro rest same
  cases cs with
  | nil => exact other (List.cons.inj same).1.symm
  | cons d cs => exact plain cs (by rw [(List.cons.inj same).1])

theorem enclosed_readCode (count : Nat) : Enclosed (readCode count) := by
  intro cs rest e h tail
  unfold readCode at h
  split at h
  · obtain ⟨⟨code, left⟩, read, h⟩ := Option.bind_eq_some_iff.mp h
    obtain ⟨c, char, h⟩ := Option.bind_eq_some_iff.mp h
    cases h
    refine Option.bind_eq_some_iff.mpr ⟨_, enclosed_readHexBraced _ _ read tail, ?_⟩
    exact Option.bind_eq_some_iff.mpr ⟨c, char, rfl⟩
  · next plain =>
    obtain ⟨⟨code, left⟩, read, h⟩ := Option.bind_eq_some_iff.mp h
    obtain ⟨c, char, h⟩ := Option.bind_eq_some_iff.mp h
    cases h
    rw [readCode.eq_2]
    · refine Option.bind_eq_some_iff.mpr ⟨_, enclosed_readHexFixed _ _ read tail, ?_⟩
      exact Option.bind_eq_some_iff.mpr ⟨c, char, rfl⟩
    · exact not_starts_enclosed plain (by decide) tail

theorem enclosed_readEscape : Enclosed readEscape := by
  intro cs rest e h tail
  unfold readEscape at h
  split at h
  case h_1 => cases h
  case h_10 => exact enclosed_readCode 2 h tail
  case h_11 => exact enclosed_readCode 4 h tail
  case h_12 => exact enclosed_readCode 8 h tail
  case h_13 =>
    split at h
    · next escapable =>
      cases h
      simp only [List.cons_append, readEscape, *]
      rfl
    · cases h
  all_goals
    cases h
    rfl

theorem enclosed_readClassItem : Enclosed readClassItem := by
  intro cs rest e h tail
  unfold readClassItem at h
  split at h
  · cases h
  · exact enclosed_readEscape h tail
  · next c cs plain =>
    cases h
    rw [List.cons_append, readClassItem.eq_3 _ _ plain]

theorem enclosed_readClassRange : Enclosed readClassRange := by
  intro cs rest s h tail
  rw [readClassRange] at h ⊢
  obtain ⟨⟨first, left⟩, item, h⟩ := Option.bind_eq_some_iff.mp h
  refine Option.bind_eq_some_iff.mpr ⟨_, enclosed_readClassItem item tail, ?_⟩
  dsimp only at h ⊢
  split at h
  · cases h
    rfl
  · cases h
    rfl
  · next range _ notBracket notDash =>
    obtain ⟨⟨last, left⟩, item', h⟩ := Option.bind_eq_some_iff.mp h
    split
    · next same =>
      exact absurd (List.cons.inj same).2
        (not_starts_enclosed (fun rest same => notBracket rest (same ▸ rfl)) (by decide) tail _)
    · next same =>
      exact absurd (List.cons.inj same).2
        (not_starts_enclosed (fun rest same => notDash rest (same ▸ rfl)) (by decide) tail _)
    · next same =>
      obtain rfl := (List.cons.inj same).2
      refine Option.bind_eq_some_iff.mpr ⟨_, enclosed_readClassItem item' tail, ?_⟩
      dsimp only at h ⊢
      split at h
      · split at h
        · next le =>
          cases h
          exact if_pos le
        · cases h
      · cases h
    · next other => exact absurd rfl (other _)
  · next other =>
    cases h
    split
    · next same => exact absurd same (not_starts_enclosed other (by decide) tail _)
    · next same => exact absurd same (not_starts_enclosed other (by decide) tail _)
    · next same => exact absurd same (not_starts_enclosed other (by decide) tail _)
    · rfl

theorem readLeadingDashes_enclosed (f : ClassFrame) (cs tail : List Char) :
    readLeadingDashes f (cs ++ ')' :: tail) =
      ((readLeadingDashes f cs).1, (readLeadingDashes f cs).2 ++ ')' :: tail) := by
  fun_induction readLeadingDashes f cs with
  | case1 f cs ih =>
    rw [List.cons_append, readLeadingDashes]
    exact ih
  | case2 f cs other =>
    rw [readLeadingDashes.eq_2]
    exact not_starts_enclosed other (by decide) tail

theorem openClass_enclosed (cs tail : List Char) :
    openClass (cs ++ ')' :: tail) = ((openClass cs).1, (openClass cs).2 ++ ')' :: tail) := by
  fun_cases openClass cs with
  | case1 negated cs' caret f left zero opened =>
    have dashes := readLeadingDashes_enclosed ⟨negated, .none, 0, 0⟩ cs' tail
    rw [opened] at dashes
    split at caret
    · cases caret
      simp only [openClass, List.cons_append, dashes, zero]
    · next other =>
      cases caret
      have := not_starts_enclosed other (by decide) tail
      simp only [openClass, List.cons_append, dashes, zero]
  | case2 negated cs' caret f left other' opened =>
    have dashes := readLeadingDashes_enclosed ⟨negated, .none, 0, 0⟩ cs' tail
    rw [opened] at dashes
    have shape : ∀ rest, f.items = 0 → left ++ ')' :: tail = ']' :: rest → False :=
      fun rest zero => not_starts_enclosed (fun rest => other' rest zero) (by decide) tail rest
    split at caret
    · cases caret
      simp only [openClass, List.cons_append, dashes]
    · next other =>
      cases caret
      have := not_starts_enclosed other (by decide) tail
      simp only [openClass, dashes]

theorem isClassOperation_enclosed (c : Char) (cs tail : List Char) :
    isClassOperation c (cs ++ ')' :: tail) = isClassOperation c cs := by
  cases cs with
  | nil => simp [isClassOperation]
  | cons d cs => rfl

theorem readClassFrom_enclosed {f : ClassFrame} {outer : List ClassFrame} {cs rest : List Char}
    {s : CharSet} {depth : Nat} (h : readClassFrom f outer cs = some (s, depth, rest))
    (tail : List Char) :
    readClassFrom f outer (cs ++ ')' :: tail) = some (s, depth, rest ++ ')' :: tail) := by
  have longer {xs ys : List Char} (le : xs.length ≤ ys.length) :
      (xs ++ ')' :: tail).length ≤ (ys ++ ')' :: tail).length := by
    rw [List.length_append, List.length_append]
    omega
  fun_induction readClassFrom f outer cs with
  | case1 => cases h
  | case2 f cs =>
    cases h
    rw [List.cons_append, readClassFrom, if_pos rfl]
  | case3 f cs o os ih =>
    rw [List.cons_append, readClassFrom, if_pos rfl]
    exact ih h
  | case4 => cases h
  | case5 f outer cs inner left opened le _ plain ih =>
    have opened' := openClass_enclosed cs tail
    rw [opened] at opened'
    rw [List.cons_append, readClassFrom.eq_def]
    dsimp only
    rw [if_neg (by decide), isClassOperation_enclosed, if_neg plain, if_pos rfl, opened']
    dsimp only
    rw [dif_pos (longer le)]
    exact ih h
  | case6 => cases h
  | case7 f outer c cs notClose plain notOpen s left item le ih =>
    have item' := enclosed_readClassRange item tail
    rw [List.cons_append] at item' ⊢
    rw [readClassFrom.eq_def]
    dsimp only
    rw [if_neg notClose, isClassOperation_enclosed, if_neg plain, if_neg notOpen, item']
    dsimp only
    rw [dif_pos (longer le)]
    exact ih h
  | case8 => cases h
  | case9 => cases h

theorem takeWhile_enclosed {p : Char → Bool} (stops : p ')' = false) (cs tail : List Char) :
    (cs ++ ')' :: tail).takeWhile p = cs.takeWhile p := by
  rw [List.takeWhile_append, List.takeWhile_cons_of_neg (Bool.eq_false_iff.mp stops),
    List.append_nil]
  split
  · next whole => exact ((List.takeWhile_prefix p).eq_of_length whole).symm
  · rfl

theorem dropWhile_enclosed {p : Char → Bool} (stops : p ')' = false) (cs tail : List Char) :
    (cs ++ ')' :: tail).dropWhile p = cs.dropWhile p ++ ')' :: tail := by
  rw [List.dropWhile_append, List.dropWhile_cons_of_neg (Bool.eq_false_iff.mp stops)]
  split
  · next none => rw [List.isEmpty_iff.mp none, List.nil_append]
  · rfl

theorem enclosed_readCount : Enclosed readCount := by
  intro cs rest n h tail
  have blank : CharSet.space.contains (')' : Char).toNat = false := by decide
  have digit : (')' : Char).isDigit = false := by decide
  rw [readCount] at h ⊢
  rw [dropWhile_enclosed blank, takeWhile_enclosed digit, dropWhile_enclosed digit,
    dropWhile_enclosed blank]
  split at h
  · cases h
  · next fits =>
    cases h
    exact if_neg fits

theorem readBounds_enclosed {cs rest : List Char} {least : Nat} {greatest : Option Nat}
    (h : readBounds cs = some (least, greatest, rest)) (tail : List Char) :
    readBounds (cs ++ ')' :: tail) = some (least, greatest, rest ++ ')' :: tail) := by
  rw [readBounds] at h ⊢
  obtain ⟨⟨n, left⟩, count, h⟩ := Option.bind_eq_some_iff.mp h
  refine Option.bind_eq_some_iff.mpr ⟨_, enclosed_readCount count tail, ?_⟩
  dsimp only at h ⊢
  split at h
  · cases h
    rfl
  · cases h
    rfl
  · next notBrace =>
    obtain ⟨⟨m, left⟩, count', h⟩ := Option.bind_eq_some_iff.mp h
    split
    · next same => cases same
    · next same =>
      exact absurd (List.cons.inj same).2
        (not_starts_enclosed (fun rest same => notBrace rest (same ▸ rfl)) (by decide) tail _)
    · next same =>
      obtain rfl := (List.cons.inj same).2
      refine Option.bind_eq_some_iff.mpr ⟨_, enclosed_readCount count' tail, ?_⟩
      dsimp only at h ⊢
      split at h
      · split at h
        · next le =>
          cases h
          exact if_pos le
        · cases h
      · cases h
    · next other => exact absurd rfl (other _)
  · cases h

theorem readLazy_enclosed (cs tail : List Char) :
    readLazy (cs ++ ')' :: tail) = ((readLazy cs).1, (readLazy cs).2 ++ ')' :: tail) := by
  fun_cases readLazy cs with
  | case1 cs => rfl
  | case2 cs other =>
    rw [readLazy.eq_2]
    exact not_starts_enclosed other (by decide) tail

/-! ## A reading among others -/

namespace Group

variable {g : Group}

/-- The strings of the branches and of the pieces of a group. -/
def strings (g : Group) : List ByteLanguage × List ByteLanguage :=
  (g.branches.map (·.pattern.texts), g.pieces.map (·.pattern.texts))

theorem texts_branch (g : Group) : g.branch.pattern.texts = g.strings.2.reverse.prod := by
  rw [branch, texts_concat, List.map_map, List.map_reverse]
  rfl

theorem texts_content (fit : g.Fit) :
    g.content.pattern.texts = g.strings.2.reverse.prod + g.strings.1.sum := by
  rw [content, texts_choice (fit_map_reverse fit.allBranches), List.map_map, List.map_reverse,
    List.sum_reverse, List.map_cons, List.sum_cons, Function.comp_apply, texts_branch]
  rfl

/-- The number of a group is no matter to its strings. -/
theorem texts_close (g : Group) : g.close.pattern.texts = g.content.pattern.texts := by
  rw [close]
  split
  · exact texts_group _ _
  · rfl

theorem strings_nextBranch (g : Group) :
    g.nextBranch.strings = (g.strings.2.reverse.prod :: g.strings.1, []) := by
  rw [← texts_branch]
  rfl

end Group

namespace Reading

/-- A repetition takes the latest piece. -/
theorem repeatLast?_cons {r : Reading} {p : Nested} {ps : List Nested}
    (h : r.inner.pieces = p :: ps) (least : Nat) (greatest : Option Nat) (cs : List Char) :
    r.repeatLast? least greatest cs = some ({ r with inner := { r.inner with pieces :=
      ⟨p.pattern.repeated least greatest (readLazy cs).1, p.depth + 1⟩ :: ps } },
      (readLazy cs).2) := by
  rw [repeatLast?, h]

/-- A reading has the groups of another one open, and around them given ones. -/
structure Within (around : List Group) (r q : Reading) : Prop where
  inner : q.inner.strings = r.inner.strings
  outer : ∃ own, q.outer = own ++ around ∧ own.map Group.strings = r.outer.map Group.strings

variable {around : List Group} {r r' q : Reading} {c : Char} {cs rest : List Char}

namespace Within

theorem push (within : Within around r q) {m n : Nested}
    (same : n.pattern.texts = m.pattern.texts) : Within around (r.push m) (q.push n) := by
  obtain ⟨branches, pieces⟩ := Prod.mk.inj within.inner
  exact ⟨Prod.ext branches (List.cons_eq_cons.mpr ⟨same, pieces⟩), within.outer⟩

theorem nextBranch (within : Within around r q) :
    Within around { r with inner := r.inner.nextBranch }
      { q with inner := q.inner.nextBranch } := by
  refine ⟨?_, within.outer⟩
  rw [Group.strings_nextBranch, Group.strings_nextBranch, within.inner]

theorem texts_content (within : Within around r q) (fit : r.Fit) (fit' : q.Fit) :
    q.inner.content.pattern.texts = r.inner.content.pattern.texts := by
  rw [Group.texts_content fit.inner, Group.texts_content fit'.inner, within.inner]

theorem openGroup (within : Within around r q) (h : r.openGroup cs = some (r', rest))
    (tail : List Char) :
    ∃ q', q.openGroup (cs ++ ')' :: tail) = some (q', rest ++ ')' :: tail) ∧
      Within around r' q' := by
  obtain ⟨own, outer, same⟩ := within.outer
  have opened (number number' : Option Nat) (n n' : Nat) :
      Within around ⟨.start number, r.inner :: r.outer, n⟩
        ⟨.start number', q.inner :: q.outer, n'⟩ :=
    ⟨rfl, q.inner :: own, congrArg (q.inner :: ·) outer,
      List.cons_eq_cons.mpr ⟨within.inner, same⟩⟩
  unfold Reading.openGroup at h
  split at h
  · cases h
    exact ⟨_, rfl, opened _ _ _ _⟩
  · cases h
  · next unmarked =>
    cases h
    have unmarked := not_starts_enclosed unmarked (by decide) tail
    refine ⟨⟨.start (some (q.numbered + 1)), q.inner :: q.outer, q.numbered + 1⟩, ?_,
      opened _ _ _ _⟩
    exact Reading.openGroup.eq_3 _ _ (fun rest => unmarked (':' :: rest)) unmarked

theorem closeGroup? (within : Within around r q) (fit : r.Fit) (fit' : q.Fit)
    (h : r.closeGroup? = some r') : ∃ q', q.closeGroup? = some q' ∧ Within around r' q' := by
  obtain ⟨own, outer, same⟩ := within.outer
  rw [Reading.closeGroup?] at h
  split at h
  · cases h
  · next o os mine =>
    cases h
    rw [mine] at same
    obtain ⟨o', os', rfl, first, others⟩ := List.map_eq_cons_iff.mp same
    refine ⟨⟨o'.push q.inner.close, os' ++ around, q.numbered⟩, ?_, ?_, os', rfl, others⟩
    · rw [Reading.closeGroup?, outer]
      rfl
    · obtain ⟨branches, pieces⟩ := Prod.mk.inj first
      refine Prod.ext branches (List.cons_eq_cons.mpr ⟨?_, pieces⟩)
      exact (Group.texts_close _).trans
        ((within.texts_content fit fit').trans (Group.texts_close _).symm)

theorem repeatLast? (within : Within around r q) (fit : r.Fit) (fit' : q.Fit) {least : Nat}
    {greatest : Option Nat} (ordered : ∀ g ∈ greatest, least ≤ g)
    (h : r.repeatLast? least greatest cs = some (r', rest)) (tail : List Char) :
    ∃ q', q.repeatLast? least greatest (cs ++ ')' :: tail) = some (q', rest ++ ')' :: tail) ∧
      Within around r' q' := by
  obtain ⟨branches, pieces⟩ := Prod.mk.inj within.inner
  cases mine : r.inner.pieces with
  | nil =>
    rw [Reading.repeatLast?, mine] at h
    cases h
  | cons p ps =>
    rw [repeatLast?_cons mine] at h
    cases h
    rw [mine] at pieces
    obtain ⟨p', ps', yours, first, others⟩ := List.map_eq_cons_iff.mp pieces
    have own := fit.inner.pieces p (mine ▸ List.mem_cons_self)
    have own' := fit'.inner.pieces p' (yours ▸ List.mem_cons_self)
    have step := repeatLast?_cons yours least greatest (cs ++ ')' :: tail)
    rw [readLazy_enclosed] at step
    refine ⟨_, step, ?_, within.outer⟩
    refine Prod.ext branches (List.cons_eq_cons.mpr ⟨?_, others⟩)
    exact (texts_repeated own' ordered _).trans
      ((congrArg (Regex.between · least greatest) first).trans
        (texts_repeated own ordered _).symm)

/-- A step that can be made by itself can be made among others, in front of a closing
parenthesis. -/
theorem step? (within : Within around r q) (fit : r.Fit) (fit' : q.Fit)
    (h : r.step? c cs = some (r', rest)) (tail : List Char) :
    ∃ q', q.step? c (cs ++ ')' :: tail) = some (q', rest ++ ')' :: tail) ∧
      Within around r' q' := by
  unfold Reading.step? at h
  split at h
  · exact within.openGroup h tail
  · obtain ⟨closed, hclosed, h⟩ := Option.bind_eq_some_iff.mp h
    cases h
    obtain ⟨q', hq', within'⟩ := within.closeGroup? fit fit' hclosed
    exact ⟨q', Option.bind_eq_some_iff.mpr ⟨q', hq', rfl⟩, within'⟩
  · cases h
    exact ⟨_, rfl, within.nextBranch⟩
  · dsimp only at h
    obtain ⟨⟨s, depth, left⟩, found, h⟩ := Option.bind_eq_some_iff.mp h
    cases h
    refine ⟨q.pushSet s depth, ?_, within.push rfl⟩
    unfold Reading.step?
    dsimp only
    rw [openClass_enclosed]
    exact Option.bind_eq_some_iff.mpr ⟨_, readClassFrom_enclosed found tail, rfl⟩
  · exact within.repeatLast? fit fit' (fun g hg => by cases hg) h tail
  · exact within.repeatLast? fit fit' (fun g hg => by cases hg) h tail
  · exact within.repeatLast? fit fit' (fun g _ => Nat.zero_le g) h tail
  · obtain ⟨⟨least, greatest, left⟩, bounds, h⟩ := Option.bind_eq_some_iff.mp h
    obtain ⟨q', hq', within'⟩ :=
      within.repeatLast? fit fit' (ordered_readBounds bounds) h tail
    exact ⟨q', Option.bind_eq_some_iff.mpr ⟨_, readBounds_enclosed bounds tail, hq'⟩, within'⟩
  · obtain ⟨⟨e, left⟩, escaped, h⟩ := Option.bind_eq_some_iff.mp h
    have escaped' := enclosed_readEscape escaped tail
    dsimp only at h
    split at h
    · cases h
      exact ⟨_, Option.bind_eq_some_iff.mpr ⟨_, escaped', rfl⟩, within.push rfl⟩
    · cases h
      exact ⟨_, Option.bind_eq_some_iff.mpr ⟨_, escaped', rfl⟩, within.push rfl⟩
  · cases h
    exact ⟨_, rfl, within.push rfl⟩
  · cases h
  · cases h
  · cases h
    refine ⟨q.pushChar c, ?_, within.push rfl⟩
    simp only [Reading.step?, *]

end Within

theorem run_step (h : r.step? c cs = some (r', rest)) (le : rest.length ≤ cs.length) :
    r.run (c :: cs) = r'.run rest := by
  rw [run, h]
  exact dif_pos le

theorem run_open (r : Reading) (cs : List Char) :
    r.run ('(' :: '?' :: ':' :: cs) = run ⟨.start none, r.inner :: r.outer, r.numbered⟩ cs :=
  run_step rfl (Nat.le_add_right _ 2)

theorem run_close {g : Group} {gs : List Group} (h : r.outer = g :: gs) (cs : List Char) :
    r.run (')' :: cs) = run ⟨g.push r.inner.close, gs, r.numbered⟩ cs := by
  refine run_step (Option.bind_eq_some_iff.mpr ⟨_, ?_, rfl⟩) (Nat.le_refl _)
  rw [closeGroup?, h]

/-- What can be read by itself to its end can be read among others up to a closing parenthesis. -/
theorem Within.run (within : Within around r q) (fit : r.Fit) (fit' : q.Fit) {n : Nested}
    (h : r.run cs = some n) (tail : List Char) :
    ∃ q' : Reading, q'.Fit ∧ q'.outer = around ∧
      q'.inner.content.pattern.texts = n.pattern.texts ∧
      q.run (cs ++ ')' :: tail) = q'.run (')' :: tail) := by
  fun_induction Reading.run r cs generalizing q with
  | case1 r closed =>
    cases h
    obtain ⟨own, outer, same⟩ := within.outer
    rw [List.isEmpty_iff.mp closed] at same
    obtain rfl := List.map_eq_nil_iff.mp same
    exact ⟨q, fit', outer, within.texts_content fit fit', rfl⟩
  | case2 => cases h
  | case3 r c cs r' rest step le ih =>
    obtain ⟨q', step', within'⟩ := within.step? fit fit' step tail
    obtain ⟨q'', rest'⟩ := ih within' (fit.step? step) (fit'.step? step') h
    refine ⟨q'', ?_⟩
    rw [List.cons_append, run_step step' (by rw [List.length_append, List.length_append]; omega)]
    exact rest'
  | case4 => cases h
  | case5 => cases h

end Reading

/-- A pattern in parentheses is one piece, and matches there what it matches by itself. -/
theorem exists_run_of_read? {source : String} {p : Pattern} (h : read? source = some p)
    {r : Reading} (fit : r.Fit) (tail : List Char) :
    ∃ piece n, piece.pattern.Fit ∧ piece.pattern.texts = p.texts ∧
      r.run ('(' :: '?' :: ':' :: source.toList ++ ')' :: tail) =
        Reading.run ⟨r.inner.push piece, r.outer, n⟩ tail := by
  have opened : Reading.Within (r.inner :: r.outer) .start
      ⟨.start none, r.inner :: r.outer, r.numbered⟩ := ⟨rfl, [], rfl, rfl⟩
  have fit' : Reading.Fit ⟨.start none, r.inner :: r.outer, r.numbered⟩ :=
    ⟨Group.fit_start none, List.forall_mem_cons.mpr ⟨fit.inner, fit.outer⟩⟩
  rw [read?] at h
  split at h
  · next n run =>
    split at h
    · cases h
      obtain ⟨q, fit'', outer, texts, same⟩ := opened.run Reading.fit_start fit' run tail
      refine ⟨q.inner.close, q.numbered, fit''.inner.close, ?_, ?_⟩
      · rw [Group.texts_close, texts]
      · rw [List.cons_append, List.cons_append, List.cons_append, Reading.run_open, same,
          Reading.run_close outer]
    · cases h
  · cases h

end Glr.Pattern
