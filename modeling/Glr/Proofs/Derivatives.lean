import Mathlib.Computability.Language
import Glr.Lexer.Matcher
import Glr.Proofs.Characters

/-!
# What expressions match

`Regex.texts` is the set of byte strings that an expression denotes, said with the operations on
languages and nothing of how a match is found.  A run of an expression takes one byte after another
off these strings: `mem_derivatives` says that the derivatives of a byte denote what is left of the
strings that start with it, no less and no more, and `nullable_iff` that an expression which may
stop denotes the empty string.

Both hold of expressions in which no repetition has a least count above its greatest and no
character is read in full and still waited for (`Sound`), and the derivatives of those are such
again.  The count matters: a repetition of which one text is left to read is taken for done,
whatever its least count.
-/

/-- A set of byte strings. -/
abbrev ByteLanguage := Language UInt8

namespace Glr

namespace Regex

/-! ## What begins with a byte -/

/-- What is left of the strings of a language that begin with a byte. -/
def after (b : UInt8) (L : ByteLanguage) : ByteLanguage := {w | b :: w ∈ L}

variable {b : UInt8} {w : List UInt8} {L M : ByteLanguage}

@[simp] theorem mem_after : w ∈ after b L ↔ b :: w ∈ L := Iff.rfl

theorem nil_mem_mul : [] ∈ L * M ↔ [] ∈ L ∧ [] ∈ M := by
  rw [Language.mem_mul]
  constructor
  · rintro ⟨u, hu, v, hv, none⟩
    obtain ⟨rfl, rfl⟩ := List.append_eq_nil_iff.mp none
    exact ⟨hu, hv⟩
  · rintro ⟨left, right⟩
    exact ⟨[], left, [], right, rfl⟩

/-- The first byte of a product is one of its first factor, unless that is empty. -/
theorem mem_after_mul :
    w ∈ after b (L * M) ↔ w ∈ after b L * M ∨ [] ∈ L ∧ w ∈ after b M := by
  rw [mem_after, Language.mem_mul, Language.mem_mul]
  constructor
  · rintro ⟨u, hu, v, hv, whole⟩
    cases u with
    | nil =>
      obtain rfl : v = b :: w := whole
      exact Or.inr ⟨hu, hv⟩
    | cons c u =>
      obtain ⟨rfl, rfl⟩ := List.cons.inj whole
      exact Or.inl ⟨u, hu, v, hv, rfl⟩
  · rintro (⟨u, hu, v, hv, rfl⟩ | ⟨none, hw⟩)
    · exact ⟨b :: u, hu, v, hv, rfl⟩
    · exact ⟨[], none, b :: w, hw, rfl⟩

theorem mem_pow_of_nil_mem (none : [] ∈ L) {k m : Nat} (le : k ≤ m) (h : w ∈ L ^ k) :
    w ∈ L ^ m := by
  obtain ⟨j, rfl⟩ := Nat.exists_eq_add_of_le le
  rw [pow_add, Language.mem_mul]
  refine ⟨w, h, [], ?_, List.append_nil w⟩
  clear h le
  induction j with
  | zero => exact Language.nil_mem_one
  | succ j ih =>
    rw [pow_succ]
    exact nil_mem_mul.mpr ⟨ih, none⟩

/-- Of several texts the first that is not empty holds the first byte; those before it may as well
come last. -/
theorem mem_after_pow {k : Nat} : w ∈ after b (L ^ (k + 1)) ↔ w ∈ after b L * L ^ k := by
  induction k generalizing w with
  | zero => rw [Nat.zero_add, pow_one, pow_zero, mul_one]
  | succ k ih =>
    rw [pow_succ', mem_after_mul, ih]
    constructor
    · rintro (h | ⟨none, h⟩)
      · exact h
      · obtain ⟨u, hu, v, hv, rfl⟩ := Language.mem_mul.mp h
        exact Language.mem_mul.mpr ⟨u, hu, v, mem_pow_of_nil_mem none (Nat.le_succ k) hv, rfl⟩
    · exact Or.inl

/-! ## Repetitions -/

/-- Texts of a language one after another, so many of them. -/
def between (L : ByteLanguage) (least : Nat) (greatest : Option Nat) : ByteLanguage :=
  {w | ∃ k, least ≤ k ∧ (∀ g ∈ greatest, k ≤ g) ∧ w ∈ L ^ k}

variable {least : Nat} {greatest : Option Nat}

theorem mem_between :
    w ∈ between L least greatest ↔ ∃ k, least ≤ k ∧ (∀ g ∈ greatest, k ≤ g) ∧ w ∈ L ^ k :=
  Iff.rfl

theorem between_exactly (L : ByteLanguage) (k : Nat) : between L k (some k) = L ^ k := by
  ext w
  rw [mem_between]
  constructor
  · rintro ⟨j, above, below, h⟩
    rwa [Nat.le_antisymm (below k rfl) above] at h
  · exact fun h => ⟨k, Nat.le_refl k, fun g hg => Option.some.inj hg ▸ Nat.le_refl k, h⟩

theorem between_any (L : ByteLanguage) : between L 0 none = KStar.kstar L := by
  ext w
  rw [mem_between, Language.kstar_eq_iSup_pow, Language.mem_iSup]
  refine ⟨fun ⟨k, _, _, h⟩ => ⟨k, h⟩, fun ⟨k, h⟩ => ⟨k, Nat.zero_le k, fun g hg => ?_, h⟩⟩
  cases hg

theorem between_some (L : ByteLanguage) : between L 1 none = L * KStar.kstar L := by
  ext w
  rw [← between_any, mem_between, Language.mem_mul]
  constructor
  · rintro ⟨k, above, below, h⟩
    obtain ⟨k, rfl⟩ := Nat.exists_eq_add_of_le' above
    rw [pow_succ'] at h
    obtain ⟨u, hu, v, hv, rfl⟩ := Language.mem_mul.mp h
    exact ⟨u, hu, v, ⟨k, Nat.zero_le k, fun g hg => (by cases hg), hv⟩, rfl⟩
  · rintro ⟨u, hu, v, ⟨k, -, -, hv⟩, rfl⟩
    refine ⟨k + 1, Nat.le_add_left 1 k, fun g hg => (by cases hg), ?_⟩
    rw [pow_succ']
    exact Language.mem_mul.mpr ⟨u, hu, v, hv, rfl⟩

theorem between_optional (L : ByteLanguage) : between L 0 (some 1) = 1 + L := by
  ext w
  rw [mem_between, Language.mem_add]
  constructor
  · rintro ⟨k, -, below, h⟩
    rcases Nat.le_one_iff_eq_zero_or_eq_one.mp (below 1 rfl) with rfl | rfl
    · exact Or.inl h
    · exact Or.inr (pow_one L ▸ h)
  · rintro (h | h)
    · exact ⟨0, Nat.le_refl 0, fun g _ => Nat.zero_le g, h⟩
    · exact ⟨1, Nat.zero_le 1, fun g hg => Nat.le_of_eq (Option.some.inj hg),
        (pow_one L).symm ▸ h⟩

/-- A repetition of the empty text is the empty text. -/
theorem between_one (ordered : ∀ g ∈ greatest, least ≤ g) : between 1 least greatest = 1 := by
  ext w
  rw [mem_between]
  simp only [one_pow]
  exact ⟨fun ⟨_, _, _, h⟩ => h, fun h => ⟨least, Nat.le_refl _, ordered, h⟩⟩

theorem nil_mem_between (ordered : ∀ g ∈ greatest, least ≤ g) :
    [] ∈ between L least greatest ↔ least = 0 ∨ [] ∈ L := by
  constructor
  · rintro ⟨k, above, -, h⟩
    cases k with
    | zero => exact Or.inl (Nat.le_zero.mp above)
    | succ k =>
      rw [pow_succ'] at h
      exact Or.inr (nil_mem_mul.mp h).1
  · rintro (rfl | none)
    · exact ⟨0, Nat.le_refl _, ordered, Language.nil_mem_one⟩
    · exact ⟨least, Nat.le_refl _, ordered,
        mem_pow_of_nil_mem none (Nat.zero_le _) Language.nil_mem_one⟩

/-- A repetition that begins with a byte has one text fewer to come behind the one that holds the
byte. -/
theorem mem_after_between :
    w ∈ after b (between L least greatest) ↔
      greatest ≠ some 0 ∧ w ∈ after b L * between L (least - 1) (greatest.map (· - 1)) := by
  constructor
  · rintro ⟨k, above, below, h⟩
    cases k with
    | zero => exact absurd h (List.cons_ne_nil b w)
    | succ k =>
      obtain ⟨u, hu, v, hv, rfl⟩ := Language.mem_mul.mp (mem_after_pow.mp h)
      refine ⟨?_, Language.mem_mul.mpr ⟨u, hu, v, ⟨k, by omega, fun g hg => ?_, hv⟩, rfl⟩⟩
      · rintro rfl
        exact absurd (below 0 rfl) (Nat.not_succ_le_zero k)
      · obtain ⟨g, here, rfl⟩ := Option.map_eq_some_iff.mp hg
        have := below g here
        omega
  · rintro ⟨more, h⟩
    obtain ⟨u, hu, v, ⟨k, above, below, hv⟩, rfl⟩ := Language.mem_mul.mp h
    refine ⟨k + 1, by omega, fun g hg => ?_,
      mem_after_pow.mpr (Language.mem_mul.mpr ⟨u, hu, v, hv, rfl⟩)⟩
    have := below (g - 1) (Option.map_eq_some_iff.mpr ⟨g, hg, rfl⟩)
    have : g ≠ 0 := by
      rintro rfl
      exact more hg
    omega

/-! ## Expressions -/

/-- The strings that an expression denotes. -/
def texts : Regex → ByteLanguage
  | blank => 1
  | chars s => {w | ∃ c : Char, s.contains c.toNat = true ∧ w = String.utf8EncodeChar c}
  | tail s l => {w | ∃ code, s.contains code = true ∧ l.Completes w code}
  | seq a b => a.texts * b.texts
  | alt a b => a.texts + b.texts
  | repeated a least greatest => between a.texts least greatest

/-- Whether every repetition can be done and every character that is waited for lacks a byte. -/
def Sound : Regex → Prop
  | blank => True
  | chars _ => True
  | tail _ l => l.owed ≠ 0
  | seq a b => a.Sound ∧ b.Sound
  | alt a b => a.Sound ∧ b.Sound
  | repeated a least greatest => a.Sound ∧ ∀ g ∈ greatest, least ≤ g

/-- The strings that some of the expressions denotes. -/
def textsOfAny (rs : List Regex) : ByteLanguage := {w | ∃ r ∈ rs, w ∈ r.texts}

@[simp] theorem mem_textsOfAny {rs : List Regex} :
    w ∈ textsOfAny rs ↔ ∃ r ∈ rs, w ∈ r.texts := Iff.rfl

theorem nullable_iff {r : Regex} (sound : r.Sound) : r.nullable = true ↔ [] ∈ r.texts := by
  induction r with
  | blank => exact ⟨fun _ => Language.nil_mem_one, fun _ => rfl⟩
  | chars s =>
    refine ⟨fun h => Bool.noConfusion h, ?_⟩
    rintro ⟨c, -, none⟩
    exact absurd none.symm String.utf8EncodeChar_ne_nil
  | tail s l =>
    refine ⟨fun h => Bool.noConfusion h, ?_⟩
    rintro ⟨code, -, owed, -⟩
    exact absurd owed sound
  | seq a b iha ihb =>
    rw [nullable, Bool.and_eq_true, iha sound.1, ihb sound.2]
    exact nil_mem_mul.symm
  | alt a b iha ihb =>
    rw [nullable, Bool.or_eq_true, iha sound.1, ihb sound.2]
    rfl
  | repeated a least greatest ih =>
    rw [nullable, Bool.or_eq_true, decide_eq_true_eq, ih sound.1]
    exact (nil_mem_between sound.2).symm

/-! ## Derivatives -/

theorem texts_andThen (a b : Regex) : (a.andThen b).texts = a.texts * b.texts := by
  unfold andThen
  split
  · exact (one_mul _).symm
  · exact (mul_one _).symm
  · rfl

theorem sound_andThen {a b : Regex} (ha : a.Sound) (hb : b.Sound) : (a.andThen b).Sound := by
  unfold andThen
  split
  · exact hb
  · exact ha
  · exact ⟨ha, hb⟩

theorem texts_lessOne {r : Regex} (ordered : ∀ g ∈ greatest, least ≤ g) :
    (lessOne r least greatest).texts
      = between r.texts (least - 1) (greatest.map (· - 1)) := by
  rw [lessOne]
  split
  · next last =>
    obtain ⟨g, rfl, one⟩ := (Option.any_eq_true _ _).mp last
    rw [decide_eq_true_eq] at one
    have := ordered g rfl
    rw [Option.map_some, show g - 1 = 0 by omega, show least - 1 = 0 by omega, between_exactly]
    rfl
  · rfl

theorem sound_lessOne {r : Regex} (sound : r.Sound) (ordered : ∀ g ∈ greatest, least ≤ g) :
    (lessOne r least greatest).Sound := by
  rw [lessOne]
  split
  · exact True.intro
  · refine ⟨sound, fun g hg => ?_⟩
    obtain ⟨g, here, rfl⟩ := Option.map_eq_some_iff.mp hg
    exact Nat.sub_le_sub_right (ordered g here) 1

theorem meets_iff {s : CharSet} {low high : Nat} :
    s.meets low high = true ↔ ∃ code, low ≤ code ∧ code ≤ high ∧ s.contains code = true := by
  simp only [CharSet.meets, CharSet.contains, List.any_eq_true, decide_eq_true_eq,
    Bool.and_eq_true]
  constructor
  · rintro ⟨⟨first, last⟩, mem, meet⟩
    exact ⟨max first low, by omega, by omega, ⟨first, last⟩, mem, by omega, by omega⟩
  · rintro ⟨code, above, below, ⟨first, last⟩, mem, lower, upper⟩
    exact ⟨⟨first, last⟩, mem, by dsimp only at *; omega⟩

/-- What follows a lead is what completes a character of the set. -/
theorem mem_afterLead {s : CharSet} {l : Utf8.Lead} :
    w ∈ textsOfAny (afterLead s l) ↔ ∃ code, s.contains code = true ∧ l.Completes w code := by
  rw [mem_textsOfAny, afterLead]
  constructor
  · rintro ⟨r, mem, h⟩
    split at mem
    · next meets =>
      rw [List.mem_singleton] at mem
      subst mem
      split at h
      · next owed =>
        obtain rfl : w = [] := h
        obtain ⟨code, above, below, held⟩ := meets_iff.mp meets
        rw [Utf8.Lead.least, if_pos owed] at above
        rw [Utf8.Lead.greatest, if_pos owed] at below
        exact ⟨code, held, owed, Nat.le_antisymm above below⟩
      · exact h
    · exact absurd mem List.not_mem_nil
  · rintro ⟨code, held, completes⟩
    obtain ⟨above, below⟩ := completes.bounds
    rw [if_pos (meets_iff.mpr ⟨code, above, below, held⟩)]
    refine ⟨_, List.mem_singleton_self _, ?_⟩
    split
    · next owed =>
      obtain ⟨owed', low, high, bits⟩ := l
      obtain rfl : owed' = 0 := owed
      exact (Utf8.Lead.completes_zero.mp completes).1
    · exact ⟨code, held, completes⟩

theorem sound_afterLead {s : CharSet} {l : Utf8.Lead} : ∀ r ∈ afterLead s l, r.Sound := by
  intro r mem
  rw [afterLead] at mem
  split at mem
  · rw [List.mem_singleton] at mem
    subst mem
    split
    · exact True.intro
    · assumption
  · exact absurd mem List.not_mem_nil

theorem mem_textsOfAny_andThen {rs : List Regex} {r : Regex} :
    w ∈ textsOfAny (rs.map (andThen · r)) ↔ w ∈ textsOfAny rs * r.texts := by
  rw [mem_textsOfAny, Language.mem_mul]
  constructor
  · rintro ⟨_, mem, h⟩
    obtain ⟨a, ha, rfl⟩ := List.mem_map.mp mem
    rw [texts_andThen] at h
    obtain ⟨u, hu, v, hv, rfl⟩ := Language.mem_mul.mp h
    exact ⟨u, ⟨a, ha, hu⟩, v, hv, rfl⟩
  · rintro ⟨u, ⟨a, ha, hu⟩, v, hv, rfl⟩
    refine ⟨_, List.mem_map_of_mem ha, ?_⟩
    rw [texts_andThen]
    exact Language.mem_mul.mpr ⟨u, hu, v, hv, rfl⟩

theorem mem_textsOfAny_append {rs rs' : List Regex} :
    w ∈ textsOfAny (rs ++ rs') ↔ w ∈ textsOfAny rs ∨ w ∈ textsOfAny rs' := by
  simp only [mem_textsOfAny, List.mem_append, or_and_right, exists_or]

theorem mem_derivatives_chars {s : CharSet} :
    w ∈ textsOfAny (derivatives b (chars s)) ↔ b :: w ∈ (chars s).texts := by
  have begins : b :: w ∈ (chars s).texts ↔
      ∃ l, Utf8.Lead.ofByte? b = some l ∧
        ∃ code, s.contains code = true ∧ l.Completes w code := by
    constructor
    · rintro ⟨c, held, bytes⟩
      obtain ⟨l, lead, completes⟩ := Utf8.encodeChar_eq_cons_iff.mp bytes.symm
      exact ⟨l, lead, c.toNat, held, completes⟩
    · rintro ⟨l, lead, code, held, completes⟩
      obtain ⟨c, rfl, bytes⟩ := Utf8.encodeChar_of_completes lead completes
      exact ⟨c, held, bytes.symm⟩
  rw [begins, derivatives]
  split
  · next l lead =>
    rw [mem_afterLead]
    refine ⟨fun h => ⟨l, lead, h⟩, fun ⟨_, same, h⟩ => ?_⟩
    rw [lead] at same
    cases same
    exact h
  · next none =>
    refine ⟨fun ⟨_, mem, _⟩ => absurd mem List.not_mem_nil, fun ⟨_, same, _⟩ => ?_⟩
    rw [none] at same
    cases same

theorem mem_derivatives_tail {s : CharSet} {l : Utf8.Lead} :
    w ∈ textsOfAny (derivatives b (tail s l)) ↔ b :: w ∈ (tail s l).texts := by
  rw [derivatives]
  split
  · next next stepped =>
    rw [mem_afterLead]
    constructor
    · rintro ⟨code, held, completes⟩
      exact ⟨code, held, next, stepped, completes⟩
    · rintro ⟨code, held, _, same, completes⟩
      rw [stepped] at same
      cases same
      exact ⟨code, held, completes⟩
  · next none =>
    refine ⟨fun ⟨_, mem, _⟩ => absurd mem List.not_mem_nil, ?_⟩
    rintro ⟨code, held, _, same, completes⟩
    rw [none] at same
    cases same

/-- The derivatives of a byte denote what is left of the strings that begin with it. -/
theorem mem_derivatives {r : Regex} (sound : r.Sound) :
    w ∈ textsOfAny (derivatives b r) ↔ b :: w ∈ r.texts := by
  induction r generalizing w with
  | blank =>
    refine ⟨fun ⟨_, mem, _⟩ => absurd mem List.not_mem_nil, fun h => ?_⟩
    exact absurd h (List.cons_ne_nil b w)
  | chars s => exact mem_derivatives_chars
  | tail s l => exact mem_derivatives_tail
  | seq a c iha ihc =>
    have first : w ∈ textsOfAny ((derivatives b a).map (andThen · c)) ↔
        w ∈ after b a.texts * c.texts := by
      rw [mem_textsOfAny_andThen]
      simp only [Language.mem_mul, iha sound.1, mem_after]
    have whole := mem_after_mul (b := b) (w := w) (L := a.texts) (M := c.texts)
    rw [← nullable_iff sound.1, ← first, mem_after (L := c.texts), ← ihc sound.2] at whole
    rw [derivatives]
    refine Iff.trans ?_ whole.symm
    split
    · next null =>
      rw [mem_textsOfAny_append]
      simp only [null, true_and]
    · next full =>
      simp only [full, false_and, or_false, Bool.false_eq_true]
  | alt a c iha ihc =>
    rw [derivatives, mem_textsOfAny_append, iha sound.1, ihc sound.2]
    rfl
  | repeated a least greatest ih =>
    have whole : w ∈ after b (between a.texts least greatest) ↔ greatest ≠ some 0 ∧
        w ∈ after b a.texts * between a.texts (least - 1) (greatest.map (· - 1)) :=
      mem_after_between
    rw [derivatives]
    refine Iff.trans ?_ whole.symm
    split
    · next none =>
      exact ⟨fun ⟨_, mem, _⟩ => absurd mem List.not_mem_nil, fun h => absurd none h.1⟩
    · next more =>
      rw [mem_textsOfAny_andThen, texts_lessOne sound.2]
      simp only [Language.mem_mul, ih sound.1, mem_after, ne_eq, more, not_false_eq_true,
        true_and]

theorem sound_derivatives {r : Regex} (sound : r.Sound) : ∀ d ∈ derivatives b r, d.Sound := by
  induction r with
  | blank => exact fun d mem => absurd mem List.not_mem_nil
  | chars s =>
    intro d mem
    rw [derivatives] at mem
    split at mem
    · exact sound_afterLead d mem
    · exact absurd mem List.not_mem_nil
  | tail s l =>
    intro d mem
    rw [derivatives] at mem
    split at mem
    · exact sound_afterLead d mem
    · exact absurd mem List.not_mem_nil
  | seq a c iha ihc =>
    have first : ∀ d ∈ (derivatives b a).map (andThen · c), d.Sound := by
      intro d mem
      obtain ⟨e, he, rfl⟩ := List.mem_map.mp mem
      exact sound_andThen (iha sound.1 e he) sound.2
    intro d mem
    rw [derivatives] at mem
    split at mem
    · exact (List.mem_append.mp mem).elim (first d) (ihc sound.2 d)
    · exact first d mem
  | alt a c iha ihc =>
    intro d mem
    rw [derivatives] at mem
    exact (List.mem_append.mp mem).elim (iha sound.1 d) (ihc sound.2 d)
  | repeated a least greatest ih =>
    intro d mem
    rw [derivatives] at mem
    split at mem
    · exact absurd mem List.not_mem_nil
    · obtain ⟨e, he, rfl⟩ := List.mem_map.mp mem
      exact sound_andThen (ih sound.1 e he) (sound_lessOne sound.1 sound.2)

/-! ## Steps of several expressions -/

theorem mem_insertNew {rs : List Regex} {r x : Regex} : x ∈ insertNew rs r ↔ x ∈ rs ∨ x = r := by
  rw [insertNew]
  split
  · next held =>
    rw [List.contains_iff_mem] at held
    exact ⟨Or.inl, fun h => h.elim id (fun same => same ▸ held)⟩
  · rw [List.mem_append, List.mem_singleton]

theorem mem_foldl_insertNew {new rs : List Regex} {x : Regex} :
    x ∈ new.foldl insertNew rs ↔ x ∈ rs ∨ x ∈ new := by
  induction new generalizing rs with
  | nil => simp
  | cons r new ih => rw [List.foldl_cons, ih, mem_insertNew, List.mem_cons, or_assoc]

theorem mem_advance {rs : List Regex} {x : Regex} :
    x ∈ advance b rs ↔ ∃ r ∈ rs, x ∈ derivatives b r := by
  have general (out : List Regex) :
      x ∈ rs.foldl (fun out r => (derivatives b r).foldl insertNew out) out ↔
        x ∈ out ∨ ∃ r ∈ rs, x ∈ derivatives b r := by
    induction rs generalizing out with
    | nil => simp
    | cons r rs ih => rw [List.foldl_cons, ih, mem_foldl_insertNew]; simp [or_assoc]
  rw [advance, general]
  simp

theorem sound_advance {rs : List Regex} (sound : ∀ r ∈ rs, r.Sound) :
    ∀ r ∈ advance b rs, r.Sound := by
  intro x mem
  obtain ⟨r, hr, hx⟩ := mem_advance.mp mem
  exact sound_derivatives (sound r hr) x hx

theorem mem_textsOfAny_advance {rs : List Regex} (sound : ∀ r ∈ rs, r.Sound) :
    w ∈ textsOfAny (advance b rs) ↔ b :: w ∈ textsOfAny rs := by
  simp only [mem_textsOfAny, mem_advance]
  constructor
  · rintro ⟨x, ⟨r, hr, hx⟩, h⟩
    exact ⟨r, hr, (mem_derivatives (sound r hr)).mp ⟨x, hx, h⟩⟩
  · rintro ⟨r, hr, h⟩
    obtain ⟨x, hx, h⟩ := (mem_derivatives (sound r hr)).mpr h
    exact ⟨x, ⟨r, hr, hx⟩, h⟩

end Regex

end Glr
