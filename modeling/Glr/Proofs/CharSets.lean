import Mathlib.Data.List.Basic
import Glr.Regex.CharSet

/-!
# Sets of characters as sets

A set is written as ranges, and its functions work on the ranges.  They do what they say of the
characters as long as no range runs backwards; and since some of them take the end of a range for a
character, no end may be a surrogate.  Ranges that are so (`Proper`) stay so.

Nothing is asked of the order of the ranges: a union holds what either set holds wherever the ranges
stand.
-/

namespace Glr

namespace CharSet

/-- Whether no range of the set runs backwards or has a surrogate for an end. -/
def Proper (s : CharSet) : Prop :=
  ∀ r ∈ s.ranges, r.1 ≤ r.2 ∧ r.1.isValidChar ∧ ¬(0xD800 ≤ r.2 ∧ r.2 ≤ 0xDFFF)

variable {s t : CharSet} {code : Nat}

theorem contains_iff : s.contains code = true ↔ ∃ r ∈ s.ranges, r.1 ≤ code ∧ code ≤ r.2 := by
  simp [contains, List.any_eq_true]

theorem proper_none : none.Proper := fun _ mem => absurd mem List.not_mem_nil

theorem proper_range {a b : Char} (le : a ≤ b) : (range a b).Proper := by
  intro r mem
  obtain rfl := List.mem_singleton.mp mem
  refine ⟨le, a.valid, ?_⟩
  have : b.toNat.isValidChar := b.valid
  dsimp only
  omega

theorem proper_single (c : Char) : (single c).Proper := proper_range (Nat.le_refl c.toNat)

theorem contains_single {c d : Char} : (single c).contains d.toNat = true ↔ d = c := by
  simp only [contains_iff, single, List.mem_singleton, exists_eq_left]
  exact ⟨fun h => Char.toNat_inj.mp (Nat.le_antisymm h.2 h.1), fun h => by simp [h]⟩

/-! ## Unions -/

theorem mem_insertRange {first last : Nat} (le : first ≤ last) {ranges : List (Nat × Nat)}
    (ordered : ∀ r ∈ ranges, r.1 ≤ r.2) :
    (∃ r ∈ insertRange first last ranges, r.1 ≤ code ∧ code ≤ r.2) ↔
      (first ≤ code ∧ code ≤ last) ∨ ∃ r ∈ ranges, r.1 ≤ code ∧ code ≤ r.2 := by
  induction ranges generalizing first last with
  | nil => simp [insertRange]
  | cons r ranges ih =>
    obtain ⟨f, l⟩ := r
    have own : f ≤ l := ordered (f, l) List.mem_cons_self
    have others : ∀ r ∈ ranges, r.1 ≤ r.2 := fun r hr => ordered r (List.mem_cons_of_mem _ hr)
    rw [insertRange]
    split
    · simp
    · split
      · simp only [List.exists_mem_cons_iff, ih le others]
        exact or_left_comm
      · rw [ih (by omega) others, List.exists_mem_cons_iff, ← or_assoc]
        refine or_congr_left ?_
        dsimp only
        omega

theorem forall_mem_insertRange {P : Nat → Prop} {Q : Nat → Prop} {first last : Nat}
    (lower : P first) (upper : Q last) {ranges : List (Nat × Nat)}
    (all : ∀ r ∈ ranges, P r.1 ∧ Q r.2) :
    ∀ r ∈ insertRange first last ranges, P r.1 ∧ Q r.2 := by
  induction ranges generalizing first last with
  | nil =>
    intro r mem
    obtain rfl := List.mem_singleton.mp mem
    exact ⟨lower, upper⟩
  | cons r ranges ih =>
    obtain ⟨f, l⟩ := r
    have own : P f ∧ Q l := all (f, l) List.mem_cons_self
    have others : ∀ r ∈ ranges, P r.1 ∧ Q r.2 := fun r hr => all r (List.mem_cons_of_mem _ hr)
    rw [insertRange]
    split
    · exact List.forall_mem_cons.mpr ⟨⟨lower, upper⟩, List.forall_mem_cons.mpr ⟨own, others⟩⟩
    · split
      · exact List.forall_mem_cons.mpr ⟨own, ih lower upper others⟩
      · refine ih ?_ ?_ others
        · rcases Nat.le_total first f with h | h
          · rwa [Nat.min_eq_left h]
          · rw [Nat.min_eq_right h]
            exact own.1
        · rcases Nat.le_total last l with h | h
          · rw [Nat.max_eq_right h]
            exact own.2
          · rwa [Nat.max_eq_left h]

theorem le_of_mem_insertRange {first last : Nat} (le : first ≤ last) {ranges : List (Nat × Nat)}
    (ordered : ∀ r ∈ ranges, r.1 ≤ r.2) : ∀ r ∈ insertRange first last ranges, r.1 ≤ r.2 := by
  induction ranges generalizing first last with
  | nil =>
    intro r mem
    obtain rfl := List.mem_singleton.mp mem
    exact le
  | cons r ranges ih =>
    obtain ⟨f, l⟩ := r
    have own : f ≤ l := ordered (f, l) List.mem_cons_self
    have others : ∀ r ∈ ranges, r.1 ≤ r.2 := fun r hr => ordered r (List.mem_cons_of_mem _ hr)
    rw [insertRange]
    split
    · exact List.forall_mem_cons.mpr ⟨le, ordered⟩
    · split
      · exact List.forall_mem_cons.mpr ⟨own, ih le others⟩
      · exact ih (by omega) others

theorem proper_insertRange {first last : Nat} (range : (⟨[(first, last)]⟩ : CharSet).Proper)
    (proper : s.Proper) : (⟨insertRange first last s.ranges⟩ : CharSet).Proper := by
  obtain ⟨le, valid, plain⟩ := range (first, last) (List.mem_singleton_self _)
  intro r mem
  exact ⟨le_of_mem_insertRange le (fun r hr => (proper r hr).1) r mem,
    forall_mem_insertRange (Q := fun l => ¬(0xD800 ≤ l ∧ l ≤ 0xDFFF)) valid plain
      (fun r hr => (proper r hr).2) r mem⟩

/-- A union holds what either set holds, and keeps proper ranges. -/
theorem union_spec (hs : s.Proper) (ht : t.Proper) :
    (s.union t).Proper ∧ ∀ code, (s.union t).contains code = true ↔
      s.contains code = true ∨ t.contains code = true := by
  have general : ∀ (ranges more : List (Nat × Nat)), (⟨ranges⟩ : CharSet).Proper →
      (⟨more⟩ : CharSet).Proper →
      (union ⟨ranges⟩ ⟨more⟩).Proper ∧ ∀ code, (union ⟨ranges⟩ ⟨more⟩).contains code = true ↔
        (⟨ranges⟩ : CharSet).contains code = true ∨ (⟨more⟩ : CharSet).contains code = true := by
    intro ranges more
    induction more generalizing ranges with
    | nil => exact fun h _ => ⟨h, fun code => by simp [union, contains]⟩
    | cons r more ih =>
      intro before all
      obtain ⟨first, last⟩ := r
      obtain ⟨own, rest⟩ := List.forall_mem_cons.mp all
      have proper := proper_insertRange (s := ⟨ranges⟩)
        (fun r hr => List.mem_singleton.mp hr ▸ own) before
      have step : union ⟨ranges⟩ ⟨(first, last) :: more⟩ =
          union ⟨insertRange first last ranges⟩ ⟨more⟩ := rfl
      obtain ⟨kept, held⟩ := ih _ proper rest
      rw [step]
      refine ⟨kept, fun code => (held code).trans ?_⟩
      rw [contains_iff, mem_insertRange own.1 (fun r hr => (before r hr).1), contains_iff,
        contains_iff, contains_iff, List.exists_mem_cons_iff]
      exact (or_congr_left or_comm).trans or_assoc
  exact general s.ranges t.ranges hs ht

theorem proper_union (hs : s.Proper) (ht : t.Proper) : (s.union t).Proper := (union_spec hs ht).1

theorem contains_union (hs : s.Proper) (ht : t.Proper) :
    (s.union t).contains code = true ↔ s.contains code = true ∨ t.contains code = true :=
  (union_spec hs ht).2 code

theorem unionOf_spec {sets : List CharSet} (proper : ∀ s ∈ sets, s.Proper) :
    (unionOf sets).Proper ∧ ∀ code, (unionOf sets).contains code = true ↔
      ∃ s ∈ sets, s.contains code = true := by
  have general : ∀ (sets : List CharSet) (start : CharSet), start.Proper →
      (∀ s ∈ sets, s.Proper) → (sets.foldl union start).Proper ∧
        ∀ code, (sets.foldl union start).contains code = true ↔
          start.contains code = true ∨ ∃ s ∈ sets, s.contains code = true := by
    intro sets
    induction sets with
    | nil => exact fun start h _ => ⟨h, fun code => by simp⟩
    | cons s sets ih =>
      intro start before all
      obtain ⟨own, rest⟩ := List.forall_mem_cons.mp all
      obtain ⟨kept, held⟩ := ih _ (proper_union before own) rest
      refine ⟨kept, fun code => (held code).trans ?_⟩
      rw [contains_union before own, List.exists_mem_cons_iff, or_assoc]
  obtain ⟨kept, held⟩ := general sets none proper_none proper
  exact ⟨kept, fun code => (held code).trans (by simp [contains, none])⟩

/-! ## Complements -/

theorem isValidChar_codeBefore {code : Nat} (valid : code.isValidChar) :
    (codeBefore code).isValidChar := by
  rw [codeBefore]
  split <;> omega

theorem plain_codeAfter {code : Nat} (plain : ¬(0xD800 ≤ code ∧ code ≤ 0xDFFF)) :
    ¬(0xD800 ≤ codeAfter code ∧ codeAfter code ≤ 0xDFFF) := by
  rw [codeAfter]
  split <;> omega

theorem proper_gapsFrom {low : Nat} (plain : ¬(0xD800 ≤ low ∧ low ≤ 0xDFFF))
    {ranges : List (Nat × Nat)} (proper : (⟨ranges⟩ : CharSet).Proper) :
    (⟨gapsFrom low ranges⟩ : CharSet).Proper := by
  induction ranges generalizing low with
  | nil =>
    intro r mem
    dsimp only [gapsFrom] at mem
    split at mem
    · next le =>
      obtain rfl := List.mem_singleton.mp mem
      rw [lastCode] at le ⊢
      refine ⟨le, ?_, ?_⟩ <;> dsimp only <;> omega
    · exact absurd mem List.not_mem_nil
  | cons r ranges ih =>
    obtain ⟨first, last⟩ := r
    obtain ⟨own, rest⟩ := List.forall_mem_cons.mp proper
    refine List.forall_mem_cons.mpr ⟨?_, ih (plain_codeAfter own.2.2) rest⟩
    have before := isValidChar_codeBefore own.2.1
    generalize codeBefore first = before at *
    refine ⟨?_, ?_, ?_⟩ <;> dsimp only <;> omega

theorem proper_complement (proper : s.Proper) : s.complement.Proper := by
  rw [complement]
  split
  · next last rest shape =>
    rw [Proper, shape] at proper
    obtain ⟨own, rest⟩ := List.forall_mem_cons.mp proper
    exact proper_gapsFrom (plain_codeAfter own.2.2) rest
  · exact proper_gapsFrom (by omega) proper

theorem proper_space : space.Proper := by
  intro r mem
  simp only [space, List.mem_cons, List.not_mem_nil, or_false] at mem
  rcases mem with rfl | rfl | rfl | rfl | rfl | rfl | rfl | rfl | rfl | rfl <;> decide

theorem proper_notNewline : notNewline.Proper := proper_complement (proper_single '\n')

end CharSet

end Glr
