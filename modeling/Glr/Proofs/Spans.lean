import Mathlib.Data.List.Basic
import Glr.Text.Span

/-!
# Ranges of bytes

What it means for ranges to be over each other, apart from each other, and side by side.  Of ranges
side by side just one holds an offset, and it is the last that does not start behind it.
-/

namespace Glr

namespace Span

variable {s t u : Span} {start stop o : Nat} {spans : List Span}

theorem contains_iff : s.contains o = true ↔ s.start ≤ o ∧ o < s.stop := by
  rw [contains, Bool.and_eq_true, decide_eq_true_eq, decide_eq_true_eq]

/-! ## One over the other -/

theorem covers_iff : s.covers t = true ↔ s.start ≤ t.start ∧ t.stop ≤ s.stop := by
  rw [covers, Bool.and_eq_true, decide_eq_true_eq, decide_eq_true_eq]

theorem covers_self (s : Span) : s.covers s = true :=
  covers_iff.mpr ⟨Nat.le_refl _, Nat.le_refl _⟩

theorem covers_trans (h : s.covers t = true) (h' : t.covers u = true) : s.covers u = true := by
  rw [covers_iff] at h h' ⊢
  omega

theorem covers_cover_left (s t : Span) : (s.cover t).covers s = true :=
  covers_iff.mpr ⟨Nat.min_le_left _ _, Nat.le_max_left _ _⟩

theorem covers_cover_right (s t : Span) : (s.cover t).covers t = true :=
  covers_iff.mpr ⟨Nat.min_le_right _ _, Nat.le_max_right _ _⟩

/-! ## Apart -/

/-- Ranges that do not overlap, and do not touch. -/
def Apart (s t : Span) : Prop := s.overlaps t = false ∧ s.stop ≠ t.start ∧ t.stop ≠ s.start

/-- Whether a place is in a range or at its end. -/
def Reaches (s : Span) (o : Nat) : Prop := s.start ≤ o ∧ o ≤ s.stop

/-- Ranges that overlap have a place in common, if only at their ends. -/
theorem le_of_overlaps (h : s.overlaps t = true) : s.start ≤ t.stop ∧ t.start ≤ s.stop := by
  rw [overlaps] at h
  split at h
  · simpa using h
  · simp only [Bool.and_eq_true, decide_eq_true_eq] at h
    omega

/-- What is apart has no place in common, not even at the ends. -/
theorem Apart.not_meet (apart : s.Apart t) : ¬ (s.start ≤ t.stop ∧ t.start ≤ s.stop) := by
  obtain ⟨clear, behind, before⟩ := apart
  rw [overlaps] at clear
  split at clear
  · simpa using clear
  · simp only [Bool.and_eq_false_iff, decide_eq_false_iff_not] at clear
    omega

theorem overlaps_of_covers (meet : ¬ (s.start ≤ t.stop ∧ t.start ≤ s.stop))
    (covers : t.covers u = true) : u.overlaps s = false := by
  rw [covers_iff] at covers
  refine Bool.eq_false_iff.mpr fun overlap => meet ?_
  have := le_of_overlaps overlap
  omega

/-! ## Side by side -/

/-- Spans side by side from one offset to another. -/
def Tile (start stop : Nat) : List Span → Prop
  | [] => start = stop
  | s :: ss => s.start = start ∧ start ≤ s.stop ∧ Tile s.stop stop ss

theorem Tile.le (tile : Tile start stop spans) : start ≤ stop := by
  induction spans generalizing start with
  | nil => exact Nat.le_of_eq tile
  | cons s ss ih =>
    obtain ⟨-, forward, rest⟩ := tile
    exact Nat.le_trans forward (ih rest)

/-- Of ranges side by side just one holds an offset that lies between their ends. -/
theorem Tile.length_filter (tile : Tile start stop spans) (o : Nat) :
    (spans.filter fun s => s.contains o).length = if start ≤ o ∧ o < stop then 1 else 0 := by
  induction spans generalizing start with
  | nil =>
    obtain rfl : start = stop := tile
    rw [if_neg (by omega)]
    rfl
  | cons s ss ih =>
    obtain ⟨first, forward, rest⟩ := tile
    have behind := rest.le
    have others := ih rest
    rw [List.filter_cons]
    split
    · next here =>
      rw [contains_iff] at here
      rw [List.length_cons, others, if_neg (by omega), if_pos (by omega)]
    · next here =>
      rw [contains_iff] at here
      rw [others]
      split <;> split <;> omega

theorem Tile.starts (tile : Tile start stop spans) :
    (∀ s ∈ spans, start ≤ s.start) ∧ spans.Pairwise fun s t => s.start ≤ t.start := by
  induction spans generalizing start with
  | nil => exact ⟨fun _ h => absurd h List.not_mem_nil, .nil⟩
  | cons s ss ih =>
    obtain ⟨first, forward, rest⟩ := tile
    obtain ⟨later, sorted⟩ := ih rest
    refine ⟨List.forall_mem_cons.mpr ⟨Nat.le_of_eq first.symm, fun t ht => ?_⟩,
      List.pairwise_cons.mpr ⟨fun t ht => ?_, sorted⟩⟩
    · exact Nat.le_trans forward (later t ht)
    · exact first ▸ Nat.le_trans forward (later t ht)

end Span

end Glr
