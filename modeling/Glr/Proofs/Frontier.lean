import Mathlib.Data.List.SplitBy
import Glr.Parser.Frontier

/-!
# The frontier only selects

Merging, pruning and collapsing choose among the live stacks and never change one.  Every stack that
is kept was there before, and some stack is always kept.

Merging also loses nothing of rank: for every stack there is one left that went through the same
states with the same extras and that it does not beat (`Replaces`).  A stack that takes the place of
another beats it, and ranks are compared in one order, so the places change hands upwards only.
-/

namespace Glr

namespace Frontier

/-! ## The best stack -/

theorem bestFrom_mem : ∀ (live : List Stack) (best : Stack), bestFrom best live ∈ best :: live
  | [], best => List.mem_singleton_self best
  | s :: live, best => by
    have mem := bestFrom_mem live (if s.beats best then s else best)
    rw [bestFrom]
    split at mem
    · next h =>
      rw [if_pos h]
      exact List.mem_cons_of_mem best mem
    · next h =>
      rw [if_neg h]
      rcases List.mem_cons.mp mem with eq | mem
      · rw [eq]
        exact List.mem_cons_self
      · exact List.mem_cons_of_mem best (List.mem_cons_of_mem s mem)

theorem mem_of_best? {live : List Stack} {s : Stack} (h : best? live = some s) : s ∈ live := by
  cases live with
  | nil => cases h
  | cons t live =>
    rw [best?] at h
    exact Option.some.inj h ▸ bestFrom_mem live t

theorem exists_best? {live : List Stack} (h : live ≠ []) : ∃ s, best? live = some s := by
  cases live with
  | nil => exact absurd rfl h
  | cons t live => exact ⟨_, rfl⟩

theorem mem_of_mem_collapse {live : List Stack} {s : Stack} (h : s ∈ collapse live) :
    s ∈ live := by
  rw [collapse, Option.mem_toList] at h
  exact mem_of_best? h

theorem collapse_ne_nil {live : List Stack} (h : live ≠ []) : collapse live ≠ [] := by
  obtain ⟨s, hs⟩ := exists_best? h
  rw [collapse, hs]
  exact List.cons_ne_nil s []

/-! ## Pruning -/

theorem mem_of_mem_prune {live : List Stack} {allowed : Nat} {s : Stack}
    (h : s ∈ prune live allowed) : s ∈ live := by
  rw [prune] at h
  split at h
  · exact List.mem_mergeSort.mp (List.mem_of_mem_take h)
  · exact h

theorem prune_ne_nil {live : List Stack} {allowed : Nat} (h : live ≠ []) :
    prune live allowed ≠ [] := by
  rw [prune]
  split
  · intro nil
    have length := congrArg List.length nil
    have := List.length_pos_iff.mpr h
    simp only [List.length_take, List.length_mergeSort, List.length_nil] at length
    omega
  · exact h

/-! ## Merging -/

theorem mergeInto_ne_nil (c : Contender) (merged : List Contender) : mergeInto c merged ≠ [] := by
  cases merged with
  | nil => exact List.cons_ne_nil c []
  | cons d ds =>
    rw [mergeInto]
    split
    · exact List.cons_ne_nil _ ds
    · exact List.cons_ne_nil d _

theorem mem_mergeInto {c e : Contender} :
    ∀ {merged : List Contender}, e ∈ mergeInto c merged →
      e.stack = c.stack ∨ ∃ d ∈ merged, e.stack = d.stack := by
  intro merged
  induction merged with
  | nil =>
    intro h
    rw [mergeInto, List.mem_singleton] at h
    exact Or.inl (by rw [h])
  | cons d ds ih =>
    intro h
    rw [mergeInto] at h
    split at h
    · rcases List.mem_cons.mp h with rfl | h
      · split
        · exact Or.inl rfl
        · exact Or.inr ⟨d, List.mem_cons_self, rfl⟩
      · exact Or.inr ⟨e, List.mem_cons_of_mem d h, rfl⟩
    · rcases List.mem_cons.mp h with rfl | h
      · exact Or.inr ⟨e, List.mem_cons_self, rfl⟩
      · rcases ih h with same | ⟨f, hf, same⟩
        · exact Or.inl same
        · exact Or.inr ⟨f, List.mem_cons_of_mem d hf, same⟩

theorem mem_foldl_mergeInto {e : Contender} :
    ∀ {group merged : List Contender},
      e ∈ group.foldl (fun merged c => mergeInto c merged) merged →
        ∃ d ∈ merged ++ group, e.stack = d.stack := by
  intro group
  induction group with
  | nil =>
    intro merged h
    exact ⟨e, by rwa [List.append_nil], rfl⟩
  | cons c group ih =>
    intro merged h
    obtain ⟨d, hd, same⟩ := ih h
    rcases List.mem_append.mp hd with hd | hd
    · rcases mem_mergeInto hd with eq | ⟨f, hf, eq⟩
      · exact ⟨c, by simp, same.trans eq⟩
      · exact ⟨f, by simp [hf], same.trans eq⟩
    · exact ⟨d, by simp [hd], same⟩

theorem mergeGroup_ne_nil {group : List Contender} (h : group ≠ []) : mergeGroup group ≠ [] := by
  have grown : ∀ (group merged : List Contender), merged ≠ [] →
      group.foldl (fun merged c => mergeInto c merged) merged ≠ [] := by
    intro group
    induction group with
    | nil => exact fun merged h => h
    | cons c group ih => exact fun merged _ => ih _ (mergeInto_ne_nil c merged)
  cases group with
  | nil => exact absurd rfl h
  | cons c group => exact grown group _ (mergeInto_ne_nil c [])

theorem mem_of_mem_merge {live : List Stack} {s : Stack} (h : s ∈ merge live) : s ∈ live := by
  rw [merge] at h
  split at h
  · exact h
  · obtain ⟨e, he, rfl⟩ := List.mem_map.mp h
    rw [List.mem_mergeSort] at he
    obtain ⟨group, hgroup, he⟩ := List.mem_flatMap.mp he
    obtain ⟨d, hd, same⟩ := mem_foldl_mergeInto he
    rw [List.nil_append] at hd
    have hd := List.mem_flatten.mpr ⟨group, hgroup, hd⟩
    rw [List.flatten_splitBy, List.mem_mergeSort, contenders] at hd
    obtain ⟨⟨t, place⟩, hmem, rfl⟩ := List.mem_map.mp hd
    rw [same]
    exact List.fst_mem_of_mem_zipIdx hmem

theorem merge_ne_nil {live : List Stack} (h : live ≠ []) : merge live ≠ [] := by
  rw [merge]
  split
  · exact h
  · obtain ⟨s, live, rfl⟩ := List.exists_cons_of_ne_nil h
    -- The first stack is in some group, and that group has something left after merging.
    have first : (⟨0, s.outline, s⟩ : Contender) ∈ contenders (s :: live) :=
      List.mem_map.mpr ⟨(s, 0), by simp, rfl⟩
    have sorted : _ ∈ (contenders (s :: live)).mergeSort outlineLe := List.mem_mergeSort.mpr first
    rw [← List.flatten_splitBy (fun c d : Contender => c.outline == d.outline)
      ((contenders (s :: live)).mergeSort outlineLe)] at sorted
    obtain ⟨group, hgroup, mem⟩ := List.mem_flatten.mp sorted
    obtain ⟨e, he⟩ := List.exists_mem_of_ne_nil _ (mergeGroup_ne_nil (List.ne_nil_of_mem mem))
    refine List.ne_nil_of_mem (List.mem_map.mpr ⟨e, ?_, rfl⟩)
    exact List.mem_mergeSort.mpr (List.mem_flatMap.mpr ⟨group, hgroup, he⟩)

end Frontier

/-! ## Ranks -/

namespace Stack

theorem beats_iff {s t : Stack} : s.beats t = true ↔
    s.errorCost < t.errorCost ∨ s.errorCost = t.errorCost ∧
      (t.dynamicPrecedence < s.dynamicPrecedence ∨ t.dynamicPrecedence = s.dynamicPrecedence ∧
        s.preference < t.preference) := by
  rw [beats, beq_iff_eq, Stack.compare, Ordering.then_eq_lt, Ordering.then_eq_lt,
    Nat.compare_eq_lt, Nat.compare_eq_eq, Nat.compare_eq_lt, Int.compare_eq_lt, Int.compare_eq_eq]

theorem beats_false_iff {s t : Stack} : s.beats t = false ↔
    t.errorCost < s.errorCost ∨ s.errorCost = t.errorCost ∧
      (s.dynamicPrecedence < t.dynamicPrecedence ∨ t.dynamicPrecedence = s.dynamicPrecedence ∧
        t.preference ≤ s.preference) := by
  rw [Bool.eq_false_iff, ne_eq, beats_iff]
  omega

theorem unbeaten_refl (s : Stack) : s.beats s = false := by
  rw [beats_false_iff]
  omega

theorem unbeaten_trans {s t u : Stack} (h : t.beats s = false) (h' : u.beats t = false) :
    u.beats s = false := by
  rw [beats_false_iff] at h h' ⊢
  omega

theorem unbeaten_of_beats {s t : Stack} (h : s.beats t = true) : t.beats s = false := by
  rw [beats_iff] at h
  rw [beats_false_iff]
  omega

/-- The states that a stack went through and where extras are among them. -/
def trace (s : Stack) : List (StateId × Bool) := s.entries.map fun e => (e.state, e.extra)

theorem sameStates_iff {s t : Stack} : s.sameStates t = true ↔ s.trace = t.trace := by
  rw [sameStates, trace, trace]
  generalize s.entries = xs, t.entries = ys
  induction xs, ys using sameEntries.induct with
  | case1 => simp [sameEntries]
  | case2 a as b bs ih => simp [sameEntries, ih, and_assoc]
  | case3 xs ys notNil notCons =>
    rw [sameEntries]
    · cases xs with
      | nil =>
        cases ys with
        | nil => exact absurd rfl (notNil rfl)
        | cons b bs => simp
      | cons a as =>
        cases ys with
        | nil => simp
        | cons b bs => exact (notCons a as b bs rfl rfl).elim
    · exact notNil
    · exact notCons

/-- A stack can stand for another: it went through the same states and is not beaten by it. -/
structure Replaces (s t : Stack) : Prop where
  same : s.trace = t.trace
  unbeaten : t.beats s = false

namespace Replaces

variable {s t u : Stack}

theorem refl (s : Stack) : s.Replaces s := ⟨rfl, unbeaten_refl s⟩

theorem trans (h : s.Replaces t) (h' : t.Replaces u) : s.Replaces u :=
  ⟨h.same.trans h'.same, unbeaten_trans h.unbeaten h'.unbeaten⟩

end Replaces

end Stack

namespace Frontier

theorem bestFrom_unbeaten : ∀ (live : List Stack) (best : Stack),
    best.beats (bestFrom best live) = false ∧ ∀ t ∈ live, t.beats (bestFrom best live) = false
  | [], best => ⟨Stack.unbeaten_refl best, fun _ h => absurd h List.not_mem_nil⟩
  | s :: live, best => by
    obtain ⟨chosen, later⟩ := bestFrom_unbeaten live (if s.beats best then s else best)
    rw [bestFrom]
    by_cases beats : s.beats best = true
    · rw [if_pos beats] at chosen later ⊢
      exact ⟨Stack.unbeaten_trans chosen (Stack.unbeaten_of_beats beats),
        List.forall_mem_cons.mpr ⟨chosen, later⟩⟩
    · rw [if_neg beats] at chosen later ⊢
      exact ⟨chosen, List.forall_mem_cons.mpr
        ⟨Stack.unbeaten_trans chosen (Bool.eq_false_iff.mpr beats), later⟩⟩

/-- No stack beats the best one. -/
theorem unbeaten_of_best? {live : List Stack} {s : Stack} (h : best? live = some s) :
    ∀ t ∈ live, t.beats s = false := by
  cases live with
  | nil => cases h
  | cons u live =>
    rw [best?] at h
    exact Option.some.inj h ▸ List.forall_mem_cons.mpr (bestFrom_unbeaten live u)

/-- Something is left for a stack. -/
def Keeps (merged : List Contender) (s : Stack) : Prop := ∃ e ∈ merged, e.stack.Replaces s

theorem keeps_mergeInto (c : Contender) : ∀ (merged : List Contender),
    Keeps (mergeInto c merged) c.stack ∧
      ∀ s, Keeps merged s → Keeps (mergeInto c merged) s := by
  intro merged
  induction merged with
  | nil =>
    exact ⟨⟨c, List.mem_cons_self, .refl _⟩, fun s ⟨e, he, _⟩ => absurd he List.not_mem_nil⟩
  | cons d ds ih =>
    rw [mergeInto]
    split
    · next same =>
      have same := Stack.sameStates_iff.mp same
      split
      · next beats =>
        have higher : c.stack.Replaces d.stack := ⟨same.symm, Stack.unbeaten_of_beats beats⟩
        refine ⟨⟨_, List.mem_cons_self, .refl _⟩, fun s ⟨e, he, replaces⟩ => ?_⟩
        rcases List.mem_cons.mp he with rfl | he
        · exact ⟨_, List.mem_cons_self, higher.trans replaces⟩
        · exact ⟨e, List.mem_cons_of_mem _ he, replaces⟩
      · next stays =>
        exact ⟨⟨d, List.mem_cons_self, same, Bool.eq_false_iff.mpr stays⟩, fun s kept => kept⟩
    · obtain ⟨⟨e, he, replaces⟩, later⟩ := ih
      refine ⟨⟨e, List.mem_cons_of_mem d he, replaces⟩, fun s ⟨f, hf, replaces⟩ => ?_⟩
      rcases List.mem_cons.mp hf with rfl | hf
      · exact ⟨f, List.mem_cons_self, replaces⟩
      · obtain ⟨e, he, replaces⟩ := later s ⟨f, hf, replaces⟩
        exact ⟨e, List.mem_cons_of_mem d he, replaces⟩

theorem keeps_mergeGroup {group : List Contender} :
    ∀ c ∈ group, Keeps (mergeGroup group) c.stack := by
  have walk : ∀ (group merged : List Contender),
      (∀ s, Keeps merged s → Keeps (group.foldl (fun merged c => mergeInto c merged) merged) s) ∧
        ∀ c ∈ group, Keeps (group.foldl (fun merged c => mergeInto c merged) merged) c.stack := by
    intro group
    induction group with
    | nil => exact fun merged => ⟨fun _ h => h, fun _ h => absurd h List.not_mem_nil⟩
    | cons c group ih =>
      intro merged
      obtain ⟨kept, others⟩ := ih (mergeInto c merged)
      obtain ⟨here, before⟩ := keeps_mergeInto c merged
      refine ⟨fun s h => kept s (before s h), fun d hd => ?_⟩
      rcases List.mem_cons.mp hd with rfl | hd
      · exact kept _ here
      · exact others d hd
  exact (walk group []).2

/-- For every stack that is merged there is one left that can stand for it. -/
theorem exists_replaces_merge {live : List Stack} {s : Stack} (h : s ∈ live) :
    ∃ t ∈ merge live, t.Replaces s := by
  rw [merge]
  split
  · exact ⟨s, h, .refl s⟩
  · obtain ⟨place, found⟩ := List.mem_iff_getElem?.mp h
    have mem : (⟨place, s.outline, s⟩ : Contender) ∈ (contenders live).mergeSort outlineLe :=
      List.mem_mergeSort.mpr (List.mem_map.mpr
        ⟨(s, place), List.mk_mem_zipIdx_iff_getElem?.mpr found, rfl⟩)
    rw [← List.flatten_splitBy (fun c d : Contender => c.outline == d.outline)
      ((contenders live).mergeSort outlineLe)] at mem
    obtain ⟨group, hgroup, mem⟩ := List.mem_flatten.mp mem
    obtain ⟨e, he, replaces⟩ := keeps_mergeGroup _ mem
    refine ⟨e.stack, List.mem_map.mpr ⟨e, ?_, rfl⟩, replaces⟩
    exact List.mem_mergeSort.mpr (List.mem_flatMap.mpr ⟨group, hgroup, he⟩)

end Frontier

end Glr
