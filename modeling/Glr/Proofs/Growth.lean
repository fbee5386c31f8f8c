import Mathlib.Algebra.GroupWithZero.Nat
import Mathlib.Data.Finset.Card
import Mathlib.Data.Finset.Range
import Mathlib.Data.List.Forall2
import Mathlib.Logic.Function.Iterate
import Glr.Grammar.Lookahead

/-!
# Saturation reaches a fixpoint

`saturate` repeats a step on a budget, and what it returns is only worth something if the step
changes it no more.  The argument is the same for every analysis of a grammar: a step goes up in an
order, and going up for real raises a rank that has a ceiling, so a budget above the ceiling is
never used up.

`Growth` is that order with its rank.  Sets of symbols have one, and arrays and pairs of things that
have one have one again, which covers the nullable and first sets and the lookaheads alike.  The
other half is what a fixpoint is good for: when a whole round of small steps changes nothing, no
single step of it does (`foldl_fixed`), and so the least solution is closed under each rule.
-/

namespace Glr

variable {α β γ : Type}

/-- An order whose rank tells its elements apart: what goes up without gaining rank stays. -/
structure Growth (le : α → α → Prop) (rank : α → Nat) : Prop where
  refl : ∀ a, le a a
  trans : ∀ {a b c}, le a b → le b c → le a c
  rank_le : ∀ {a b}, le a b → rank a ≤ rank b
  eq_of_rank : ∀ {a b}, le a b → rank b ≤ rank a → a = b

theorem Growth.antisymm {le : α → α → Prop} {rank : α → Nat} (grow : Growth le rank) {a b : α}
    (hab : le a b) (hba : le b a) : a = b :=
  grow.eq_of_rank hab (grow.rank_le hba)

/-! ## Saturation -/

theorem saturate_keeps [DecidableEq α] {step : α → α} {P : α → Prop}
    (keep : ∀ a, P a → P (step a)) :
    ∀ {fuel : Nat} {a : α}, P a → P (saturate step fuel a) := by
  intro fuel
  induction fuel with
  | zero => exact fun h => h
  | succ n ih =>
    intro a h
    rw [saturate]
    split
    · exact h
    · exact ih (keep a h)

/-- Enough fuel for the room that is left makes the result a fixpoint. -/
theorem saturate_fixed [DecidableEq α] {le : α → α → Prop} {rank : α → Nat}
    (grow : Growth le rank) {step : α → α} {P : α → Prop} {bound : Nat}
    (up : ∀ a, P a → le a (step a)) (keep : ∀ a, P a → P (step a))
    (below : ∀ a, P a → rank a ≤ bound) :
    ∀ {fuel : Nat} {a : α}, P a → bound < rank a + fuel →
      step (saturate step fuel a) = saturate step fuel a := by
  intro fuel
  induction fuel with
  | zero =>
    intro a h room
    have := below a h
    omega
  | succ n ih =>
    intro a h room
    rw [saturate]
    by_cases same : step a = a
    · rw [if_pos same, same]
    · have rises : rank a < rank (step a) := by
        refine Nat.lt_of_not_le fun hle => same ?_
        exact (grow.eq_of_rank (up a h) hle).symm
      rw [if_neg same]
      exact ih (keep a h) (by omega)

/-- What a saturation ends with is some steps away, no more than there is room for. -/
theorem saturate_eq_iterate [DecidableEq α] {le : α → α → Prop} {rank : α → Nat}
    (grow : Growth le rank) {step : α → α} {P : α → Prop} {bound : Nat}
    (up : ∀ a, P a → le a (step a)) (keep : ∀ a, P a → P (step a))
    (below : ∀ a, P a → rank a ≤ bound) :
    ∀ {fuel : Nat} {a : α}, P a →
      ∃ n, rank a + n ≤ bound ∧ saturate step fuel a = step^[n] a := by
  intro fuel
  induction fuel with
  | zero => exact fun {a} h => ⟨0, below a h, rfl⟩
  | succ fuel ih =>
    intro a h
    rw [saturate]
    by_cases same : step a = a
    · rw [if_pos same]
      exact ⟨0, below a h, rfl⟩
    · have rises : rank a < rank (step a) := by
        refine Nat.lt_of_not_le fun hle => same ?_
        exact (grow.eq_of_rank (up a h) hle).symm
      rw [if_neg same]
      obtain ⟨n, room, eq⟩ := ih (keep a h)
      exact ⟨n + 1, by omega, eq⟩

/-- What a saturation starts from is below what it ends with. -/
theorem saturate_above [DecidableEq α] {le : α → α → Prop} {rank : α → Nat}
    (grow : Growth le rank) {step : α → α} {P : α → Prop}
    (up : ∀ a, P a → le a (step a)) (keep : ∀ a, P a → P (step a)) :
    ∀ {fuel : Nat} {a : α}, P a → le a (saturate step fuel a) := by
  intro fuel
  induction fuel with
  | zero => exact fun _ => grow.refl _
  | succ n ih =>
    intro a h
    rw [saturate]
    split
    · exact grow.refl a
    · exact grow.trans (up a h) (ih (keep a h))

/-! ## Rounds -/

theorem foldl_keeps {f : α → β → α} {P : α → Prop} {xs : List β}
    (keep : ∀ a, P a → ∀ x ∈ xs, P (f a x)) {a : α} (h : P a) : P (xs.foldl f a) := by
  induction xs generalizing a with
  | nil => exact h
  | cons x xs ih =>
    rw [List.foldl_cons]
    exact ih (fun b hb y hy => keep b hb y (List.mem_cons_of_mem x hy))
      (keep a h x List.mem_cons_self)

/-- What each step has or adds, a round has or one of its steps adds. -/
theorem foldl_iff {f : α → β → α} {P : α → Prop} {Q : β → Prop}
    (adds : ∀ a x, P (f a x) ↔ P a ∨ Q x) {xs : List β} {a : α} :
    P (xs.foldl f a) ↔ P a ∨ ∃ x ∈ xs, Q x := by
  induction xs generalizing a with
  | nil => simp
  | cons x xs ih => rw [List.foldl_cons, ih, adds, List.exists_mem_cons_iff, or_assoc]

section Rounds

variable {le : α → α → Prop} {rank : α → Nat} {f : α → β → α} {P : α → Prop} {xs : List β}

theorem foldl_up (grow : Growth le rank) (up : ∀ a, P a → ∀ x ∈ xs, le a (f a x))
    (keep : ∀ a, P a → ∀ x ∈ xs, P (f a x)) {a : α} (h : P a) : le a (xs.foldl f a) := by
  induction xs generalizing a with
  | nil => exact grow.refl a
  | cons x xs ih =>
    rw [List.foldl_cons]
    refine grow.trans (up a h x List.mem_cons_self) ?_
    exact ih (fun b hb y hy => up b hb y (List.mem_cons_of_mem x hy))
      (fun b hb y hy => keep b hb y (List.mem_cons_of_mem x hy)) (keep a h x List.mem_cons_self)

/-- A round that changes nothing is made of steps that change nothing. -/
theorem foldl_fixed (grow : Growth le rank) (up : ∀ a, P a → ∀ x ∈ xs, le a (f a x))
    (keep : ∀ a, P a → ∀ x ∈ xs, P (f a x)) {a : α} (h : P a)
    (fixed : xs.foldl f a = a) : ∀ x ∈ xs, f a x = a := by
  induction xs with
  | nil => exact fun x hx => absurd hx List.not_mem_nil
  | cons x xs ih =>
    have upRest : ∀ b, P b → ∀ y ∈ xs, le b (f b y) :=
      fun b hb y hy => up b hb y (List.mem_cons_of_mem x hy)
    have keepRest : ∀ b, P b → ∀ y ∈ xs, P (f b y) :=
      fun b hb y hy => keep b hb y (List.mem_cons_of_mem x hy)
    rw [List.foldl_cons] at fixed
    have first : le a (f a x) := up a h x List.mem_cons_self
    have back : le (f a x) a := by
      have := foldl_up grow upRest keepRest (keep a h x List.mem_cons_self)
      rwa [fixed] at this
    have same : f a x = a := grow.antisymm back first
    intro y hy
    rcases List.mem_cons.mp hy with rfl | hy
    · exact same
    · exact ih upRest keepRest (by rwa [same] at fixed) y hy

end Rounds

/-! ## Orders with a rank -/

namespace SymbolBits

theorem ext {a b : SymbolBits} (h : ∀ s, a.contains s = b.contains s) : a = b := by
  obtain ⟨a⟩ := a
  obtain ⟨b⟩ := b
  exact congrArg SymbolBits.mk (Nat.eq_of_testBit_eq h)

/-- The second set has what the first has, and beyond it only symbols below a bound. -/
def Grows (bound : Nat) (a b : SymbolBits) : Prop :=
  (∀ s, a.contains s = true → b.contains s = true) ∧
    ∀ s, b.contains s = true → a.contains s = true ∨ s < bound

/-- How many symbols below a bound are in a set. -/
def rank (bound : Nat) (a : SymbolBits) : Nat :=
  ((Finset.range bound).filter fun s => a.contains s = true).card

theorem rank_le_bound (bound : Nat) (a : SymbolBits) : a.rank bound ≤ bound := by
  have := Finset.card_filter_le (Finset.range bound) fun s => a.contains s = true
  rwa [Finset.card_range] at this

theorem growth (bound : Nat) : Growth (Grows bound) (rank bound) where
  refl a := ⟨fun _ h => h, fun _ h => Or.inl h⟩
  trans {a b c} hab hbc := by
    refine ⟨fun s h => hbc.1 s (hab.1 s h), fun s h => ?_⟩
    rcases hbc.2 s h with hb | hlt
    · exact hab.2 s hb
    · exact Or.inr hlt
  rank_le {a b} hab := by
    refine Finset.card_le_card fun s hs => ?_
    rw [Finset.mem_filter] at hs ⊢
    exact ⟨hs.1, hab.1 s hs.2⟩
  eq_of_rank {a b} hab hrank := by
    refine ext fun s => ?_
    cases hs : b.contains s with
    | false =>
      refine Bool.eq_false_iff.mpr fun ha => ?_
      rw [hab.1 s ha] at hs
      exact Bool.noConfusion hs
    | true =>
      by_contra ha
      -- A symbol that only the second set has would raise its rank.
      have hlt : s < bound := (hab.2 s hs).resolve_left ha
      have : a.rank bound < b.rank bound := by
        refine Finset.card_lt_card ((Finset.ssubset_iff_of_subset ?_).mpr ⟨s, ?_, ?_⟩)
        · intro t ht
          rw [Finset.mem_filter] at ht ⊢
          exact ⟨ht.1, hab.1 t ht.2⟩
        · exact Finset.mem_filter.mpr ⟨Finset.mem_range.mpr hlt, hs⟩
        · exact fun hmem => ha (Finset.mem_filter.mp hmem).2
      omega

theorem Grows.union {bound : Nat} (a : SymbolBits) {b : SymbolBits}
    (hb : ∀ s, b.contains s = true → s < bound) : Grows bound a (a.union b) := by
  refine ⟨fun s h => by rw [contains_union, h, Bool.true_or], fun s h => ?_⟩
  rw [contains_union, Bool.or_eq_true] at h
  exact h.imp id (hb s)

theorem Grows.insert {bound : Nat} (a : SymbolBits) {t : Symbol} (ht : t < bound) :
    Grows bound a (a.insert t) := by
  refine Grows.union a fun s h => ?_
  rw [contains_single, decide_eq_true_eq] at h
  exact h ▸ ht

/-- A set that a union leaves as it is has everything of the other. -/
theorem contains_of_union_eq {a b : SymbolBits} (h : a.union b = a) {s : Symbol}
    (hs : b.contains s = true) : a.contains s = true := by
  rw [← h, contains_union, hs, Bool.or_true]

end SymbolBits

/-! ## Lists of pairs -/

/-- Looking up in a list of pairs gives one of its pairs. -/
theorem mem_of_lookup [BEq α] [LawfulBEq α] {xs : List (α × β)} {a : α} {b : β}
    (h : xs.lookup a = some b) : (a, b) ∈ xs := by
  obtain ⟨before, after, rfl, -⟩ := List.lookup_eq_some_iff.mp h
  exact List.mem_append_right before List.mem_cons_self

/-- Where no key stands twice, every pair is looked up. -/
theorem lookup_of_mem [BEq α] [LawfulBEq α] {xs : List (α × β)}
    (distinct : (xs.map (·.1)).Nodup) {x : α × β} (mem : x ∈ xs) : xs.lookup x.1 = some x.2 := by
  obtain ⟨before, after, rfl⟩ := List.append_of_mem mem
  refine List.lookup_eq_some_iff.mpr ⟨before, after, rfl, fun y hy => ?_⟩
  rw [List.map_append, List.map_cons, List.nodup_append] at distinct
  exact bne_iff_ne.mpr
    (distinct.2.2 y.1 (List.mem_map_of_mem hy) x.1 List.mem_cons_self).symm

/-- Every key that a list of pairs has is looked up with success. -/
theorem exists_lookup [BEq α] [LawfulBEq α] {xs : List (α × β)} {a : α}
    (h : a ∈ xs.map (·.1)) : ∃ b, xs.lookup a = some b := by
  obtain ⟨p, hp, rfl⟩ := List.mem_map.mp h
  exact Option.isSome_iff_exists.mp (List.lookup_isSome_iff.mpr ⟨p, hp, beq_self_eq_true p.1⟩)

theorem lookup_filter_key [BEq α] [LawfulBEq α] {p : α → Bool} {k : α}
    (xs : List (α × β)) (hk : p k = true) :
    (xs.filter fun m => p m.1).lookup k = xs.lookup k := by
  induction xs with
  | nil => rfl
  | cons x xs ih =>
    obtain ⟨c, b⟩ := x
    by_cases hc : k = c
    · subst hc
      rw [List.filter_cons_of_pos (by exact hk), List.lookup_cons_self, List.lookup_cons_self]
    · rw [List.lookup_cons, beq_false_of_ne hc, ← ih]
      by_cases hkeep : p c = true
      · rw [List.filter_cons_of_pos (by exact hkeep), List.lookup_cons, beq_false_of_ne hc]
      · rw [List.filter_cons_of_neg (by exact hkeep)]

/-! ## Arrays slot by slot -/

/-- What an array has it has as well with one more behind it. -/
theorem getElem?_pushed {xs : Array α} {i : Nat} {a b : α} (h : xs[i]? = some a) :
    (xs.push b)[i]? = some a := by
  obtain ⟨bound, same⟩ := Array.getElem?_eq_some_iff.mp h
  rw [Array.getElem?_push_lt bound, same]

theorem forall₂_getElem? {R : α → β → Prop} {xs : Array α} {ys : Array β}
    (h : List.Forall₂ R xs.toList ys.toList) {i : Nat} {a : α} (ha : xs[i]? = some a) :
    ∃ b, ys[i]? = some b ∧ R a b := by
  obtain ⟨hi, rfl⟩ := Array.getElem?_eq_some_iff.mp ha
  obtain ⟨hlen, hget⟩ := List.forall₂_iff_get.mp h
  have hj : i < ys.size := by
    rw [Array.length_toList, Array.length_toList] at hlen
    exact hlen ▸ hi
  exact ⟨ys[i], Array.getElem?_eq_getElem hj, hget i hi hj⟩

theorem forall₂_modify {R : α → β → Prop} {xs : Array α} {ys : Array β}
    (h : List.Forall₂ R xs.toList ys.toList) {i : Nat} {f : β → β}
    (hf : ∀ a b, xs[i]? = some a → ys[i]? = some b → R a b → R a (f b)) :
    List.Forall₂ R xs.toList (ys.modify i f).toList := by
  obtain ⟨hlen, hget⟩ := List.forall₂_iff_get.mp h
  refine List.forall₂_iff_get.mpr ⟨by simpa using hlen, fun j hx hy => ?_⟩
  have hj : j < ys.size := by simpa using hy
  simp only [List.get_eq_getElem, Array.getElem_toList, Array.getElem_modify]
  split
  · next here =>
    subst here
    exact hf _ _ (Array.getElem?_eq_getElem hx) (Array.getElem?_eq_getElem hj) (hget i hx hj)
  · exact hget j hx hj

/-- Changing a slot leaves an array as it is only if it leaves the slot as it is. -/
theorem eq_of_modify_eq {xs : Array α} {i : Nat} {f : α → α} (h : xs.modify i f = xs) {a : α}
    (ha : xs[i]? = some a) : f a = a := by
  have hi := congrArg (fun ys : Array α => ys[i]?) h
  simp only [Array.getElem?_modify, ha, if_true, Option.map_some] at hi
  exact Option.some.inj hi

namespace Growth

variable {le : α → α → Prop} {rank : α → Nat}

theorem comap (grow : Growth le rank) {f : β → α} (inj : ∀ {b c}, f b = f c → b = c) :
    Growth (fun b c => le (f b) (f c)) (fun b => rank (f b)) where
  refl b := grow.refl (f b)
  trans hbc hcd := grow.trans hbc hcd
  rank_le h := grow.rank_le h
  eq_of_rank h hrank := inj (grow.eq_of_rank h hrank)

theorem prod (grow : Growth le rank) {le' : β → β → Prop} {rank' : β → Nat}
    (grow' : Growth le' rank') :
    Growth (fun p q : α × β => le p.1 q.1 ∧ le' p.2 q.2) (fun p => rank p.1 + rank' p.2) where
  refl p := ⟨grow.refl p.1, grow'.refl p.2⟩
  trans hpq hqr := ⟨grow.trans hpq.1 hqr.1, grow'.trans hpq.2 hqr.2⟩
  rank_le h := Nat.add_le_add (grow.rank_le h.1) (grow'.rank_le h.2)
  eq_of_rank {p q} h hrank := by
    have h₁ := grow.rank_le h.1
    have h₂ := grow'.rank_le h.2
    exact Prod.ext (grow.eq_of_rank h.1 (by omega)) (grow'.eq_of_rank h.2 (by omega))

theorem sum_rank_le (grow : Growth le rank) {xs ys : List α} (h : List.Forall₂ le xs ys) :
    (xs.map rank).sum ≤ (ys.map rank).sum := by
  induction h with
  | nil => exact Nat.le_refl _
  | cons hab _ ih =>
    rw [List.map_cons, List.map_cons, List.sum_cons, List.sum_cons]
    exact Nat.add_le_add (grow.rank_le hab) ih

/-- Lists of one length grow slot by slot. -/
theorem list (grow : Growth le rank) :
    Growth (List.Forall₂ le) (fun xs => (xs.map rank).sum) where
  refl xs := List.forall₂_same.mpr fun a _ => grow.refl a
  trans {xs ys zs} hxy hyz := by
    induction hxy generalizing zs with
    | nil => exact hyz
    | cons hab _ ih =>
      cases hyz with
      | cons hbc hrest => exact .cons (grow.trans hab hbc) (ih hrest)
  rank_le h := grow.sum_rank_le h
  eq_of_rank {xs ys} h hrank := by
    induction h with
    | nil => rfl
    | @cons a b as bs hab hrest ih =>
      rw [List.map_cons, List.map_cons, List.sum_cons, List.sum_cons] at hrank
      have h₁ := grow.rank_le hab
      have h₂ := grow.sum_rank_le hrest
      rw [grow.eq_of_rank hab (by omega), ih (by omega)]

theorem array (grow : Growth le rank) :
    Growth (fun xs ys : Array α => List.Forall₂ le xs.toList ys.toList)
      (fun xs => (xs.toList.map rank).sum) :=
  grow.list.comap fun h => Array.toList_inj.mp h

theorem modify (grow : Growth le rank) {xs : Array α} {i : Nat} {f : α → α}
    (up : ∀ a, xs[i]? = some a → le a (f a)) :
    List.Forall₂ le xs.toList (xs.modify i f).toList :=
  forall₂_modify (grow.array.refl xs) fun a b ha hb _ => by
    obtain rfl : a = b := Option.some.inj (ha.symm.trans hb)
    exact up a ha

end Growth

/-- Ranks with a common ceiling add up to at most that many ceilings. -/
theorem sum_map_le_length_mul {rank : α → Nat} {bound : Nat} {xs : List α}
    (h : ∀ a ∈ xs, rank a ≤ bound) : (xs.map rank).sum ≤ xs.length * bound := by
  induction xs with
  | nil => exact Nat.zero_le _
  | cons x xs ih =>
    have hx := h x List.mem_cons_self
    have hxs := ih fun a ha => h a (List.mem_cons_of_mem x ha)
    rw [List.map_cons, List.sum_cons, List.length_cons, Nat.succ_mul]
    omega

end Glr
