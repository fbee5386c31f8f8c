import Mathlib.Algebra.BigOperators.Group.List.Basic
import Mathlib.Algebra.BigOperators.Ring.List
import Glr.Proofs.CharSets
import Glr.Proofs.Derivatives

/-!
# What patterns in normal form match

The functions that build a pattern rewrite it on the way: texts run together, sets become one set,
what all branches start with moves in front of them.  None of it changes what is matched.  Here each
builder gets its meaning as an equation of languages: `concat` multiplies, `choice` adds, `repeated`
repeats and `ofSet` is its set.

The equations rest on a few facts about the parts (`Fit`): a range of characters is not empty and
neither end of it is a surrogate, a count does not run backwards, and a choice has a branch.  The
builders keep these facts, and nothing else is kept of how a pattern came about.
-/

namespace Glr

namespace Regex

/-! ## Expressions from several -/

/-- One string as a language. -/
def just (bytes : List UInt8) : ByteLanguage := {w | w = bytes}

variable {u v w : List UInt8}

@[simp] theorem mem_just : w ∈ just u ↔ w = u := Iff.rfl

theorem just_append : just (u ++ v) = just u * just v := by
  ext w
  rw [mem_just, Language.mem_mul]
  exact ⟨fun h => ⟨u, rfl, v, rfl, h.symm⟩, fun ⟨_, hu, _, hv, h⟩ => by rw [← h, hu, hv]⟩

theorem concat_cons (r r' : Regex) (rs : List Regex) :
    concat (r :: r' :: rs) = seq r (concat (r' :: rs)) := rfl

theorem choice_cons (r r' : Regex) (rs : List Regex) :
    choice (r :: r' :: rs) = alt r (choice (r' :: rs)) := rfl

theorem texts_concat (rs : List Regex) : (concat rs).texts = (rs.map texts).prod := by
  induction rs with
  | nil => rfl
  | cons r rs ih =>
    cases rs with
    | nil => exact (mul_one _).symm
    | cons r' rs => rw [concat_cons, texts, ih, List.map_cons (a := r), List.prod_cons]

theorem mem_sum {L : List ByteLanguage} : w ∈ L.sum ↔ ∃ l ∈ L, w ∈ l := by
  induction L with
  | nil => simp
  | cons l L ih => rw [List.sum_cons, Language.mem_add, ih, List.exists_mem_cons_iff]

theorem texts_chars_none : (chars .none).texts = 0 := by
  ext w
  exact ⟨fun ⟨_, held, _⟩ => Bool.noConfusion held, fun h => absurd h (Language.notMem_zero w)⟩

theorem texts_choice (rs : List Regex) : (choice rs).texts = (rs.map texts).sum := by
  induction rs with
  | nil => exact texts_chars_none
  | cons r rs ih =>
    cases rs with
    | nil => exact (add_zero _).symm
    | cons r' rs => rw [choice_cons, texts, ih, List.map_cons (a := r), List.sum_cons]

theorem sound_concat {rs : List Regex} (sound : ∀ r ∈ rs, r.Sound) : (concat rs).Sound := by
  induction rs with
  | nil => exact True.intro
  | cons r rs ih =>
    obtain ⟨own, rest⟩ := List.forall_mem_cons.mp sound
    cases rs with
    | nil => exact own
    | cons r' rs => exact ⟨own, ih rest⟩

theorem sound_choice {rs : List Regex} (sound : ∀ r ∈ rs, r.Sound) : (choice rs).Sound := by
  induction rs with
  | nil => exact True.intro
  | cons r rs ih =>
    obtain ⟨own, rest⟩ := List.forall_mem_cons.mp sound
    cases rs with
    | nil => exact own
    | cons r' rs => exact ⟨own, ih rest⟩

theorem texts_single (c : Char) : (chars (.single c)).texts = just (String.utf8EncodeChar c) := by
  ext w
  constructor
  · rintro ⟨d, held, rfl⟩
    rw [CharSet.contains_single.mp held]
    rfl
  · rintro rfl
    exact ⟨c, CharSet.contains_single.mpr rfl, rfl⟩

theorem texts_letters (cs : List Char) :
    (concat (cs.map fun c => chars (.single c))).texts
      = just (cs.flatMap String.utf8EncodeChar) := by
  rw [texts_concat, List.map_map]
  induction cs with
  | nil => rfl
  | cons c cs ih =>
    rw [List.map_cons, List.prod_cons, ih, List.flatMap_cons, just_append, Function.comp_apply,
      texts_single]

end Regex

namespace Pattern

open Regex (between just)

/-! ## Patterns -/

/-- The strings that a pattern matches. -/
def texts (p : Pattern) : ByteLanguage := p.toRegex.texts

theorem toRegexes_eq_map (ps : List Pattern) : toRegexes ps = ps.map toRegex := by
  induction ps with
  | nil => rfl
  | cons p ps ih => rw [toRegexes, ih, List.map_cons]

theorem texts_text (cs : List Char) :
    (text cs).texts = just (cs.flatMap String.utf8EncodeChar) := Regex.texts_letters cs

theorem texts_counted (p : Pattern) (least : Nat) (greatest : Option Nat) (isLazy : Bool) :
    (counted p least greatest isLazy).texts = between p.texts least greatest := rfl

theorem texts_group (n : Nat) (p : Pattern) : (group n p).texts = p.texts := rfl

theorem texts_seq (ps : List Pattern) : (seq ps).texts = (ps.map texts).prod := by
  rw [texts, toRegex, Regex.texts_concat, toRegexes_eq_map, List.map_map]
  rfl

theorem texts_alt (ps : List Pattern) : (alt ps).texts = (ps.map texts).sum := by
  rw [texts, toRegex, Regex.texts_choice, toRegexes_eq_map, List.map_map]
  rfl

mutual

/-- Whether the sets of a pattern are proper, its counts do not run backwards and its choices have
branches. -/
def Fit : Pattern → Prop
  | blank => True
  | text _ => True
  | oneOf s => s.Proper
  | counted body least greatest _ => body.Fit ∧ ∀ g ∈ greatest, least ≤ g
  | group _ body => body.Fit
  | seq parts => AllFit parts
  | alt branches => branches ≠ [] ∧ AllFit branches

/-- Whether each of several patterns is fit. -/
def AllFit : List Pattern → Prop
  | [] => True
  | p :: ps => p.Fit ∧ AllFit ps

end

theorem allFit_iff {ps : List Pattern} : AllFit ps ↔ ∀ p ∈ ps, p.Fit := by
  induction ps with
  | nil => simp [AllFit]
  | cons p ps ih => rw [AllFit, ih, List.forall_mem_cons]

mutual

/-- A fit pattern gives an expression that can be run. -/
theorem Fit.sound_toRegex : ∀ {p : Pattern}, p.Fit → p.toRegex.Sound
  | blank, _ => True.intro
  | text cs, _ => Regex.sound_concat fun r hr => by
    obtain ⟨c, -, rfl⟩ := List.mem_map.mp hr
    exact True.intro
  | oneOf _, _ => True.intro
  | counted _ _ _ _, fit => by
    rw [Fit] at fit
    exact ⟨fit.1.sound_toRegex, fit.2⟩
  | group _ _, fit => by
    rw [Fit] at fit
    exact fit.sound_toRegex
  | seq _, fit => by
    rw [Fit] at fit
    exact Regex.sound_concat fit.sound_toRegexes
  | alt _, fit => by
    rw [Fit] at fit
    exact Regex.sound_choice fit.2.sound_toRegexes

theorem AllFit.sound_toRegexes : ∀ {ps : List Pattern}, AllFit ps → ∀ r ∈ toRegexes ps, r.Sound
  | [], _ => fun _ mem => absurd mem List.not_mem_nil
  | _ :: _, fit => by
    rw [AllFit] at fit
    rw [toRegexes]
    exact List.forall_mem_cons.mpr ⟨fit.1.sound_toRegex, fit.2.sound_toRegexes⟩

end

/-! ## Written alike -/

mutual

theorem eq_of_isSame : ∀ {p q : Pattern}, p.isSame q = true → p = q
  | blank, q, h => by cases q <;> first | rfl | cases h
  | text a, q, h => by
    cases q with
    | text b => rw [isSame, beq_iff_eq] at h; rw [h]
    | _ => cases h
  | oneOf s, q, h => by
    cases q with
    | oneOf t => rw [isSame, beq_iff_eq] at h; rw [h]
    | _ => cases h
  | counted p least greatest isLazy, q, h => by
    cases q with
    | counted q least' greatest' isLazy' =>
      rw [isSame, Bool.and_eq_true, Bool.and_eq_true, Bool.and_eq_true, beq_iff_eq, beq_iff_eq,
        beq_iff_eq] at h
      obtain ⟨⟨⟨rfl, rfl⟩, rfl⟩, same⟩ := h
      rw [eq_of_isSame same]
    | _ => cases h
  | group m p, q, h => by
    cases q with
    | group n q =>
      rw [isSame, Bool.and_eq_true, beq_iff_eq] at h
      obtain ⟨rfl, same⟩ := h
      rw [eq_of_isSame same]
    | _ => cases h
  | seq ps, q, h => by
    cases q with
    | seq qs => rw [isSame] at h; rw [eq_of_allSame h]
    | _ => cases h
  | alt ps, q, h => by
    cases q with
    | alt qs => rw [isSame] at h; rw [eq_of_allSame h]
    | _ => cases h

theorem eq_of_allSame : ∀ {ps qs : List Pattern}, allSame ps qs = true → ps = qs
  | [], qs, h => by
    cases qs with
    | nil => rfl
    | cons => cases h
  | p :: ps, qs, h => by
    cases qs with
    | nil => cases h
    | cons q qs =>
      rw [allSame, Bool.and_eq_true] at h
      rw [eq_of_isSame h.1, eq_of_allSame h.2]

end

/-! ## The builders -/

variable {p : Pattern} {ps : List Pattern} {least : Nat} {greatest : Option Nat}

mutual

/-- A fit pattern that is blank matches the empty text and nothing else. -/
theorem Fit.texts_of_isBlank : ∀ {p : Pattern}, p.Fit → p.isBlank = true → p.texts = 1
  | blank, _, _ => rfl
  | text cs, _, h => by
    rw [isBlank, List.isEmpty_iff] at h
    rw [h, texts_text]
    rfl
  | oneOf s, _, h => by cases h
  | counted body least greatest isLazy, fit, h => by
    rw [isBlank, Bool.and_eq_true] at h
    rw [Fit] at fit
    rw [texts_counted, fit.1.texts_of_isBlank h.2, Regex.between_one fit.2]
  | group n body, fit, h => by
    rw [isBlank] at h
    rw [Fit] at fit
    exact fit.texts_of_isBlank h
  | seq parts, fit, h => by
    rw [isBlank] at h
    rw [Fit] at fit
    rw [texts_seq]
    exact List.prod_eq_one (fit.texts_of_allBlank h)
  | alt branches, fit, h => by
    rw [isBlank] at h
    rw [Fit] at fit
    rw [texts_alt]
    have all := fit.2.texts_of_allBlank h
    obtain ⟨p, ps, rfl⟩ := List.exists_cons_of_ne_nil fit.1
    ext w
    rw [Regex.mem_sum]
    constructor
    · rintro ⟨L, mem, h⟩
      exact all L mem ▸ h
    · exact fun h => ⟨_, List.mem_cons_self, (all _ List.mem_cons_self).symm ▸ h⟩

theorem AllFit.texts_of_allBlank : ∀ {ps : List Pattern}, AllFit ps → allBlank ps = true →
    ∀ L ∈ ps.map texts, L = 1
  | [], _, _ => fun _ mem => absurd mem List.not_mem_nil
  | p :: ps, fit, h => by
    rw [allBlank, Bool.and_eq_true] at h
    rw [AllFit] at fit
    exact List.forall_mem_cons.mpr ⟨fit.1.texts_of_isBlank h.1, fit.2.texts_of_allBlank h.2⟩

end

theorem fit_ofSet {s : CharSet} (proper : s.Proper) : (ofSet s).Fit := by
  rw [ofSet]
  split
  · rw [Fit]
    exact True.intro
  · rw [Fit]
    exact proper

theorem texts_ofSet {s : CharSet} (proper : s.Proper) :
    (ofSet s).texts = (Regex.chars s).texts := by
  rw [ofSet]
  split
  · next c only =>
    rw [CharSet.only?] at only
    split at only
    · next first last shape =>
      split at only
      · next same =>
        obtain ⟨-, valid, -⟩ := proper (first, last) (shape ▸ List.mem_singleton_self _)
        obtain rfl : Char.ofNat first = c := Option.some.inj only
        obtain rfl : s = .single (Char.ofNat first) := by
          cases s
          rw [CharSet.single, Utf8.toNat_ofNat valid]
          rw [same] at shape ⊢
          exact congrArg CharSet.mk shape
        rw [texts_text, Regex.texts_single, List.flatMap_cons, List.flatMap_nil, List.append_nil]
      · cases only
    · cases only
  · rfl

/-- The bounds for a blank text do not run backwards either. -/
theorem ordered_atMostOne (ordered : ∀ g ∈ greatest, least ≤ g) :
    ∀ g ∈ some (min (greatest.getD 1) 1), min least 1 ≤ g := by
  intro g hg
  obtain rfl := Option.some.inj hg
  cases greatest with
  | none => rw [Option.getD_none]; omega
  | some g => have := ordered g rfl; rw [Option.getD_some]; omega

theorem fit_repeated (fit : p.Fit) (ordered : ∀ g ∈ greatest, least ≤ g) (isLazy : Bool) :
    (p.repeated least greatest isLazy).Fit := by
  have counted : ∀ least greatest, (∀ g ∈ greatest, least ≤ g) →
      (if greatest = some 0 then blank
        else if least = 1 && greatest = some 1 then p
        else counted p least greatest isLazy).Fit := by
    intro least greatest ordered
    split
    · rw [Fit]
      exact True.intro
    · split
      · exact fit
      · rw [Fit]
        exact ⟨fit, ordered⟩
  rw [repeated]
  by_cases blank : p.isBlank = true
  · rw [if_pos blank]
    exact counted _ _ (ordered_atMostOne ordered)
  · rw [if_neg blank]
    exact counted _ _ ordered

theorem texts_repeated (fit : p.Fit) (ordered : ∀ g ∈ greatest, least ≤ g) (isLazy : Bool) :
    (p.repeated least greatest isLazy).texts = between p.texts least greatest := by
  have counted : ∀ least greatest, (∀ g ∈ greatest, least ≤ g) →
      (if greatest = some 0 then blank
        else if least = 1 && greatest = some 1 then p
        else counted p least greatest isLazy).texts = between p.texts least greatest := by
    intro least greatest ordered
    split
    · next none =>
      subst none
      rw [Nat.le_zero.mp (ordered 0 rfl), Regex.between_exactly]
      rfl
    · split
      · next once =>
        rw [Bool.and_eq_true, decide_eq_true_eq, decide_eq_true_eq] at once
        rw [once.1, once.2, Regex.between_exactly, pow_one]
      · rfl
  rw [repeated]
  by_cases blank : p.isBlank = true
  · rw [if_pos blank]
    refine (counted _ _ (ordered_atMostOne ordered)).trans ?_
    rw [fit.texts_of_isBlank blank, Regex.between_one ordered,
      Regex.between_one (ordered_atMostOne ordered)]
  · rw [if_neg blank]
    exact counted _ _ ordered

/-! ### Sequences -/

theorem fit_parts (fit : p.Fit) : ∀ q ∈ p.parts, q.Fit := by
  cases p with
  | blank => exact fun _ mem => absurd mem List.not_mem_nil
  | seq ps => rw [Fit] at fit; exact allFit_iff.mp fit
  | _ => exact fun q mem => List.mem_singleton.mp mem ▸ fit

theorem texts_parts (p : Pattern) : (p.parts.map texts).prod = p.texts := by
  cases p with
  | blank => rfl
  | seq ps => exact (texts_seq ps).symm
  | _ => exact mul_one _

theorem fit_joinPart (fit : p.Fit) (all : ∀ q ∈ ps, q.Fit) : ∀ q ∈ joinPart p ps, q.Fit := by
  unfold joinPart
  split
  · refine List.forall_mem_cons.mpr ⟨?_, fun q hq => all q (List.mem_cons_of_mem _ hq)⟩
    rw [Fit]
    exact True.intro
  · exact List.forall_mem_cons.mpr ⟨fit, all⟩

theorem texts_joinPart (p : Pattern) (ps : List Pattern) :
    ((joinPart p ps).map texts).prod = p.texts * (ps.map texts).prod := by
  unfold joinPart
  split
  · rw [List.map_cons, List.prod_cons, List.map_cons, List.prod_cons, texts_text, texts_text,
      texts_text, List.flatMap_append, Regex.just_append, mul_assoc]
  · rw [List.map_cons, List.prod_cons]

theorem fit_foldr_joinPart (all : ∀ q ∈ ps, q.Fit) : ∀ q ∈ ps.foldr joinPart [], q.Fit := by
  induction ps with
  | nil => exact fun _ mem => absurd mem List.not_mem_nil
  | cons p ps ih =>
    obtain ⟨own, rest⟩ := List.forall_mem_cons.mp all
    exact fit_joinPart own (ih rest)

theorem texts_foldr_joinPart (ps : List Pattern) :
    ((ps.foldr joinPart []).map texts).prod = (ps.map texts).prod := by
  induction ps with
  | nil => rfl
  | cons p ps ih => rw [List.foldr_cons, texts_joinPart, ih, List.map_cons, List.prod_cons]

theorem fit_concat (all : ∀ p ∈ ps, p.Fit) : (concat ps).Fit := by
  have parts : ∀ q ∈ (ps.flatMap parts).foldr joinPart [], q.Fit :=
    fit_foldr_joinPart fun q mem => by
      obtain ⟨p, hp, hq⟩ := List.mem_flatMap.mp mem
      exact fit_parts (all p hp) q hq
  rw [concat]
  split
  · rw [Fit]
    exact True.intro
  · next p single => exact parts p (single ▸ List.mem_singleton_self p)
  · rw [Fit]
    exact allFit_iff.mpr parts

theorem texts_concat (ps : List Pattern) : (concat ps).texts = (ps.map texts).prod := by
  have flat : ((ps.flatMap parts).map texts).prod = (ps.map texts).prod := by
    induction ps with
    | nil => rfl
    | cons p ps ih =>
      rw [List.flatMap_cons, List.map_append, List.prod_append, ih, texts_parts, List.map_cons,
        List.prod_cons]
  rw [← flat, ← texts_foldr_joinPart, concat]
  split
  · next none => rw [none]; rfl
  · next p single => rw [single, List.map_singleton, List.prod_singleton]
  · exact texts_seq _

/-! ### Choices -/

theorem fit_branches (fit : p.Fit) : ∀ q ∈ p.branches, q.Fit := by
  cases p with
  | alt ps => rw [Fit] at fit; exact allFit_iff.mp fit.2
  | _ => exact fun q mem => List.mem_singleton.mp mem ▸ fit

theorem texts_branches (p : Pattern) : (p.branches.map texts).sum = p.texts := by
  cases p with
  | alt ps => exact (texts_alt ps).symm
  | _ => exact add_zero _

theorem fit_flatMap_branches (all : ∀ p ∈ ps, p.Fit) : ∀ q ∈ ps.flatMap branches, q.Fit := by
  intro q mem
  obtain ⟨p, hp, hq⟩ := List.mem_flatMap.mp mem
  exact fit_branches (all p hp) q hq

theorem texts_flatMap_branches (ps : List Pattern) :
    ((ps.flatMap branches).map texts).sum = (ps.map texts).sum := by
  induction ps with
  | nil => rfl
  | cons p ps ih =>
    rw [List.flatMap_cons, List.map_append, List.sum_append, ih, texts_branches, List.map_cons,
      List.sum_cons]

/-- A list of patterns that all are sets of characters by some reading of them. -/
theorem sum_of_mapM {read : Pattern → Option CharSet}
    (reads : ∀ p s, read p = some s → p.Fit → s.Proper ∧ p.texts = (Regex.chars s).texts)
    {sets : List CharSet} (all : ∀ p ∈ ps, p.Fit)
    (h : ps.mapM read = some sets) : (∀ s ∈ sets, s.Proper) ∧
      ∀ w, w ∈ (ps.map texts).sum ↔ ∃ s ∈ sets, w ∈ (Regex.chars s).texts := by
  induction ps generalizing sets with
  | nil =>
    obtain rfl : [] = sets := Option.some.inj h
    exact ⟨fun _ mem => absurd mem List.not_mem_nil,
      fun w => ⟨fun h => absurd h (Language.notMem_zero w),
        fun ⟨_, mem, _⟩ => absurd mem List.not_mem_nil⟩⟩
  | cons p ps ih =>
    obtain ⟨own, rest⟩ := List.forall_mem_cons.mp all
    rw [List.mapM_cons] at h
    obtain ⟨s, hs, h⟩ := Option.bind_eq_some_iff.mp h
    obtain ⟨others, hothers, h⟩ := Option.bind_eq_some_iff.mp h
    obtain rfl : s :: others = sets := Option.some.inj h
    obtain ⟨proper, eq⟩ := reads p s hs own
    obtain ⟨propers, sum⟩ := ih rest hothers
    refine ⟨List.forall_mem_cons.mpr ⟨proper, propers⟩, fun w => ?_⟩
    rw [List.map_cons, List.sum_cons, Language.mem_add, sum, eq, List.exists_mem_cons_iff]

theorem letter?_spec (p : Pattern) (s : CharSet) (h : p.letter? = some s) (_ : p.Fit) :
    s.Proper ∧ p.texts = (Regex.chars s).texts := by
  unfold letter? at h
  split at h
  · next c _ =>
    obtain rfl := Option.some.inj h
    refine ⟨CharSet.proper_single c, ?_⟩
    rw [texts_text, Regex.texts_single, List.flatMap_cons, List.flatMap_nil, List.append_nil]
  · cases h

theorem set?_spec (p : Pattern) (s : CharSet) (h : p.set? = some s) (fit : p.Fit) :
    s.Proper ∧ p.texts = (Regex.chars s).texts := by
  unfold set? at h
  split at h
  · obtain rfl := Option.some.inj h
    rw [Fit] at fit
    exact ⟨fit, rfl⟩
  · cases h

theorem branching_spec (all : ∀ p ∈ ps, p.Fit) :
    (branching ps).Fit ∧ (branching ps).texts = (ps.map texts).sum := by
  rcases ps with _ | ⟨p, _ | ⟨q, ps⟩⟩
  · rw [branching, Fit]
    exact ⟨CharSet.proper_none, Regex.texts_chars_none⟩
  · exact ⟨all p (List.mem_singleton_self p), (add_zero _).symm⟩
  · have some : p :: q :: ps ≠ [] := List.cons_ne_nil _ _
    rw [branching.eq_3 _ some (by simp)]
    generalize p :: q :: ps = ps at all some ⊢
    split
    · next sets found =>
      obtain ⟨propers, sum⟩ : (∀ s ∈ sets, s.Proper) ∧
          ∀ w, w ∈ (ps.map texts).sum ↔ ∃ s ∈ sets, w ∈ (Regex.chars s).texts := by
        rcases Option.or_eq_some_iff.mp found with letters | ⟨-, sets⟩
        · exact sum_of_mapM letter?_spec all letters
        · exact sum_of_mapM set?_spec all sets
      obtain ⟨proper, held⟩ := CharSet.unionOf_spec propers
      refine ⟨fit_ofSet proper, ?_⟩
      rw [texts_ofSet proper]
      ext w
      rw [sum]
      constructor
      · rintro ⟨c, mem, rfl⟩
        obtain ⟨s, hs, mem⟩ := (held _).mp mem
        exact ⟨s, hs, c, mem, rfl⟩
      · rintro ⟨s, hs, c, mem, rfl⟩
        exact ⟨c, (held _).mpr ⟨s, hs, mem⟩, rfl⟩
    · rw [Fit]
      exact ⟨⟨some, allFit_iff.mpr all⟩, texts_alt ps⟩

theorem sequence?_eq_some {parts : List Pattern} (h : p.sequence? = some parts) :
    p = seq parts := by
  unfold sequence? at h
  split at h
  · rw [Option.some.inj h]
  · cases h

theorem sharedParts_left (ps qs : List Pattern) : sharedParts ps qs <+: ps := by
  induction ps generalizing qs with
  | nil => exact List.nil_prefix
  | cons p ps ih =>
    cases qs with
    | nil => exact List.nil_prefix
    | cons q qs =>
      rw [sharedParts]
      split
      · exact List.cons_prefix_cons.mpr ⟨rfl, ih qs⟩
      · exact List.nil_prefix

theorem sharedParts_right (ps qs : List Pattern) : sharedParts ps qs <+: qs := by
  induction ps generalizing qs with
  | nil => exact List.nil_prefix
  | cons p ps ih =>
    cases qs with
    | nil => exact List.nil_prefix
    | cons q qs =>
      rw [sharedParts]
      split
      · next same => exact List.cons_prefix_cons.mpr ⟨eq_of_isSame same, ih qs⟩
      · exact List.nil_prefix

/-- What several sequences share is what each of them starts with. -/
theorem foldl_sharedParts (first : List Pattern) (others : List (List Pattern)) :
    ∀ ps ∈ first :: others, others.foldl sharedParts first <+: ps := by
  induction others generalizing first with
  | nil =>
    intro ps mem
    obtain rfl := List.mem_singleton.mp mem
    exact List.prefix_rfl
  | cons second others ih =>
    rw [List.foldl_cons]
    have shorter := ih (sharedParts first second)
    obtain ⟨start, rest⟩ := List.forall_mem_cons.mp shorter
    exact List.forall_mem_cons.mpr ⟨start.trans (sharedParts_left first second),
      List.forall_mem_cons.mpr ⟨start.trans (sharedParts_right first second), rest⟩⟩

theorem eq_map_of_mapM_sequence? {seqs : List (List Pattern)}
    (h : ps.mapM sequence? = some seqs) : ps = seqs.map seq := by
  induction ps generalizing seqs with
  | nil => rw [← Option.some.inj h]; rfl
  | cons p ps ih =>
    rw [List.mapM_cons] at h
    obtain ⟨parts, hparts, h⟩ := Option.bind_eq_some_iff.mp h
    obtain ⟨others, hothers, h⟩ := Option.bind_eq_some_iff.mp h
    obtain rfl : parts :: others = seqs := Option.some.inj h
    rw [List.map_cons, ← ih hothers, sequence?_eq_some hparts]

/-- What sequences start with can stand in front of the choice between their rests. -/
theorem sum_of_shared {shared : List Pattern} {seqs : List (List Pattern)}
    (starts : ∀ ps ∈ seqs, shared <+: ps) :
    ((seqs.map seq).map texts).sum = (shared.map texts).prod *
      ((seqs.map fun parts => concat (parts.drop shared.length)).map texts).sum := by
  rw [List.map_map, List.map_map, ← List.sum_map_mul_left]
  congr 1
  refine List.map_congr_left fun parts mem => ?_
  obtain ⟨rest, rfl⟩ := starts parts mem
  rw [Function.comp_apply, Function.comp_apply, texts_seq, texts_concat, List.drop_left,
    List.map_append, List.prod_append]

theorem choice_spec (all : ∀ p ∈ ps, p.Fit) :
    (choice ps).Fit ∧ (choice ps).texts = (ps.map texts).sum := by
  have fit := fit_flatMap_branches all
  rw [← texts_flatMap_branches, choice]
  generalize ps.flatMap branches = ps at fit ⊢
  split
  · next first second others found =>
    dsimp only
    split
    · exact branching_spec fit
    · have seqs := eq_map_of_mapM_sequence? found
      have starts := foldl_sharedParts first (second :: others)
      generalize (second :: others).foldl sharedParts first = shared at starts ⊢
      have parts : ∀ ps ∈ first :: second :: others, ∀ p ∈ ps, p.Fit := by
        intro parts mem
        have own := fit (seq parts) (seqs ▸ List.mem_map_of_mem mem)
        rw [Fit] at own
        exact allFit_iff.mp own
      have inFirst : ∀ p ∈ shared, p.Fit := fun p hp =>
        parts first List.mem_cons_self p ((starts first List.mem_cons_self).subset hp)
      generalize first :: second :: others = lists at seqs starts parts ⊢
      have rests : ∀ p ∈ lists.map fun parts => concat (parts.drop shared.length), p.Fit := by
        intro p mem
        obtain ⟨own, hown, rfl⟩ := List.mem_map.mp mem
        exact fit_concat fun q hq => parts own hown q (List.mem_of_mem_drop hq)
      obtain ⟨restFit, rest⟩ := branching_spec (fit_flatMap_branches rests)
      refine ⟨fit_concat fun p mem => ?_, ?_⟩
      · exact (List.mem_append.mp mem).elim (inFirst p) fun h => List.mem_singleton.mp h ▸ restFit
      · rw [texts_concat, List.map_append, List.prod_append, List.map_singleton,
          List.prod_singleton, rest, texts_flatMap_branches, seqs, sum_of_shared starts]
  · exact branching_spec fit

theorem fit_choice (all : ∀ p ∈ ps, p.Fit) : (choice ps).Fit := (choice_spec all).1

theorem texts_choice (all : ∀ p ∈ ps, p.Fit) : (choice ps).texts = (ps.map texts).sum :=
  (choice_spec all).2

end Pattern

end Glr
