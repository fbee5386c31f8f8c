import Glr.Proofs.FirstSets
import Glr.Proofs.Lowered
import Mathlib

/-!
# First sets are exact

A symbol is nullable just if it derives the empty text, and the first set of a symbol holds just
the terminals that something derived from it begins with (`first_sets_exact`).  What is derived may
be any string of symbols: it need not come down to a text, so a nonterminal that derives no text
at all begins with something too.

That the sets hold no more is kept by every production that is gone over (`Sound`).  That they miss
nothing was shown for texts alone, and a derivation that never comes down to a text cannot be taken
apart symbol by symbol.  So the proof here goes along it, one replacement after another and from its
end: the sets are closed under every production, and what the symbols behind a replacement begin
with the symbols before it begin with already (`Rewrites.contains_ofList`).
-/

namespace Glr

namespace FlatGrammar

/-- A terminal that something derived from symbols begins with. -/
def Begins (g : FlatGrammar) (ss : List Symbol) (t : Symbol) : Prop :=
  g.isTerminal t = true ∧ ∃ rest, g.Derives ss (t :: rest)

variable {g : FlatGrammar}

theorem Derives.append_right {ss ts : List Symbol} (h : g.Derives ss ts) (after : List Symbol) :
    g.Derives (ss ++ after) (ts ++ after) := h.context [] after

/-- A left side is replaced by its right side. -/
theorem Derives.of_mem {p : FlatProduction} (h : p ∈ g.productions) : g.Derives [p.lhs] p.rhs := by
  have := Rewrites.intro [] [] h
  rw [List.nil_append, List.nil_append, List.append_nil] at this
  exact .single this

end FlatGrammar

namespace FirstSets

open FlatGrammar

variable {g : FlatGrammar} {f : FirstSets} {tail tail' : SymbolBits} {s t : Symbol}
  {ss ts : List Symbol}

/-! ## Lists of symbols -/

theorem ofList_append (f : FirstSets) (tail : SymbolBits) (ss ts : List Symbol) :
    f.ofList tail (ss ++ ts) = f.ofList (f.ofList tail ts) ss := by
  induction ss with
  | nil => rfl
  | cons s ss ih => rw [List.cons_append, ofList, ofList, ih]

/-- The tail counts just if all symbols before it are nullable. -/
theorem contains_ofList_iff : (f.ofList tail ss).contains t = true ↔
    (f.ofList SymbolBits.empty ss).contains t = true ∨
      (∀ s ∈ ss, f.nullable.contains s = true) ∧ tail.contains t = true := by
  induction ss with
  | nil => simp [ofList]
  | cons s ss ih =>
    rw [ofList, ofList]
    by_cases nullable : f.nullable.contains s = true
    · rw [if_pos nullable, if_pos nullable, SymbolBits.contains_union, SymbolBits.contains_union,
        Bool.or_eq_true, Bool.or_eq_true, ih, List.forall_mem_cons, or_assoc,
        and_iff_right nullable]
    · rw [if_neg nullable, if_neg nullable, List.forall_mem_cons]
      exact (or_iff_left fun h => nullable h.1.1).symm

theorem ofList_mono (sub : ∀ t, tail.contains t = true → tail'.contains t = true)
    (h : (f.ofList tail ss).contains t = true) : (f.ofList tail' ss).contains t = true := by
  rw [contains_ofList_iff] at h ⊢
  exact h.imp_right (And.imp_right (sub t))

/-! ## Nothing too many -/

/-- What the sets say is derived. -/
structure Sound (g : FlatGrammar) (f : FirstSets) : Prop where
  nullable : ∀ s, f.nullable.contains s = true → g.Derives [s] []
  first : ∀ s t, (f.ofSymbol s).contains t = true → ∃ rest, g.Derives [s] (t :: rest)

theorem Sound.derives_nil (sound : Sound g f) (h : ∀ s ∈ ss, f.nullable.contains s = true) :
    g.Derives ss [] := by
  induction ss with
  | nil => exact .refl
  | cons s ss ih =>
    obtain ⟨head, rest⟩ := List.forall_mem_cons.mp h
    exact ((sound.nullable s head).append_right ss).trans (ih rest)

theorem Sound.ofList (sound : Sound g f) (h : (f.ofList tail ss).contains t = true) :
    (∃ rest, g.Derives ss (t :: rest)) ∨ g.Derives ss [] ∧ tail.contains t = true := by
  induction ss with
  | nil => exact Or.inr ⟨.refl, h⟩
  | cons s ss ih =>
    have begins (first : (f.ofSymbol s).contains t = true) :
        ∃ rest, g.Derives (s :: ss) (t :: rest) := by
      obtain ⟨rest, derives⟩ := sound.first s t first
      exact ⟨rest ++ ss, derives.append_right ss⟩
    rw [FirstSets.ofList] at h
    split at h
    · next nullable =>
      have vanishes : g.Derives (s :: ss) ss := (sound.nullable s nullable).append_right ss
      rw [SymbolBits.contains_union, Bool.or_eq_true] at h
      rcases h with first | later
      · exact Or.inl (begins first)
      · rcases ih later with ⟨rest, derives⟩ | ⟨derives, mem⟩
        · exact Or.inl ⟨rest, vanishes.trans derives⟩
        · exact Or.inr ⟨vanishes.trans derives, mem⟩
    · exact Or.inl (begins h)

theorem Sound.addProduction (sound : Sound g f) {p : FlatProduction} (mem : p ∈ g.productions) :
    Sound g (f.addProduction p) where
  nullable s h := by
    rw [FirstSets.addProduction] at h
    split at h
    · next all =>
      rw [SymbolBits.contains_insert, Bool.or_eq_true, decide_eq_true_eq] at h
      rcases h with h | rfl
      · exact sound.nullable s h
      · exact (Derives.of_mem mem).trans (sound.derives_nil (List.all_eq_true.mp all))
    · exact sound.nullable s h
  first s t h := by
    rw [FirstSets.addProduction, ofSymbol] at h
    rcases SymbolBits.contains_of_modify h with before | ⟨rfl, added⟩
    · exact sound.first s t before
    · rcases sound.ofList added with ⟨rest, derives⟩ | ⟨-, none⟩
      · exact ⟨rest, (Derives.of_mem mem).trans derives⟩
      · rw [SymbolBits.contains_empty] at none
        cases none

theorem sound_start : Sound g (start g) where
  nullable s h := by
    rw [start, SymbolBits.contains_empty] at h
    cases h
  first s t h := by
    rw [ofSymbol, start, Array.getD_eq_getD_getElem?, Array.getElem?_mapIdx] at h
    cases hs : g.symbols[s]? with
    | none =>
      rw [hs, Option.map_none, Option.getD_none, SymbolBits.contains_empty] at h
      cases h
    | some info =>
      rw [hs, Option.map_some, Option.getD_some] at h
      split at h
      · rw [SymbolBits.contains_single, decide_eq_true_eq] at h
        exact ⟨[], h ▸ .refl⟩
      · rw [SymbolBits.contains_empty] at h
        cases h

theorem sound_ofGrammar : Sound g (ofGrammar g) := by
  refine saturate_keeps (P := Sound g) (fun f sound => ?_) sound_start
  rw [round_eq]
  exact foldl_keeps (fun f sound p mem => sound.addProduction (Array.mem_toList_iff.mp mem)) sound

/-! ## Nothing missed -/

section Fixed

variable (wf : g.WellFormed)

include wf

/-- What a right side begins with its left side begins with. -/
theorem contains_ofList_lhs {p : FlatProduction} (mem : p ∈ g.productions)
    (h : ((ofGrammar g).ofList tail p.rhs).contains t = true) :
    ((ofGrammar g).ofList tail [p.lhs]).contains t = true := by
  rcases contains_ofList_iff.mp h with first | ⟨nullable, inTail⟩
  · exact contains_ofList_of_first (first_of_production wf mem first)
  · exact contains_ofList_of_nullable (nullable_of_production wf mem nullable) inTail

/-- What symbols begin with after a replacement they begin with before it. -/
theorem Rewrites.contains_ofList (step : g.Rewrites ss ts)
    (h : ((ofGrammar g).ofList tail ts).contains t = true) :
    ((ofGrammar g).ofList tail ss).contains t = true := by
  cases step with
  | intro before after mem =>
    rw [ofList_append, ofList_append] at h
    rw [ofList_append, ← List.singleton_append, ofList_append]
    exact ofList_mono (fun u hu => contains_ofList_lhs wf mem hu) h

/-- Symbols that are nullable after a replacement are so before it. -/
theorem Rewrites.nullable (step : g.Rewrites ss ts)
    (h : ∀ s ∈ ts, (ofGrammar g).nullable.contains s = true) :
    ∀ s ∈ ss, (ofGrammar g).nullable.contains s = true := by
  cases step with
  | intro before after mem =>
    rw [List.forall_mem_append, List.forall_mem_append] at h
    rw [List.forall_mem_append, List.forall_mem_cons]
    exact ⟨h.1, nullable_of_production wf mem h.2.1, h.2.2⟩

theorem nullable_of_derives (h : g.Derives ss []) :
    ∀ s ∈ ss, (ofGrammar g).nullable.contains s = true := by
  induction h using Relation.ReflTransGen.head_induction_on with
  | refl => exact fun s hs => absurd hs List.not_mem_nil
  | head step _ ih => exact Rewrites.nullable wf step ih

theorem contains_ofList_of_begins (h : g.Begins ss t) :
    ((ofGrammar g).ofList tail ss).contains t = true := by
  obtain ⟨terminal, rest, derives⟩ := h
  induction derives using Relation.ReflTransGen.head_induction_on with
  | refl => exact contains_ofList_of_first (first_of_terminal wf terminal)
  | head step _ ih => exact Rewrites.contains_ofList wf step ih

/-! ## Both -/

theorem nullable_iff_derives : (∀ s ∈ ss, (ofGrammar g).nullable.contains s = true) ↔
    g.Derives ss [] := ⟨sound_ofGrammar.derives_nil, nullable_of_derives wf⟩

/-- The first set of symbols with a tail behind them. -/
theorem contains_ofList_iff_begins : ((ofGrammar g).ofList tail ss).contains t = true ↔
    g.Begins ss t ∨ g.Derives ss [] ∧ tail.contains t = true := by
  rw [contains_ofList_iff, nullable_iff_derives wf]
  refine or_congr_left ⟨fun h => ⟨(within_ofGrammar wf).ofEmptyTail h, ?_⟩,
    contains_ofList_of_begins wf⟩
  refine (sound_ofGrammar.ofList h).resolve_right fun none => ?_
  rw [SymbolBits.contains_empty] at none
  cases none.2

theorem begins_iff :
    g.Begins ss t ↔ ((ofGrammar g).ofList SymbolBits.empty ss).contains t = true := by
  rw [contains_ofList_iff_begins wf, SymbolBits.contains_empty]
  exact (or_iff_left fun none => Bool.false_ne_true none.2).symm

theorem contains_ofSymbol_iff_begins : ((ofGrammar g).ofSymbol s).contains t = true ↔
    g.Begins [s] t := by
  rw [begins_iff wf, ofList, ofList]
  split
  · rw [SymbolBits.contains_union, SymbolBits.contains_empty, Bool.or_false]
  · exact Iff.rfl

omit wf in
/-- Nothing is derived from a terminal but itself. -/
theorem eq_of_derives_terminal (wf : g.WellFormed) {u : Symbol} (terminal : g.isTerminal u = true)
    (h : g.Derives [u] ss) : ss = [u] := by
  induction h with
  | refl => rfl
  | tail _ step ih =>
    subst ih
    generalize single : [u] = us at step
    cases step with
    | @intro before after p mem =>
      have same : u = p.lhs := by
        cases before with
        | nil => exact (List.cons.inj single).1
        | cons b before => simp at single
      rw [same, wf.lhs_nonterminal p mem] at terminal
      cases terminal

/-- What symbols with a terminal behind them begin with. -/
theorem begins_concat {u : Symbol} (terminal : g.isTerminal u = true) :
    g.Begins (ss ++ [u]) t ↔ g.Begins ss t ∨ g.Derives ss [] ∧ u = t := by
  have alone : g.Begins [u] t ↔ u = t := by
    refine ⟨fun ⟨_, rest, derives⟩ => ?_, fun same => same ▸ ⟨terminal, [], .refl⟩⟩
    exact (List.cons.inj (eq_of_derives_terminal wf terminal derives)).1.symm
  rw [begins_iff wf, ofList_append, contains_ofList_iff_begins wf, ← begins_iff wf, alone]

end Fixed

/-- The nullable symbols are those that derive the empty text, and a first set holds the terminals
that something derived begins with; the tail of a list counts where all of the list can vanish.  The
rounds come to an end: after some of them, no more than the sets have room for, another one changes
nothing. -/
theorem first_sets_exact {G : Grammar} (lowered : G.lower = .ok g) :
    (∀ s, (ofGrammar g).nullable.contains s = true ↔ g.Derives [s] []) ∧
    (∀ s t, ((ofGrammar g).ofSymbol s).contains t = true ↔ g.Begins [s] t) ∧
    (∀ tail ss t, ((ofGrammar g).ofList tail ss).contains t = true ↔
      g.Begins ss t ∨ g.Derives ss [] ∧ tail.contains t = true) ∧
    (∀ tail : SymbolBits, (∃ u, tail.contains u = true) →
      (∀ u, tail.contains u = true → g.isTerminal u = true) →
      ∀ ss t, ((ofGrammar g).ofList tail ss).contains t = true ↔
        ∃ u, tail.contains u = true ∧ g.Begins (ss ++ [u]) t) ∧
    (∃ n ≤ g.symbols.size * (g.symbols.size + 1), ofGrammar g = (round g)^[n] (start g)) ∧
    round g (ofGrammar g) = ofGrammar g := by
  have wf := Grammar.wellFormed_of_lower lowered
  refine ⟨fun s => ?_, fun s t => contains_ofSymbol_iff_begins wf,
    fun tail ss t => contains_ofList_iff_begins wf, fun tail some terminals ss t => ?_, ?_,
    round_ofGrammar wf⟩
  · rw [← nullable_iff_derives wf, List.forall_mem_singleton]
  · rw [contains_ofList_iff_begins wf]
    constructor
    · rintro (begins | ⟨vanishes, mem⟩)
      · obtain ⟨u, hu⟩ := some
        exact ⟨u, hu, (begins_concat wf (terminals u hu)).mpr (Or.inl begins)⟩
      · exact ⟨t, mem, (begins_concat wf (terminals t mem)).mpr (Or.inr ⟨vanishes, rfl⟩)⟩
    · rintro ⟨u, hu, begins⟩
      refine ((begins_concat wf (terminals u hu)).mp begins).imp_right ?_
      rintro ⟨vanishes, rfl⟩
      exact ⟨vanishes, hu⟩
  · have walk : ∃ n, rank g (start g) + n ≤ g.symbols.size * (g.symbols.size + 1) ∧
        ofGrammar g = (round g)^[n] (start g) :=
      saturate_eq_iterate (growth g) (P := Within g) (fun _ h => (Within.round wf h).2)
        (fun _ h => (Within.round wf h).1) (fun _ h => h.rank_le) within_start
    obtain ⟨n, room, rounds⟩ := walk
    exact ⟨n, Nat.le_trans (Nat.le_add_left _ _) room, rounds⟩

end FirstSets

namespace FlatGrammar

/-- Rules that begin with themselves and with each other, of which the last one ends in no text. -/
def knotted : Grammar where
  name := "knotted"
  rules := [
    ⟨"s", .choice [.seq [.ref "s", .literal "x"], .seq [.ref "t", .ref "u"], .ref "d"]⟩,
    ⟨"t", .choice [.blank, .seq [.ref "u", .ref "t"]]⟩,
    ⟨"u", .choice [.seq [.ref "t", .ref "t"], .literal "y"]⟩,
    ⟨"d", .choice [.ref "d", .seq [.literal "z", .ref "d"]]⟩]
  extras := []
  word := none
  conflicts := []
  externals := []
  strict := false

/-- The same, flat: the tokens are 2 to 4, and the rules are 5 to 8. -/
def knottedFlat : FlatGrammar where
  name := "knotted"
  symbols := #[⟨"end", true, false, false, false⟩, ⟨"ERROR", true, true, true, false⟩,
    ⟨"x", true, false, true, false⟩, ⟨"y", true, false, true, false⟩,
    ⟨"z", true, false, true, false⟩, ⟨"s", false, true, true, false⟩,
    ⟨"t", false, true, true, false⟩, ⟨"u", false, true, true, false⟩,
    ⟨"d", false, true, true, false⟩]
  tokens := [⟨2, .literal "x"⟩, ⟨3, .literal "y"⟩, ⟨4, .literal "z"⟩]
  productions := #[⟨5, [5, 2], 0, .neither, 0⟩, ⟨5, [6, 7], 0, .neither, 0⟩,
    ⟨5, [8], 0, .neither, 0⟩, ⟨6, [], 0, .neither, 0⟩, ⟨6, [7, 6], 0, .neither, 0⟩,
    ⟨7, [6, 6], 0, .neither, 0⟩, ⟨7, [3], 0, .neither, 0⟩, ⟨8, [8], 0, .neither, 0⟩,
    ⟨8, [4, 8], 0, .neither, 0⟩]
  start := 5
  extras := []
  word := none
  externals := []
  conflicts := []
  origin := #[0, 1, 2, 3, 4, 5, 6, 7, 8]

theorem knotted_lower : knotted.lower = .ok knottedFlat := by cbv

theorem knotted_first : knotted.lower = .ok knottedFlat ∧ knottedFlat.Derives [5] [] ∧
    knottedFlat.Begins [5] 2 ∧ ¬ knottedFlat.Derives [8] [] ∧ knottedFlat.Begins [8] 4 ∧
    knottedFlat.Begins ([7, 6] ++ [2]) 2 := by
  obtain ⟨nullable, first, -, ahead, -, -⟩ := FirstSets.first_sets_exact knotted_lower
  have terminal : ∀ u, (SymbolBits.single 2).contains u = true →
      knottedFlat.isTerminal u = true := by
    intro u hu
    rw [SymbolBits.contains_single, decide_eq_true_eq] at hu
    subst hu
    rfl
  obtain ⟨u, hu, begins⟩ := (ahead (SymbolBits.single 2) ⟨2, by decide⟩ terminal [7, 6] 2).mp
    (by decide +kernel)
  rw [SymbolBits.contains_single, decide_eq_true_eq] at hu
  subst hu
  refine ⟨knotted_lower, (nullable 5).mp (by decide +kernel), (first 5 2).mp (by decide +kernel),
    fun derives => ?_, (first 8 4).mp (by decide +kernel), begins⟩
  have nullable := (nullable 8).mpr derives
  revert nullable
  decide +kernel

end FlatGrammar

end Glr
