import Glr.Proofs.Derivation
import Glr.Proofs.Growth

/-!
# First sets miss nothing

The first sets are the result of a saturation, so they are closed under every production, and that
is all it takes: by induction over how symbols yield a text, the first terminal of the text is in
the first set of the symbols, and symbols that yield the empty text are nullable.  That the sets
hold nothing beyond that is another matter, and no proof about the tables needs it: a lookahead too
many never makes an automaton accept a text that is not derived.
-/

namespace Glr

namespace FirstSets

variable {g : FlatGrammar} {f : FirstSets}

/-- One slot for each symbol, and nothing but terminals in it. -/
def Within (g : FlatGrammar) (f : FirstSets) : Prop :=
  f.first.size = g.symbols.size ∧
    ∀ s t, (f.ofSymbol s).contains t = true → g.isTerminal t = true

/-- First sets grow in every part. -/
def Grows (g : FlatGrammar) (f f' : FirstSets) : Prop :=
  SymbolBits.Grows g.symbols.size f.nullable f'.nullable ∧
    List.Forall₂ (SymbolBits.Grows g.symbols.size) f.first.toList f'.first.toList

/-- How much is known. -/
def rank (g : FlatGrammar) (f : FirstSets) : Nat :=
  f.nullable.rank g.symbols.size + (f.first.toList.map (SymbolBits.rank g.symbols.size)).sum

theorem growth (g : FlatGrammar) : Growth (Grows g) (rank g) :=
  ((SymbolBits.growth g.symbols.size).prod (SymbolBits.growth g.symbols.size).array).comap
    (f := fun f : FirstSets => (f.nullable, f.first)) fun {b c} h => by
      obtain ⟨hn, hf⟩ := Prod.mk.inj h
      cases b
      cases c
      exact congrArg₂ FirstSets.mk hn hf

theorem Within.rank_le (h : Within g f) :
    rank g f ≤ g.symbols.size * (g.symbols.size + 1) := by
  have hn := SymbolBits.rank_le_bound g.symbols.size f.nullable
  have hf : (f.first.toList.map (SymbolBits.rank g.symbols.size)).sum ≤
      f.first.toList.length * g.symbols.size :=
    sum_map_le_length_mul fun a _ => SymbolBits.rank_le_bound _ a
  rw [Array.length_toList, h.1] at hf
  rw [rank, Nat.mul_succ]
  omega

/-! ## A round -/

theorem Within.ofList (h : Within g f) {tail : SymbolBits}
    (htail : ∀ t, tail.contains t = true → g.isTerminal t = true) {ss : List Symbol} {t : Symbol}
    (ht : (f.ofList tail ss).contains t = true) : g.isTerminal t = true := by
  induction ss with
  | nil => exact htail t ht
  | cons s ss ih =>
    rw [FirstSets.ofList] at ht
    split at ht
    · rw [SymbolBits.contains_union, Bool.or_eq_true] at ht
      exact ht.elim (h.2 s t) ih
    · exact h.2 s t ht

theorem Within.ofEmptyTail (h : Within g f) {ss : List Symbol} {t : Symbol}
    (ht : (f.ofList SymbolBits.empty ss).contains t = true) : g.isTerminal t = true :=
  h.ofList (fun u hu => by rw [SymbolBits.contains_empty] at hu; cases hu) ht

theorem ofSymbol_eq {s : Symbol} {set : SymbolBits} (h : f.first[s]? = some set) :
    f.ofSymbol s = set := by
  rw [ofSymbol, Array.getD_eq_getD_getElem?, h, Option.getD_some]

theorem Within.addProduction (h : Within g f) (p : FlatProduction) :
    Within g (f.addProduction p) := by
  refine ⟨by rw [FirstSets.addProduction, Array.size_modify, h.1], fun s t ht => ?_⟩
  rw [FirstSets.addProduction, ofSymbol] at ht
  rcases SymbolBits.contains_of_modify ht with before | ⟨-, added⟩
  · exact h.2 s t before
  · exact h.ofEmptyTail added

theorem Within.up (h : Within g f) {p : FlatProduction} (hp : p.lhs < g.symbols.size) :
    Grows g f (f.addProduction p) := by
  refine ⟨?_, ?_⟩
  · rw [FirstSets.addProduction]
    split
    · exact SymbolBits.Grows.insert _ hp
    · exact (SymbolBits.growth _).refl _
  · exact (SymbolBits.growth _).modify fun set _ =>
      SymbolBits.Grows.union set fun t ht => FlatGrammar.lt_of_isTerminal (h.ofEmptyTail ht)

theorem round_eq (f : FirstSets) : round g f = g.productions.toList.foldl addProduction f := by
  rw [round, Array.foldl_toList]

theorem within_start : Within g (start g) := by
  refine ⟨by rw [start, Array.size_mapIdx], fun s t ht => ?_⟩
  rw [ofSymbol, start, Array.getD_eq_getD_getElem?, Array.getElem?_mapIdx] at ht
  cases hs : g.symbols[s]? with
  | none =>
    rw [hs, Option.map_none, Option.getD_none, SymbolBits.contains_empty] at ht
    cases ht
  | some info =>
    rw [hs, Option.map_some, Option.getD_some] at ht
    split at ht
    · next terminal =>
      rw [SymbolBits.contains_single, decide_eq_true_eq] at ht
      subst ht
      rw [FlatGrammar.isTerminal, hs]
      exact terminal
    · rw [SymbolBits.contains_empty] at ht
      cases ht

theorem contains_ofList_of_first {s : Symbol} {ss : List Symbol} {tail : SymbolBits} {t : Symbol}
    (h : ((ofGrammar g).ofSymbol s).contains t = true) :
    ((ofGrammar g).ofList tail (s :: ss)).contains t = true := by
  rw [FirstSets.ofList]
  split
  · rw [SymbolBits.contains_union, h, Bool.true_or]
  · exact h

theorem contains_ofList_of_nullable {s : Symbol} {ss : List Symbol} {tail : SymbolBits}
    {t : Symbol} (hs : (ofGrammar g).nullable.contains s = true)
    (h : ((ofGrammar g).ofList tail ss).contains t = true) :
    ((ofGrammar g).ofList tail (s :: ss)).contains t = true := by
  rw [FirstSets.ofList, if_pos hs, SymbolBits.contains_union, h, Bool.or_true]

section Fixed

variable (wf : g.WellFormed)

include wf

theorem Within.round (h : Within g f) : Within g (FirstSets.round g f) ∧
    Grows g f (FirstSets.round g f) := by
  rw [round_eq]
  have keep : ∀ f, Within g f → ∀ p ∈ g.productions.toList, Within g (f.addProduction p) :=
    fun _ hf p _ => hf.addProduction p
  exact ⟨foldl_keeps keep h, foldl_up (growth g)
    (fun _ hf p hp => hf.up (wf.lhs_lt p (Array.mem_toList_iff.mp hp))) keep h⟩

theorem within_ofGrammar : Within g (ofGrammar g) :=
  saturate_keeps (P := Within g) (fun _ h => (Within.round wf h).1) within_start

theorem round_ofGrammar : FirstSets.round g (ofGrammar g) = ofGrammar g :=
  saturate_fixed (growth g) (fun _ h => (Within.round wf h).2) (fun _ h => (Within.round wf h).1)
    (fun _ h => h.rank_le) within_start (by omega)

/-- The first sets are closed under every production. -/
theorem addProduction_ofGrammar {p : FlatProduction} (hp : p ∈ g.productions) :
    (ofGrammar g).addProduction p = ofGrammar g := by
  have fixed := round_ofGrammar wf
  rw [round_eq] at fixed
  exact foldl_fixed (growth g)
    (fun _ hf q hq => hf.up (wf.lhs_lt q (Array.mem_toList_iff.mp hq)))
    (fun _ hf q _ => hf.addProduction q) (within_ofGrammar wf) fixed p (Array.mem_toList_iff.mpr hp)

theorem nullable_of_production {p : FlatProduction} (hp : p ∈ g.productions)
    (h : ∀ s ∈ p.rhs, (ofGrammar g).nullable.contains s = true) :
    (ofGrammar g).nullable.contains p.lhs = true := by
  have fixed := congrArg FirstSets.nullable (addProduction_ofGrammar wf hp)
  rw [FirstSets.addProduction, if_pos (List.all_eq_true.mpr h)] at fixed
  rw [← fixed, SymbolBits.contains_insert, decide_eq_true rfl, Bool.or_true]

theorem first_of_production {p : FlatProduction} (hp : p ∈ g.productions) {t : Symbol}
    (ht : ((ofGrammar g).ofList SymbolBits.empty p.rhs).contains t = true) :
    ((ofGrammar g).ofSymbol p.lhs).contains t = true := by
  have fixed : (ofGrammar g).first.modify p.lhs
      (fun set => set.union ((ofGrammar g).ofList SymbolBits.empty p.rhs)) = (ofGrammar g).first :=
    congrArg FirstSets.first (addProduction_ofGrammar wf hp)
  have hlt : p.lhs < (ofGrammar g).first.size := by
    rw [(within_ofGrammar wf).1]
    exact wf.lhs_lt p hp
  have hslot := Array.getElem?_eq_getElem hlt
  rw [ofSymbol_eq hslot]
  exact SymbolBits.contains_of_union_eq (eq_of_modify_eq fixed hslot) ht

theorem first_of_terminal {s : Symbol} (h : g.isTerminal s = true) :
    ((ofGrammar g).ofSymbol s).contains s = true := by
  have above : Grows g (start g) (ofGrammar g) :=
    saturate_above (growth g) (fun _ h => (Within.round wf h).2)
      (fun _ h => (Within.round wf h).1) within_start
  have hlt := FlatGrammar.lt_of_isTerminal h
  have atStart : ((start g).ofSymbol s).contains s = true := by
    have hinfo := Array.getElem?_eq_getElem hlt
    rw [FlatGrammar.isTerminal, hinfo] at h
    rw [ofSymbol, start, Array.getD_eq_getD_getElem?, Array.getElem?_mapIdx, hinfo,
      Option.map_some, Option.getD_some, if_pos h, SymbolBits.contains_single, decide_eq_true rfl]
  have hstart : s < (start g).first.size := by rw [within_start.1]; exact hlt
  have hend : s < (ofGrammar g).first.size := by rw [(within_ofGrammar wf).1]; exact hlt
  rw [ofSymbol_eq (Array.getElem?_eq_getElem hstart)] at atStart
  rw [ofSymbol_eq (Array.getElem?_eq_getElem hend)]
  have slots := (List.forall₂_iff_get.mp above.2).2 s (by simpa using hstart) (by simpa using hend)
  exact slots.1 s (by simpa using atStart)

/-! ## What a yield begins with -/

/-- Symbols that yield the empty text are nullable, and a text that is not empty begins with
a terminal of their first set. -/
theorem first_of_yields {ss w : List Symbol} (h : g.Yields ss w) :
    (w = [] → ∀ s ∈ ss, (ofGrammar g).nullable.contains s = true) ∧
      ∀ a rest, w = a :: rest → ∀ tail, ((ofGrammar g).ofList tail ss).contains a = true := by
  induction h with
  | nil => exact ⟨fun _ s hs => absurd hs List.not_mem_nil, fun a rest h => nomatch h⟩
  | terminal isTerminal _ _ =>
    refine ⟨fun h => absurd h (List.cons_ne_nil _ _), fun a rest h tail => ?_⟩
    cases h
    exact contains_ofList_of_first (first_of_terminal wf isTerminal)
  | @production p ss u w mem _ _ ihBody ihRest =>
    refine ⟨fun h => ?_, fun a rest h tail => ?_⟩
    · obtain ⟨hu, hw⟩ := List.append_eq_nil_iff.mp h
      intro s hs
      rcases List.mem_cons.mp hs with rfl | hs
      · exact nullable_of_production wf mem (ihBody.1 hu)
      · exact ihRest.1 hw s hs
    · cases u with
      | nil =>
        have nullable := nullable_of_production wf mem (ihBody.1 rfl)
        exact contains_ofList_of_nullable nullable (ihRest.2 a rest h tail)
      | cons b u =>
        cases h
        have first := ihBody.2 a u rfl SymbolBits.empty
        exact contains_ofList_of_first (first_of_production wf mem first)

/-- The symbol ahead of a text that symbols yield, with more text behind it. -/
theorem contains_ofList_ahead {ss u v : List Symbol} (h : g.Yields ss u) {tail : SymbolBits}
    (htail : tail.contains (v.headD Symbol.endOfText) = true) :
    ((ofGrammar g).ofList tail ss).contains ((u ++ v).headD Symbol.endOfText) = true := by
  have first := first_of_yields wf h
  cases u with
  | cons a u => exact first.2 a u rfl tail
  | nil =>
    have nullable := first.1 rfl
    rw [List.nil_append]
    clear first h
    induction ss with
    | nil => exact htail
    | cons s ss ih =>
      exact contains_ofList_of_nullable (nullable s List.mem_cons_self)
        (ih fun t ht => nullable t (List.mem_cons_of_mem s ht))

end Fixed

end FirstSets

end Glr
