import Glr.Proofs.Spans
import Glr.Proofs.Spread

/-!
# No byte is lost

The leaves of a tree should hold the text, all of it and in order.  In a measured tree they stand
side by side from its start to its end, so what is left to ask is whether the root is as long as the
text.  It is, whichever way the parse ends, but for one: where the last stack is lost behind the
start of the text, the text before the position is lost with it, and only the rest is left to make a
root of.
-/

namespace Glr

/-! ## Leaves -/

namespace Node

section Leaves

variable (l : Language)

mutual

theorem tile_leavesOnto {above : List Place} {after : List Node} {stop : Nat} :
    ∀ (g : Green) (offset : Nat) (position : Point) (address : List Nat), g.Summed →
      Span.Tile (offset + g.length) stop (after.map (·.span)) →
      Span.Tile offset stop ((leavesOnto l above after offset position address g).map (·.span))
  | .mk d cs, offset, position, address, summed, tiled => by
    rw [leavesOnto]
    split
    · exact ⟨rfl, Nat.le_add_right _ _, tiled⟩
    · next inner =>
      have length := summed.length_eq fun none => inner (List.isEmpty_iff.mpr none)
      rw [length] at tiled
      split
      · exact tile_leavesOntoIn cs offset position address 0 summed.of_mem tiled
      · exact tile_leavesOntoIn cs offset position address 0 summed.of_mem tiled

theorem tile_leavesOntoIn {above : List Place} {after : List Node} {stop : Nat} :
    ∀ (gs : List Green) (offset : Nat) (position : Point) (address : List Nat) (index : Nat),
      (∀ g ∈ gs, g.Summed) →
      Span.Tile (offset + Green.spread gs) stop (after.map (·.span)) →
      Span.Tile offset stop
        ((leavesOntoIn l above after offset position address index gs).map (·.span))
  | [], _, _, _, _, _, tiled => tiled
  | g :: gs, offset, position, address, index, summed, tiled => by
    rw [leavesOntoIn]
    refine tile_leavesOnto g offset position (index :: address) (summed g List.mem_cons_self) ?_
    refine tile_leavesOntoIn gs _ _ address (index + 1)
      (fun h hh => summed h (List.mem_cons_of_mem g hh)) ?_
    rwa [Nat.add_assoc, ← Green.spread_cons]

end

end Leaves

/-- The leaves of a tree whose lengths add up stand side by side from its start to its end. -/
theorem tile_leavesOf (l : Language) {g : Green} (summed : g.Summed) :
    Span.Tile 0 g.length ((leavesOf l g).map (·.span)) := by
  rw [leavesOf]
  split
  · exact ⟨rfl, Nat.zero_le _, (Nat.zero_add _)⟩
  · next inner =>
    have length := summed.length_eq fun none => inner (List.isEmpty_iff.mpr none)
    refine tile_leavesOntoIn l g.children 0 Point.zero [] 0 summed.of_mem ?_
    show 0 + Green.spread g.children = g.length
    omega

end Node

/-- The root is as long as the text, and the leaves hold it from its start to its end. -/
structure Tree.Covers (t : Tree) (text : Text) : Prop where
  length : t.textLength = text.size
  leaves : Span.Tile 0 text.size (t.leaves.map (·.span))

theorem Tree.covers_iff {t : Tree} (measured : t.root.Measured) {text : Text} :
    t.Covers text ↔ t.textLength = text.size := by
  refine ⟨fun covers => covers.length, fun length => ⟨length, ?_⟩⟩
  rw [← length]
  exact Node.tile_leavesOf t.language measured.summed

/-! ## How a parse ends -/

namespace Run

/-- The last stack was lost behind the start of the text. -/
structure Stranded (r : Run) : Prop where
  lost : r.live = []
  behind : 0 < r.position.offset
  noted : ∃ w ∈ r.warnings, w.problem = .incomplete

section Ending

variable {g : FlatGrammar} {a : Automaton} {task : ParseTask} {old : Option Green} {r : Run}
  {root : Green}

theorem measured_wrapRemains (problem : Problem)
    (measured : ∀ s ∈ r.live, ∀ e ∈ s.entries, e.node.Measured) :
    (r.wrapRemains task problem).1.Measured ∧
      (r.wrapRemains task problem).1.length = Green.spread (r.remains task) := by
  refine Repair.measured_errorNode fun c hc => ?_
  rcases mem_remains hc with ⟨s, hs, e, he, rfl⟩ | ⟨text, rfl⟩
  · exact measured s hs e he
  · exact Repair.measured_errorLeaf text

/-- What is left at the end of a parse: the nodes of its stack, and the rest of the text. -/
theorem spread_remains (small : task.text.size ≤ Size.largest)
    (inside : r.position.offset ≤ task.text.size) :
    Green.spread (r.remains task) =
      Green.spread (standing r.live) + (task.text.size - r.position.offset) := by
  rw [remains_eq, Nat.min_eq_left inside]
  split
  · rw [Green.spread_append, Green.spread_cons, Green.spread_nil, Repair.length_errorLeaf,
      Size.ofText, Array.size_extract]
    omega
  · omega

variable (founded : task.language.Founded g a)

include founded

theorem measured_of_ending (measured : ∀ root ∈ old, root.Measured)
    (ending : Ending task old root r) : root.Measured := by
  cases ending with
  | accepted ahead atEnd built accepts quiet =>
    exact (measured_accept founded (built_whole founded measured built)).1
  | wrapped built alive =>
    refine (measured_wrapRemains _ fun s hs e he => ?_).1
    exact (built_whole founded measured (built s hs) e he).measured
  | stranded none built =>
    refine (measured_wrapRemains _ fun s hs => ?_).1
    exact absurd (show s ∈ [] from none ▸ hs) List.not_mem_nil

theorem length_of_ending (fits : Green.Fits task.text old) (small : task.text.size ≤ Size.largest)
    (ending : Ending task old root r) : root.length = task.text.size ↔ ¬ r.Stranded := by
  have measured : ∀ root ∈ old, root.Measured := fun root hroot => (fits root hroot).1
  cases ending with
  | @accepted s la _ ahead atEnd built accepts quiet =>
    obtain ⟨inside, spread⟩ := built_spread founded fits small built
    have proper := ahead.proper founded fits inside
    have length := (measured_accept founded (built_whole founded measured built)).2
    refine ⟨fun _ stranded => ?_, fun _ => ?_⟩
    · obtain ⟨w, hw, incomplete⟩ := stranded.noted
      exact quiet w hw incomplete
    · rw [length, spread, proper.atEnd atEnd]
  | @wrapped r problem built alive =>
    refine ⟨fun _ stranded => alive stranded.lost, fun _ => ?_⟩
    obtain ⟨s, best⟩ := Frontier.exists_best? alive
    have here := built s (Frontier.mem_of_best? best)
    obtain ⟨inside, spread⟩ := built_spread founded fits small here
    rw [(measured_wrapRemains problem fun s hs e he =>
      (built_whole founded measured (built s hs) e he).measured).2, spread_remains small inside,
      standing, best]
    show Green.spread (nodesOf s.entries) + _ = _
    omega
  | @stranded r entries none built =>
    obtain ⟨inside, -⟩ := built_spread founded fits small built
    have length : ((r.abandon task).1).length = task.text.size - r.position.offset := by
      have empty : ∀ s ∈ r.countRecovered.live, ∀ e ∈ s.entries, e.node.Measured :=
        fun s hs => absurd (show s ∈ [] from none ▸ hs) List.not_mem_nil
      rw [abandon, (measured_wrapRemains _ empty).2,
        spread_remains (r := r.countRecovered) small inside]
      show Green.spread (standing r.live) + _ = _
      rw [none]
      exact Nat.zero_add _
    rw [length]
    have behind : (r.abandon task).2.Stranded ↔ 0 < r.position.offset :=
      ⟨fun stranded => stranded.behind, fun behind => ⟨none, behind, _, List.mem_cons_self, rfl⟩⟩
    rw [behind]
    omega

end Ending

end Run

/-! ## Parses -/

namespace Parser

variable {G : Grammar} {p : Parser} {text : Text} {old : Option Tree}

theorem measured_parse (compiled : p.language.Compiled G)
    (measured : ∀ t ∈ old, t.root.Measured) (interrupts : Interrupts) :
    (p.parse text old interrupts).value.tree.root.Measured := by
  obtain ⟨g, a, -, founded⟩ := compiled.founded
  have known : ∀ root ∈ p.oldRoot old, root.Measured := by
    intro root hroot
    obtain ⟨t, ht, rfl⟩ := exists_of_mem_oldRoot hroot
    exact measured t ht
  have ending := Run.ending_outcome (p.task text) interrupts (p.oldRoot old)
  rw [tree_parse]
  generalize Run.outcome (p.task text) interrupts (p.oldRoot old) = outcome at ending ⊢
  exact Run.measured_of_ending founded known ending

/-- The tree holds the text from its start to its end, unless the last stack is lost on the way. -/
theorem covers_iff_not_stranded (compiled : p.language.Compiled G) (small : text.size < 2 ^ 31)
    (fits : Green.Fits text (p.oldRoot old)) (interrupts : Interrupts) :
    (p.parse text old interrupts).value.tree.Covers text ↔
      ¬ (Run.outcome (p.task text) interrupts (p.oldRoot old)).run.Stranded := by
  obtain ⟨g, a, -, founded⟩ := compiled.founded
  have word : text.size ≤ Size.largest := by
    show text.size ≤ 0xFFFFFFFF
    omega
  have ending := Run.ending_outcome (p.task text) interrupts (p.oldRoot old)
  rw [tree_parse]
  generalize Run.outcome (p.task text) interrupts (p.oldRoot old) = outcome at ending ⊢
  rw [Tree.covers_iff]
  · exact Run.length_of_ending founded fits word ending
  · exact Run.measured_of_ending founded (fun root hroot => (fits root hroot).1) ending

/-- The bytes of `ab`. -/
def nestedText : Text := #[97, 98]

/-- A parse of the same text again. -/
theorem nested_covered :
    let p : Parser := ⟨FlatGrammar.nestedLanguage, {}⟩
    let old := (p.parse nestedText none .never).value.tree
    (p.parse nestedText (some old) .never).value.tree.Covers nestedText := by
  intro p old
  have compiled := FlatGrammar.nestedLanguage_compiled
  have length : old.textLength = nestedText.size := by decide +kernel
  have fits : Green.Fits nestedText (p.oldRoot (some old)) := by
    intro root hroot
    obtain ⟨t, ht, rfl⟩ := exists_of_mem_oldRoot hroot
    obtain rfl := Option.some.inj ht
    exact ⟨measured_parse compiled (fun t ht => absurd ht (Option.not_mem_none t)) .never, length⟩
  refine (covers_iff_not_stranded compiled (by decide) fits .never).mpr fun stranded => ?_
  obtain ⟨w, hw, -⟩ := stranded.noted
  have quiet : (Run.outcome (p.task nestedText) .never (p.oldRoot (some old))).run.warnings = [] :=
    by decide +kernel
  rw [quiet] at hw
  cases hw

/-- With no reduction allowed the first token is lost. -/
theorem nested_not_covered : FlatGrammar.nestedLanguage.Compiled FlatGrammar.nested ∧
    ¬ ((⟨FlatGrammar.nestedLanguage, { maxReductionsPerToken := 0 }⟩ : Parser).parse nestedText none
      .never).value.tree.Covers nestedText := by
  refine ⟨FlatGrammar.nestedLanguage_compiled, fun covers => ?_⟩
  have length := covers.length
  revert length
  decide +kernel

end Parser

end Glr
