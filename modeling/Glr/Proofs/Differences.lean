import Glr.Proofs.Spans
import Glr.Proofs.Tokens
import Glr.Tree.Diff

/-!
# Where trees differ

Three walks compare two trees: `sameShape` all the way down, `differences` with the place of every
node, and `overlapping` over what there is in a range.  They agree.  Trees of one shape have no
difference; a difference between two nodes is a range that holds both, so a range apart from all of
them holds the same nodes of the two trees; and the nodes of a whole tree with their depths, each
before its children, determine its shape.

A walk does not look into nodes that two trees share, which it knows by their marks.  That is right
if nodes of one mark are one node (`MarksAgree`).

The differences are sorted and those that touch are merged.  By what one step of that does to ranges
that are spaced, what comes out is spaced, covers every difference and holds nothing else.
-/

namespace Glr

namespace Green

/-! ## Merging -/

/-- Ranges from the last to the first, with some bytes between any two. -/
structure Spaced (merged : List Span) : Prop where
  sorted : merged.Pairwise fun s t => t.stop < s.start
  forward : ∀ s ∈ merged, s.start ≤ s.stop

section Merge

variable {merged spans : List Span} {s t : Span} {o : Nat}

/-- A range that starts no earlier than the last keeps ranges spaced. -/
theorem Spaced.mergeInto (spaced : Spaced merged) (forward : s.start ≤ s.stop)
    (order : ∀ last ∈ merged.head?, last.start ≤ s.start) :
    Spaced (mergeInto merged s) ∧ ∀ last ∈ (mergeInto merged s).head?, last.start ≤ s.start := by
  cases merged with
  | nil => exact ⟨⟨List.pairwise_singleton _ _, by simpa [Green.mergeInto] using forward⟩,
      by simp [Green.mergeInto]⟩
  | cons last before =>
    obtain ⟨sorted, proper⟩ := spaced
    obtain ⟨behind, rest⟩ := List.pairwise_cons.mp sorted
    obtain ⟨own, others⟩ := List.forall_mem_cons.mp proper
    have first : last.start ≤ s.start := order last rfl
    rw [Green.mergeInto]
    split
    · next touch =>
      have start : (last.cover s).start = last.start := Nat.min_eq_left first
      refine ⟨⟨List.pairwise_cons.mpr ⟨fun t ht => start ▸ behind t ht, rest⟩,
        List.forall_mem_cons.mpr ⟨?_, others⟩⟩, fun _ h => Option.some.inj h ▸ start ▸ first⟩
      exact start ▸ Nat.le_trans own (Nat.le_max_left _ _)
    · next gap =>
      have clear : ∀ t ∈ last :: before, t.stop < s.start := by
        refine List.forall_mem_cons.mpr ⟨Nat.lt_of_not_le gap, fun t ht => ?_⟩
        exact Nat.lt_of_lt_of_le (behind t ht) first
      exact ⟨⟨List.pairwise_cons.mpr ⟨clear, sorted⟩, List.forall_mem_cons.mpr ⟨forward, proper⟩⟩,
        fun _ h => Option.some.inj h ▸ Nat.le_refl _⟩

/-- No range is lost. -/
theorem exists_covers_mergeInto (ht : t ∈ s :: merged) :
    ∃ u ∈ mergeInto merged s, u.covers t = true := by
  cases merged with
  | nil => exact ⟨t, ht, t.covers_self⟩
  | cons last before =>
    rw [mergeInto]
    split
    · rcases List.mem_cons.mp ht with rfl | ht
      · exact ⟨_, List.mem_cons_self, last.covers_cover_right t⟩
      · rcases List.mem_cons.mp ht with rfl | ht
        · exact ⟨_, List.mem_cons_self, t.covers_cover_left s⟩
        · exact ⟨t, List.mem_cons_of_mem _ ht, t.covers_self⟩
    · exact ⟨t, ht, t.covers_self⟩

/-- No gap is closed: ranges that are merged touch. -/
theorem exists_reaches_mergeInto (order : ∀ last ∈ merged.head?, last.start ≤ s.start)
    (ht : t ∈ mergeInto merged s) (reaches : t.Reaches o) : ∃ u ∈ s :: merged, u.Reaches o := by
  cases merged with
  | nil => exact ⟨t, ht, reaches⟩
  | cons last before =>
    rw [mergeInto] at ht
    split at ht
    · next touch =>
      rcases List.mem_cons.mp ht with rfl | ht
      · have first : last.start ≤ s.start := order last rfl
        have within : min last.start s.start ≤ o ∧ o ≤ max last.stop s.stop := reaches
        by_cases inLast : o ≤ last.stop
        · exact ⟨last, by simp, by omega, inLast⟩
        · exact ⟨s, List.mem_cons_self, by omega, by omega⟩
      · exact ⟨t, by simp [ht], reaches⟩
    · exact ⟨t, ht, reaches⟩

theorem foldl_mergeInto (forward : ∀ s ∈ spans, s.start ≤ s.stop)
    (sorted : spans.Pairwise fun s t => s.start ≤ t.start) (spaced : Spaced merged)
    (order : ∀ last ∈ merged.head?, ∀ s ∈ spans, last.start ≤ s.start) :
    Spaced (spans.foldl mergeInto merged) ∧
      (∀ t, t ∈ merged ∨ t ∈ spans → ∃ u ∈ spans.foldl mergeInto merged, u.covers t = true) ∧
      ∀ t ∈ spans.foldl mergeInto merged, ∀ o, t.Reaches o →
        ∃ u, (u ∈ merged ∨ u ∈ spans) ∧ u.Reaches o := by
  induction spans generalizing merged with
  | nil =>
    refine ⟨spaced, fun t ht => ?_, fun t ht o reaches => ⟨t, Or.inl ht, reaches⟩⟩
    exact ⟨t, ht.resolve_right List.not_mem_nil, t.covers_self⟩
  | cons s spans ih =>
    obtain ⟨own, others⟩ := List.forall_mem_cons.mp forward
    obtain ⟨first, sorted⟩ := List.pairwise_cons.mp sorted
    have here : ∀ last ∈ merged.head?, last.start ≤ s.start :=
      fun last hlast => order last hlast s List.mem_cons_self
    obtain ⟨spaced, last⟩ := spaced.mergeInto own here
    obtain ⟨spaced, covered, made⟩ := ih others sorted spaced fun l hl t ht =>
      Nat.le_trans (last l hl) (first t ht)
    refine ⟨spaced, fun t ht => ?_, fun t ht o reaches => ?_⟩
    · have now : t ∈ s :: merged ∨ t ∈ spans := by
        simp only [List.mem_cons] at ht ⊢
        exact or_assoc.mpr (or_left_comm.mp ht)
      rcases now with now | later
      · obtain ⟨u, hu, first⟩ := exists_covers_mergeInto now
        obtain ⟨w, hw, second⟩ := covered u (Or.inl hu)
        exact ⟨w, hw, Span.covers_trans second first⟩
      · exact covered t (Or.inr later)
    · obtain ⟨u, hu | hu, within⟩ := made t ht o reaches
      · obtain ⟨w, hw, within⟩ := exists_reaches_mergeInto here hu within
        refine ⟨w, ?_, within⟩
        rcases List.mem_cons.mp hw with rfl | hw
        · exact Or.inr List.mem_cons_self
        · exact Or.inl hw
      · exact ⟨u, Or.inr (List.mem_cons_of_mem s hu), within⟩

/-- Merged ranges are sorted, with some bytes between any two, and hold what the ranges held that
were merged and nothing else. -/
theorem mergeSpans_spec (forward : ∀ s ∈ spans, s.start ≤ s.stop) :
    (mergeSpans spans).Pairwise (fun s t => s.stop < t.start) ∧
      (∀ s ∈ mergeSpans spans, s.start ≤ s.stop) ∧
      (∀ s ∈ spans, ∃ t ∈ mergeSpans spans, t.covers s = true) ∧
      ∀ t ∈ mergeSpans spans, ∀ o, t.Reaches o → ∃ s ∈ spans, s.Reaches o := by
  have mem {s : Span} : s ∈ spans.mergeSort spanLe ↔ s ∈ spans := List.mem_mergeSort
  have sorted : (spans.mergeSort spanLe).Pairwise fun s t => s.start ≤ t.start := by
    refine (List.pairwise_mergeSort (fun r s t h h' => ?_) (fun s t => ?_) spans).imp fun h => ?_
    all_goals simp only [spanLe, Bool.or_eq_true, Bool.and_eq_true, decide_eq_true_eq,
      beq_iff_eq] at *
    all_goals omega
  have start : Spaced [] := ⟨List.Pairwise.nil, by simp⟩
  obtain ⟨⟨spaced, proper⟩, covered, made⟩ :=
    foldl_mergeInto (fun s hs => forward s (mem.mp hs)) sorted start (by simp)
  simp only [mergeSpans, List.pairwise_reverse, List.mem_reverse]
  refine ⟨spaced, proper, fun s hs => covered s (Or.inr (mem.mpr hs)), fun t ht o reaches => ?_⟩
  obtain ⟨u, hu, within⟩ := made t ht o reaches
  exact ⟨u, mem.mp (hu.resolve_left List.not_mem_nil), within⟩

end Merge

/-! ## Trees of one shape -/

/-- Nodes of two trees that carry one mark are one node. -/
def MarksAgree (g h : Green) : Prop :=
  ∀ o n o' m, g.Holds o n → h.Holds o' m → isSame n m = true → n = m

theorem MarksAgree.children {g h c d : Green} (agree : g.MarksAgree h) (hc : c ∈ g.children)
    (hd : d ∈ h.children) : c.MarksAgree d := by
  intro o n o' m heldN heldM same
  obtain ⟨before, after, among⟩ := List.append_of_mem hc
  obtain ⟨before', after', among'⟩ := List.append_of_mem hd
  exact agree _ n _ m ((Holds.root.child among).trans heldN) ((Holds.root.child among').trans heldM)
    same

theorem MarksAgree.eq_of_isSame {g h : Green} (agree : g.MarksAgree h) (same : isSame g h = true) :
    g = h := agree 0 g 0 h .root .root same

section Shape

variable {g h n m c d : Green} {cs ds : List Green} {s t : Nat}

theorem looksLike_iff_shape : n.looksLike m = true ↔
    n.symbol = m.symbol ∧ n.length = m.length ∧ n.flags.shape = m.flags.shape := by
  rw [looksLike, Bool.and_eq_true, Bool.and_eq_true, beq_iff_eq, beq_iff_eq, beq_iff_eq, and_assoc]

theorem looksLike_iff : n.looksLike m = true ↔ n.symbol = m.symbol ∧ n.length = m.length ∧
    n.isExtra = m.isExtra ∧ n.isMissing = m.isMissing ∧ n.hasError = m.hasError := by
  rw [looksLike_iff_shape]
  simp only [NodeFlags.shape, NodeFlags.mk.injEq, isExtra, isMissing, hasError, true_and]

theorem sameShape_iff : n.sameShape m = true ↔
    n.looksLike m = true ∧ sameShapes n.children m.children = true := by
  obtain ⟨d, cs⟩ := n
  rw [sameShape, Bool.and_eq_true]
  rfl

theorem sameShapes_cons : sameShapes (c :: cs) (d :: ds) = true ↔
    c.sameShape d = true ∧ sameShapes cs ds = true := by
  rw [sameShapes, Bool.and_eq_true]

theorem length_of_sameShape (same : n.sameShape m = true) : n.length = m.length :=
  (looksLike_iff_shape.mp (sameShape_iff.mp same).1).2.1

theorem spread_of_sameShapes : ∀ {cs ds : List Green}, sameShapes cs ds = true →
    spread cs = spread ds
  | [], [], _ => rfl
  | c :: cs, d :: ds, same => by
    obtain ⟨here, rest⟩ := sameShapes_cons.mp same
    rw [spread_cons, spread_cons, length_of_sameShape here, spread_of_sameShapes rest]

mutual

theorem sameShape_self : ∀ g : Green, g.sameShape g = true
  | mk d cs => sameShape_iff.mpr ⟨by simp [looksLike], sameShapes_self cs⟩

theorem sameShapes_self : ∀ gs : List Green, sameShapes gs gs = true
  | [] => by rw [sameShapes]
  | g :: gs => sameShapes_cons.mpr ⟨sameShape_self g, sameShapes_self gs⟩

end

theorem length_of_sameShapes : ∀ {cs ds : List Green}, sameShapes cs ds = true →
    cs.length = ds.length
  | [], [], _ => rfl
  | _ :: _, _ :: _, same => congrArg (· + 1) (length_of_sameShapes (sameShapes_cons.mp same).2)

theorem comparable_iff : comparable g s h t = true ↔
    s = t ∧ g.looksLike h = true ∧ g.children.length = h.children.length := by
  rw [comparable, Bool.and_eq_true, Bool.and_eq_true, beq_iff_eq, beq_iff_eq, and_assoc]

/-- What two nodes have for a difference: nothing if they are one in one place, a range over both
if they cannot be compared, and otherwise what their children have. -/
theorem differences_cases (agree : g.MarksAgree h) :
    (s = t ∧ g = h ∧ differences s t g h = []) ∨
    (comparable g s h t = false ∧ differences s t g h =
      [(Span.ofLength s g.length).cover (Span.ofLength t h.length)]) ∨
    (comparable g s h t = true ∧
      differences s t g h = differencesIn s t g.children h.children) := by
  obtain ⟨data, cs⟩ := g
  rw [differences]
  split
  · next same =>
    rw [Bool.and_eq_true, beq_iff_eq] at same
    exact Or.inl ⟨same.1, agree.eq_of_isSame same.2, rfl⟩
  · split
    · next apart => exact Or.inr (Or.inl ⟨by simpa using apart, rfl⟩)
    · next comparable => exact Or.inr (Or.inr ⟨by simpa using comparable, rfl⟩)

theorem differencesIn_cons : differencesIn s t (c :: cs) (d :: ds) =
    differences s t c d ++ differencesIn (s + c.length) (t + d.length) cs ds := by
  rw [differencesIn]

mutual

/-- Trees have no difference just if they stand in one place and have one shape. -/
theorem differences_eq_nil_iff {s t : Nat} : ∀ {g h : Green}, g.MarksAgree h →
    (differences s t g h = [] ↔ s = t ∧ g.sameShape h = true)
  | mk data cs, h, agree => by
    rcases differences_cases (s := s) (t := t) agree with
      ⟨place, same, none⟩ | ⟨apart, one⟩ | ⟨comparable, below⟩
    · exact iff_of_true none ⟨place, same ▸ sameShape_self _⟩
    · rw [one]
      refine iff_of_false (List.cons_ne_nil _ _) fun ⟨place, same⟩ => ?_
      obtain ⟨like, shapes⟩ := sameShape_iff.mp same
      rw [comparable_iff.mpr ⟨place, like, length_of_sameShapes shapes⟩] at apart
      cases apart
    · obtain ⟨rfl, like, count⟩ := comparable_iff.mp comparable
      have shapes : differencesIn s s (mk data cs).children h.children = [] ↔
          sameShapes (mk data cs).children h.children = true :=
        differencesIn_eq_nil_iff (show cs.length = _ from count) fun c hc d hd =>
          agree.children hc hd
      rw [below, sameShape_iff, shapes]
      simp [like]

theorem differencesIn_eq_nil_iff {s : Nat} : ∀ {gs hs : List Green}, gs.length = hs.length →
    (∀ g ∈ gs, ∀ h ∈ hs, g.MarksAgree h) →
    (differencesIn s s gs hs = [] ↔ sameShapes gs hs = true)
  | [], [], _, _ => by simp [differencesIn, sameShapes]
  | g :: gs, h :: hs, count, agree => by
    rw [differencesIn_cons, List.append_eq_nil_iff, sameShapes_cons,
      differences_eq_nil_iff (agree g List.mem_cons_self h List.mem_cons_self)]
    simp only [true_and]
    refine and_congr_right fun same => ?_
    rw [← length_of_sameShape same]
    exact differencesIn_eq_nil_iff (Nat.succ.inj count) fun c hc d hd =>
      agree c (List.mem_cons_of_mem g hc) d (List.mem_cons_of_mem h hd)

end

mutual

theorem forward_differences {s t : Nat} : ∀ {g h : Green}, g.MarksAgree h →
    ∀ d ∈ differences s t g h, d.start ≤ d.stop
  | mk data cs, h, agree => by
    rcases differences_cases (s := s) (t := t) agree with
      ⟨-, -, none⟩ | ⟨-, one⟩ | ⟨-, below⟩
    · simp [none]
    · rw [one]
      intro d hd
      obtain rfl := List.mem_singleton.mp hd
      show min s t ≤ max (s + data.length) (t + h.length)
      omega
    · rw [below]
      have below : ∀ c ∈ cs, ∀ d ∈ h.children, c.MarksAgree d := fun c hc d hd =>
        agree.children hc hd
      exact forward_differencesIn below

theorem forward_differencesIn {s t : Nat} : ∀ {gs hs : List Green},
    (∀ g ∈ gs, ∀ h ∈ hs, g.MarksAgree h) → ∀ d ∈ differencesIn s t gs hs, d.start ≤ d.stop
  | [], _, _ => by simp [differencesIn]
  | _ :: _, [], _ => by simp [differencesIn]
  | g :: gs, h :: hs, agree => by
    rw [differencesIn_cons]
    intro d hd
    rcases List.mem_append.mp hd with hd | hd
    · exact forward_differences (agree g List.mem_cons_self h List.mem_cons_self) d hd
    · exact forward_differencesIn (fun c hc d hd =>
        agree c (List.mem_cons_of_mem g hc) d (List.mem_cons_of_mem h hd)) d hd

end

/-! ## What there is in a range -/

/-- A range has no place in common with another, not even at the ends. -/
def Missed (range d : Span) : Prop := ¬ (range.start ≤ d.stop ∧ d.start ≤ range.stop)

theorem overlappingOnto_eq (range : Span) (depth : Nat) (after : List Visit) :
    overlappingOnto range s depth after g =
      if (Span.ofLength s g.length).overlaps range then
        ⟨s, g.length, depth, g.symbol, g.flags.shape⟩ ::
          overlappingOntoIn range s (depth + 1) after g.children
      else after := by
  obtain ⟨data, cs⟩ := g
  rw [overlappingOnto]
  rfl

mutual

/-- A range that misses all differences holds the same of the two trees. -/
theorem overlappingOnto_of_missed {range : Span} {s t : Nat} : ∀ {g h : Green} (depth : Nat)
    (after : List Visit), g.MarksAgree h → (∀ d ∈ differences s t g h, Missed range d) →
    overlappingOnto range s depth after g = overlappingOnto range t depth after h
  | mk data cs, h, depth, after, agree, missed => by
    rcases differences_cases (s := s) (t := t) agree with
      ⟨place, same, -⟩ | ⟨-, one⟩ | ⟨comparable, below⟩
    · rw [place, same]
    · have apart := missed _ (one ▸ List.mem_singleton_self _)
      rw [overlappingOnto_eq, overlappingOnto_eq,
        Span.overlaps_of_covers apart (Span.covers_cover_left _ _),
        Span.overlaps_of_covers apart (Span.covers_cover_right _ _)]
      rfl
    · obtain ⟨rfl, like, count⟩ := comparable_iff.mp comparable
      obtain ⟨symbol, length, shape⟩ := looksLike_iff_shape.mp like
      have inner : overlappingOntoIn range s (depth + 1) after (mk data cs).children =
          overlappingOntoIn range s (depth + 1) after h.children :=
        overlappingOntoIn_of_missed (depth + 1) after (show cs.length = _ from count)
          (fun c hc d hd => agree.children hc hd) (below ▸ missed)
      rw [overlappingOnto_eq, overlappingOnto_eq, symbol, length, shape, inner]

theorem overlappingOntoIn_of_missed {range : Span} {s t : Nat} : ∀ {gs hs : List Green}
    (depth : Nat) (after : List Visit), gs.length = hs.length →
    (∀ g ∈ gs, ∀ h ∈ hs, g.MarksAgree h) → (∀ d ∈ differencesIn s t gs hs, Missed range d) →
    overlappingOntoIn range s depth after gs = overlappingOntoIn range t depth after hs
  | [], [], _, _, _, _, _ => by rw [overlappingOntoIn, overlappingOntoIn]
  | g :: gs, h :: hs, depth, after, count, agree, missed => by
    rw [differencesIn_cons, List.forall_mem_append] at missed
    rw [overlappingOntoIn, overlappingOntoIn, overlappingOntoIn_of_missed depth after
      (Nat.succ.inj count) (fun c hc d hd =>
        agree c (List.mem_cons_of_mem g hc) d (List.mem_cons_of_mem h hd)) missed.2]
    exact overlappingOnto_of_missed depth _ (agree g List.mem_cons_self h List.mem_cons_self)
      missed.1

end

/-! ## The whole range -/

/-- Nothing in front of a list of nodes is deeper than a depth. -/
def Shallow (depth : Nat) (after : List Visit) : Prop := ∀ v ∈ after.head?, v.depth ≤ depth

theorem shallow_nil (depth : Nat) : Shallow depth [] := by simp [Shallow]

theorem overlaps_whole {length n : Nat} (inside : s + length ≤ n) :
    (Span.ofLength s length).overlaps ⟨0, n⟩ = true := by
  rw [Span.overlaps]
  split
  · rw [Bool.and_eq_true, decide_eq_true_eq, decide_eq_true_eq]
    exact ⟨by show s ≤ n; omega, Nat.zero_le _⟩
  · next some =>
    simp only [Span.isEmpty, Span.ofLength, Bool.or_eq_true, beq_iff_eq, not_or] at some
    rw [Bool.and_eq_true, decide_eq_true_eq, decide_eq_true_eq]
    exact ⟨by show s < n; omega, by show 0 < s + length; omega⟩

theorem overlappingOnto_whole {n depth : Nat} {after : List Visit} (inside : s + g.length ≤ n) :
    overlappingOnto ⟨0, n⟩ s depth after g =
      ⟨s, g.length, depth, g.symbol, g.flags.shape⟩ ::
        overlappingOntoIn ⟨0, n⟩ s (depth + 1) after g.children := by
  rw [overlappingOnto_eq, overlaps_whole inside, if_pos rfl]

theorem shallow_overlappingOntoIn {n depth : Nat} {after : List Visit}
    (inside : s + spread cs ≤ n) (shallow : Shallow depth after) :
    Shallow depth (overlappingOntoIn ⟨0, n⟩ s depth after cs) := by
  cases cs with
  | nil =>
    rw [overlappingOntoIn]
    exact shallow
  | cons c cs =>
    rw [spread_cons] at inside
    rw [overlappingOntoIn, overlappingOnto_whole (by omega)]
    exact fun v hv => Option.some.inj hv ▸ Nat.le_refl _

mutual

/-- The nodes of a tree with their depths, each before its children, determine its shape. -/
theorem sameShape_of_overlappingOnto {n s depth : Nat} : ∀ {g h : Green}
    {after after' : List Visit}, g.Summed → h.Summed → s + g.length ≤ n → s + h.length ≤ n →
    Shallow depth after → Shallow depth after' →
    overlappingOnto ⟨0, n⟩ s depth after g = overlappingOnto ⟨0, n⟩ s depth after' h →
    g.sameShape h = true ∧ after = after'
  | mk data cs, h, after, after', summed, summed', inside, inside', shallow, shallow', same => by
    rw [overlappingOnto_whole inside, overlappingOnto_whole inside'] at same
    obtain ⟨here, below⟩ := List.cons.inj same
    rw [Visit.mk.injEq] at here
    obtain ⟨-, length, -, symbol, shape⟩ := here
    have spread : spread cs ≤ (mk data cs).length := summed.spread_le
    have spread' := summed'.spread_le
    have summed : ∀ c ∈ cs, c.Summed := summed.of_mem
    obtain ⟨shapes, rest⟩ := sameShapes_of_overlappingOntoIn summed summed'.of_mem
      (by omega) (by omega) shallow shallow' below
    exact ⟨sameShape_iff.mpr ⟨looksLike_iff_shape.mpr ⟨symbol, length, shape⟩, shapes⟩, rest⟩

theorem sameShapes_of_overlappingOntoIn {n s depth : Nat} : ∀ {gs hs : List Green}
    {after after' : List Visit}, (∀ g ∈ gs, g.Summed) → (∀ h ∈ hs, h.Summed) →
    s + spread gs ≤ n → s + spread hs ≤ n → Shallow depth after → Shallow depth after' →
    overlappingOntoIn ⟨0, n⟩ s (depth + 1) after gs =
      overlappingOntoIn ⟨0, n⟩ s (depth + 1) after' hs →
    sameShapes gs hs = true ∧ after = after'
  | [], [], _, _, _, _, _, _, _, _, same => by
    rw [overlappingOntoIn, overlappingOntoIn] at same
    exact ⟨by rw [sameShapes], same⟩
  -- A node of the one would have to be what comes after the other, which is not as deep.
  | [], h :: hs, _, _, _, _, _, inside', shallow, _, same => by
    rw [spread_cons] at inside'
    rw [overlappingOntoIn, overlappingOntoIn, overlappingOnto_whole (by omega)] at same
    exact absurd (shallow _ (by rw [same]; rfl)) (Nat.not_succ_le_self _)
  | g :: gs, [], _, _, _, _, inside, _, _, shallow', same => by
    rw [spread_cons] at inside
    rw [overlappingOntoIn, overlappingOntoIn, overlappingOnto_whole (by omega)] at same
    exact absurd (shallow' _ (by rw [← same]; rfl)) (Nat.not_succ_le_self _)
  | g :: gs, h :: hs, after, after', summed, summed', inside, inside', shallow, shallow', same => by
    rw [spread_cons] at inside inside'
    rw [overlappingOntoIn, overlappingOntoIn] at same
    obtain ⟨own, others⟩ := List.forall_mem_cons.mp summed
    obtain ⟨own', others'⟩ := List.forall_mem_cons.mp summed'
    have deeper {after : List Visit} (shallow : Shallow depth after) : Shallow (depth + 1) after :=
      fun v hv => Nat.le_succ_of_le (shallow v hv)
    obtain ⟨here, rest⟩ := sameShape_of_overlappingOnto own own' (by omega) (by omega)
      (shallow_overlappingOntoIn (by omega) (deeper shallow))
      (shallow_overlappingOntoIn (by omega) (deeper shallow')) same
    have length := length_of_sameShape here
    rw [← length] at rest
    obtain ⟨shapes, after⟩ := sameShapes_of_overlappingOntoIn others others' (by omega) (by omega)
      shallow shallow' rest
    exact ⟨sameShapes_cons.mpr ⟨here, shapes⟩, after⟩

end

end Shape

/-! ## Comparisons -/

/-- The ranges where two trees differ are sorted and apart, and each place in them is one of a
difference.  There is none just if the trees have one shape, which they have just if they are equal
over their whole length; and in a range apart from all of them the trees are equal. -/
theorem changedRanges_sound_complete {g h : Green} (summed : g.Summed) (summed' : h.Summed)
    (agree : g.MarksAgree h) :
    (changedRanges g h).Pairwise (fun s t => s.stop < t.start) ∧
      (∀ s ∈ changedRanges g h, s.start ≤ s.stop) ∧
      (∀ s ∈ changedRanges g h, ∀ o, s.Reaches o → ∃ d ∈ differences 0 0 g h, d.Reaches o) ∧
      (changedRanges g h = [] ↔ g.sameShape h = true) ∧
      (g.sameShape h = true ↔
        structurallyEqualIn g h ⟨0, max g.length h.length⟩ = true) ∧
      ∀ range : Span, (∀ s ∈ changedRanges g h, range.Apart s) →
        structurallyEqualIn g h range = true := by
  obtain ⟨sorted, forward, covered, made⟩ := mergeSpans_spec (forward_differences agree)
  have equal (range : Span) (missed : ∀ d ∈ differences 0 0 g h, Missed range d) :
      structurallyEqualIn g h range = true := by
    rw [structurallyEqualIn, overlapping, overlappingOnto_of_missed 0 [] agree missed]
    simp [overlapping]
  have same : differences 0 0 g h = [] ↔ g.sameShape h = true := by
    rw [differences_eq_nil_iff agree]
    simp
  refine ⟨sorted, forward, made, ?_, ⟨fun shape => ?_, fun whole => ?_⟩, fun range apart => ?_⟩
  · rw [← same]
    constructor
    · intro none
      refine List.eq_nil_iff_forall_not_mem.mpr fun d hd => ?_
      obtain ⟨t, ht, -⟩ := covered d hd
      rw [show mergeSpans (differences 0 0 g h) = [] from none] at ht
      exact List.not_mem_nil ht
    · intro none
      rw [changedRanges, none]
      simp [mergeSpans]
  · exact equal _ (same.mpr shape ▸ fun d hd => absurd hd List.not_mem_nil)
  · rw [structurallyEqualIn, Bool.or_eq_true, beq_iff_eq] at whole
    rcases whole with one | whole
    · exact agree.eq_of_isSame one ▸ sameShape_self g
    · exact (sameShape_of_overlappingOnto summed summed' (by omega) (by omega)
        (shallow_nil 0) (shallow_nil 0) whole).1
  · refine equal range fun d hd meet => ?_
    obtain ⟨t, ht, covers⟩ := covered d hd
    rw [Span.covers_iff] at covers
    exact (apart t ht).not_meet ⟨by omega, by omega⟩

/-- A node over a token that several such nodes share and a token of their own. -/
def pairOf (last : Symbol) : Green :=
  mk { (default : NodeData) with symbol := 5, length := 4 }
    [mk { (default : NodeData) with symbol := 2, length := 3, mark := some 1 } [],
      mk { (default : NodeData) with symbol := last, length := 1 } []]

theorem summed_pairOf (last : Symbol) : (pairOf last).Summed := by
  have token (d : NodeData) : (mk d []).Summed := .intro (by simp [children]) (by simp [children])
  exact .intro (by simp [pairOf, children, token]) fun _ => rfl

/-- Of the nodes of a pair only the token that is shared has a mark. -/
theorem eq_of_holds_pairOf {last : Symbol} {o : Nat} {n : Green} (held : (pairOf last).Holds o n)
    (marked : n.data.mark.isSome = true) : some n = (pairOf last).children.head? := by
  rcases held.cases_root with ⟨-, rfl⟩ | among
  · cases marked
  · rcases among with held | among
    · rcases held.cases_root with ⟨-, rfl⟩ | below
      · rfl
      · cases below
    · rcases (holdsIn_singleton.mp among).cases_root with ⟨-, rfl⟩ | below
      · cases marked
      · cases below

theorem marksAgree_pairOf (s t : Symbol) : (pairOf s).MarksAgree (pairOf t) := by
  intro o n o' m heldN heldM same
  rw [isSame, Bool.and_eq_true, beq_iff_eq] at same
  obtain ⟨marked, same⟩ := same
  exact Option.some.inj ((eq_of_holds_pairOf heldN marked).trans
    (eq_of_holds_pairOf heldM (same ▸ marked)).symm)

/-- Two pairs differ in their last tokens, and are equal in a range before these. -/
theorem pairs_compared : (pairOf 3).Summed ∧ (pairOf 4).Summed ∧
    (pairOf 3).MarksAgree (pairOf 4) ∧ changedRanges (pairOf 3) (pairOf 4) = [⟨3, 4⟩] ∧
    structurallyEqualIn (pairOf 3) (pairOf 4) ⟨0, 2⟩ = true ∧
    structurallyEqualIn (pairOf 3) (pairOf 4) ⟨0, 4⟩ = false := by
  have changed : changedRanges (pairOf 3) (pairOf 4) = [⟨3, 4⟩] := by
    rw [changedRanges, mergeSpans, show differences 0 0 (pairOf 3) (pairOf 4) = [⟨3, 4⟩] by decide,
      List.mergeSort_singleton]
    rfl
  obtain ⟨-, -, -, none, whole, equal⟩ :=
    changedRanges_sound_complete (summed_pairOf 3) (summed_pairOf 4) (marksAgree_pairOf 3 4)
  refine ⟨summed_pairOf 3, summed_pairOf 4, marksAgree_pairOf 3 4, changed, ?_, ?_⟩
  · exact equal ⟨0, 2⟩ (by rw [changed]; simp [Span.Apart, Span.overlaps, Span.isEmpty])
  · refine Bool.eq_false_iff.mpr fun same => ?_
    rw [none.mpr (whole.mpr same)] at changed
    cases changed

end Green

end Glr
