import Mathlib.Data.Prod.Lex
import Mathlib.Order.Bounds.Basic
import Glr.Proofs.Abreast

/-!
# The best reading stays

What competes is a rank, and ranks are linearly ordered: a stack beats another if its rank is lower
(`Stack.beats_iff_rank_lt`).  So there is a best rank among the live stacks, and several stacks can
have it; then the earliest counts (`Frontier.EarliestBest`).

Merging is described without the groups it works in.  What it leaves of one class of stacks, those
that went through the same states with the same extras, is what it would leave if there were no
others (`Frontier.filter_merged`): a stack is only ever compared with those of its class, sorting by
outlines keeps the order within a class, and no class is spread over two groups.  Within a class the
stacks are gone through from the first to the last and the place of the first is kept.

Pruning cuts a list that is sorted stably, and there is only one such list
(`Frontier.StablySorted.unique`).

None of the choices loses the best rank (`Frontier.Leads`).
-/

namespace Glr

namespace Stack

variable {s t : Stack}

/-- What stacks compete by: the lowest rank is the best. -/
def rank (s : Stack) : ℕ ×ₗ ℤᵒᵈ ×ₗ ℕ :=
  toLex (s.errorCost, toLex (OrderDual.toDual s.dynamicPrecedence, s.preference))

theorem beats_iff_rank_lt : s.beats t = true ↔ s.rank < t.rank := by
  rw [beats_iff, rank, rank, Prod.Lex.toLex_lt_toLex, Prod.Lex.toLex_lt_toLex]
  simp only [OrderDual.toDual_lt_toDual, OrderDual.toDual_inj]
  omega

theorem beats_false_iff_rank_le : s.beats t = false ↔ t.rank ≤ s.rank := by
  rw [Bool.eq_false_iff, ne_eq, beats_iff_rank_lt, not_lt]

theorem Replaces.rank_le (h : s.Replaces t) : s.rank ≤ t.rank :=
  beats_false_iff_rank_le.mp h.unbeaten

end Stack

namespace Frontier

variable {s t : Stack} {live left : List Stack}

/-! ## The earliest of the best -/

/-- A stack of a list that is ranked before all that come earlier, and not behind those that come
later. -/
def EarliestBest (s : Stack) (among : List Stack) : Prop :=
  ∃ before after, among = before ++ s :: after ∧
    (∀ t ∈ before, s.rank < t.rank) ∧ ∀ t ∈ after, s.rank ≤ t.rank

theorem EarliestBest.rank_le (h : EarliestBest s live) (ht : t ∈ live) : s.rank ≤ t.rank := by
  obtain ⟨before, after, rfl, earlier, later⟩ := h
  simp only [List.mem_append, List.mem_cons] at ht
  rcases ht with ht | rfl | ht
  · exact (earlier t ht).le
  · exact le_rfl
  · exact later t ht

theorem earliestBest_bestFrom (live : List Stack) (best : Stack) :
    EarliestBest (bestFrom best live) (best :: live) := by
  induction live generalizing best with
  | nil => exact ⟨[], [], rfl, by simp, by simp⟩
  | cons s live ih =>
    rw [bestFrom]
    by_cases beats : s.beats best = true
    · rw [if_pos beats]
      have first := (ih s).rank_le List.mem_cons_self
      obtain ⟨before, after, split, earlier, later⟩ := ih s
      refine ⟨best :: before, after, by rw [split]; rfl, ?_, later⟩
      simp only [List.forall_mem_cons]
      exact ⟨first.trans_lt (Stack.beats_iff_rank_lt.mp beats), earlier⟩
    · rw [if_neg beats]
      have stays := Stack.beats_false_iff_rank_le.mp (Bool.eq_false_iff.mpr beats)
      obtain ⟨before, after, split, earlier, later⟩ := ih best
      cases before with
      | nil =>
        -- It is still the one that the search began with.
        obtain ⟨same, rest⟩ := List.cons.inj split
        refine ⟨[], s :: after, by rw [← same, rest]; rfl, by simp, ?_⟩
        simp only [List.forall_mem_cons]
        exact ⟨same ▸ stays, later⟩
      | cons first before =>
        obtain ⟨rfl, rest⟩ := List.cons.inj split
        simp only [List.forall_mem_cons] at earlier
        refine ⟨best :: s :: before, after, congrArg (best :: s :: ·) rest, ?_, later⟩
        simp only [List.forall_mem_cons]
        exact ⟨earlier.1, earlier.1.trans_le stays, earlier.2⟩

/-! ## Sorting stably -/

/-- Sorting leaves those of a list that are tied with each other in their order. -/
theorem filter_mergeSort {α : Type*} {le : α → α → Bool} {p : α → Bool}
    (trans : ∀ a b c, le a b = true → le b c = true → le a c = true)
    (total : ∀ a b, (le a b || le b a) = true)
    {l : List α} (tied : ∀ a ∈ l, ∀ b ∈ l, p a = true → p b = true → le a b = true) :
    (l.mergeSort le).filter p = l.filter p := by
  have sorted : (l.filter p).Pairwise fun a b => le a b = true :=
    List.pairwise_of_forall_mem_list fun a ha b hb =>
      tied a (List.mem_of_mem_filter ha) b (List.mem_of_mem_filter hb) (List.of_mem_filter ha)
        (List.of_mem_filter hb)
  have kept : (l.filter p).Sublist (l.mergeSort le) :=
    List.sublist_mergeSort trans total sorted List.filter_sublist
  have kept : (l.filter p).Sublist ((l.mergeSort le).filter p) := by
    simpa using kept.filter p
  exact (kept.eq_of_length ((List.mergeSort_perm l le).filter p).length_eq.symm).symm

/-- A list with the stacks of another by their ranks, and those of one rank in their order. -/
structure StablySorted (live sorted : List Stack) : Prop where
  ascending : sorted.Pairwise fun s t => s.rank ≤ t.rank
  stable : ∀ r, sorted.filter (fun s => s.rank = r) = live.filter fun s => s.rank = r

namespace StablySorted

theorem mem_iff {sorted : List Stack} (h : StablySorted live sorted) : s ∈ sorted ↔ s ∈ live := by
  have here := congrArg (s ∈ ·) (h.stable s.rank)
  simpa using here

/-- There is one way to sort a list stably. -/
theorem unique {sorted sorted' : List Stack} (h : StablySorted live sorted)
    (h' : StablySorted live sorted') : sorted = sorted' := by
  induction sorted generalizing live sorted' with
  | nil =>
    have none : ∀ s, s ∉ sorted' := fun s hs => by
      simpa using h.mem_iff.mpr (h'.mem_iff.mp hs)
    exact (List.eq_nil_iff_forall_not_mem.mpr none).symm
  | cons s rest ih =>
    obtain ⟨t, rest', rfl⟩ := List.exists_cons_of_ne_nil
      (List.ne_nil_of_mem (h'.mem_iff.mpr (h.mem_iff.mp List.mem_cons_self)))
    obtain ⟨least, sorted⟩ := List.pairwise_cons.mp h.ascending
    obtain ⟨least', sorted'⟩ := List.pairwise_cons.mp h'.ascending
    have tied : s.rank = t.rank := by
      have below : s.rank ≤ t.rank := by
        rcases List.mem_cons.mp (h.mem_iff.mpr (h'.mem_iff.mp List.mem_cons_self)) with eq | mem
        · exact (congrArg Stack.rank eq).ge
        · exact least t mem
      have above : t.rank ≤ s.rank := by
        rcases List.mem_cons.mp (h'.mem_iff.mpr (h.mem_iff.mp List.mem_cons_self)) with eq | mem
        · exact (congrArg Stack.rank eq).ge
        · exact least' s mem
      exact le_antisymm below above
    have agree : ∀ r, (s :: rest).filter (fun u => u.rank = r) =
        (t :: rest').filter fun u => u.rank = r := fun r => (h.stable r).trans (h'.stable r).symm
    have first := agree t.rank
    simp only [List.filter_cons, tied, decide_true, if_true, List.cons.injEq] at first
    obtain ⟨rfl, -⟩ := first
    have own : StablySorted rest rest := ⟨sorted, fun _ => rfl⟩
    refine congrArg (s :: ·) (ih own ⟨sorted', fun r => ?_⟩)
    have behind := agree r
    simp only [List.filter_cons] at behind
    split at behind
    · exact (List.cons.inj behind).2.symm
    · exact behind.symm

end StablySorted

/-- Sorting by what beats what is stable sorting by ranks. -/
theorem stablySorted_mergeSort (live : List Stack) :
    StablySorted live (live.mergeSort fun s t => !t.beats s) := by
  have le_iff : ∀ s t : Stack, (!t.beats s) = true ↔ s.rank ≤ t.rank := by
    intro s t
    rw [Bool.not_eq_true', Stack.beats_false_iff_rank_le]
  have trans : ∀ s t u : Stack, (!t.beats s) = true → (!u.beats t) = true →
      (!u.beats s) = true := by
    simp only [le_iff]
    exact fun _ _ _ => le_trans
  have total : ∀ s t : Stack, ((!t.beats s) || !s.beats t) = true := by
    simp only [Bool.or_eq_true, le_iff]
    exact fun s t => le_total s.rank t.rank
  constructor
  · simpa only [le_iff] using List.pairwise_mergeSort trans total live
  · intro r
    refine filter_mergeSort trans total fun s _ t _ hs ht => (le_iff s t).mpr ?_
    simp only [decide_eq_true_eq] at hs ht
    rw [hs, ht]

/-! ## Merging class by class -/

/-- Whether a contender went through the states. -/
def Contender.went (states : List (StateId × Bool)) (c : Contender) : Bool :=
  c.stack.trace = states

variable {states : List (StateId × Bool)}

theorem filter_mergeInto (states : List (StateId × Bool)) (c : Contender)
    (merged : List Contender) : (mergeInto c merged).filter (·.went states) =
      if c.went states then mergeInto c (merged.filter (·.went states))
      else merged.filter (·.went states) := by
  induction merged with
  | nil => by_cases here : c.went states <;> simp [mergeInto, here]
  | cons d ds ih =>
    rw [mergeInto]
    by_cases same : d.stack.sameStates c.stack = true
    · -- Whichever of the two stands there, it went through the states of the other.
      have class_eq : d.went states = c.went states := by
        rw [Contender.went, Contender.went, Stack.sameStates_iff.mp same]
      rw [if_pos same]
      by_cases beats : c.stack.beats d.stack = true
      · have moved : Contender.went states { c with place := d.place } = c.went states := rfl
        by_cases here : c.went states = true <;>
          simp [mergeInto, same, beats, class_eq, moved, here]
      · by_cases here : c.went states = true <;>
          simp [mergeInto, same, beats, class_eq, here]
    · rw [if_neg same, List.filter_cons, List.filter_cons, ih]
      by_cases here : c.went states = true
      · by_cases there : d.went states = true
        · simp [here, there, mergeInto, same]
        · simp [here, there]
      · simp [here]

theorem filter_mergeGroup (states : List (StateId × Bool)) (group : List Contender) :
    (mergeGroup group).filter (·.went states) = mergeGroup (group.filter (·.went states)) := by
  have walk : ∀ group merged : List Contender,
      (group.foldl (fun merged c => mergeInto c merged) merged).filter (·.went states) =
        (group.filter (·.went states)).foldl (fun merged c => mergeInto c merged)
          (merged.filter (·.went states)) := by
    intro group
    induction group with
    | nil => exact fun merged => rfl
    | cons c group ih =>
      intro merged
      rw [List.foldl_cons, ih, filter_mergeInto, List.filter_cons]
      by_cases here : c.went states = true <;> simp [here]
  exact walk group []

/-- Groups that have no class in common are merged like all of them together, as far as one class
is concerned. -/
theorem filter_flatMap_mergeGroup {groups : List (List Contender)}
    (apart : groups.Pairwise fun a b => ∀ c ∈ a, ∀ d ∈ b, c.stack.trace ≠ d.stack.trace) :
    (groups.flatMap mergeGroup).filter (·.went states) =
      mergeGroup (groups.flatten.filter (·.went states)) := by
  induction groups with
  | nil => rfl
  | cons a rest ih =>
    obtain ⟨across, apart⟩ := List.pairwise_cons.mp apart
    rw [List.flatMap_cons, List.filter_append, filter_mergeGroup, ih apart, List.flatten_cons,
      List.filter_append]
    by_cases empty : a.filter (·.went states) = []
    · rw [empty]
      rfl
    · obtain ⟨c, hc⟩ := List.exists_mem_of_ne_nil _ empty
      simp only [List.mem_filter, Contender.went, decide_eq_true_eq] at hc
      have others : rest.flatten.filter (·.went states) = [] := by
        rw [List.filter_eq_nil_iff]
        intro d hd went
        obtain ⟨b, hb, hd⟩ := List.mem_flatten.mp hd
        simp only [Contender.went, decide_eq_true_eq] at went
        exact across b hb c hc.1 d hd (hc.2.trans went.symm)
      rw [others, List.append_nil]
      exact List.append_nil _

/-- The contenders that are left after merging, before they are put in order. -/
def merged (live : List Stack) : List Contender :=
  (((contenders live).mergeSort outlineLe).splitBy fun c d => c.outline == d.outline).flatMap
    mergeGroup

/-- Merging is the same for lists that are too short to need it. -/
theorem merge_eq (live : List Stack) :
    merge live = ((merged live).mergeSort fun c d => c.place ≤ d.place).map (·.stack) := by
  rw [merge]
  split
  · next few =>
    rcases live with _ | ⟨s, _ | ⟨t, rest⟩⟩
    · simp [merged, contenders]
    · simp [merged, contenders, List.splitBy, List.splitBy.loop, mergeGroup, mergeInto]
    · simp at few
  · rfl

theorem outline_of_mem_contenders {c : Contender} (h : c ∈ contenders live) :
    c.outline = c.stack.outline := by
  obtain ⟨⟨s, place⟩, -, rfl⟩ := List.mem_map.mp h
  rfl

theorem filter_merged (live : List Stack) (states : List (StateId × Bool)) :
    (merged live).filter (·.went states) =
      mergeGroup ((contenders live).filter (·.went states)) := by
  have outline : ∀ c ∈ (contenders live).mergeSort outlineLe, c.outline = c.stack.outline :=
    fun c hc => outline_of_mem_contenders (List.mem_mergeSort.mp hc)
  rw [merged, filter_flatMap_mergeGroup, List.flatten_splitBy]
  · -- Those of one class have one outline, and so they keep their order.
    refine congrArg mergeGroup (filter_mergeSort outlineLe_trans outlineLe_total ?_)
    intro c hc d hd here there
    simp only [Contender.went, decide_eq_true_eq] at here there
    have same : c.outline = d.outline := by
      rw [outline_of_mem_contenders hc, outline_of_mem_contenders hd]
      exact Stack.outline_eq_of_sameStates (Stack.sameStates_iff.mpr (here.trans there.symm))
    exact outlineLe_iff.mpr (Or.inr ⟨by rw [same], by rw [same]⟩)
  · refine (apart_groups (contenders live)).imp_of_mem fun {a b} ha hb apart c hc d hd same => ?_
    have inside : ∀ {a : List Contender}, a ∈ ((contenders live).mergeSort outlineLe).splitBy
        (fun c d => c.outline == d.outline) → ∀ c ∈ a, c.outline = c.stack.outline := by
      intro a ha c hc
      have mem := List.mem_flatten.mpr ⟨a, ha, hc⟩
      rw [List.flatten_splitBy] at mem
      exact outline c mem
    refine apart c hc d hd ?_
    rw [inside ha c hc, inside hb d hd]
    exact Stack.outline_eq_of_sameStates (Stack.sameStates_iff.mpr same)

/-- The contenders of one class are merged into one, at the place of the first. -/
theorem mergeGroup_of_class {d : Contender} {ds : List Contender}
    (one : ∀ c ∈ ds, c.stack.trace = d.stack.trace) :
    ∃ e, mergeGroup (d :: ds) = [e] ∧ e.place = d.place ∧
      e.stack = bestFrom d.stack (ds.map (·.stack)) := by
  induction ds generalizing d with
  | nil => exact ⟨d, rfl, rfl, rfl⟩
  | cons c ds ih =>
    obtain ⟨first, rest⟩ := List.forall_mem_cons.mp one
    have same : d.stack.sameStates c.stack = true := Stack.sameStates_iff.mpr first.symm
    by_cases beats : c.stack.beats d.stack = true
    · obtain ⟨e, merges, place, best⟩ := ih (d := { c with place := d.place })
        fun f hf => (rest f hf).trans first.symm
      refine ⟨e, ?_, place, ?_⟩
      · simpa [mergeGroup, mergeInto, same, beats] using merges
      · simpa [bestFrom, beats] using best
    · obtain ⟨e, merges, place, best⟩ := ih rest
      refine ⟨e, ?_, place, ?_⟩
      · simpa [mergeGroup, mergeInto, same, beats] using merges
      · simpa [bestFrom, beats] using best

theorem stacks_of_class (live : List Stack) (states : List (StateId × Bool)) :
    ((contenders live).filter (·.went states)).map (·.stack) =
      live.filter fun s => s.trace = states := by
  have all : (contenders live).map (·.stack) = live := by
    simp [contenders, Function.comp_def]
  rw [← congrArg (List.filter _) all, List.filter_map]
  rfl

/-- The first contender of a class stands where its class appears first. -/
theorem place_of_class {d : Contender} {ds : List Contender}
    (class_eq : (contenders live).filter (·.went states) = d :: ds) :
    d.place = (live.map Stack.trace).idxOf states := by
  have walk : ∀ (live : List Stack) (n : Nat),
      ((live.zipIdx n).map fun m => (⟨m.2, m.1.outline, m.1⟩ : Contender)).filter
        (·.went states) = d :: ds → d.place = n + (live.map Stack.trace).idxOf states := by
    intro live
    induction live with
    | nil => simp
    | cons s live ih =>
      intro n class_eq
      rw [List.zipIdx_cons, List.map_cons, List.filter_cons] at class_eq
      by_cases here : s.trace = states
      · simp only [Contender.went, here, decide_true, if_true, List.cons.injEq] at class_eq
        rw [List.map_cons, here, List.idxOf_cons_self, ← class_eq.1, Nat.add_zero]
      · simp only [Contender.went, here, decide_false] at class_eq
        rw [List.map_cons, List.idxOf_cons_ne _ here, ih (n + 1) class_eq]
        omega
  simpa using walk live 0 class_eq

/-- What is left of a class stands where it appears first, and is the earliest of its best. -/
theorem merged_spec {e : Contender} (he : e ∈ merged live) :
    e.place = (live.map Stack.trace).idxOf e.stack.trace ∧
      EarliestBest e.stack (live.filter fun s => s.trace = e.stack.trace) := by
  have here : e ∈ (merged live).filter (·.went e.stack.trace) :=
    List.mem_filter.mpr ⟨he, decide_eq_true rfl⟩
  rw [filter_merged] at here
  generalize class_eq : (contenders live).filter (·.went e.stack.trace) = cs at here
  cases cs with
  | nil => simp [mergeGroup] at here
  | cons d ds =>
    have went : ∀ c ∈ d :: ds, c.stack.trace = e.stack.trace := by
      intro c hc
      rw [← class_eq] at hc
      simpa [Contender.went] using List.of_mem_filter hc
    obtain ⟨first, rest⟩ := List.forall_mem_cons.mp went
    have one : ∀ c ∈ ds, c.stack.trace = d.stack.trace := fun c hc =>
      (rest c hc).trans first.symm
    obtain ⟨e', merges, place, best⟩ := mergeGroup_of_class one
    rw [merges, List.mem_singleton] at here
    subst here
    refine ⟨place.trans (place_of_class class_eq), ?_⟩
    rw [← stacks_of_class, class_eq, List.map_cons, best]
    exact earliestBest_bestFrom _ _

/-- A list with one stack for each class of another, in the order in which the classes appear
there, and of each class the earliest of the best. -/
structure Merges (live merged : List Stack) : Prop where
  ordered : merged.Pairwise fun s t =>
    (live.map Stack.trace).idxOf s.trace < (live.map Stack.trace).idxOf t.trace
  complete : ∀ s ∈ live, ∃ t ∈ merged, t.trace = s.trace
  earliest : ∀ t ∈ merged, EarliestBest t (live.filter fun s => s.trace = t.trace)

theorem merges_merge (live : List Stack) : Merges live (merge live) where
  ordered := by
    have distinct := distinct_merge live
    rw [merge_eq, List.pairwise_map] at distinct ⊢
    have trans : ∀ c d e : Contender, decide (c.place ≤ d.place) = true →
        decide (d.place ≤ e.place) = true → decide (c.place ≤ e.place) = true := by
      simp only [decide_eq_true_eq]
      omega
    have total : ∀ c d : Contender,
        (decide (c.place ≤ d.place) || decide (d.place ≤ c.place)) = true := by
      simp only [Bool.or_eq_true, decide_eq_true_eq]
      omega
    refine ((List.pairwise_mergeSort trans total (merged live)).and distinct).imp_of_mem
      fun {c d} hc hd both => ?_
    obtain ⟨below, other⟩ := both
    have place := merged_spec (List.mem_mergeSort.mp hc)
    have place' := merged_spec (List.mem_mergeSort.mp hd)
    rw [decide_eq_true_eq, place.1, place'.1] at below
    refine lt_of_le_of_ne below fun same => other ?_
    obtain ⟨before, after, split, -⟩ := place.2
    have mem : c.stack ∈ live.filter fun s => s.trace = c.stack.trace := by simp [split]
    exact (List.idxOf_inj (List.mem_map_of_mem (List.mem_of_mem_filter mem))).mp same
  complete := fun s hs => by
    obtain ⟨t, ht, replaces⟩ := exists_replaces_merge hs
    exact ⟨t, ht, replaces.same⟩
  earliest := fun t ht => by
    rw [merge_eq] at ht
    obtain ⟨e, he, rfl⟩ := List.mem_map.mp ht
    exact (merged_spec (List.mem_mergeSort.mp he)).2

/-! ## What the choices leave -/

/-- What merging, pruning and collapsing, in any order and any number, can leave of a list. -/
inductive Narrows (live : List Stack) : List Stack → Prop where
  | start : Narrows live live
  | merge {left : List Stack} (narrows : Narrows live left) : Narrows live (merge left)
  | prune {left : List Stack} (narrows : Narrows live left) (allowed : Nat) :
      Narrows live (prune left allowed)
  | collapse {left : List Stack} (narrows : Narrows live left) : Narrows live (collapse left)

/-- What is left is from the list, and nothing of the list is ranked before all of it. -/
structure Leads (live left : List Stack) : Prop where
  chosen : ∀ s ∈ left, s ∈ live
  best : ∀ s ∈ live, ∃ t ∈ left, t.rank ≤ s.rank

namespace Leads

theorem refl (live : List Stack) : Leads live live := ⟨fun _ => id, fun s hs => ⟨s, hs, le_rfl⟩⟩

theorem trans {later : List Stack} (h : Leads live left) (h' : Leads left later) :
    Leads live later where
  chosen s hs := h.chosen s (h'.chosen s hs)
  best s hs := by
    obtain ⟨t, ht, below⟩ := h.best s hs
    obtain ⟨u, hu, below'⟩ := h'.best t ht
    exact ⟨u, hu, below'.trans below⟩

theorem merge (live : List Stack) : Leads live (merge live) where
  chosen _ hs := mem_of_mem_merge hs
  best s hs := by
    obtain ⟨t, ht, replaces⟩ := exists_replaces_merge hs
    exact ⟨t, ht, replaces.rank_le⟩

theorem collapse (live : List Stack) : Leads live (collapse live) where
  chosen _ hs := mem_of_mem_collapse hs
  best s hs := by
    obtain ⟨t, found⟩ := exists_best? (List.ne_nil_of_mem hs)
    refine ⟨t, by simp [Frontier.collapse, found], ?_⟩
    exact Stack.beats_false_iff_rank_le.mp (unbeaten_of_best? found s hs)

end Leads

theorem StablySorted.leads {sorted : List Stack} (h : StablySorted live sorted) (more : Nat) :
    Leads live (sorted.take (more + 1)) where
  chosen s hs := h.mem_iff.mp (List.mem_of_mem_take hs)
  best s hs := by
    have mem := h.mem_iff.mpr hs
    have ascending := h.ascending
    cases sorted with
    | nil => simp at mem
    | cons t rest =>
      refine ⟨t, by simp, ?_⟩
      rcases List.mem_cons.mp mem with rfl | mem
      · exact le_rfl
      · exact (List.pairwise_cons.mp ascending).1 s mem

theorem prune_of_le {allowed : Nat} (few : live.length ≤ allowed) : prune live allowed = live := by
  rw [prune, isCrowded, if_neg (by simpa using few)]

theorem prune_of_lt {allowed : Nat} {sorted : List Stack} (many : allowed < live.length)
    (h : StablySorted live sorted) : prune live allowed = sorted.take (max 1 allowed) := by
  rw [prune, isCrowded, if_pos (by simpa using many),
    h.unique (stablySorted_mergeSort live), Nat.max_comm]

theorem leads_prune (live : List Stack) (allowed : Nat) : Leads live (prune live allowed) := by
  by_cases few : live.length ≤ allowed
  · rw [prune_of_le few]
    exact .refl live
  · have sorted := stablySorted_mergeSort live
    rw [prune_of_lt (by omega) sorted]
    obtain ⟨more, width⟩ : ∃ more, max 1 allowed = more + 1 := ⟨max 1 allowed - 1, by omega⟩
    rw [width]
    exact sorted.leads more

theorem Narrows.leads (h : Narrows live left) : Leads live left := by
  induction h with
  | start => exact .refl live
  | merge _ ih => exact ih.trans (.merge _)
  | prune _ allowed ih => exact ih.trans (leads_prune _ allowed)
  | collapse _ ih => exact ih.trans (.collapse _)

/-- The best rank among the stacks is that of the best stack. -/
theorem exists_isLeast_rank (some : live ≠ []) : ∃ r, IsLeast {r | ∃ s ∈ live, s.rank = r} r := by
  obtain ⟨s, found⟩ := exists_best? some
  refine ⟨s.rank, ⟨s, mem_of_best? found, rfl⟩, ?_⟩
  intro r hr
  obtain ⟨t, ht, rfl⟩ := hr
  exact Stack.beats_false_iff_rank_le.mp (unbeaten_of_best? found t ht)

theorem Leads.isLeast (h : Leads live left) {r : ℕ ×ₗ ℤᵒᵈ ×ₗ ℕ}
    (least : IsLeast {r | ∃ s ∈ live, s.rank = r} r) :
    IsLeast {r | ∃ s ∈ left, s.rank = r} r := by
  obtain ⟨⟨s, hs, rfl⟩, lower⟩ := least
  have below : s.rank ∈ lowerBounds {r | ∃ s ∈ left, s.rank = r} := by
    intro r hr
    obtain ⟨t, ht, rfl⟩ := hr
    exact lower ⟨t, h.chosen t ht, rfl⟩
  obtain ⟨t, ht, reaches⟩ := h.best s hs
  exact ⟨⟨t, ht, le_antisymm reaches (below ⟨t, ht, rfl⟩)⟩, below⟩

/-- Merging leaves one stack for each class of stacks with the same states and extras, in order of
first appearance: the earliest of the best of its class.  Pruning leaves a list that is not too long
as it is, and otherwise the first stacks of the one list that is sorted stably by ranks.  In
whatever order they are merged, pruned and collapsed, what is left are stacks of the list, and the
best rank stays the best. -/
theorem choices_keep_best (live : List Stack) :
    Merges live (merge live) ∧
    (∀ allowed, live.length ≤ allowed → prune live allowed = live) ∧
    (∃ sorted, StablySorted live sorted ∧ (∀ other, StablySorted live other → other = sorted) ∧
      ∀ allowed < live.length, prune live allowed = sorted.take (max 1 allowed)) ∧
    ∀ left, Narrows live left → (∀ s ∈ left, s ∈ live) ∧
      (live ≠ [] → ∃ r, IsLeast {r | ∃ s ∈ live, s.rank = r} r ∧
        IsLeast {r | ∃ s ∈ left, s.rank = r} r) := by
  refine ⟨merges_merge live, fun allowed => prune_of_le, ?_, ?_⟩
  · have sorted := stablySorted_mergeSort live
    exact ⟨_, sorted, fun other h => h.unique sorted, fun allowed many => prune_of_lt many sorted⟩
  · intro left narrows
    have leads := narrows.leads
    refine ⟨leads.chosen, fun some => ?_⟩
    obtain ⟨r, least⟩ := exists_isLeast_rank some
    exact ⟨r, least, leads.isLeast least⟩

/-- Three stacks, two of one class and the later of them with fewer errors. -/
theorem choices_keep_best_of_three :
    let live := [Stack.empty.charge 2, Stack.empty.push default, Stack.empty.charge 1]
    prune live 3 = live ∧
    (∃ sorted, StablySorted live sorted ∧ prune live 2 = sorted.take 2) ∧
    ∃ r, IsLeast {r | ∃ s ∈ live, s.rank = r} r ∧
      IsLeast {r | ∃ s ∈ collapse (merge live), s.rank = r} r := by
  intro live
  obtain ⟨-, few, ⟨sorted, stable, -, many⟩, keeps⟩ := choices_keep_best live
  refine ⟨few 3 (by simp [live]), ⟨sorted, stable, many 2 (by simp [live])⟩, ?_⟩
  exact (keeps _ (.collapse (.merge .start))).2 (by simp [live])

end Frontier

end Glr
