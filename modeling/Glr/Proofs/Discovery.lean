import Glr.Proofs.Recognition

/-!
# Every state is found, and found once

A kernel is kept as a list, and the search for states tells kernels apart as lists.  That they are
told apart as sets, and so that a core has a single state, rests on the order in which a kernel is
kept: it is sorted and has no item twice (`Ordered`).  That no state is there for nothing rests on
the order of the search: a kernel is given a number while the moves of a state with a lower number
are followed (`Discovered`), so going from state to state of lower number leads back to the first
one, and the way there is a path (`exists_path`).
-/

namespace Glr

namespace Item

theorem le_iff {a b : Item} : a.le b = true ↔
    a.production < b.production ∨ a.production = b.production ∧ a.dot ≤ b.dot := by
  rw [le, Bool.or_eq_true, Bool.and_eq_true, decide_eq_true_eq, beq_iff_eq, decide_eq_true_eq]

theorem le_total (a b : Item) : (a.le b || b.le a) = true := by
  rw [Bool.or_eq_true, le_iff, le_iff]
  grind

theorem le_trans (a b c : Item) (hab : a.le b = true) (hbc : b.le c = true) : a.le c = true := by
  rw [le_iff] at hab hbc ⊢
  grind

theorem le_antisymm {a b : Item} (hab : a.le b = true) (hba : b.le a = true) : a = b := by
  obtain ⟨p, n⟩ := a
  obtain ⟨q, m⟩ := b
  rw [le_iff] at hab hba
  grind

theorem advance_injective : Function.Injective Item.advance := by
  rintro ⟨p, n⟩ ⟨q, m⟩ h
  simp only [advance, Item.mk.injEq, Nat.add_right_cancel_iff] at h
  rw [h.1, h.2]

end Item

namespace Automaton

variable {g : FlatGrammar} {a : Automaton}

/-! ## Kernels as sets -/

/-- Sorted items, none of them twice. -/
def Ordered (kernel : List Item) : Prop :=
  kernel.Pairwise (fun x y => x.le y = true) ∧ kernel.Nodup

/-- Sorted items are known by which they are. -/
theorem Ordered.eq_of_mem_iff {kernel kernel' : List Item} (h : Ordered kernel)
    (h' : Ordered kernel') (same : ∀ item, item ∈ kernel ↔ item ∈ kernel') : kernel = kernel' :=
  ((List.perm_ext_iff_of_nodup h.2 h'.2).mpr same).eq_of_pairwise
    (fun _ _ _ _ => Item.le_antisymm) h.1 h'.1

/-- A predicted item has its dot in front. -/
theorem eq_start_of_predicted {kernel : List Item} {p : ProductionId} {item : Item}
    (h : (match g.productions[p]? with
      | some production =>
        if (predicted g kernel).contains production.lhs then some (Item.start p) else none
      | none => none) = some item) : item = Item.start p := by
  split at h
  · split at h
    · exact (Option.some.inj h).symm
    · cases h
  · cases h

theorem closure_nodup {i : StateId} {kernel : List Item} (nodup : kernel.Nodup)
    (known : ∀ item ∈ kernel, KernelItem g i item) : (closure g kernel).Nodup := by
  rw [closure]
  refine nodup.append ?_ ?_
  · exact List.nodup_range.filterMap fun p q item hp hq => congrArg Item.production
      ((eq_start_of_predicted hp).symm.trans (eq_start_of_predicted hq))
  · -- A predicted item is not the one that starts the text.
    intro item inKernel predicted
    obtain ⟨p, hp, h⟩ := List.mem_filterMap.mp predicted
    obtain rfl := eq_start_of_predicted h
    rcases known _ inKernel with ⟨-, heq⟩ | ⟨-, front, -⟩
    · have : p = g.augmented := congrArg Item.production heq
      exact Nat.lt_irrefl _ (this ▸ List.mem_range.mp hp)
    · exact Nat.lt_irrefl 0 front

theorem ordered_core {items : List Item} {s : Symbol} (nodup : items.Nodup) :
    Ordered (core g items s) :=
  ⟨List.pairwise_mergeSort Item.le_trans Item.le_total _,
    (List.mergeSort_perm _ _).nodup_iff.mpr
      ((nodup.filter _).map Item.advance_injective)⟩

theorem nodup_nexts (items : List Item) : (nexts g items).Nodup := List.nodup_range.filter _

/-! ## The search -/

/-- What following some symbols does to the numbers of kernels: no kernel gets a second one, and a
new one belongs to the target of a move. -/
structure Numbered (kernels : Array (List Item)) (moves : List (Symbol × StateId))
    (kernels' : Array (List Item)) : Prop where
  distinct : kernels.toList.Nodup → kernels'.toList.Nodup
  new : ∀ j, kernels.size ≤ j → j < kernels'.size → ∃ s, (s, j) ∈ moves

theorem Numbered.cons {kernels mid kernels' : Array (List Item)} {kernel : List Item} {s : Symbol}
    {target : StateId} {moves : List (Symbol × StateId)}
    (entered : Entered kernels kernel target mid) (later : Numbered mid moves kernels') :
    Numbered kernels ((s, target) :: moves) kernels' := by
  cases entered with
  | known found =>
    exact ⟨later.distinct, fun j old lt =>
      (later.new j old lt).imp fun _ => List.mem_cons_of_mem _⟩
  | new absent room =>
    refine ⟨fun distinct => later.distinct ?_, fun j old lt => ?_⟩
    · rw [Array.toList_push, List.nodup_append_comm, List.singleton_append, List.nodup_cons,
        Array.mem_toList_iff]
      exact ⟨Array.idxOf?_eq_none_iff.mp absent, distinct⟩
    · rcases Nat.eq_or_lt_of_le old with rfl | above
      · exact ⟨s, List.mem_cons_self⟩
      · refine (later.new j ?_ lt).imp fun _ => List.mem_cons_of_mem _
        rwa [Array.size_push]

theorem follow_numbered {items : List Item} :
    ∀ {symbols : List Symbol} {kernels kernels' : Array (List Item)}
      {moves : List (Symbol × StateId)},
      follow g items kernels symbols = .ok (moves, kernels') → Numbered kernels moves kernels' := by
  intro symbols
  induction symbols with
  | nil =>
    intro kernels kernels' moves h
    rw [follow] at h
    cases h
    exact ⟨id, fun j old lt => absurd lt (Nat.not_lt_of_le old)⟩
  | cons s symbols ih =>
    intro kernels kernels' moves h
    obtain ⟨target, mid, rest, entered, hrest, rfl⟩ := follow_cons h
    exact .cons entered (ih hrest)

/-- What else the search keeps: kernels are told apart, and each but the first is one that a
completed state with a lower number has a move to. -/
structure Discovered (kernels : Array (List Item)) (done : Array LrState) : Prop where
  distinct : kernels.toList.Nodup
  ordered : ∀ kernel ∈ kernels, Ordered kernel
  found : ∀ j, 0 < j → j < kernels.size →
    ∃ i state s, i < j ∧ done[i]? = some state ∧ (s, j) ∈ state.moves

theorem discovered_start : Discovered #[[Item.start g.augmented]] #[] where
  distinct := List.nodup_singleton _
  ordered kernel mem := by
    rw [List.mem_toArray, List.mem_singleton] at mem
    subst mem
    exact ⟨List.pairwise_singleton _ _, List.nodup_singleton _⟩
  found j above lt := absurd above (Nat.not_lt_of_le (Nat.le_of_lt_succ lt))

theorem Discovered.turn {kernels kernels' : Array (List Item)} {done : Array LrState}
    (disc : Discovered kernels done) (inv : Exploring g kernels done) {kernel : List Item}
    (found : kernels[done.size]? = some kernel) {moves : List (Symbol × StateId)}
    (followed : Followed g (closure g kernel) kernels (nexts g (closure g kernel)) moves kernels')
    (numbered : Numbered kernels moves kernels') :
    Discovered kernels' (done.push ⟨kernel, closure g kernel, moves⟩) where
  distinct := numbered.distinct disc.distinct
  ordered k mem := by
    obtain ⟨i, hi⟩ := Array.mem_iff_getElem?.mp mem
    rcases followed.new i k hi with old | ⟨s, rfl⟩
    · exact disc.ordered k (Array.mem_of_getElem? old)
    · have nodup := (disc.ordered kernel (Array.mem_of_getElem? found)).2
      exact ordered_core (closure_nodup nodup (inv.kernel _ _ found))
  found j above lt := by
    rcases Nat.lt_or_ge j kernels.size with old | new
    · obtain ⟨i, state, s, below, hi, mem⟩ := disc.found j above old
      exact ⟨i, state, s, below, getElem?_pushed hi, mem⟩
    · obtain ⟨s, mem⟩ := numbered.new j new lt
      have below : done.size < kernels.size := (Array.getElem?_eq_some_iff.mp found).1
      exact ⟨done.size, _, s, Nat.lt_of_lt_of_le below new, Array.getElem?_push_size, mem⟩

theorem discovered_ofGrammar (h : ofGrammar g = .ok a) : ∃ kernels, Exploring g kernels a.states ∧
    Discovered kernels a.states ∧ kernels.size = a.states.size :=
  explored_ofGrammar (fun inv disc found followed =>
    disc.turn inv found (follow_followed followed) (follow_numbered followed)) discovered_start h

/-! ## The states -/

variable {i j : StateId} {state state' : LrState}

/-- Two states whose kernels hold the same items are one. -/
theorem state_unique (h : ofGrammar g = .ok a) (hi : a.states[i]? = some state)
    (hj : a.states[j]? = some state')
    (same : ∀ item, item ∈ state.kernel ↔ item ∈ state'.kernel) : i = j := by
  obtain ⟨kernels, inv, disc, -⟩ := discovered_ofGrammar h
  have ki := (inv.state i state hi).1
  have kj := (inv.state j state' hj).1
  rw [Ordered.eq_of_mem_iff (disc.ordered _ (Array.mem_of_getElem? ki))
    (disc.ordered _ (Array.mem_of_getElem? kj)) same] at ki
  rw [← Array.getElem?_toList] at ki kj
  exact (List.getElem?_inj (List.getElem?_eq_some_iff.mp ki).1 disc.distinct).mp (ki.trans kj.symm)

/-- Every state is at the end of a path. -/
theorem exists_path (h : ofGrammar g = .ok a) (hi : a.states[i]? = some state) :
    ∃ stack ss, a.Path (i :: stack) ss := by
  obtain ⟨kernels, inv, disc, size⟩ := discovered_ofGrammar h
  induction i using Nat.strongRecOn generalizing state with
  | ind i ih =>
    rcases Nat.eq_zero_or_pos i with rfl | above
    · exact ⟨[], [], .start⟩
    · obtain ⟨j, before, s, below, hj, mem⟩ :=
        disc.found i above (size ▸ (Array.getElem?_eq_some_iff.mp hi).1)
      obtain ⟨stack, ss, path⟩ := ih j below hj
      obtain ⟨-, -, keys, -⟩ := inv.state j before hj
      have distinct : (before.moves.map (·.1)).Nodup := keys ▸ nodup_nexts _
      exact ⟨j :: stack, s :: ss, .move path hj (lookup_of_mem distinct mem)⟩

end Automaton

end Glr
