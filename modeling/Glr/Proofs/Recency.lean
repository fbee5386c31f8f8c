import Glr.Language.Registry
import Glr.Proofs.Container

/-!
# The languages a registry keeps

A registry answers as if it kept nothing: the languages it holds are those that reading the blobs
again would give.  What it keeps shows in its counters only, and there it can be told from the calls
that were made.

The calls that were made are a list, the latest first.  What a registry without a memory for
languages would answer is read off them (`answer`), as are the identifiers in the order of their
last use (`used`).  `Sound` ties a registry to its calls.  Its core is that the languages kept are
the front of the list of those in use, so the least recently used is the one to go.

A language that has gone is not loaded again on its own when others are registered anew and so
leave the list.  Being among the most recently used identifiers is therefore not enough for a hit;
the identifier must have been among them at every call since it was loaded (`Lasting`).
-/

namespace Glr.Registry

/-- A call to a registry. -/
inductive Call where
  | register (id : String) (blob : Text)
  | load (id : String)
  | contains (id : String)
  | ids
  | stats
  deriving DecidableEq

/-- Whether a call loads a language. -/
def Call.isLoad : Call → Bool
  | load _ => true
  | _ => false

/-- The registry after a call. -/
def after (r : Registry) : Call → Registry
  | .register id blob => r.register id blob
  | .load id => (r.load id).2
  | .contains _ => r
  | .ids => r
  | .stats => r

/-- The registry that is reached by calls, the latest first. -/
def reached (capacity : Nat) (pos : 0 < capacity) : List Call → Registry
  | [] => withCapacity capacity pos
  | c :: past => (reached capacity pos past).after c

/-! ## What the calls say -/

/-- The blob that was registered last under an identifier. -/
def blobOf (id : String) : List Call → Option Text
  | [] => none
  | .register other blob :: past => if other = id then some blob else blobOf id past
  | _ :: past => blobOf id past

/-- The answer to a load, read from the blobs alone. -/
def answer (past : List Call) (id : String) : Except LoadError Language :=
  match blobOf id past with
  | some blob => Language.ofBlob blob
  | none => .error (.unknownLanguage id)

/-- The identifiers loaded since they were last registered, the most recently used first. -/
def used : List Call → List String
  | [] => []
  | .register id _ :: past => (used past).filter (· != id)
  | .load id :: past =>
    match answer past id with
    | .ok _ => id :: (used past).filter (· != id)
    | .error _ => used past
  | _ :: past => used past

/-- An identifier that was loaded and has been among the most recently used ones ever since, right
after that load and after each call that followed. -/
def Lasting (capacity : Nat) (id : String) (past : List Call) : Prop :=
  ∃ since before, past = since ++ .load id :: before ∧
    ∀ recent, recent <:+ since → id ∈ (used (recent ++ .load id :: before)).take capacity

/-- The identifiers of the languages kept. -/
def keptIds (r : Registry) : List String := r.kept.map (·.1)

/-- How many languages kept by one registry are not kept by another. -/
def displaced (r s : Registry) : Nat :=
  (r.keptIds.filter fun id => !s.keptIds.contains id).length

/-- How many languages the loads among the calls have displaced. -/
def displacements (capacity : Nat) (pos : 0 < capacity) : List Call → Nat
  | [] => 0
  | .load id :: past =>
    displacements capacity pos past
      + displaced (reached capacity pos past) (reached capacity pos (.load id :: past))
  | _ :: past => displacements capacity pos past

/-! ## What one load does -/

/-- The four ways a load can go: the language is kept; it cannot be read; there is room for it; the
last one kept gives way to it. -/
theorem load_cases (r : Registry) (id : String) :
    (∃ l, r.kept.lookup id = some l ∧
      r.load id = (.ok l, { r with
        kept := (id, l) :: without id r.kept
        stats := { r.stats with hits := r.stats.hits + 1 } })) ∨
    (r.kept.lookup id = none ∧ ∃ e, r.read id = .error e ∧
      r.load id = (.error e, { r with stats := { r.stats with misses := r.stats.misses + 1 } })) ∨
    (r.kept.lookup id = none ∧ r.kept.length < r.capacity ∧ ∃ l, r.read id = .ok l ∧
      r.load id = (.ok l, { r with
        kept := (id, l) :: without id r.kept
        stats := { r.stats with misses := r.stats.misses + 1 } })) ∨
    (r.kept.lookup id = none ∧ r.capacity ≤ r.kept.length ∧ ∃ l, r.read id = .ok l ∧
      r.load id = (.ok l, { r with
        kept := (id, l) :: (without id r.kept).dropLast
        stats := { r.stats with
          misses := r.stats.misses + 1
          evictions := r.stats.evictions + 1 } })) := by
  cases kept : r.kept.lookup id with
  | some l =>
    left
    exact ⟨l, rfl, by simp [load, probe, kept]⟩
  | none =>
    right
    have read (s : RegistryStats) : read { r with stats := s } id = r.read id := rfl
    cases answer : r.read id with
    | error e =>
      left
      exact ⟨rfl, e, rfl, by simp [load, probe, kept, read, answer]⟩
    | ok l =>
      right
      by_cases full : r.capacity ≤ r.kept.length
      · right
        exact ⟨rfl, full, l, rfl, by simp [load, probe, kept, read, answer, keep, full]⟩
      · left
        exact ⟨rfl, Nat.lt_of_not_le full, l, rfl, by
          simp [load, probe, kept, read, answer, keep, full]⟩

/-! ## Entries by their keys -/

section

variable {α : Type} {entries : List (String × α)} {id other : String}

theorem map_without (id : String) (entries : List (String × α)) :
    (without id entries).map (·.1) = (entries.map (·.1)).filter (· != id) := by
  rw [without, List.filter_map]
  rfl

theorem mem_of_lookup {value : α} (h : entries.lookup id = some value) : (id, value) ∈ entries := by
  obtain ⟨front, back, rfl, -⟩ := List.lookup_eq_some_iff.mp h
  simp

theorem lookup_eq_none_iff : entries.lookup id = none ↔ id ∉ entries.map (·.1) := by
  rw [List.lookup_eq_none_iff]
  constructor
  · intro h hid
    obtain ⟨e, he, rfl⟩ := List.mem_map.mp hid
    simpa using h e he
  · intro h e he
    exact bne_iff_ne.mpr fun same => h (List.mem_map.mpr ⟨e, he, same.symm⟩)

theorem lookup_without_of_ne (h : other ≠ id) :
    (without id entries).lookup other = entries.lookup other := by
  induction entries with
  | nil => rfl
  | cons e es ih =>
    obtain ⟨key, value⟩ := e
    by_cases same : key = id
    · subst same
      have : (other == key) = false := beq_eq_false_iff_ne.mpr h
      simpa [without, List.lookup_cons, this] using ih
    · have kept : without id ((key, value) :: es) = (key, value) :: without id es := by
        simp [without, same]
      rw [kept, List.lookup_cons, List.lookup_cons, ih]

end

/-! ## Identifiers in use -/

theorem nodup_used (past : List Call) : (used past).Nodup := by
  induction past with
  | nil => exact List.nodup_nil
  | cons c past ih =>
    cases c with
    | register id blob => exact ih.filter _
    | load id =>
      rw [used]
      split
      · exact List.nodup_cons.mpr ⟨by simp, ih.filter _⟩
      · exact ih
    | contains | ids | stats => exact ih

theorem answer_register_of_ne {id other : String} (h : other ≠ id) (blob : Text)
    (past : List Call) : answer (.register id blob :: past) other = answer past other := by
  rw [answer, blobOf, if_neg h.symm]
  rfl

theorem answer_of_mem_used {past : List Call} {id : String} (h : id ∈ used past) :
    ∃ l, answer past id = .ok l := by
  induction past with
  | nil => cases h
  | cons c past ih =>
    cases c with
    | register other blob =>
      obtain ⟨h, ne⟩ := List.mem_filter.mp h
      rw [answer_register_of_ne (by simpa using ne)]
      exact ih h
    | load other =>
      change ∃ l, answer past id = .ok l
      rw [used] at h
      split at h
      · next l ok =>
        rcases List.mem_cons.mp h with rfl | h
        · exact ⟨l, ok⟩
        · exact ih (List.mem_filter.mp h).1
      · exact ih h
    | contains | ids | stats => exact ih h

theorem lasting_cons {capacity : Nat} {id : String} {c : Call} {past : List Call} :
    Lasting capacity id (c :: past) ↔
      id ∈ (used (c :: past)).take capacity ∧ (c = .load id ∨ Lasting capacity id past) := by
  constructor
  · rintro ⟨since, before, parts, always⟩
    have now := always since List.suffix_rfl
    rw [← parts] at now
    refine ⟨now, ?_⟩
    cases since with
    | nil => exact .inl (List.cons.inj parts).1
    | cons d since =>
      exact .inr ⟨since, before, (List.cons.inj parts).2,
        fun recent h => always recent (h.trans (List.suffix_cons d since))⟩
  · rintro ⟨now, rfl | ⟨since, before, rfl, always⟩⟩
    · exact ⟨[], past, rfl, fun recent h => by
        rw [List.suffix_nil.mp h]
        exact now⟩
    · refine ⟨c :: since, before, rfl, fun recent h => ?_⟩
      rcases List.suffix_cons_iff.mp h with rfl | h
      · exact now
      · exact always recent h

/-! ## A registry and its calls -/

/-- A registry is as its calls have left it. -/
structure Sound (capacity : Nat) (past : List Call) (r : Registry) : Prop where
  size : r.capacity = capacity
  /-- The blobs are those registered last. -/
  blobs : ∀ id, r.blobs.lookup id = blobOf id past
  /-- What is kept is what reading would give. -/
  handles : ∀ e ∈ r.kept, answer past e.1 = .ok e.2
  /-- What is kept is the front of what is in use. -/
  front : r.keptIds <+: used past
  room : r.kept.length ≤ capacity
  /-- An identifier is kept if it was loaded and has been in the front ever since. -/
  lasting : ∀ id, id ∈ r.keptIds ↔ Lasting capacity id past

namespace Sound

variable {capacity : Nat} {past : List Call} {r : Registry}

theorem read_eq (h : Sound capacity past r) (id : String) : r.read id = answer past id := by
  rw [answer, ← h.blobs]
  rfl

theorem nodup (h : Sound capacity past r) : r.keptIds.Nodup :=
  (nodup_used past).sublist h.front.sublist

theorem answer_of_lookup (h : Sound capacity past r) {id : String} {l : Language}
    (kept : r.kept.lookup id = some l) : answer past id = .ok l :=
  h.handles _ (mem_of_lookup kept)

theorem mem_take {ids : List String} {id : String} (front : ids <+: used past)
    (room : ids.length ≤ capacity) (h : id ∈ ids) : id ∈ (used past).take capacity := by
  rw [List.prefix_iff_eq_take.mp front] at h
  exact (List.take_sublist_take_left room).subset h

theorem length_keptIds (r : Registry) : r.keptIds.length = r.kept.length := List.length_map ..

theorem load_eq (h : Sound capacity past r) (id : String) : (r.load id).1 = answer past id := by
  rcases load_cases r id with ⟨l, kept, eq⟩ | ⟨-, e, read, eq⟩ | ⟨-, -, l, read, eq⟩ |
      ⟨-, -, l, read, eq⟩
  · rw [eq, h.answer_of_lookup kept]
  all_goals rw [eq, ← h.read_eq, read]

theorem empty (pos : 0 < capacity) : Sound capacity [] (withCapacity capacity pos) where
  size := rfl
  blobs _ := rfl
  handles _ he := by cases he
  front := List.nil_prefix
  room := Nat.zero_le _
  lasting id := by
    constructor
    · intro h; cases h
    · rintro ⟨since, before, parts, -⟩
      cases since <;> cases parts

/-- What is kept after a call lasts, if the call adds only what it loads and takes away only what
is in use no longer, or what has no room. -/
theorem lasting_of_step (h : Sound capacity past r) {c : Call} {s : Registry}
    (front : s.keptIds <+: used (c :: past)) (room : s.kept.length ≤ capacity)
    (added : ∀ id ∈ s.keptIds, c = .load id ∨ id ∈ r.keptIds)
    (left : s.kept.length = capacity ∨ ∀ id ∈ used (c :: past), c = .load id ∨ id ∈ r.keptIds →
      id ∈ s.keptIds) (id : String) :
    id ∈ s.keptIds ↔ Lasting capacity id (c :: past) := by
  rw [lasting_cons, ← h.lasting]
  have length := length_keptIds s
  constructor
  · exact fun kept => ⟨mem_take front (length ▸ room) kept, added id kept⟩
  · rintro ⟨now, before⟩
    rcases left with full | left
    · rw [List.prefix_iff_eq_take.mp front, length, full]
      exact now
    · exact left id (List.mem_of_mem_take now) before

theorem used_load {id : String} {l : Language} (ok : answer past id = .ok l) :
    used (.load id :: past) = id :: (used past).filter (· != id) := by
  rw [used, ok]

/-- A load that gives a language puts it in front of the others that are kept, or of as many of them
as there is room for. -/
theorem use (h : Sound capacity past r) {id : String} {l : Language} (ok : answer past id = .ok l)
    {s : Registry} (size : s.capacity = r.capacity) (blobs : s.blobs = r.blobs)
    {others : List (String × Language)} (kept : s.kept = (id, l) :: others)
    (front : others <+: without id r.kept) (room : others.length + 1 ≤ capacity)
    (left : others.length + 1 = capacity ∨ others = without id r.kept) :
    Sound capacity (.load id :: past) s := by
  have ids : s.keptIds = id :: others.map (·.1) := by rw [keptIds, kept, List.map_cons]
  have among : ∀ other ∈ others.map (·.1), other ∈ r.keptIds := by
    intro other hother
    have := (front.map (·.1)).subset hother
    rw [map_without] at this
    exact (List.mem_filter.mp this).1
  have front' : s.keptIds <+: used (.load id :: past) := by
    rw [ids, used_load ok, List.prefix_cons_inj]
    refine (front.map (·.1)).trans ?_
    rw [map_without]
    exact h.front.filter _
  have room' : s.kept.length ≤ capacity := by rwa [kept, List.length_cons]
  refine ⟨size.trans h.size, fun other => by rw [blobs]; exact h.blobs other, ?_, front', room',
    h.lasting_of_step front' room' ?_ ?_⟩
  · intro e he
    rw [kept] at he
    rcases List.mem_cons.mp he with rfl | he
    · exact ok
    · exact h.handles e (List.mem_filter.mp (front.subset he)).1
  · intro other hother
    rw [ids] at hother
    rcases List.mem_cons.mp hother with rfl | hother
    · exact .inl rfl
    · exact .inr (among other hother)
  · rw [kept, List.length_cons]
    refine left.imp_right fun all other _ before => ?_
    rw [ids, all, map_without]
    by_cases same : other = id
    · exact same ▸ List.mem_cons_self
    · rcases before with load | before
      · exact absurd (Call.load.inj load).symm same
      · exact List.mem_cons_of_mem _ (List.mem_filter.mpr ⟨before, by simpa using same⟩)

theorem without_of_missing {id : String} (missing : r.kept.lookup id = none) :
    without id r.kept = r.kept := by
  rw [without, List.filter_eq_self]
  intro e he
  simpa using fun same : e.1 = id => lookup_eq_none_iff.mp missing (List.mem_map.mpr ⟨e, he, same⟩)

theorem load (h : Sound capacity past r) (id : String) :
    Sound capacity (.load id :: past) (r.load id).2 := by
  rcases load_cases r id with ⟨l, kept, eq⟩ | ⟨missing, e, read, eq⟩ |
      ⟨missing, space, l, read, eq⟩ | ⟨missing, full, l, read, eq⟩
  · rw [eq]
    have fewer : (without id r.kept).length < r.kept.length :=
      List.length_filter_lt_length_iff_exists.mpr ⟨_, mem_of_lookup kept, by simp⟩
    have := h.room
    exact h.use (h.answer_of_lookup kept) rfl rfl rfl List.prefix_rfl (by omega) (.inr rfl)
  · rw [eq]
    have failed : answer past id = .error e := h.read_eq id ▸ read
    have same : used (.load id :: past) = used past := by rw [used, failed]
    refine ⟨h.size, h.blobs, h.handles, same ▸ h.front, h.room,
      h.lasting_of_step (s := { r with stats := _ }) (same ▸ h.front) h.room (fun _ => .inr)
        (.inr ?_)⟩
    rintro other inUse (load | kept)
    · obtain rfl := Call.load.inj load
      obtain ⟨l, ok⟩ := answer_of_mem_used (same ▸ inUse)
      rw [failed] at ok
      cases ok
    · exact kept
  · rw [eq]
    have := h.size
    have same := without_of_missing missing
    exact h.use (h.read_eq id ▸ read) rfl rfl rfl List.prefix_rfl (by rw [same]; omega) (.inr rfl)
  · rw [eq]
    have := h.size
    have := h.room
    have pos : 0 < capacity := h.size ▸ r.capacity_pos
    have length : (without id r.kept).dropLast.length + 1 = capacity := by
      rw [without_of_missing missing, List.length_dropLast]
      omega
    exact h.use (h.read_eq id ▸ read) rfl rfl rfl (List.dropLast_prefix _) (by omega) (.inl length)

theorem register (h : Sound capacity past r) (id : String) (blob : Text) :
    Sound capacity (.register id blob :: past) (r.register id blob) := by
  have ids : (r.register id blob).keptIds = r.keptIds.filter (· != id) := map_without id r.kept
  have front : (r.register id blob).keptIds <+: used (.register id blob :: past) := by
    rw [ids]
    exact h.front.filter _
  have room : (r.register id blob).kept.length ≤ capacity :=
    Nat.le_trans (List.length_filter_le ..) h.room
  refine ⟨h.size, fun other => ?_, fun e he => ?_, front, room,
    h.lasting_of_step front room ?_ (.inr ?_)⟩
  · change List.lookup other ((id, blob) :: without id r.blobs) = _
    rw [List.lookup_cons, blobOf]
    by_cases same : other = id
    · subst same
      simp
    · rw [beq_eq_false_iff_ne.mpr same, if_neg (Ne.symm same), lookup_without_of_ne same]
      exact h.blobs other
  · obtain ⟨he, ne⟩ := List.mem_filter.mp he
    rw [answer_register_of_ne (by simpa using ne)]
    exact h.handles e he
  · intro other hother
    rw [ids] at hother
    exact .inr (List.mem_filter.mp hother).1
  · rintro other inUse (load | kept)
    · cases load
    · rw [ids]
      exact List.mem_filter.mpr ⟨kept, (List.mem_filter.mp inUse).2⟩

theorem look (h : Sound capacity past r) {c : Call}
    (blobs : ∀ id, blobOf id (c :: past) = blobOf id past) (same : used (c :: past) = used past)
    (quiet : ∀ id, c ≠ .load id) :
    Sound capacity (c :: past) r := by
  refine ⟨h.size, fun id => (h.blobs id).trans (blobs id).symm, fun e he => ?_, same ▸ h.front,
    h.room, h.lasting_of_step (same ▸ h.front) h.room (fun id hid => .inr hid) (.inr ?_)⟩
  · rw [answer, blobs]
    exact h.handles e he
  · rintro id - (load | kept)
    · exact absurd load (quiet id)
    · exact kept

theorem reached (pos : 0 < capacity) (past : List Call) :
    Sound capacity past (reached capacity pos past) := by
  induction past with
  | nil => exact empty pos
  | cons c past ih =>
    cases c with
    | register id blob => exact ih.register id blob
    | load id => exact ih.load id
    | contains id => exact ih.look (fun _ => rfl) rfl (by simp)
    | ids => exact ih.look (fun _ => rfl) rfl (by simp)
    | stats => exact ih.look (fun _ => rfl) rfl (by simp)

/-! ## The counters -/

/-- A load is a hit exactly if the identifier has lasted. -/
theorem hit_iff (h : Sound capacity past r) (id : String) :
    (r.load id).2.stats.hits = r.stats.hits + 1 ↔ Lasting capacity id past := by
  rw [← h.lasting]
  rcases load_cases r id with ⟨l, kept, eq⟩ | ⟨missing, e, -, eq⟩ | ⟨missing, -, l, -, eq⟩ |
      ⟨missing, -, l, -, eq⟩
  · rw [eq]
    exact iff_of_true rfl (List.mem_map.mpr ⟨_, mem_of_lookup kept, rfl⟩)
  all_goals
    rw [eq]
    exact iff_of_false (Nat.succ_ne_self _).symm (lookup_eq_none_iff.mp missing)

theorem displaced_eq_zero {s : Registry} (h : ∀ id ∈ r.keptIds, id ∈ s.keptIds) :
    displaced r s = 0 := by
  rw [displaced, List.length_eq_zero_iff, List.filter_eq_nil_iff]
  intro id hid
  simpa using h id hid

/-- Where a new identifier takes the place of the last, one language is displaced. -/
theorem displaced_eq_one {s : Registry} (id : String) (some : r.keptIds ≠ [])
    (distinct : r.keptIds.Nodup) (fresh : id ∉ r.keptIds)
    (now : s.keptIds = id :: r.keptIds.dropLast) : displaced r s = 1 := by
  have parts := (List.dropLast_concat_getLast some).symm
  rw [displaced, now]
  generalize r.keptIds.dropLast = front at parts ⊢
  generalize r.keptIds.getLast some = last at parts
  rw [parts] at distinct fresh ⊢
  obtain ⟨-, -, apart⟩ := List.nodup_append.mp distinct
  have stay : front.filter (fun other => !(id :: front).contains other) = [] := by
    rw [List.filter_eq_nil_iff]
    intro other hother
    simp [hother]
  have go : [last].filter (fun other => !(id :: front).contains other) = [last] := by
    have ne : last ≠ id := by
      rintro rfl
      exact fresh (by simp)
    have out : last ∉ front := fun hlast => apart last hlast last (by simp) rfl
    simp [ne, out]
  rw [List.filter_append, stay, go]
  rfl

/-- A load displaces as many languages as it counts as evicted. -/
theorem evictions_load (h : Sound capacity past r) (id : String) :
    (r.load id).2.stats.evictions = r.stats.evictions + displaced r (r.load id).2 := by
  rcases load_cases r id with ⟨l, kept, eq⟩ | ⟨missing, e, -, eq⟩ | ⟨missing, -, l, -, eq⟩ |
      ⟨missing, full, l, -, eq⟩
  · rw [eq, displaced_eq_zero]
    · rfl
    · intro other hother
      change other ∈ id :: (without id r.kept).map (·.1)
      by_cases same : other = id
      · exact same ▸ List.mem_cons_self
      · rw [map_without]
        exact List.mem_cons_of_mem _ (List.mem_filter.mpr ⟨hother, by simpa using same⟩)
  · rw [eq, displaced_eq_zero]
    · rfl
    · exact fun _ kept => kept
  · rw [eq, displaced_eq_zero]
    · rfl
    · intro other hother
      rw [without_of_missing missing]
      exact List.mem_cons_of_mem _ hother
  · rw [eq, displaced_eq_one id ?_ h.nodup (lookup_eq_none_iff.mp missing)]
    · change id :: ((without id r.kept).dropLast).map (·.1) = _
      rw [without_of_missing missing, List.map_dropLast]
      rfl
    · intro none
      have := r.capacity_pos
      rw [List.map_eq_nil_iff.mp none] at full
      exact absurd r.capacity_pos (Nat.not_lt.mpr full)

end Sound

theorem hits_add_misses_load (r : Registry) (id : String) :
    (r.load id).2.stats.hits + (r.load id).2.stats.misses
      = r.stats.hits + r.stats.misses + 1 := by
  rcases load_cases r id with ⟨l, -, eq⟩ | ⟨-, e, -, eq⟩ | ⟨-, -, l, -, eq⟩ | ⟨-, -, l, -, eq⟩
  · rw [eq]
    exact Nat.add_right_comm ..
  all_goals
    rw [eq]
    rfl

/-- A load that fails counts as a miss and does nothing else. -/
theorem load_of_error {r : Registry} {id : String} {e : LoadError} (h : (r.load id).1 = .error e) :
    (r.load id).2 = { r with stats := { r.stats with misses := r.stats.misses + 1 } } := by
  rcases load_cases r id with ⟨l, -, eq⟩ | ⟨-, e, -, eq⟩ | ⟨-, -, l, -, eq⟩ | ⟨-, -, l, -, eq⟩
  · rw [eq] at h
    cases h
  · rw [eq]
  all_goals
    rw [eq] at h
    cases h

section

variable (capacity : Nat) (pos : 0 < capacity)

theorem hits_add_misses (past : List Call) :
    (reached capacity pos past).stats.hits + (reached capacity pos past).stats.misses
      = past.countP Call.isLoad := by
  induction past with
  | nil => rfl
  | cons c past ih =>
    cases c with
    | load id =>
      rw [reached, after, hits_add_misses_load, ih]
      exact (List.countP_cons_of_pos rfl).symm
    | register | contains | ids | stats => exact ih

theorem evictions_eq (past : List Call) :
    (reached capacity pos past).stats.evictions = displacements capacity pos past := by
  induction past with
  | nil => rfl
  | cons c past ih =>
    cases c with
    | load id =>
      rw [displacements, ← ih]
      exact (Sound.reached pos past).evictions_load id
    | register | contains | ids | stats => exact ih

/-- What a registry answers and counts, in terms of the calls that were made.  It answers as if it
kept nothing, and what it keeps is bounded and shows in the counters alone. -/
theorem cache_invisible (past : List Call) :
    (∀ id, ((reached capacity pos past).load id).1 = answer past id) ∧
    (reached capacity pos past).kept.length ≤ capacity ∧
    (reached capacity pos past).stats.hits + (reached capacity pos past).stats.misses
      = past.countP Call.isLoad ∧
    (∀ id, ((reached capacity pos past).load id).2.stats.hits
      = (reached capacity pos past).stats.hits + 1 ↔ Lasting capacity id past) ∧
    (reached capacity pos past).stats.evictions = displacements capacity pos past ∧
    ∀ id e, answer past id = .error e →
      ((reached capacity pos past).load id).2 = { reached capacity pos past with
        stats := { (reached capacity pos past).stats with
          misses := (reached capacity pos past).stats.misses + 1 } } := by
  have sound := Sound.reached pos past
  refine ⟨sound.load_eq, sound.room, hits_add_misses capacity pos past, sound.hit_iff,
    evictions_eq capacity pos past, fun id e failed => load_of_error (e := e) ?_⟩
  rw [sound.load_eq, failed]

end

/-! ## Recently used is not enough -/

/-- The tables of a language without tokens. -/
def blank : Tables where
  name := "blank"
  symbols := #[⟨"end", true, false, false, false⟩, ⟨"ERROR", true, true, true, false⟩,
    ⟨"document", false, true, true, false⟩]
  productions := #[]
  states := #[⟨[(0, [.accept])], [], 0⟩]
  lexModes := #[[]]
  tokens := []
  extras := []
  wordToken := none
  externalTokens := []
  startSymbol := 2

/-- The blob of these tables. -/
def blankBlob : Text := Blob.encode blank 14

theorem ofBlob_blank : ∃ l, Language.ofBlob blankBlob = .ok l := by
  have fits : blank.Fits :=
    ⟨by decide, by decide, by decide, by decide, by decide, by decide, by decide, by decide⟩
  have size : blank.payload.size < 2 ^ 32 := by
    rw [Tables.payload, Json.size_render]
    decide +kernel
  have read : Blob.decode blankBlob = .ok (14, blank) :=
    Blob.decode_encode fits (by decide +kernel) size (by decide)
  exact ⟨_, by rw [Language.ofBlob, read]; rfl⟩

/-- Three languages are loaded where there is room for two, and the last is registered anew: the
first has gone although it is now one of the two in use. -/
def crowded : List Call :=
  [.register "c" blankBlob, .load "c", .load "b", .load "a", .register "c" blankBlob,
    .register "b" blankBlob, .register "a" blankBlob]

theorem used_crowded : used crowded = ["b", "a"] := by
  obtain ⟨l, ok⟩ := ofBlob_blank
  simp [crowded, used, answer, blobOf, ok]

theorem keptIds_crowded : (reached 2 (by decide) crowded).keptIds = ["b"] := by
  obtain ⟨l, ok⟩ := ofBlob_blank
  simp [crowded, reached, after, load, probe, read, keep, register, drop, store, without, keptIds,
    withCapacity, List.lookup_cons, ok]

theorem lasting_crowded : Lasting 2 "b" crowded :=
  ((Sound.reached (by decide) crowded).lasting "b").mp (by rw [keptIds_crowded]; decide)

theorem crowded_invisible :
    0 < 2 ∧
    ((reached 2 (by decide) crowded).load "nobody").1 = .error (.unknownLanguage "nobody") ∧
    (reached 2 (by decide) crowded).kept.length ≤ 2 ∧
    (reached 2 (by decide) crowded).stats.hits + (reached 2 (by decide) crowded).stats.misses = 3 ∧
    ((reached 2 (by decide) crowded).load "b").2.stats.hits
      = (reached 2 (by decide) crowded).stats.hits + 1 ∧
    (reached 2 (by decide) crowded).stats.evictions = displacements 2 (by decide) crowded ∧
    ((reached 2 (by decide) crowded).load "nobody").2 = { reached 2 (by decide) crowded with
      stats := { (reached 2 (by decide) crowded).stats with
        misses := (reached 2 (by decide) crowded).stats.misses + 1 } } := by
  obtain ⟨answers, room, loads, hits, evictions, failing⟩ :=
    cache_invisible 2 (by decide) crowded
  exact ⟨by decide, answers "nobody", room, loads, (hits "b").mpr lasting_crowded, evictions,
    failing "nobody" _ rfl⟩

theorem crowded_recent_but_no_hit :
    "a" ∈ (used crowded).take 2 ∧
    ((reached 2 (by decide) crowded).load "a").2.stats.hits
      ≠ (reached 2 (by decide) crowded).stats.hits + 1 := by
  have sound : Sound 2 crowded (reached 2 (by decide) crowded) := .reached (by decide) crowded
  refine ⟨by rw [used_crowded]; decide, fun hit => ?_⟩
  have kept := (sound.lasting "a").mpr ((sound.hit_iff "a").mp hit)
  rw [keptIds_crowded] at kept
  exact absurd kept (by decide)

end Glr.Registry
