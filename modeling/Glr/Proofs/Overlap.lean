import Glr.Proofs.Recency
import Mathlib.Logic.Function.Basic

/-!
# Calls that overlap

Callers share a registry, and a call is a few steps of which each is done in one go (`Stage.Acts`).
Between two steps of a call there may be any steps of others (`Shared.Step`).

A registration drops what is kept before it puts its blob in place.  What it cannot drop is a
language that another caller has read and not kept yet, and what is kept between its own two steps
it does not see.  Either way the language outlives its blob and is given out from then on
(`Shared.overtaken`).

What a registry promises after a registration, it keeps exactly if no language that is kept or held
is out of date (`Shared.Fresh`).  None ever is as long as no caller is about to keep a language
while another is about to store a blob under the same identifier (`Shared.Collides`), and so none
ever is where calls are made one after the other.
-/

namespace Glr.Registry

/-! ## Steps of calls -/

/-- A call under way, with the step that it takes next. -/
inductive Stage where
  | probing (id : String)
  | reading (id : String)
  | keeping (id : String) (l : Language)
  | dropping (id : String) (blob : Text)
  | storing (id : String) (blob : Text)

/-- What comes of a step: a further step, or the end of the call. -/
inductive Turn where
  | goesOn (stage : Stage)
  | loaded (answer : Except LoadError Language)
  | registered

namespace Stage

/-- The identifier that a call is about. -/
def id : Stage → String
  | probing id | reading id | keeping id _ | dropping id _ | storing id _ => id

/-- Whether a call starts here. -/
def opens : Stage → Bool
  | probing _ | dropping _ _ => true
  | _ => false

/-- Whether a call is a registration. -/
def registers : Stage → Bool
  | dropping _ _ | storing _ _ => true
  | _ => false

/-- One step of a call: the registry after it, and what comes of it. -/
inductive Acts (r : Registry) : Stage → Registry → Turn → Prop where
  | hit {id : String} {l : Language} (kept : (r.probe id).1 = some l) :
      Acts r (.probing id) (r.probe id).2 (.loaded (.ok l))
  | miss {id : String} (none : (r.probe id).1 = none) :
      Acts r (.probing id) (r.probe id).2 (.goesOn (.reading id))
  | read {id : String} {l : Language} (found : r.read id = .ok l) :
      Acts r (.reading id) r (.goesOn (.keeping id l))
  | fail {id : String} {e : LoadError} (failed : r.read id = .error e) :
      Acts r (.reading id) r (.loaded (.error e))
  | keep (id : String) (l : Language) : Acts r (.keeping id l) (r.keep id l) (.loaded (.ok l))
  | drop (id : String) (blob : Text) :
      Acts r (.dropping id blob) (r.drop id) (.goesOn (.storing id blob))
  | store (id : String) (blob : Text) : Acts r (.storing id blob) (r.store id blob) .registered

end Stage

/-- The step that is next, if there is one. -/
def Turn.stage? : Turn → Option Stage
  | goesOn stage => some stage
  | _ => none

/-- A call with no step of another between its own. -/
inductive Alone : Registry → Stage → Registry → Turn → Prop where
  | last {r s : Registry} {stage : Stage} {turn : Turn} (acts : stage.Acts r s turn)
      (ended : turn.stage? = none) : Alone r stage s turn
  | more {r s t : Registry} {stage next : Stage} {turn : Turn}
      (acts : stage.Acts r s (.goesOn next)) (rest : Alone s next t turn) : Alone r stage t turn

theorem alone_register (r : Registry) (id : String) (blob : Text) :
    Alone r (.dropping id blob) (r.register id blob) .registered :=
  .more (.drop id blob) (.last (.store id blob) rfl)

/-- Alone, a load does what it does as one operation. -/
theorem alone_load (r : Registry) (id : String) :
    Alone r (.probing id) (r.load id).2 (.loaded (r.load id).1) := by
  cases probed : r.probe id with
  | mk found s =>
    obtain rfl : (r.probe id).2 = s := congrArg Prod.snd probed
    cases found with
    | some l =>
      have whole : r.load id = (.ok l, (r.probe id).2) := by rw [load, probed]
      rw [whole]
      exact .last (.hit (congrArg Prod.fst probed)) rfl
    | none =>
      refine .more (.miss (congrArg Prod.fst probed)) ?_
      generalize (r.probe id).2 = s at probed ⊢
      cases answer : s.read id with
      | ok l =>
        have whole : r.load id = (.ok l, s.keep id l) := by simp [load, probed, answer]
        rw [whole]
        exact .more (.read answer) (.last (.keep id l) rfl)
      | error e =>
        have whole : r.load id = (.error e, s) := by simp [load, probed, answer]
        rw [whole]
        exact .last (.fail answer) rfl

/-! ## One identifier -/

section Lookups

variable {r : Registry} {id other : String} {l m : Language}

theorem lookup_without_self {α : Type} (id : String) (entries : List (String × α)) :
    (without id entries).lookup id = none := by
  rw [lookup_eq_none_iff, map_without]
  simp

theorem lookup_of_prefix {α : Type} {front entries : List (String × α)} {value : α}
    (h : front <+: entries) (found : front.lookup id = some value) :
    entries.lookup id = some value := by
  obtain ⟨rest, rfl⟩ := h
  rw [List.lookup_append, found]
  rfl

theorem probe_fst (r : Registry) (id : String) : (r.probe id).1 = r.kept.lookup id := by
  rw [probe]
  split
  · next kept => exact kept.symm
  · next missing => exact missing.symm

theorem lookup_probe (r : Registry) (id other : String) :
    (r.probe id).2.kept.lookup other = r.kept.lookup other := by
  rw [probe]
  split
  · next kept =>
    by_cases same : other = id
    · rw [same, List.lookup_cons_self, kept]
    · rw [List.lookup_cons, beq_eq_false_iff_ne.mpr same, lookup_without_of_ne same]
  · rfl

theorem read_probe (r : Registry) (id other : String) :
    (r.probe id).2.read other = r.read other := by
  rw [probe]
  split <;> rfl

theorem read_keep (r : Registry) (id other : String) (l : Language) :
    (r.keep id l).read other = r.read other := by
  rw [keep]
  dsimp only
  split <;> rfl

theorem read_store_of_ne (h : other ≠ id) (r : Registry) (blob : Text) :
    (r.store id blob).read other = r.read other := by
  rw [read, store, List.lookup_cons, beq_eq_false_iff_ne.mpr h, lookup_without_of_ne h]
  rfl

theorem read_store_self (r : Registry) (id : String) (blob : Text) :
    (r.store id blob).read id = Language.ofBlob blob := by
  rw [read, store, List.lookup_cons_self]

theorem lookup_keep_self (r : Registry) (id : String) (l : Language) :
    (r.keep id l).kept.lookup id = some l := by
  rw [keep]
  dsimp only
  split <;> exact List.lookup_cons_self

/-- Another language that is kept afterwards was kept before. -/
theorem lookup_of_keep (h : other ≠ id) (found : (r.keep id l).kept.lookup other = some m) :
    r.kept.lookup other = some m := by
  rw [← lookup_without_of_ne h]
  rw [keep] at found
  dsimp only at found
  split at found
  · rw [List.lookup_cons, beq_eq_false_iff_ne.mpr h] at found
    exact lookup_of_prefix (List.dropLast_prefix _) found
  · rwa [List.lookup_cons, beq_eq_false_iff_ne.mpr h] at found

theorem lookup_drop_self (r : Registry) (id : String) : (r.drop id).kept.lookup id = none :=
  lookup_without_self id r.kept

theorem lookup_of_drop (found : (r.drop id).kept.lookup other = some m) :
    r.kept.lookup other = some m := by
  by_cases same : other = id
  · rw [same, lookup_drop_self] at found
    cases found
  · rwa [drop, lookup_without_of_ne same] at found

end Lookups

namespace Stage.Acts

variable {r s : Registry} {stage next : Stage} {turn : Turn} {id : String} {l : Language}
  {answer : Except LoadError Language} (acts : stage.Acts r s turn)

include acts

/-- What is kept after a step was kept before, or is kept by it. -/
theorem kept (found : s.kept.lookup id = some l) :
    r.kept.lookup id = some l ∨ stage = .keeping id l := by
  cases acts with
  | hit | miss => exact .inl (lookup_probe r _ id ▸ found)
  | read | fail | store => exact .inl found
  | keep other m =>
    by_cases same : id = other
    · subst same
      rw [lookup_keep_self] at found
      cases found
      exact .inr rfl
    · exact .inl (lookup_of_keep same found)
  | drop => exact .inl (lookup_of_drop found)

/-- A step changes what is read under an identifier only by storing a blob there. -/
theorem read_eq (id : String) : s.read id = r.read id ∨ ∃ blob, stage = .storing id blob := by
  cases acts with
  | hit | miss => exact .inl (read_probe r _ id)
  | read | fail | drop => exact .inl rfl
  | keep => exact .inl (read_keep r _ id _)
  | store other blob =>
    by_cases same : id = other
    · exact .inr ⟨blob, by rw [same]⟩
    · exact .inl (read_store_of_ne same r blob)

omit acts in
/-- A call stays what it is, and does not start anew. -/
theorem goesOn (acts : stage.Acts r s (.goesOn next)) :
    next.id = stage.id ∧ next.registers = stage.registers ∧ next.opens = false := by
  cases acts <;> exact ⟨rfl, rfl, rfl⟩

omit acts in
theorem held (acts : stage.Acts r s (.goesOn (.keeping id l))) :
    stage = .reading id ∧ r.read id = .ok l := by
  cases acts with
  | read found => exact ⟨rfl, found⟩

omit acts in
theorem dropped {blob : Text} (acts : stage.Acts r s (.goesOn (.storing id blob))) :
    s.kept.lookup id = none := by
  cases acts
  exact lookup_drop_self r id

omit acts in
/-- A load answers with what it reads, or with a language that is kept or held. -/
theorem answers (acts : stage.Acts r s (.loaded answer)) : answer = r.read stage.id ∨
    ∃ l, answer = .ok l ∧ (r.kept.lookup stage.id = some l ∨ stage = .keeping stage.id l) := by
  cases acts with
  | @hit id l kept => exact .inr ⟨l, rfl, .inl ((probe_fst r id).symm.trans kept)⟩
  | fail failed => exact .inl failed.symm
  | keep id l => exact .inr ⟨l, rfl, .inr rfl⟩

end Stage.Acts

/-! ## Callers -/

/-- What a caller does: it starts a call, or takes a step of the call it has started. -/
inductive Event where
  | called (stage : Stage)
  | acted (stage : Stage) (turn : Turn)

/-- A registry and its callers, each with the step that it takes next if it has a call under way. -/
structure Shared where
  registry : Registry
  callers : Nat → Option Stage

namespace Shared

/-- A registry that no caller is using. -/
def still (r : Registry) : Shared := ⟨r, fun _ => none⟩

/-- Another registry, and another step for one of the callers. -/
def put (s : Shared) (r : Registry) (k : Nat) (stage? : Option Stage) : Shared :=
  ⟨r, Function.update s.callers k stage?⟩

section Put

variable (s : Shared) (r : Registry) {k j : Nat} (stage? : Option Stage)

@[simp] theorem registry_put : (s.put r k stage?).registry = r := rfl

@[simp] theorem callers_put_self : (s.put r k stage?).callers k = stage? :=
  Function.update_self ..

@[simp] theorem callers_put_of_ne (h : j ≠ k) : (s.put r k stage?).callers j = s.callers j :=
  Function.update_of_ne h ..

@[simp] theorem put_put (q : Registry) (next : Option Stage) :
    (s.put r k stage?).put q k next = s.put q k next :=
  congrArg (mk q) (Function.update_idem ..)

theorem still_put (q : Registry) (k : Nat) : (still r).put q k none = still q :=
  congrArg (mk q) (Function.update_eq_self ..)

variable {s r stage?}

theorem of_callers_put {stage : Stage} (h : (s.put r k stage?).callers j = some stage) :
    s.callers j = some stage ∨ stage? = some stage := by
  by_cases same : j = k
  · rw [same, callers_put_self] at h
    exact .inr h
  · rw [callers_put_of_ne s r stage? same] at h
    exact .inl h

end Put

/-- One caller does one thing. -/
inductive Step (s : Shared) (k : Nat) : Event → Shared → Prop where
  | call {stage : Stage} (idle : s.callers k = none) (opens : stage.opens = true) :
      Step s k (.called stage) (s.put s.registry k (some stage))
  | act {stage : Stage} {r : Registry} {turn : Turn} (busy : s.callers k = some stage)
      (acts : stage.Acts s.registry r turn) : Step s k (.acted stage turn) (s.put r k turn.stage?)

/-- A registry that nobody has called. -/
def start (capacity : Nat) (pos : 0 < capacity) : Shared := still (withCapacity capacity pos)

/-- What is reached from there, with nothing on the way that is to be avoided. -/
inductive Reached (capacity : Nat) (pos : 0 < capacity) (avoid : Shared → Prop) :
    Shared → Prop where
  | start (clear : ¬ avoid (start capacity pos)) : Reached capacity pos avoid (start capacity pos)
  | step {s t : Shared} {k : Nat} {e : Event} (before : Reached capacity pos avoid s)
      (step : s.Step k e t) (clear : ¬ avoid t) : Reached capacity pos avoid t

/-- What is reached from a state while no registration of an identifier is started. -/
inductive Onward (id : String) (s : Shared) : Shared → Prop where
  | refl : Onward id s s
  | step {t u : Shared} {k : Nat} {e : Event} (before : Onward id s t) (step : t.Step k e u)
      (free : ∀ stage, e = .called stage → stage.registers = true → stage.id ≠ id) :
      Onward id s u

variable (s : Shared) (id : String)

/-- A registration of an identifier is under way. -/
def Registering : Prop :=
  ∃ k stage, s.callers k = some stage ∧ stage.registers = true ∧ stage.id = id

/-- A language is kept under an identifier, or a caller is about to keep it. -/
def Has (l : Language) : Prop :=
  s.registry.kept.lookup id = some l ∨ ∃ k, s.callers k = some (.keeping id l)

/-- No language that is kept or held is out of date. -/
def Fresh : Prop := ∀ l, s.Has id l → s.registry.read id = .ok l

/-- A caller is about to keep a language while another is about to store a blob. -/
def Collides : Prop :=
  (∃ k l, s.callers k = some (.keeping id l)) ∧ ∃ k blob, s.callers k = some (.storing id blob)

/-- What a registry promises: a language that is kept is the registered one, and as long as there is
no other registration, this is the answer to every load that is yet to start. -/
structure Current : Prop where
  kept : ∀ l, s.registry.kept.lookup id = some l → s.registry.read id = .ok l
  loads : ∀ {t u : Shared} {k : Nat} {stage : Stage} {answer : Except LoadError Language},
    Onward id s t → s.callers k = none → t.Step k (.acted stage (.loaded answer)) u →
      stage.id = id → answer = s.registry.read id

variable {s id} {t u : Shared} {k : Nat} {e : Event} {l : Language}

/-! ## What one step keeps -/

theorem Step.read_eq (step : s.Step k e t) (id : String) : t.registry.read id = s.registry.read id ∨
    ∃ blob turn, e = .acted (.storing id blob) turn ∧ s.callers k = some (.storing id blob) := by
  cases step with
  | call => exact .inl rfl
  | act busy acts =>
    rcases acts.read_eq id with same | ⟨blob, rfl⟩
    · exact .inl same
    · exact .inr ⟨blob, _, rfl, busy⟩

/-- What is kept or held after a step was so before, or has just been read. -/
theorem Step.has (step : s.Step k e t) (has : t.Has id l) : s.Has id l ∨
    s.registry.read id = .ok l ∧ ∀ blob turn, e ≠ .acted (.storing id blob) turn := by
  cases step with
  | call idle opens =>
    rcases has with kept | ⟨j, held⟩
    · exact .inl (.inl kept)
    · rcases of_callers_put held with held | first
      · exact .inl (.inr ⟨j, held⟩)
      · cases first
        cases opens
  | @act stage r turn busy acts =>
    rcases has with kept | ⟨j, held⟩
    · rcases acts.kept kept with kept | rfl
      · exact .inl (.inl kept)
      · exact .inl (.inr ⟨k, busy⟩)
    · rcases of_callers_put held with held | next
      · exact .inl (.inr ⟨j, held⟩)
      · cases turn with
        | goesOn =>
          cases next
          obtain ⟨rfl, found⟩ := acts.held
          exact .inr ⟨found, fun _ _ => nofun⟩
        | loaded | registered => cases next

theorem Fresh.step (fresh : s.Fresh id) (step : s.Step k e t)
    (same : t.registry.read id = s.registry.read id) : t.Fresh id := by
  intro l has
  rw [same]
  rcases step.has has with has | ⟨read, -⟩
  · exact fresh l has
  · exact read

/-! ## Without collisions -/

theorem Reached.clear {capacity : Nat} {pos : 0 < capacity} {avoid : Shared → Prop}
    (reached : Reached capacity pos avoid s) : ¬ avoid s := by
  cases reached with
  | start clear => exact clear
  | step before step clear => exact clear

/-- Without collisions nothing is out of date, and nothing is kept where a blob is about to be
stored. -/
theorem fresh_of_clear {capacity : Nat} {pos : 0 < capacity}
    (reached : Reached capacity pos (·.Collides id) s) : s.Fresh id ∧
      ((∃ k blob, s.callers k = some (.storing id blob)) → s.registry.kept.lookup id = none) := by
  induction reached with
  | start =>
    refine ⟨fun l has => ?_, fun _ => rfl⟩
    rcases has with kept | ⟨k, held⟩
    · cases kept
    · cases held
  | @step s t k e before step clear ih =>
    obtain ⟨fresh, empty⟩ := ih
    constructor
    · rcases step.read_eq id with same | ⟨blob, turn, rfl, storing⟩
      · exact fresh.step step same
      · intro l has
        rcases step.has has with (kept | held) | ⟨-, other⟩
        · rw [empty ⟨k, blob, storing⟩] at kept
          cases kept
        · obtain ⟨j, held⟩ := held
          exact absurd ⟨⟨j, l, held⟩, k, blob, storing⟩ before.clear
        · exact absurd rfl (other blob turn)
    · rintro ⟨j, blob, storing⟩
      cases step with
      | call idle opens =>
        rcases of_callers_put storing with storing | first
        · exact empty ⟨j, blob, storing⟩
        · cases first
          cases opens
      | @act stage r turn busy acts =>
        rcases of_callers_put storing with storing | next
        · have missing := empty ⟨j, blob, storing⟩
          cases found : r.kept.lookup id with
          | none => exact found
          | some l =>
            rcases acts.kept found with kept | rfl
            · rw [missing] at kept
              cases kept
            · exact absurd ⟨⟨k, l, busy⟩, j, blob, storing⟩ before.clear
        · cases turn with
          | goesOn =>
            cases next
            exact acts.dropped
          | loaded | registered => cases next

/-! ## Without a further registration -/

theorem Onward.quiet (onward : Onward id s t) (quiet : ¬ s.Registering id) :
    ¬ t.Registering id := by
  induction onward with
  | refl => exact quiet
  | step before step free ih =>
    rintro ⟨j, stage, under, registers, same⟩
    refine ih ?_
    cases step with
    | call idle opens =>
      rcases of_callers_put under with under | first
      · exact ⟨j, stage, under, registers, same⟩
      · cases first
        exact absurd same (free stage rfl registers)
    | @act before r turn busy acts =>
      rcases of_callers_put under with under | next
      · exact ⟨j, stage, under, registers, same⟩
      · cases turn with
        | goesOn =>
          cases next
          obtain ⟨id, kind, -⟩ := acts.goesOn
          exact ⟨_, before, busy, kind ▸ registers, id ▸ same⟩
        | loaded | registered => cases next

theorem Onward.fresh (onward : Onward id s t) (quiet : ¬ s.Registering id) (fresh : s.Fresh id) :
    t.registry.read id = s.registry.read id ∧ t.Fresh id := by
  induction onward with
  | refl => exact ⟨rfl, fresh⟩
  | step before step free ih =>
    rcases step.read_eq id with same | ⟨blob, turn, rfl, storing⟩
    · exact ⟨same.trans ih.1, ih.2.step step same⟩
    · exact absurd ⟨_, _, storing, rfl, rfl⟩ (before.quiet quiet)

/-- Where nothing is out of date, a registry does what it promises. -/
theorem Fresh.current (fresh : s.Fresh id) (quiet : ¬ s.Registering id) : s.Current id where
  kept l kept := fresh l (.inl kept)
  loads {t u k stage answer} onward _ step about := by
    obtain ⟨same, fresh⟩ := onward.fresh quiet fresh
    subst about
    rw [← same]
    cases step with
    | act busy acts =>
      rcases acts.answers with read | ⟨l, rfl, kept | held⟩
      · exact read
      · exact (fresh l (.inl kept)).symm
      · exact (fresh l (.inr ⟨k, held ▸ busy⟩)).symm

theorem Reached.exists_idle {capacity : Nat} {pos : 0 < capacity} {avoid : Shared → Prop}
    (reached : Reached capacity pos avoid s) : ∃ n, ∀ k, n ≤ k → s.callers k = none := by
  induction reached with
  | start => exact ⟨0, fun _ _ => rfl⟩
  | @step s t k e before step clear ih =>
    obtain ⟨n, idle⟩ := ih
    refine ⟨max n (k + 1), fun j hj => ?_⟩
    have differs : j ≠ k := by omega
    cases step <;> exact (callers_put_of_ne _ _ _ differs).trans (idle j (by omega))

/-- What is held can be kept, and then it is what the next load gets. -/
theorem Current.fresh {capacity : Nat} {pos : 0 < capacity} {avoid : Shared → Prop}
    (current : s.Current id) (reached : Reached capacity pos avoid s) : s.Fresh id := by
  rintro l (kept | ⟨j, held⟩)
  · exact current.kept l kept
  · obtain ⟨n, idle⟩ := reached.exists_idle
    have idle := idle n (Nat.le_refl n)
    have differs : n ≠ j := by
      rintro rfl
      rw [idle] at held
      cases held
    let t := s.put (s.registry.keep id l) j none
    have keeps : s.Step j _ t := .act held (.keep id l)
    have still : t.callers n = none := (callers_put_of_ne _ _ _ differs).trans idle
    let u := t.put t.registry n (some (.probing id))
    have calls : t.Step n _ u := .call still rfl
    have busy : u.callers n = some (.probing id) := callers_put_self ..
    have kept : (u.registry.probe id).1 = some l :=
      (probe_fst _ id).trans (lookup_keep_self s.registry id l)
    have loads := Step.act busy (.hit kept)
    have onward : Onward id s u := (Onward.refl.step keeps fun _ => nofun).step calls (by
      rintro _ ⟨⟩ registers
      cases registers)
    exact (current.loads onward idle loads rfl).symm

/-! ## The promise -/

/-- What is held while a blob of another language is stored is out of date from then on. -/
theorem not_fresh_of_store {j : Nat} {blob : Text} (held : s.callers k = some (.keeping id l))
    (storing : s.callers j = some (.storing id blob)) (other : Language.ofBlob blob ≠ .ok l) :
    ∃ e t, s.Step j e t ∧ ¬ t.Fresh id := by
  refine ⟨_, _, .act storing (.store id blob), fun fresh => other ?_⟩
  have differs : k ≠ j := by
    rintro rfl
    rw [held] at storing
    cases storing
  rw [← read_store_self s.registry id blob]
  exact fresh l (.inr ⟨k, (callers_put_of_ne _ _ _ differs).trans held⟩)

/-- Where no registration is under way, a registry does what it promises exactly if nothing that is
kept or held is out of date.  Without collisions nothing ever is, and a collision of two languages
is enough. -/
theorem current_iff_fresh {capacity : Nat} {pos : 0 < capacity}
    (reached : Reached capacity pos (fun _ => False) s) :
    (¬ s.Registering id → (s.Current id ↔ s.Fresh id)) ∧
      (Reached capacity pos (·.Collides id) s → s.Fresh id) ∧
      ∀ k l j blob, s.callers k = some (.keeping id l) → s.callers j = some (.storing id blob) →
        Language.ofBlob blob ≠ .ok l → ∃ e t, s.Step j e t ∧ ¬ t.Fresh id :=
  ⟨fun quiet => ⟨fun current => current.fresh reached, fun fresh => fresh.current quiet⟩,
    fun clear => (fresh_of_clear clear).1,
    fun _ _ _ _ held storing other => not_fresh_of_store held storing other⟩

/-! ## One call after the other -/

theorem not_collides_still {r q : Registry} {stage? : Option Stage} :
    ¬ ((still r).put q k stage?).Collides id := by
  rintro ⟨⟨i, l, held⟩, j, blob, storing⟩
  have keeps := (of_callers_put held).resolve_left nofun
  rw [(of_callers_put storing).resolve_left nofun] at keeps
  cases keeps

theorem reached_of_alone {capacity : Nat} {pos : 0 < capacity} {i r q : Registry} {stage : Stage}
    {turn : Turn} (alone : Alone r stage q turn)
    (before : Reached capacity pos (·.Collides id) ((still i).put r k (some stage))) :
    Reached capacity pos (·.Collides id) ((still i).put q k none) := by
  -- A step of the one caller leaves a registry that one caller is using.
  have step {r q : Registry} {stage : Stage} {turn : Turn} (acts : stage.Acts r q turn) :
      ((still i).put r k (some stage)).Step k (.acted stage turn)
        ((still i).put q k turn.stage?) := by
    have acted := Step.act (callers_put_self (still i) r (k := k) (some stage)) acts
    rwa [put_put] at acted
  induction alone with
  | last acts ended => exact ended ▸ before.step (step acts) not_collides_still
  | more acts rest ih => exact ih (before.step (step acts) not_collides_still)

/-- Calls that are made one after the other do not collide. -/
theorem reached_of_calls {capacity : Nat} (pos : 0 < capacity) (past : List Call) :
    Reached capacity pos (·.Collides id) (still (reached capacity pos past)) := by
  have call {r q : Registry} {stage : Stage} {turn : Turn} (alone : Alone r stage q turn)
      (opens : stage.opens = true) (before : Reached capacity pos (·.Collides id) (still r)) :
      Reached capacity pos (·.Collides id) (still q) := by
    rw [← still_put r q 0]
    exact reached_of_alone alone (before.step (.call rfl opens) not_collides_still)
  induction past with
  | nil =>
    refine .start ?_
    rw [start, ← still_put (withCapacity capacity pos) _ 0]
    exact not_collides_still
  | cons c past ih =>
    cases c with
    | register id blob => exact call (alone_register _ id blob) rfl ih
    | load id => exact call (alone_load _ id) rfl ih
    | contains | ids | stats => exact ih

theorem Reached.mono {capacity : Nat} {pos : 0 < capacity} {avoid less : Shared → Prop}
    (reached : Reached capacity pos avoid s) (weaker : ∀ t, less t → avoid t) :
    Reached capacity pos less s := by
  induction reached with
  | start clear => exact .start fun h => clear (weaker _ h)
  | step before step clear ih => exact ih.step step fun h => clear (weaker _ h)

/-! ## A load between the steps of a registration -/

/-- A registry that two callers may be using. -/
def pair (r : Registry) (k j : Nat) (first second : Option Stage) : Shared :=
  ((still r).put r k first).put r j second

section Pair

variable {r q : Registry} {j : Nat} {first second : Option Stage} {stage : Stage} {turn : Turn}

theorem put_pair (next : Option Stage) :
    (pair r k j first second).put q j next = pair q k j first next :=
  put_put _ _ _ _ _

theorem put_pair_of_ne (differs : k ≠ j) (next : Option Stage) :
    (pair r k j first second).put q k next = pair q k j next second := by
  simp only [pair, put, still, Function.update_comm differs.symm, Function.update_idem]

theorem callers_pair (differs : k ≠ j) : (pair r k j first second).callers k = first :=
  (callers_put_of_ne _ _ _ differs).trans (callers_put_self ..)

theorem act_first (differs : k ≠ j) (acts : stage.Acts r q turn) :
    (pair r k j (some stage) second).Step k (.acted stage turn)
      (pair q k j turn.stage? second) := by
  rw [← put_pair_of_ne differs turn.stage?]
  exact .act (callers_pair differs) acts

theorem act_second (acts : stage.Acts r q turn) :
    (pair r k j first (some stage)).Step j (.acted stage turn)
      (pair q k j first turn.stage?) := by
  rw [← put_pair turn.stage?]
  exact .act (callers_put_self ..) acts

/-- Two callers do not collide where neither keeps a language, or neither stores a blob. -/
theorem not_collides_pair (apart : (∀ l, some (.keeping id l) ∉ [first, second]) ∨
    ∀ blob, some (.storing id blob) ∉ [first, second]) :
    ¬ (pair r k j first second).Collides id := by
  have busy {i : Nat} {stage : Stage} (h : (pair r k j first second).callers i = some stage) :
      some stage ∈ [first, second] := by
    rcases of_callers_put h with h | h
    · rw [(of_callers_put h).resolve_left nofun]
      exact List.mem_cons_self
    · rw [h]
      exact List.mem_cons_of_mem _ List.mem_cons_self
  rintro ⟨⟨i, l, held⟩, i', blob, storing⟩
  rcases apart with apart | apart
  · exact apart l (busy held)
  · exact apart blob (busy storing)

end Pair

/-- One caller registers a blob and another one loads: it looks for the language between the two
steps of the registration, and reads the blob after them.  They do not collide, and the language of
the new blob is kept. -/
theorem interleaved {capacity : Nat} {pos : 0 < capacity} {r : Registry} {j : Nat} {blob : Text}
    (reached : Reached capacity pos (·.Collides id) (still r)) (differs : k ≠ j)
    (decoded : Language.ofBlob blob = .ok l) :
    ∃ s, Reached capacity pos (·.Collides id) (still s) ∧ s.kept.lookup id = some l ∧
      s.read id = .ok l := by
  have idle (q : Registry) : pair q k j none none = still q := by rw [pair, still_put, still_put]
  have begun : (still r).Step k (.called (.dropping id blob))
      (pair r k j (some (.dropping id blob)) none) := by
    rw [← idle r, ← put_pair_of_ne differs (some (.dropping id blob))]
    exact .call (callers_pair differs) rfl
  have joined : (pair r k j (some (.dropping id blob)) none).Step j (.called (.probing id))
      (pair r k j (some (.dropping id blob)) (some (.probing id))) := by
    rw [← put_pair (some (.probing id))]
    exact .call (callers_put_self ..) rfl
  have missing : ((r.drop id).probe id).1 = none :=
    (probe_fst _ id).trans (lookup_drop_self r id)
  let probed := ((r.drop id).probe id).2
  have found : (probed.store id blob).read id = .ok l := (read_store_self _ id blob).trans decoded
  have looked := (reached.step begun (not_collides_pair (.inl (by simp)))).step joined
    (not_collides_pair (.inl (by simp)))
  have between := (looked.step (act_first differs (.drop id blob))
    (not_collides_pair (.inl (by simp [Turn.stage?])))).step (act_second (.miss missing))
    (not_collides_pair (.inl (by simp [Turn.stage?])))
  have stored := between.step (act_first differs (.store id blob))
    (not_collides_pair (.inl (by simp [Turn.stage?])))
  have kept := (stored.step (act_second (.read found))
    (not_collides_pair (.inr (by simp [Turn.stage?])))).step (act_second (.keep id l))
    (not_collides_pair (.inr (by simp [Turn.stage?])))
  exact ⟨_, idle _ ▸ kept, lookup_keep_self _ id l, (read_keep _ id id l).trans found⟩

/-- A language that one caller registers while another one loads it. -/
theorem blank_current : ∃ r l, Reached 16 (by decide) (·.Collides "x") (still r) ∧
    r.kept.lookup "x" = some l ∧ r.read "x" = .ok l ∧ (still r).Current "x" := by
  obtain ⟨l, decoded⟩ := ofBlob_blank
  have first : Reached 16 (by decide) (·.Collides "x") (still (reached 16 (by decide) [])) :=
    reached_of_calls _ _
  obtain ⟨r, clear, kept, read⟩ := interleaved first Nat.zero_ne_one decoded
  have quiet : ¬ (still r).Registering "x" := by
    rintro ⟨k, stage, busy, -⟩
    cases busy
  obtain ⟨promise, fresh, -⟩ := current_iff_fresh (clear.mono fun _ => False.elim)
  exact ⟨r, l, clear, kept, read, (promise quiet).mpr (fresh clear)⟩

/-! ## A load that is overtaken -/

/-- One caller reads a blob, another one registers a new blob from start to end, and only then does
the first one keep what it has read.  The old language is kept, and no call is left under way that
was not so before. -/
theorem overtaken {capacity : Nat} {pos : 0 < capacity} {j : Nat}
    (reached : Reached capacity pos (fun _ => False) s) (differs : k ≠ j)
    (idle : s.callers k = none) (idle' : s.callers j = none)
    (missing : s.registry.kept.lookup id = none) (found : s.registry.read id = .ok l)
    (blob : Text) : ∃ t, Reached capacity pos (fun _ => False) t ∧ t.callers = s.callers ∧
      t.registry.kept.lookup id = some l ∧ t.registry.read id = Language.ofBlob blob := by
  have clear : ¬ False := not_false
  have called := reached.step (.call idle (rfl : (Stage.probing id).opens = true)) clear
  have missed := called.step
    (.act (callers_put_self ..) (.miss ((probe_fst s.registry id).trans missing))) clear
  have read := missed.step
    (.act (callers_put_self ..) (.read ((read_probe s.registry id id).trans found))) clear
  simp only [put_put, registry_put] at read
  generalize (s.registry.probe id).2 = r at read
  have free : (s.put r k (some (.keeping id l))).callers j = none :=
    (callers_put_of_ne _ _ _ differs.symm).trans idle'
  have called' := read.step (.call free (rfl : (Stage.dropping id blob).opens = true)) clear
  have dropped := called'.step (.act (callers_put_self ..) (.drop id blob)) clear
  have stored := dropped.step (.act (callers_put_self ..) (.store id blob)) clear
  simp only [put_put, registry_put] at stored
  have holding : ((s.put r k (some (.keeping id l))).put ((r.drop id).store id blob) j none).callers
      k = some (.keeping id l) := (callers_put_of_ne _ _ _ differs).trans (callers_put_self ..)
  refine ⟨_, stored.step (.act holding (.keep id l)) clear, ?_, lookup_keep_self _ id l, ?_⟩
  · funext i
    by_cases first : i = k
    · rw [first, callers_put_self, idle]
      rfl
    · by_cases second : i = j
      · rw [callers_put_of_ne _ _ _ first, second, callers_put_self, idle']
        rfl
      · rw [callers_put_of_ne _ _ _ first, callers_put_of_ne _ _ _ second,
          callers_put_of_ne _ _ _ first]
  · exact (read_keep _ id id l).trans (read_store_self _ id blob)

/-- The tables of a language like `blank` under another name. -/
def bare : Tables := { blank with name := "bare" }

theorem ofBlob_encode {t : Tables} (fits : t.Fits) (valid : t.fault? = none)
    (short : (Json.written t.toJson).length < 2 ^ 32) (plain : t.tokens = []) :
    ∃ l, Language.ofBlob (Blob.encode t 14) = .ok l ∧ l.tables = t := by
  obtain ⟨m, matcher⟩ : ∃ m, Matcher.ofTokens t.tokens (Language.nameIn t) = .ok m := by
    rw [plain]
    exact ⟨_, rfl⟩
  obtain ⟨l, ready, tables⟩ : ∃ l, Language.prepare 14 t = .ok l ∧ l.tables = t :=
    ⟨_, Language.prepare_eq_ok.mpr ⟨m, matcher, rfl⟩, rfl⟩
  rw [← Json.size_render] at short
  refine ⟨l, ?_, tables⟩
  rw [Language.ofBlob, Blob.decode_encode fits valid short (by decide)]
  exact ready

/-- Two blobs of languages that are not the same. -/
theorem ofBlob_two : ∃ old new, Language.ofBlob blankBlob = .ok old ∧
    Language.ofBlob (Blob.encode bare 14) = .ok new ∧ old.sameAs new = false := by
  obtain ⟨old, decoded, tables⟩ := ofBlob_encode (t := blank)
    ⟨by decide, by decide, by decide, by decide, by decide, by decide, by decide, by decide⟩
    (by decide +kernel) (by decide +kernel) rfl
  obtain ⟨new, decoded', tables'⟩ := ofBlob_encode (t := bare)
    ⟨by decide, by decide, by decide, by decide, by decide, by decide, by decide, by decide⟩
    (by decide +kernel) (by decide +kernel) rfl
  refine ⟨old, new, decoded, decoded', ?_⟩
  rw [Language.sameAs, tables, tables']
  decide

/-- No call is under way, and every load gets a language that is no longer registered. -/
theorem overtaken_not_current : ∃ s old new, Reached 16 (by decide) (fun _ => False) s ∧
    (∀ k, s.callers k = none) ∧ s.registry.kept.lookup "x" = some old ∧
    s.registry.read "x" = .ok new ∧ old.sameAs new = false ∧
    (s.registry.load "x").1 = .ok old ∧ ¬ s.Current "x" := by
  obtain ⟨old, new, decoded, decoded', differ⟩ := ofBlob_two
  let r := reached 16 (by decide) [.register "x" blankBlob]
  have clear : Reached 16 (by decide) (·.Collides "x") (still r) := reached_of_calls _ _
  have first : Reached 16 (by decide) (fun _ => False) (still r) := clear.mono fun _ => False.elim
  have missing : r.kept.lookup "x" = none := lookup_without_self "x" []
  have found : r.read "x" = .ok old := (read_store_self _ "x" blankBlob).trans decoded
  obtain ⟨s, reached, callers, kept, read⟩ :=
    overtaken first Nat.zero_ne_one rfl rfl missing found (Blob.encode bare 14)
  have read : s.registry.read "x" = .ok new := read.trans decoded'
  refine ⟨s, old, new, reached, fun k => congrFun callers k, kept, read, differ, ?_, ?_⟩
  · rw [load, probe, kept]
  · intro current
    have same := (current.kept old kept).symm.trans read
    cases same
    rw [Language.sameAs, beq_self_eq_true] at differ
    cases differ

end Shared

end Glr.Registry
