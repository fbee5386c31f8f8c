import Glr.Proofs.Locality
import Mathlib

/-!
# What a scanner's token depends on

A hand-written scanner may be any program, so long as all it learns of a text it learns from the
cursor.  Such a program is a `Procedure`: a machine whose moves are to look, to step on, to mark the
end or to think, and which is told what it looked at and nothing else.  `Plays` runs one over a
cursor, and a scanner that `Observes` is one that some procedure plays.

Two plays of a procedure over texts that agree stay in lockstep, and the record of the furthest
place looked at is what they have to agree on, but for one place more: a peek at the next character
at the end of the text leaves no record.  The agreement asked for by `nextTokenIn_moved` has that
place too, so a token is as local with a scanner as without one (`nextTokenIn_carried`).

Procedures go on from one to another and round in loops, and from these the procedure of a `Script`
is put together.
-/

namespace Glr

/-! ## What can be asked of a cursor -/

/-- The ways to use a cursor. -/
inductive Glance where
  | byte
  | char
  | atEnd
  | advance
  | markEnd
  deriving DecidableEq

namespace Glance

/-- What is learnt. -/
def Answer : Glance → Type
  | byte => Option UInt8
  | char => Option Char
  | atEnd => Bool
  | advance => Unit
  | markEnd => Unit

/-- What is learnt from a cursor, and the cursor after it. -/
def run : (g : Glance) → Cursor → g.Answer × Cursor
  | byte, c => c.lookahead
  | char, c => c.lookaheadChar
  | atEnd, c => c.isAtEnd
  | advance, c => ((), c.advance)
  | markEnd, c => ((), c.markEnd)

end Glance

namespace Cursor

/-- Everything a cursor went over is in the text and on record. -/
structure Sound (c : Cursor) : Prop where
  start_le : c.start ≤ c.position
  inside : c.position ≤ c.text.size
  seen : c.position ≤ c.furthest + 1
  begun : c.start ≤ c.furthest
  marked : ∀ m ∈ c.marked, c.start ≤ m ∧ m ≤ c.position

/-- A later cursor of the same walk. -/
structure Precedes (c d : Cursor) : Prop where
  text : d.text = c.text
  start : d.start = c.start
  furthest : c.furthest ≤ d.furthest

/-- The cursor at the same place of another text. -/
def moved (text' : Text) (start' : Nat) (c : Cursor) : Cursor where
  text := text'
  start := start'
  position := start' + (c.position - c.start)
  marked := c.marked.map fun m => start' + (m - c.start)
  furthest := start' + (c.furthest - c.start)

variable {c d e : Cursor} {text text' : Text} {start' : Nat}

theorem Precedes.refl (c : Cursor) : Precedes c c := ⟨rfl, rfl, Nat.le_refl _⟩

theorem Precedes.trans (h : Precedes c d) (h' : Precedes d e) : Precedes c e :=
  ⟨h'.text.trans h.text, h'.start.trans h.start, Nat.le_trans h.furthest h'.furthest⟩

theorem sound_atOffset {offset : Nat} (inside : offset ≤ text.size) :
    (atOffset text offset).Sound :=
  ⟨Nat.le_refl _, inside, Nat.le_succ _, Nat.le_refl _, fun _ h => nomatch h⟩

theorem moved_atOffset (offset : Nat) :
    (atOffset text offset).moved text' start' = atOffset text' start' := by
  rw [moved, atOffset, atOffset, Nat.sub_self]
  rfl

theorem tokenEnd_bounds (sound : c.Sound) :
    c.start ≤ c.tokenEnd ∧ c.tokenEnd ≤ c.text.size := by
  rw [tokenEnd]
  cases marked : c.marked with
  | none => exact ⟨sound.start_le, sound.inside⟩
  | some m =>
    obtain ⟨after, before⟩ := sound.marked m marked
    exact ⟨after, Nat.le_trans before sound.inside⟩

theorem tokenEnd_moved : (c.moved text' start').tokenEnd = start' + (c.tokenEnd - c.start) := by
  rw [tokenEnd, tokenEnd, moved]
  cases c.marked with
  | none => rfl
  | some m => rfl

theorem examined_moved (sound : c.Sound) :
    (c.moved text' start').examined = start' + (c.examined - c.start) := by
  have := sound.begun
  show start' + (c.furthest - c.start) + 1 = start' + (c.furthest + 1 - c.start)
  omega

theorem sound_touch {place : Nat} (sound : c.Sound) : (c.touch place).Sound where
  start_le := sound.start_le
  inside := sound.inside
  seen := Nat.le_trans sound.seen (Nat.succ_le_succ (Nat.le_max_left _ _))
  begun := Nat.le_trans sound.begun (Nat.le_max_left _ _)
  marked := sound.marked

theorem touch_moved {place : Nat} (sound : c.Sound) (ahead : c.start ≤ place) :
    (c.moved text' start').touch (start' + (place - c.start)) =
      (c.touch place).moved text' start' := by
  have := sound.begun
  rw [touch, touch, moved, moved, mk.injEq]
  refine ⟨rfl, rfl, rfl, rfl, ?_⟩
  dsimp only
  omega

theorem precedes_touch (c : Cursor) (place : Nat) : Precedes c (c.touch place) :=
  ⟨rfl, rfl, Nat.le_max_left _ _⟩

/-- Where the next character ends, if there is one. -/
def behindNext (c : Cursor) (byte : UInt8) : Nat := min (c.position + Utf8.width byte) c.text.size

theorem advance_at_end (h : c.text[c.position]? = none) : c.advance = c := by
  rw [advance, h]

theorem advance_of_byte {byte : UInt8} (h : c.text[c.position]? = some byte) :
    c.advance = { c with position := c.behindNext byte }.touch (c.behindNext byte - 1) := by
  rw [advance, h]
  rfl

theorem lookaheadChar_at_end (h : c.text[c.position]? = none) : c.lookaheadChar = (none, c) := by
  rw [lookaheadChar, h]

theorem lookaheadChar_of_byte {byte : UInt8} (h : c.text[c.position]? = some byte) :
    c.lookaheadChar = (Utf8.firstChar? (c.text.extract c.position (c.behindNext byte)).toList,
      c.touch (c.behindNext byte - 1)) := by
  rw [lookaheadChar, h]
  rfl

theorem position_lt {byte : UInt8} (h : c.text[c.position]? = some byte) :
    c.position < c.text.size := (Array.getElem?_eq_some_iff.mp h).1

theorem behindNext_bounds {byte : UInt8} (h : c.text[c.position]? = some byte) :
    c.position < c.behindNext byte ∧ c.behindNext byte ≤ c.text.size := by
  have := position_lt h
  have := Utf8.width_pos byte
  rw [behindNext]
  omega

theorem precedes_run (g : Glance) (c : Cursor) : Precedes c (g.run c).2 := by
  cases g with
  | byte => exact precedes_touch c _
  | char =>
    cases here : c.text[c.position]? with
    | none =>
      rw [Glance.run, lookaheadChar_at_end here]
      exact .refl c
    | some byte =>
      rw [Glance.run, lookaheadChar_of_byte here]
      exact precedes_touch c _
  | atEnd => exact precedes_touch c _
  | advance =>
    cases here : c.text[c.position]? with
    | none =>
      rw [Glance.run, advance_at_end here]
      exact .refl c
    | some byte =>
      rw [Glance.run, advance_of_byte here]
      exact ⟨rfl, rfl, Nat.le_max_left _ _⟩
  | markEnd => exact ⟨rfl, rfl, Nat.le_refl _⟩

theorem sound_run (g : Glance) (sound : c.Sound) : (g.run c).2.Sound := by
  cases g with
  | byte => exact sound_touch sound
  | char =>
    cases here : c.text[c.position]? with
    | none =>
      rw [Glance.run, lookaheadChar_at_end here]
      exact sound
    | some byte =>
      rw [Glance.run, lookaheadChar_of_byte here]
      exact sound_touch sound
  | atEnd => exact sound_touch sound
  | advance =>
    cases here : c.text[c.position]? with
    | none =>
      rw [Glance.run, advance_at_end here]
      exact sound
    | some byte =>
      obtain ⟨further, inside⟩ := behindNext_bounds here
      have := sound.start_le
      have := sound.begun
      rw [Glance.run, advance_of_byte here]
      refine ⟨?_, inside, ?_, Nat.le_trans sound.begun (Nat.le_max_left _ _), fun m hm => ?_⟩
      · show c.start ≤ c.behindNext byte
        omega
      · show c.behindNext byte ≤ max c.furthest (c.behindNext byte - 1) + 1
        omega
      · obtain ⟨after, before⟩ := sound.marked m hm
        exact ⟨after, Nat.le_trans before (Nat.le_of_lt further)⟩
  | markEnd =>
    refine ⟨sound.start_le, sound.inside, sound.seen, sound.begun, fun m hm => ?_⟩
    obtain rfl : c.position = m := Option.some.inj hm
    exact ⟨sound.start_le, Nat.le_refl _⟩

section Moved

variable (sound : c.Sound) (inside' : start' ≤ text'.size)

include sound

/-- A text that agrees up to a cursor has the cursor's next byte. -/
theorem getElem?_moved {stop : Nat} (agree : Text.Agree c.text c.start text' start' stop)
    (h : c.position < stop) :
    text'[(c.moved text' start').position]? = c.text[c.position]? := by
  have := sound.start_le
  rw [moved, agree _ (by omega), show c.start + (c.position - c.start) = c.position by omega]

include inside'

theorem behindNext_moved {byte : UInt8} (here : c.text[c.position]? = some byte)
    (agree : Text.Agree c.text c.start text' start' (c.behindNext byte + 1)) :
    (c.moved text' start').behindNext byte = start' + (c.behindNext byte - c.start) := by
  have := sound.start_le
  have within := position_lt here
  obtain ⟨further, inside⟩ := behindNext_bounds here
  show min (start' + (c.position - c.start) + Utf8.width byte) text'.size = _
  by_cases last : c.behindNext byte = c.text.size
  · -- A character cut off by the end of one text is cut off by that of the other.
    have ends := agree.size_eq (by omega) (by omega) inside'
    rw [behindNext] at last ⊢
    omega
  · have room := agree.lt_size (k := c.behindNext byte - c.start) (by omega) (by omega)
    rw [behindNext] at last room ⊢
    omega

/-- What is asked of a cursor has the same answer in a text that agrees up to one place behind all
that is looked at. -/
theorem run_moved (g : Glance)
    (agree : Text.Agree c.text c.start text' start' ((g.run c).2.furthest + 2)) :
    g.run (c.moved text' start') = ((g.run c).1, (g.run c).2.moved text' start') := by
  have le := sound.start_le
  have seen := sound.seen
  have begun := sound.begun
  have further := (precedes_run g c).furthest
  have here' := getElem?_moved sound agree (by omega)
  cases g with
  | byte =>
    exact Prod.ext here' (touch_moved sound le)
  | char =>
    rw [Glance.run, Glance.run]
    cases here : c.text[c.position]? with
    | none =>
      rw [lookaheadChar_at_end here, lookaheadChar_at_end (here'.trans here)]
      rfl
    | some byte =>
      obtain ⟨more, inside⟩ := behindNext_bounds here
      have looked : c.behindNext byte - 1 ≤ (Glance.char.run c).2.furthest := by
        rw [Glance.run, lookaheadChar_of_byte here]
        exact Nat.le_max_right _ _
      have stop := behindNext_moved sound inside' here (agree.mono (by omega))
      have same := (agree.behind (c.position - c.start)).extract_eq inside (by omega)
      rw [show c.start + (c.position - c.start) = c.position by omega] at same
      rw [lookaheadChar_of_byte here, lookaheadChar_of_byte (here'.trans here), stop]
      refine Prod.ext ?_ ?_
      · rw [show start' + (c.behindNext byte - c.start) =
          start' + (c.position - c.start) + (c.behindNext byte - c.position) by omega]
        exact congrArg (fun bytes => Utf8.firstChar? bytes.toList) same
      · rw [show start' + (c.behindNext byte - c.start) - 1 =
          start' + (c.behindNext byte - 1 - c.start) by omega]
        exact touch_moved sound (by omega)
  | atEnd =>
    refine Prod.ext ?_ (touch_moved sound le)
    show decide (text'.size ≤ (c.moved text' start').position) =
      decide (c.text.size ≤ c.position)
    rw [decide_eq_decide, ← Array.getElem?_eq_none_iff, ← Array.getElem?_eq_none_iff, here']
  | advance =>
    rw [Glance.run, Glance.run]
    cases here : c.text[c.position]? with
    | none =>
      rw [advance_at_end here, advance_at_end (here'.trans here)]
    | some byte =>
      obtain ⟨more, inside⟩ := behindNext_bounds here
      have looked : c.behindNext byte - 1 ≤ (Glance.advance.run c).2.furthest := by
        rw [Glance.run, advance_of_byte here]
        exact Nat.le_max_right _ _
      have stop := behindNext_moved sound inside' here (agree.mono (by omega))
      rw [advance_of_byte here, advance_of_byte (here'.trans here), stop]
      refine Prod.ext rfl ?_
      show Cursor.mk text' start' _ _ _ = Cursor.mk text' start' _ _ _
      rw [mk.injEq]
      refine ⟨rfl, rfl, rfl, rfl, ?_⟩
      show max (start' + (c.furthest - c.start)) (start' + (c.behindNext byte - c.start) - 1) =
        start' + (max c.furthest (c.behindNext byte - 1) - c.start)
      omega
  | markEnd => rfl

end Moved

end Cursor

/-! ## Procedures -/

/-- What a procedure does next: it answers, thinks, or uses the cursor and goes on with what it
learnt. -/
inductive Move (σ α : Type) where
  | answer (a : α)
  | think (s : σ)
  | ask (g : Glance) (next : g.Answer → σ)

/-- A program that learns of a text from a cursor only. -/
structure Procedure (α : Type) where
  State : Type
  start : State
  move : State → Move State α

namespace Procedure

variable {α β σ : Type}

/-- From a state and a cursor a procedure comes to an answer and leaves a cursor. -/
inductive Plays (p : Procedure α) : p.State → Cursor → α → Cursor → Prop where
  | answer {s : p.State} {c : Cursor} {a : α} : p.move s = .answer a → Plays p s c a c
  | think {s s' : p.State} {c d : Cursor} {a : α} : p.move s = .think s' →
      Plays p s' c a d → Plays p s c a d
  | ask {s : p.State} {c d : Cursor} {a : α} {g : Glance} {next : g.Answer → p.State} :
      p.move s = .ask g next → Plays p (next (g.run c).1) (g.run c).2 a d → Plays p s c a d

variable {p : Procedure α} {s : p.State} {c d : Cursor} {a : α}

theorem Plays.precedes (h : p.Plays s c a d) : c.Precedes d := by
  induction h with
  | answer => exact .refl _
  | think _ _ ih => exact ih
  | ask _ _ ih => exact (Cursor.precedes_run _ _).trans ih

theorem Plays.sound (h : p.Plays s c a d) (sound : c.Sound) : d.Sound := by
  induction h with
  | answer => exact sound
  | think _ _ ih => exact ih sound
  | ask _ _ ih => exact ih (Cursor.sound_run _ sound)

theorem Plays.unique {a' : α} {d' : Cursor} (h : p.Plays s c a d) (h' : p.Plays s c a' d') :
    a = a' ∧ d = d' := by
  induction h with
  | answer move => cases h' <;> simp_all
  | think move _ ih =>
    cases h' with
    | answer move' => exact nomatch move.symm.trans move'
    | think move' later =>
      cases move.symm.trans move'
      exact ih later
    | ask move' _ => exact nomatch move.symm.trans move'
  | ask move _ ih =>
    cases h' with
    | answer move' => exact nomatch move.symm.trans move'
    | think move' _ => exact nomatch move.symm.trans move'
    | ask move' later =>
      cases move.symm.trans move'
      exact ih later

/-- Two plays in lockstep. -/
theorem Plays.moved (h : p.Plays s c a d) {text' : Text} {start' : Nat} (sound : c.Sound)
    (inside' : start' ≤ text'.size)
    (agree : Text.Agree c.text c.start text' start' (d.furthest + 2)) :
    p.Plays s (c.moved text' start') a (d.moved text' start') := by
  induction h with
  | answer move => exact .answer move
  | think move _ ih => exact .think move (ih sound agree)
  | @ask s c d a g next move later ih =>
    have first := Cursor.precedes_run g c
    have rest := later.precedes
    refine .ask move ?_
    rw [Cursor.run_moved sound inside' g (agree.mono (Nat.add_le_add_right rest.furthest 2))]
    exact ih (Cursor.sound_run g sound) (by rwa [first.text, first.start])

end Procedure

/-- A function of a cursor that some procedure plays. -/
def Observing {α : Type} (f : Cursor → α × Cursor) : Prop :=
  ∃ p : Procedure α, ∀ c, p.Plays p.start c (f c).1 (f c).2

namespace Observing

variable {α β σ : Type} {f : Cursor → α × Cursor}

theorem sound (h : Observing f) {c : Cursor} (sound : c.Sound) :
    (f c).2.Sound ∧ c.Precedes (f c).2 := by
  obtain ⟨p, plays⟩ := h
  exact ⟨(plays c).sound sound, (plays c).precedes⟩

theorem moved (h : Observing f) {c : Cursor} (sound : c.Sound) {text' : Text} {start' : Nat}
    (inside' : start' ≤ text'.size)
    (agree : Text.Agree c.text c.start text' start' ((f c).2.furthest + 2)) :
    f (c.moved text' start') = ((f c).1, (f c).2.moved text' start') := by
  obtain ⟨p, plays⟩ := h
  obtain ⟨same, place⟩ := (plays _).unique ((plays c).moved sound inside' agree)
  exact Prod.ext same place

/-! ## Putting procedures together -/

end Observing

namespace Move

variable {α β σ τ : Type}

/-- The same move among the states of another procedure, where an answer becomes a move too. -/
def embed (state : σ → τ) (answered : α → Move τ β) : Move σ α → Move τ β
  | answer a => answered a
  | think s => think (state s)
  | ask g next => ask g fun seen => state (next seen)

end Move

namespace Procedure

variable {α β σ : Type}

/-- One procedure, and then another one that depends on the answer of the first. -/
def chain (p : Procedure α) (q : α → Procedure β) : Procedure β where
  State := p.State ⊕ Σ a, (q a).State
  start := .inl p.start
  move
    | .inl s => (p.move s).embed .inl fun a => .think (.inr ⟨a, (q a).start⟩)
    | .inr ⟨a, s⟩ => ((q a).move s).embed (fun s => .inr ⟨a, s⟩) .answer

/-- One procedure after another for as long as they answer which comes next. -/
def loop (q : σ → Procedure (σ ⊕ α)) (x : σ) : Procedure α where
  State := Σ x, (q x).State
  start := ⟨x, (q x).start⟩
  move := fun ⟨x, s⟩ => ((q x).move s).embed (fun s => ⟨x, s⟩) fun
    | .inl y => .think ⟨y, (q y).start⟩
    | .inr a => .answer a

/-- A procedure within another one is played to its answer, and then the other goes on. -/
theorem Plays.embed {p : Procedure α} {q : Procedure β} (state : p.State → q.State)
    {answered : α → Move q.State β}
    (within : ∀ s, q.move (state s) = (p.move s).embed state answered) {s : p.State}
    {c d e : Cursor} {a : α} {b : β} (h : p.Plays s c a d)
    (later : ∀ t, q.move t = answered a → q.Plays t d b e) : q.Plays (state s) c b e := by
  induction h with
  | answer move => exact later _ (by rw [within, move, Move.embed])
  | think move _ ih => exact .think (by rw [within, move, Move.embed]) (ih later)
  | ask move _ ih => exact .ask (by rw [within, move, Move.embed]) (ih later)

theorem Plays.chain {p : Procedure α} {q : α → Procedure β} {c d e : Cursor} {a : α} {b : β}
    (first : p.Plays p.start c a d) (rest : (q a).Plays (q a).start d b e) :
    (p.chain q).Plays (p.chain q).start c b e := by
  refine first.embed (q := p.chain q) .inl (fun _ => rfl) fun t move => .think move ?_
  exact rest.embed (q := p.chain q) (fun s => .inr ⟨a, s⟩) (fun _ => rfl) fun t move => .answer move

theorem Plays.again {q : σ → Procedure (σ ⊕ α)} {x₀ x y : σ} {c d e : Cursor} {a : α}
    (first : (q x).Plays (q x).start c (.inl y) d)
    (rest : (loop q x₀).Plays ⟨y, (q y).start⟩ d a e) :
    (loop q x₀).Plays ⟨x, (q x).start⟩ c a e :=
  first.embed (q := loop q x₀) (fun s => ⟨x, s⟩) (fun _ => rfl) fun _ move => .think move rest

theorem Plays.done {q : σ → Procedure (σ ⊕ α)} {x₀ x : σ} {c d : Cursor} {a : α}
    (last : (q x).Plays (q x).start c (.inr a) d) :
    (loop q x₀).Plays ⟨x, (q x).start⟩ c a d :=
  last.embed (q := loop q x₀) (fun s => ⟨x, s⟩) (fun _ => rfl) fun _ move => .answer move

end Procedure

namespace Observing

variable {α β σ : Type} {f : Cursor → α × Cursor}

theorem congr {g : Cursor → α × Cursor} (h : Observing f) (same : ∀ c, g c = f c) : Observing g :=
  (funext same : g = f) ▸ h

theorem pure (a : α) : Observing fun c => (a, c) :=
  ⟨⟨Unit, (), fun _ => .answer a⟩, fun _ => .answer rfl⟩

theorem ask (g : Glance) : Observing g.run :=
  ⟨⟨Option g.Answer, none, fun s => match s with
      | none => .ask g some
      | some seen => .answer seen⟩,
    fun _ => .ask rfl (.answer rfl)⟩

theorem bind (first : Observing f) (next : α → Cursor → β × Cursor)
    (rest : ∀ a, Observing (next a)) : Observing fun c => next (f c).1 (f c).2 := by
  obtain ⟨p, plays⟩ := first
  choose q later using rest
  exact ⟨p.chain q, fun c => (plays c).chain (later _ _)⟩

/-- A loop whose every round but the last moves on. -/
theorem loop (body : σ → Cursor → (σ ⊕ α) × Cursor) (rounds : ∀ x, Observing (body x))
    (whole : σ → Cursor → α × Cursor)
    (again : ∀ x c y, (body x c).1 = .inl y → whole x c = whole y (body x c).2 ∧
      (body x c).2.remaining < c.remaining)
    (done : ∀ x c a, (body x c).1 = .inr a → whole x c = (a, (body x c).2)) (x : σ) :
    Observing (whole x) := by
  choose q plays using rounds
  -- The rounds still to come are bounded by what is ahead of the cursor.
  have run : ∀ n y c, c.remaining = n →
      (Procedure.loop q x).Plays ⟨y, (q y).start⟩ c (whole y c).1 (whole y c).2 := by
    intro n
    induction n using Nat.strongRecOn with
    | ind n ih =>
      rintro y c rfl
      have first := plays y c
      cases outcome : (body y c).1 with
      | inl z =>
        rw [outcome] at first
        obtain ⟨same, less⟩ := again y c z outcome
        rw [same]
        exact first.again (ih _ less z _ rfl)
      | inr a =>
        rw [outcome] at first
        rw [done y c a outcome]
        exact first.done
  exact ⟨_, fun c => run _ x c rfl⟩

theorem advance (a : α) : Observing fun c => (a, c.advance) :=
  (ask .advance).bind _ fun _ => pure a

/-- To look at the next byte and go on with it. -/
theorem byte {next : Option UInt8 → Cursor → α × Cursor} (rest : ∀ seen, Observing (next seen)) :
    Observing fun c => next c.lookahead.1 c.lookahead.2 :=
  (ask .byte).bind next rest

/-- To look at the next character and go on with it. -/
theorem char {next : Option Char → Cursor → α × Cursor} (rest : ∀ seen, Observing (next seen)) :
    Observing fun c => next c.lookaheadChar.1 c.lookaheadChar.2 :=
  (ask .char).bind next rest

theorem atEnd {next : Bool → Cursor → α × Cursor} (rest : ∀ ended, Observing (next ended)) :
    Observing fun c => next c.isAtEnd.1 c.isAtEnd.2 :=
  (ask .atEnd).bind next rest

end Observing

/-! ## Scripts -/

namespace Probe

/-- One round of skipping up to a byte, the next byte being known. -/
def skipRound (stop seen : Option UInt8) (c : Cursor) : (Unit ⊕ Unit) × Cursor :=
  match seen with
  | none => (.inr (), c)
  | some next => if some next = stop then (.inr (), c) else (.inl (), c.advance)

/-- One round of moving over brackets, the next byte being known. -/
def nestedRound (opening closing : Option UInt8) (depth : Nat) (seen : Option UInt8) (c : Cursor) :
    (Nat ⊕ Bool) × Cursor :=
  match seen with
  | none => (.inr false, c)
  | some next =>
    if some next = opening then (.inl (depth + 1), c.advance)
    else if depth = 0 then (.inr false, c)
    else if some next = closing then
      if depth = 1 then (.inr true, c.advance) else (.inl (depth - 1), c.advance)
    else (.inl depth, c.advance)

theorem observing_skipRound (stop seen : Option UInt8) : Observing (skipRound stop seen) := by
  unfold skipRound
  split
  · exact .pure _
  · split
    · exact .pure _
    · exact .advance _

theorem observing_nestedRound (opening closing : Option UInt8) (depth : Nat)
    (seen : Option UInt8) : Observing (nestedRound opening closing depth seen) := by
  unfold nestedRound
  split
  · exact .pure _
  · split
    · exact .advance _
    · split
      · exact .pure _
      · split
        · split
          · exact .advance _
          · exact .advance _
        · exact .advance _

/-- A loop that looks at a byte in every round and moves over it unless it is done. -/
theorem observing_rounds {α σ : Type} (round : σ → Option UInt8 → Cursor → (σ ⊕ α) × Cursor)
    (rounds : ∀ x seen, Observing (round x seen)) (whole : σ → Cursor → α × Cursor)
    (unfolded : ∀ x c, whole x c =
      match round x c.text[c.position]? (c.touch c.position) with
      | (.inl y, d) => whole y d
      | (.inr a, d) => (a, d))
    (moves : ∀ x seen c y, (round x seen c).1 = .inl y →
      seen.isSome = true ∧ (round x seen c).2 = c.advance) (x : σ) : Observing (whole x) := by
  refine Observing.loop (fun x c => round x c.lookahead.1 c.lookahead.2)
    (fun x => .byte (rounds x)) whole (fun x c y outcome => ?_) (fun x c a outcome => ?_) x
  · obtain ⟨some, moved⟩ := moves x _ _ y outcome
    obtain ⟨byte, found⟩ := Option.isSome_iff_exists.mp some
    refine ⟨?_, moved ▸ Cursor.remaining_advance_lt found⟩
    have round : round x c.text[c.position]? (c.touch c.position) = (.inl y, _) :=
      Prod.ext outcome rfl
    rw [unfolded, round]
    rfl
  · have round : round x c.text[c.position]? (c.touch c.position) = (.inr a, _) :=
      Prod.ext outcome rfl
    rw [unfolded, round]
    rfl

theorem observing_runSkip (stop : Option UInt8) :
    Observing fun c => ((), runSkip stop c) := by
  refine observing_rounds (fun _ => skipRound stop) (fun _ => observing_skipRound stop)
    (fun _ c => ((), runSkip stop c)) (fun _ c => ?_) (fun _ seen c y outcome => ?_) ()
  · rw [runSkip]
    unfold skipRound
    grind
  · unfold skipRound at outcome ⊢
    grind

theorem observing_runNested (opening closing : Option UInt8) (depth : Nat) :
    Observing (runNested opening closing depth) := by
  refine observing_rounds _ (observing_nestedRound opening closing) _ (fun depth c => ?_)
    (fun depth seen c y outcome => ?_) depth
  · rw [runNested]
    unfold nestedRound
    grind
  · unfold nestedRound at outcome ⊢
    grind

/-- To move on if what is seen is wanted, and to fail otherwise. -/
theorem observing_consume (wanted : Prop) [Decidable wanted] :
    Observing fun c => if wanted then (true, c.advance) else (false, c) := by
  split
  · exact .advance _
  · exact .pure _

/-- Whether a probe succeeds and where it leaves the cursor, its notes apart. -/
theorem observing_run (probe : Probe) :
    Observing fun c => ((probe.run c).1, (probe.run c).2.1) := by
  cases probe with
  | byte expected =>
    refine (Observing.byte fun seen => observing_consume (seen.isSome && seen = expected)).congr
      fun c => ?_
    dsimp only [run]
    split <;> rfl
  | char expected =>
    refine (Observing.char fun seen => observing_consume (seen.isSome && seen = expected)).congr
      fun c => ?_
    dsimp only [run]
    split <;> rfl
  | skipTo stop => exact (observing_runSkip stop).bind _ fun _ => .pure true
  | nested opening closing => exact observing_runNested opening closing 0
  | advance => exact .advance true
  | markEnd => exact (Observing.ask .markEnd).bind _ fun _ => .pure true
  | peek => exact .byte fun _ => .pure true
  | peekChar => exact .char fun _ => .pure true
  | atEnd => exact .atEnd fun ended => .pure ended
  | notAtEnd => exact .atEnd fun ended => .pure (!ended)
  | fail => exact .pure false

theorem observing_runAll (probes : List Probe) :
    ∃ f : Cursor → Bool × Cursor, Observing f ∧ ∀ c log,
      ((runAll c log probes).1, (runAll c log probes).2.1) = f c := by
  induction probes with
  | nil => exact ⟨_, .pure true, fun _ _ => rfl⟩
  | cons probe probes ih =>
    obtain ⟨f, observing, same⟩ := ih
    refine ⟨_, (observing_run probe).bind
      (fun succeeded c => if succeeded then f c else (false, c))
      (fun succeeded => ?_), fun c log => ?_⟩
    · cases succeeded with
      | true => exact observing
      | false => exact .pure false
    · rw [runAll]
      dsimp only
      split
      · exact same _ _
      · rfl

end Probe

namespace Script

theorem observing_runAttempts (wanted : SymbolSet) (attempts : List Attempt) :
    ∃ f : Cursor → Option Symbol × Cursor, Observing f ∧ ∀ c log,
      ((runAttempts wanted c log attempts).1, (runAttempts wanted c log attempts).2.1) = f c := by
  induction attempts with
  | nil => exact ⟨_, .pure none, fun _ _ => rfl⟩
  | cons attempt attempts ih =>
    obtain ⟨later, observing, same⟩ := ih
    cases symbol : attempt.symbol with
    | none => exact ⟨_, .pure none, fun c log => by rw [runAttempts, symbol]⟩
    | some s =>
      by_cases tried : (attempt.unconditional || wanted.contains s) = true
      · obtain ⟨f, probing, probed⟩ := Probe.observing_runAll attempt.probes
        refine ⟨_, probing.bind
          (fun succeeded c => if succeeded then (some s, c) else later c)
          (fun succeeded => ?_), fun c log => ?_⟩
        · cases succeeded with
          | true => exact .pure _
          | false => exact observing
        · have outcome := probed c log
          rw [runAttempts, symbol, ← outcome]
          dsimp only
          rw [if_pos tried]
          split
          · rfl
          · exact same _ _
      · refine ⟨later, observing, fun c log => ?_⟩
        rw [runAttempts, symbol]
        dsimp only
        rw [if_neg tried]
        exact same c log

end Script

/-- A scanner that learns of a text only from the cursor it is given at the start of a token. -/
def Scanner.Observes (s : Scanner) : Prop :=
  ∀ wanted, ∃ f : Cursor → Option Symbol × Cursor, Observing f ∧
    ∀ text offset, offset ≤ text.size →
      ((s.scan (.atOffset text offset) wanted).symbol,
        (s.scan (.atOffset text offset) wanted).cursor) = f (.atOffset text offset)

/-- A scanner that is written down learns from the cursor only. -/
theorem Script.observes (script : Script) : script.toScanner.Observes := by
  intro wanted
  obtain ⟨f, observing, same⟩ := observing_runAttempts wanted script.attempts
  exact ⟨f, observing, fun text offset _ => same _ _⟩

/-! ## Tokens -/

namespace Language

variable {l : Language} {text text' : Text} {start start' : Nat} {valid : SymbolSet} {mode : Nat}

/-- What was looked at before the patterns are tried is on the record of their token. -/
theorem le_reach_patternToken (l : Language) (text : Text) (start examined : Nat)
    (valid : SymbolSet) (mode : Nat) :
    examined ≤ (l.patternToken text start examined valid mode).span.stop +
      (l.patternToken text start examined valid mode).lookahead := by
  rw [patternToken]
  split
  · rw [reach_tokenOf]
    exact Nat.le_max_right _ _
  · dsimp only
    split
    · rw [reach_tokenOf]
      omega
    · split
      · rw [reach_tokenOf]
        omega
      · have := le_skipUnknown l text start (max examined (l.matcher.scan text start).examined)
        rw [reach_tokenOf]
        omega

theorem consultScanner_eq_none {start' : Nat} (h : l.consultScanner text start valid = none)
    (text' : Text) : l.consultScanner text' start' valid = none := by
  rw [consultScanner] at h ⊢
  split at h
  · rfl
  · split at h
    · cases h
    · next unwanted => exact if_neg unwanted

theorem consultScanner_eq_some {report : ScanReport} :
    l.consultScanner text start valid = some report ↔ ∃ s, l.scanner = some s ∧
      l.tables.externalTokens.any valid.contains = true ∧
      s.scan (Cursor.atOffset text (min start text.size)) valid = report := by
  rw [consultScanner]
  split
  · next unaided => simp [unaided]
  · next s scanner => simp [scanner]

/-- A report is at the place asked for, and it is the same in a text that agrees with all that was
looked at and one place more. -/
theorem report_moved (observes : ∀ s, l.scanner = some s → s.Observes) (inside : start ≤ text.size)
    {report : ScanReport} (h : l.consultScanner text start valid = some report) :
    report.cursor.Sound ∧ (Cursor.atOffset text start).Precedes report.cursor ∧
      ∀ {text' : Text} {start' : Nat}, start' ≤ text'.size →
        Text.Agree text start text' start' (report.cursor.examined + 1) →
        ∃ report', l.consultScanner text' start' valid = some report' ∧
          report'.symbol = report.symbol ∧ report'.cursor = report.cursor.moved text' start' ∧
          report'.cursor.Sound := by
  obtain ⟨s, scanner, wanted, rfl⟩ := consultScanner_eq_some.mp h
  rw [Nat.min_eq_left inside]
  obtain ⟨f, observing, same⟩ := observes s scanner valid
  have begun := Cursor.sound_atOffset inside
  obtain ⟨symbol, cursor⟩ := Prod.mk.inj (same text start inside)
  obtain ⟨sound, precedes⟩ := observing.sound begun
  refine ⟨cursor ▸ sound, cursor ▸ precedes, fun {text' start'} inside' agree => ?_⟩
  refine ⟨_, consultScanner_eq_some.mpr ⟨s, scanner, wanted, rfl⟩, ?_⟩
  rw [Nat.min_eq_left inside']
  have carried := observing.moved begun inside' (cursor ▸ agree)
  rw [Cursor.moved_atOffset] at carried
  obtain ⟨symbol', cursor'⟩ := Prod.mk.inj ((same text' start' inside').trans carried)
  refine ⟨symbol'.trans symbol.symm, cursor ▸ cursor', ?_⟩
  have sound' := (observing.sound (Cursor.sound_atOffset inside')).1
  rwa [← same text' start' inside'] at sound'

theorem nextTokenIn_of_none (inside : start ≤ text.size)
    (h : l.consultScanner text start valid = none) :
    l.nextTokenIn text start valid mode = l.patternToken text start (start + 1) valid mode := by
  rw [nextTokenIn, Nat.min_eq_left inside, h]

theorem nextTokenIn_of_taken (inside : start ≤ text.size) {report : ScanReport}
    (h : l.consultScanner text start valid = some report) {s : Symbol}
    (symbol : report.symbol = some s) (taken : (l.isExternal s && valid.contains s) = true) :
    l.nextTokenIn text start valid mode =
      tokenOf text s start (min (max report.cursor.tokenEnd start) text.size)
        (max (start + 1) report.cursor.examined) mode false := by
  rw [nextTokenIn, Nat.min_eq_left inside, h]
  dsimp only
  rw [symbol]
  exact if_pos taken

theorem nextTokenIn_of_declined (inside : start ≤ text.size) {report : ScanReport}
    (h : l.consultScanner text start valid = some report)
    (declined : ∀ s, report.symbol = some s → (l.isExternal s && valid.contains s) ≠ true) :
    l.nextTokenIn text start valid mode =
      l.patternToken text start (max (start + 1) report.cursor.examined) valid mode := by
  rw [nextTokenIn, Nat.min_eq_left inside, h]
  dsimp only
  split
  · next s symbol => exact if_neg (declined s symbol)
  · rfl

/-- A token that a scanner was asked for first, whether or not it found it. -/
theorem nextTokenIn_reported (observes : ∀ s, l.scanner = some s → s.Observes)
    (inside : start ≤ text.size) (inside' : start' ≤ text'.size) {report : ScanReport}
    (consulted : l.consultScanner text start valid = some report)
    (agree : Text.Agree text start text' start'
      ((l.nextTokenIn text start valid mode).span.stop +
        (l.nextTokenIn text start valid mode).lookahead + 1)) :
    l.nextTokenIn text' start' valid mode =
      (l.nextTokenIn text start valid mode).moved start start' := by
  obtain ⟨sound, precedes, carried⟩ := report_moved observes inside consulted
  have origin : report.cursor.start = start := precedes.start
  have begun : start ≤ report.cursor.examined := Nat.le_succ_of_le precedes.furthest
  have examined : (report.cursor.moved text' start').examined = _ := Cursor.examined_moved sound
  have reach : max (start' + 1) (start' + (report.cursor.examined - report.cursor.start)) =
      start' + (max (start + 1) report.cursor.examined - start) := by omega
  by_cases taken : ∃ s, report.symbol = some s ∧ (l.isExternal s && valid.contains s) = true
  · obtain ⟨s, symbol, taken⟩ := taken
    rw [nextTokenIn_of_taken inside consulted symbol taken] at agree ⊢
    rw [reach_tokenOf] at agree
    obtain ⟨report', consulted', symbol', cursor', sound'⟩ :=
      carried inside' (agree.mono (by omega))
    obtain ⟨after, ends⟩ := Cursor.tokenEnd_bounds sound
    have text_eq : report.cursor.text = text := precedes.text
    rw [origin] at after
    rw [text_eq] at ends
    have ends' := (Cursor.tokenEnd_bounds sound').2
    rw [cursor', Cursor.tokenEnd_moved] at ends'
    replace ends' : start' + (report.cursor.tokenEnd - report.cursor.start) ≤ text'.size := ends'
    have stop : min (max (start' + (report.cursor.tokenEnd - report.cursor.start)) start')
        text'.size = start' + (min (max report.cursor.tokenEnd start) text.size - start) := by
      omega
    rw [nextTokenIn_of_taken inside' consulted' (symbol'.trans symbol) taken, cursor',
      Cursor.tokenEnd_moved, examined, reach, stop]
    exact tokenOf_moved s mode false (by omega) (Nat.min_le_right _ _) (by omega) agree
  · have declined : ∀ s, report.symbol = some s →
        (l.isExternal s && valid.contains s) ≠ true := fun s symbol h => taken ⟨s, symbol, h⟩
    rw [nextTokenIn_of_declined inside consulted declined] at agree ⊢
    have recorded := le_reach_patternToken l text start
      (max (start + 1) report.cursor.examined) valid mode
    obtain ⟨report', consulted', symbol', cursor', -⟩ := carried inside' (agree.mono (by omega))
    rw [nextTokenIn_of_declined inside' consulted' (symbol' ▸ declined), cursor', examined, reach]
    exact patternToken_moved inside inside' (by omega) agree

/-- Lexing is local, with a scanner as without one. -/
theorem nextTokenIn_carried (observes : ∀ s, l.scanner = some s → s.Observes)
    (inside : start ≤ text.size) (inside' : start' ≤ text'.size)
    (agree : Text.Agree text start text' start'
      ((l.nextTokenIn text start valid mode).span.stop +
        (l.nextTokenIn text start valid mode).lookahead + 1)) :
    l.nextTokenIn text' start' valid mode =
        (l.nextTokenIn text start valid mode).moved start start' ∧
      (l.nextTokenIn text start valid mode).span.start = start ∧
      start ≤ (l.nextTokenIn text start valid mode).span.stop := by
  have placed := l.placed_nextTokenIn text start valid mode
  rw [Nat.min_eq_left inside] at placed
  refine ⟨?_, placed.start, placed.le_stop⟩
  cases consulted : l.consultScanner text start valid with
  | none =>
    rw [nextTokenIn_of_none inside consulted] at agree ⊢
    rw [nextTokenIn_of_none inside' (consultScanner_eq_none consulted text'),
      show start' + 1 = start' + (start + 1 - start) by omega]
    exact patternToken_moved inside inside' (Nat.le_succ start) agree
  | some report => exact nextTokenIn_reported observes inside inside' consulted agree

/-- Tables of a language whose one sentence is a remark, which a scanner has to find, or an `x`. -/
def remarkTables : Tables where
  name := "remark"
  symbols := #[⟨"end", true, false, false, false⟩, ⟨"ERROR", true, true, true, false⟩,
    ⟨"x", true, false, true, false⟩, ⟨"remark", true, true, true, false⟩,
    ⟨"s", false, true, true, false⟩]
  productions := #[⟨4, 1, 0, .neither, 0⟩, ⟨4, 1, 0, .neither, 0⟩]
  states := #[⟨[(2, [.shift 1]), (3, [.shift 2])], [(4, 3)], 0⟩, ⟨[(0, [.reduce 0])], [], 1⟩,
    ⟨[(0, [.reduce 1])], [], 1⟩, ⟨[(0, [.accept])], [], 1⟩]
  lexModes := #[[2, 3], []]
  tokens := [⟨2, .literal "x"⟩]
  extras := []
  wordToken := none
  externalTokens := [3]
  startSymbol := 4

/-- The language loaded from these tables. -/
def remarkPatterns : Language where
  version := 14
  tables := remarkTables
  matcher := ⟨[⟨2, true, .chars ⟨[(120, 120)]⟩⟩]⟩
  validSets := #[⟨#[false, false, true, true, false]⟩, ⟨#[false, false, false, false, false]⟩]
  recoveryTerminals := ⟨#[false, false, true, true, false]⟩
  extras := ⟨#[false, false, false, false, false]⟩
  keywords := ⟨#[false, false, false, false, false]⟩
  externals := ⟨#[false, false, false, true, false]⟩
  scanner := none

theorem remarkTables_load : ofTables remarkTables = .ok remarkPatterns := by
  have matcher : Matcher.ofTokens remarkTables.tokens (nameIn remarkTables) =
      .ok remarkPatterns.matcher := by cbv
  exact ofTables_eq_ok.mpr ⟨by decide +kernel, prepare_eq_ok.mpr ⟨_, matcher, by cbv⟩⟩

/-- A remark is a line behind a semicolon, or stands between brackets and may hold others. -/
def remarkScript : Script where
  cancelFrom := none
  attempts := [⟨some 3, false, [.byte (some 59), .skipTo (some 10), .notAtEnd]⟩,
    ⟨some 3, false, [.nested (some 40) (some 41), .markEnd, .peekChar]⟩]

/-- A remark in brackets is the same wherever they stand. -/
theorem remark_carried :
    let l := remarkPatterns.withScanner remarkScript.toScanner
    let brackets : Text := #[40, 40, 41, 41, 120, 120]
    let further : Text := #[120, 40, 40, 41, 41, 120, 120, 59]
    ofTables remarkTables = .ok remarkPatterns ∧
      l.nextToken brackets 0 0 = ⟨3, ⟨0, 4⟩, ⟨0, 4⟩, 1, 0, false⟩ ∧
      Text.Agree brackets 0 further 1 (4 + 1 + 1) ∧
      l.nextToken further 1 0 = ⟨3, ⟨1, 5⟩, ⟨0, 4⟩, 1, 0, false⟩ := by
  intro l brackets further
  have read : l.nextToken brackets 0 0 = ⟨3, ⟨0, 4⟩, ⟨0, 4⟩, 1, 0, false⟩ := by cbv
  have agree : Text.Agree brackets 0 further 1 (4 + 1 + 1) := by
    intro k hk
    have alike : ∀ k < 6, further[1 + k]? = brackets[0 + k]? := by decide
    exact alike k (by omega)
  have observes : ∀ s, l.scanner = some s → s.Observes := by
    rintro s ⟨⟩
    exact remarkScript.observes
  have carried : l.nextToken further 1 0 = (l.nextToken brackets 0 0).moved 0 1 :=
    (nextTokenIn_carried observes (by decide) (by decide)
      (by rw [← nextToken, read]; exact agree)).1
  rw [read] at carried
  exact ⟨remarkTables_load, read, agree, carried⟩

end Language

end Glr
