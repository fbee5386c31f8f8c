import Glr.Proofs.Recognition

/-!
# Runs and their ranks

Where the tables leave a choice, a run of the machine is ranked by what it chose: by the dynamic
precedence of all its reductions, where more is better, and then by the places that its actions have
in cells with several, where less is better.  A `Course` is a reading that carries both sums along,
and `Weighs` is the step of the machine with its share in them (`reads_iff`).

Only a shift takes something off the text.  So a run comes apart into what it does on one terminal
after the other: reductions, and then the shift (`exists_arrives`).  What comes behind the terminal
ahead is of no account before that is shifted.
-/

namespace Glr

/-- A reading with what it is ranked by. -/
structure Course extends Reading where
  /-- The dynamic precedence of the reductions so far. -/
  gain : Int
  /-- The places of the actions so far that were taken from a cell with several. -/
  detours : Nat

/-- Before a text. -/
def Course.start (w : List Symbol) : Course := ⟨⟨[0], [], w⟩, 0, 0⟩

/-! ## What a derivation yields -/

namespace Skeleton

mutual

def yield : Skeleton → List Symbol
  | token s => [s]
  | node _ below => yields below

def yields : List Skeleton → List Symbol
  | [] => []
  | t :: ts => t.yield ++ yields ts

end

theorem yields_append (ts us : List Skeleton) : yields (ts ++ us) = yields ts ++ yields us := by
  induction ts with
  | nil => rw [List.nil_append, yields, List.nil_append]
  | cons t ts ih => rw [List.cons_append, yields, yields, ih, List.append_assoc]

theorem yields_singleton (t : Skeleton) : yields [t] = t.yield := by
  rw [yields, yields, List.append_nil]

end Skeleton

theorem FlatGrammar.Forest.yields_eq {g : FlatGrammar} {ss w : List Symbol} {ts : List Skeleton}
    (forest : g.Forest ss ts w) : Skeleton.yields ts = w := by
  induction forest with
  | nil => rw [Skeleton.yields]
  | token isTerminal rest ih =>
    rw [Skeleton.yields, Skeleton.yield, ih]
    rfl
  | node found body rest ihBody ih => rw [Skeleton.yields, Skeleton.yield, ihBody, ih]

namespace Tables

variable {t : Tables}

/-- What an action at an index of a cell counts for. -/
def detour (t : Tables) (i : StateId) (s : Symbol) (index : Nat) : Nat :=
  if (t.actions i s).length > 1 then index else 0

/-- A step of the machine with its rank. -/
inductive Weighs (t : Tables) : Course → Course → Prop where
  | shift {i j : StateId} {stack : List StateId} {trees : List Skeleton} {s : Symbol}
      {rest : List Symbol} {gain : Int} {detours index : Nat}
      (action : (t.actions i s)[index]? = some (.shift j)) :
      Weighs t ⟨⟨i :: stack, trees, s :: rest⟩, gain, detours⟩
        ⟨⟨j :: i :: stack, .token s :: trees, rest⟩, gain, detours + t.detour i s index⟩
  | reduce {i j k : StateId} {stack below : List StateId} {trees : List Skeleton}
      {rest : List Symbol} {gain : Int} {detours index : Nat} {p : ProductionId}
      {production : Production}
      (action : (t.actions i (rest.headD Symbol.endOfText))[index]? = some (.reduce p))
      (found : t.productions[p]? = some production)
      (uncovered : (i :: stack).drop production.length = k :: below)
      (goto : t.goto? k production.lhs = some j) :
      Weighs t ⟨⟨i :: stack, trees, rest⟩, gain, detours⟩
        ⟨⟨j :: k :: below,
          .node p (trees.take production.length).reverse :: trees.drop production.length, rest⟩,
          gain + production.dynamicPrecedence,
          detours + t.detour i (rest.headD Symbol.endOfText) index⟩

/-- Ranks leave the machine as it is. -/
theorem reads_iff {r r' : Reading} {gain : Int} {detours : Nat} :
    t.Reads r r' ↔ ∃ gain' detours', t.Weighs ⟨r, gain, detours⟩ ⟨r', gain', detours'⟩ := by
  constructor
  · intro step
    cases step with
    | shift action =>
      obtain ⟨index, action⟩ := List.mem_iff_getElem?.mp action
      exact ⟨_, _, .shift action⟩
    | reduce action found uncovered goto =>
      obtain ⟨index, action⟩ := List.mem_iff_getElem?.mp action
      exact ⟨_, _, .reduce action found uncovered goto⟩
  · rintro ⟨gain', detours', step⟩
    cases step with
    | shift action => exact .shift (List.mem_of_getElem? action)
    | reduce action found uncovered goto =>
      exact .reduce (List.mem_of_getElem? action) found uncovered goto

/-- A run over a text that accepts: what it builds, and its rank. -/
def AcceptsWith (t : Tables) (w : List Symbol) (trees : List Skeleton) (gain : Int)
    (detours : Nat) : Prop :=
  ∃ i stack before index,
    Relation.ReflTransGen t.Weighs (.start w) ⟨⟨i :: stack, trees, []⟩, gain, before⟩ ∧
      (t.actions i Symbol.endOfText)[index]? = some .accept ∧
      detours = before + t.detour i Symbol.endOfText index

/-! ## What was read and what remains -/

/-- What the trees yield and what remains are one text. -/
theorem Reads.yields_eq {r r' : Reading} (step : t.Reads r r') :
    Skeleton.yields r'.trees.reverse ++ r'.rest = Skeleton.yields r.trees.reverse ++ r.rest := by
  cases step with
  | shift action =>
    rw [List.reverse_cons, Skeleton.yields_append, Skeleton.yields_singleton, Skeleton.yield,
      List.append_assoc]
    rfl
  | @reduce _ _ _ _ _ trees _ _ production action found uncovered goto =>
    dsimp only
    rw [List.reverse_cons, Skeleton.yields_append, Skeleton.yields_singleton, Skeleton.yield,
      ← Skeleton.yields_append, ← List.reverse_append, List.take_append_drop]

theorem yields_of_run {c d : Course} (run : Relation.ReflTransGen t.Weighs c d) :
    Skeleton.yields d.trees.reverse ++ d.rest = Skeleton.yields c.trees.reverse ++ c.rest := by
  induction run with
  | refl => rfl
  | tail _ step ih => exact (Reads.yields_eq (reads_iff.mpr ⟨_, _, step⟩)).trans ih

/-- What a run over a text builds yields the text. -/
theorem AcceptsWith.yields_eq {w : List Symbol} {trees : List Skeleton} {gain : Int}
    {detours : Nat} (h : t.AcceptsWith w trees gain detours) :
    Skeleton.yields trees.reverse = w := by
  obtain ⟨i, stack, before, index, run, -⟩ := h
  have same := yields_of_run run
  rw [List.append_nil] at same
  rw [same, Course.start, List.reverse_nil, Skeleton.yields, List.nil_append]

/-! ## One terminal after the other -/

/-- A reduction: the text stays. -/
def Folds (t : Tables) (c d : Course) : Prop := t.Weighs c d ∧ d.rest = c.rest

theorem Folds.rest_eq {c d : Course} (folds : Relation.ReflTransGen t.Folds c d) :
    d.rest = c.rest := by
  induction folds with
  | refl => rfl
  | tail _ step ih => exact step.2.trans ih

/-- Where runs are right behind some terminals, the latest first. -/
inductive Arrives (t : Tables) : List Symbol → Course → Prop where
  | start (w : List Symbol) : Arrives t [] (.start w)
  | shift {read : List Symbol} {c d e : Course} {s : Symbol} (before : Arrives t read c)
      (folds : Relation.ReflTransGen t.Folds c d) (step : t.Weighs d e)
      (taken : d.rest = s :: e.rest) : Arrives t (s :: read) e

/-- A run has come right behind what it has read, and has made reductions since. -/
theorem exists_arrives {w : List Symbol} {c : Course}
    (run : Relation.ReflTransGen t.Weighs (.start w) c) :
    ∃ read d, w = read.reverse ++ c.rest ∧ t.Arrives read d ∧
      Relation.ReflTransGen t.Folds d c := by
  induction run with
  | refl => exact ⟨[], _, rfl, .start w, .refl⟩
  | @tail c c' run step ih =>
    obtain ⟨read, d, text, arrives, folds⟩ := ih
    have rest : c'.rest = c.rest ∨ ∃ s, c.rest = s :: c'.rest := by
      cases step with
      | shift action => exact Or.inr ⟨_, rfl⟩
      | reduce action found uncovered goto => exact Or.inl rfl
    rcases rest with same | ⟨s, taken⟩
    · exact ⟨read, d, same ▸ text, arrives, folds.tail ⟨step, same⟩⟩
    · refine ⟨s :: read, c', ?_, .shift arrives folds step taken, .refl⟩
      rw [text, taken, List.reverse_cons, List.append_assoc]
      rfl

end Tables

end Glr
