import Glr.Proofs.Written
import Glr.Tables.Payload

/-!
# Tables read as they were written

`Tables.toJson` and `Tables.ofJson?` are two lists of the same fields, and a table survives only if
they agree on each of them: on the name, on how the value is laid out, and on the word a number is
kept in.  Records are compared through one lemma, `fields?_record`: an object whose names are all
different gives its values in the order of those names.

Numbers are unbounded here and words in the payload.  `Tables.Fits` says that every number of the
tables is one that its word can hold; there is nothing else that tables could lose.
-/

namespace Glr

/-! ## Numbers that fit their words -/

/-- A number of sixteen bits. -/
def IdFits (n : Nat) : Prop := n ≤ 65535

/-- A number of thirty-two bits with a sign. -/
def LevelFits (n : Int) : Prop := -2147483648 ≤ n ∧ n ≤ 2147483647

instance (n : Nat) : Decidable (IdFits n) := inferInstanceAs (Decidable (_ ≤ _))

instance (n : Int) : Decidable (LevelFits n) := inferInstanceAs (Decidable (_ ∧ _))

def Production.Fits (p : Production) : Prop :=
  IdFits p.lhs ∧ IdFits p.length ∧ LevelFits p.precedence ∧ LevelFits p.dynamicPrecedence

def Action.Fits : Action → Prop
  | shift s => IdFits s
  | reduce p => IdFits p
  | accept => True

def StateRow.Fits (row : StateRow) : Prop :=
  (∀ cell ∈ row.actions, IdFits cell.1 ∧ ∀ a ∈ cell.2, a.Fits) ∧
  (∀ cell ∈ row.gotos, IdFits cell.1 ∧ IdFits cell.2) ∧ IdFits row.lexMode

instance (p : Production) : Decidable p.Fits := inferInstanceAs (Decidable (_ ∧ _))

instance (a : Action) : Decidable a.Fits :=
  match a with
  | .shift s => inferInstanceAs (Decidable (IdFits s))
  | .reduce p => inferInstanceAs (Decidable (IdFits p))
  | .accept => .isTrue trivial

instance (row : StateRow) : Decidable row.Fits := inferInstanceAs (Decidable (_ ∧ _))

/-- Every number of the tables fits its word. -/
structure Tables.Fits (t : Tables) : Prop where
  productions : ∀ p ∈ t.productions.toList, p.Fits
  states : ∀ row ∈ t.states.toList, row.Fits
  lexModes : ∀ valid ∈ t.lexModes.toList, ∀ s ∈ valid, IdFits s
  tokens : ∀ d ∈ t.tokens, IdFits d.symbol
  extras : ∀ s ∈ t.extras, IdFits s
  word : ∀ s ∈ t.wordToken, IdFits s
  externals : ∀ s ∈ t.externalTokens, IdFits s
  start : IdFits t.startSymbol

namespace Json

/-! ## Records -/

theorem mapM_map_eq_some {α β γ : Type} {items : List α} {write : α → β} {read : β → Option γ}
    {value : α → γ} (h : ∀ x ∈ items, read (write x) = some (value x)) :
    (items.map write).mapM read = some (items.map value) := by
  induction items with
  | nil => rfl
  | cons x xs ih =>
    rw [List.map_cons, List.mapM_cons, h x List.mem_cons_self,
      ih fun y hy => h y (List.mem_cons_of_mem _ hy)]
    rfl

/-- A name that no other field has finds its own field alone. -/
theorem filter_key {fields : List (String × Json)} (distinct : (fields.map (·.1)).Nodup)
    {f : String × Json} (h : f ∈ fields) :
    (fields.map fun (key, value) => (some key, value)).filter (fun (key, _) => key == some f.1)
      = [(some f.1, f.2)] := by
  induction fields with
  | nil => cases h
  | cons g gs ih =>
    obtain ⟨fresh, distinct⟩ := List.nodup_cons.mp distinct
    rcases List.mem_cons.mp h with rfl | h
    · have none : (gs.map fun (key, value) => (some key, value)).filter
          (fun (key, _) => key == some f.1) = [] := by
        rw [List.filter_eq_nil_iff]
        rintro ⟨key, v⟩ hkey same
        obtain ⟨g, hg, rfl, rfl⟩ : ∃ g ∈ gs, some g.1 = key ∧ g.2 = v := by simpa using hkey
        exact fresh (List.mem_map.mpr ⟨g, hg, by simpa using same⟩)
      simp [none]
    · have other : g.1 ≠ f.1 := fun same => fresh (List.mem_map.mpr ⟨f, h, same.symm⟩)
      simp [other, ih distinct h]

/-- A record gives the values of its fields in the order of their names. -/
theorem fields?_record {fields : List (String × Json)} {names : List String}
    (same : fields.map (·.1) = names) (distinct : names.Nodup) :
    (record fields).fields? names = some (fields.map fun f => some f.2) := by
  subst same
  rw [record, fields?, if_neg (by simp)]
  refine mapM_map_eq_some fun f hf => ?_
  rw [filter_key distinct hf]

theorem plain_record {fields : List (String × Json)} (h : ∀ f ∈ fields, Plain f.2) :
    Plain (record fields) := by
  refine .obj ?_ ?_
  · intro f hf
    obtain ⟨g, -, rfl⟩ := List.mem_map.mp hf
    rfl
  · intro f hf
    obtain ⟨g, hg, rfl⟩ := List.mem_map.mp hf
    exact h g hg

theorem plain_arr_map {α : Type} {items : List α} {write : α → Json}
    (h : ∀ x ∈ items, Plain (write x)) : Plain (arr (items.map write)) := by
  refine .arr fun v hv => ?_
  obtain ⟨x, hx, rfl⟩ := List.mem_map.mp hv
  exact h x hx

/-! ## Single values -/

theorem toId?_ofNat {n : Nat} (h : IdFits n) : (ofNat n).toId? = some n := by
  have : (n : Int) ≤ 65535 := Int.ofNat_le.mpr h
  simp [ofNat, toId?, this]

theorem toLevel?_int {n : Int} (h : LevelFits n) : (int n).toLevel? = some n := by
  simp [toLevel?, h.1, h.2]

theorem toList?_arr_map {α : Type} {write : α → Json} (read : Json → Option α) (items : List α)
    (h : ∀ x ∈ items, read (write x) = some x) :
    (arr (items.map write)).toList? read = some items := by
  rw [toList?, mapM_map_eq_some (show ∀ x ∈ items, read (write x) = some (id x) from h),
    List.map_id]

end Json

open Json

theorem SymbolInfo.ofJson?_toJson (i : SymbolInfo) : ofJson? i.toJson = some i := by
  rw [ofJson?, toJson, fields?_record (by rfl) (by decide)]
  rfl

theorem Assoc.ofJson?_name (a : Assoc) : ofJson? (.ofString a.name) = some a := by
  cases a <;> rfl

theorem Production.ofJson?_toJson {p : Production} (h : p.Fits) : ofJson? p.toJson = some p := by
  obtain ⟨lhs, length, precedence, dynamic⟩ := h
  rw [ofJson?, toJson, fields?_record (by rfl) (by decide)]
  simp [toId?_ofNat lhs, toId?_ofNat length, orDefault, toLevel?_int precedence,
    toLevel?_int dynamic, Assoc.ofJson?_name]

theorem Action.ofJson?_toJson {a : Action} (h : a.Fits) : ofJson? a.toJson = some a := by
  cases a with
  | shift s =>
    change (ofNat s).toId?.bind (fun s => some (shift s)) = _
    rw [toId?_ofNat h]
    rfl
  | reduce p =>
    change (ofNat p).toId?.bind (fun p => some (reduce p)) = _
    rw [toId?_ofNat h]
    rfl
  | accept => rfl

theorem StateRow.ofJson?_toJson {row : StateRow} (h : row.Fits) :
    ofJson? row.toJson = some row := by
  obtain ⟨actions, gotos, lexMode⟩ := h
  have readActions : (arr (row.actions.map fun cell =>
      arr [ofNat cell.1, arr (cell.2.map Action.toJson)])).toList?
        (toPair? toId? (toList? Action.ofJson?)) = some row.actions := by
    refine toList?_arr_map _ _ fun cell hcell => ?_
    have := toList?_arr_map Action.ofJson? cell.2
      fun a ha => Action.ofJson?_toJson ((actions cell hcell).2 a ha)
    simp [toPair?, toId?_ofNat (actions cell hcell).1, this]
  have readGotos : (arr (row.gotos.map fun cell => arr [ofNat cell.1, ofNat cell.2])).toList?
      (toPair? toId? toId?) = some row.gotos := by
    refine toList?_arr_map _ _ fun cell hcell => ?_
    simp [toPair?, toId?_ofNat (gotos cell hcell).1, toId?_ofNat (gotos cell hcell).2]
  rw [ofJson?, toJson, fields?_record (by rfl) (by decide)]
  simp [readActions, readGotos, toId?_ofNat lexMode]

theorem TokenDef.ofJson?_toJson {d : TokenDef} (h : IdFits d.symbol) :
    ofJson? d.toJson = some d := by
  obtain ⟨symbol, pattern⟩ := d
  rw [ofJson?, toJson, fields?_record (by rfl) (by decide)]
  cases pattern <;> simp [toId?_ofNat h, patternOfJson?, toTagged?, record, toString?, ofString]

namespace Tables

theorem toList?_ids {ids : List Nat} (h : ∀ s ∈ ids, IdFits s) :
    (arr (ids.map ofNat)).toList? toId? = some ids :=
  toList?_arr_map _ _ fun s hs => toId?_ofNat (h s hs)

theorem lexModeOfJson?_valid {valid : List Symbol} (h : ∀ s ∈ valid, IdFits s) :
    lexModeOfJson? (record [("valid", arr (valid.map ofNat))]) = some valid := by
  rw [lexModeOfJson?, fields?_record (by rfl) (by decide)]
  exact toList?_ids h

theorem wordOfJson?_word {word : Option Symbol} (h : ∀ s ∈ word, IdFits s) :
    wordOfJson? ((word.map ofNat).getD null) = some word := by
  cases word with
  | none => rfl
  | some s =>
    change (ofNat s).toId?.map some = _
    rw [toId?_ofNat (h s rfl)]
    rfl

theorem ofJson?_toJson {t : Tables} (h : t.Fits) : ofJson? t.toJson = some t := by
  have symbols := toList?_arr_map SymbolInfo.ofJson? t.symbols.toList
    fun i _ => i.ofJson?_toJson
  have productions := toList?_arr_map Production.ofJson? t.productions.toList
    fun p hp => Production.ofJson?_toJson (h.productions p hp)
  have states := toList?_arr_map StateRow.ofJson? t.states.toList
    fun row hrow => StateRow.ofJson?_toJson (h.states row hrow)
  have lexModes := toList?_arr_map lexModeOfJson? t.lexModes.toList
    fun valid hvalid => lexModeOfJson?_valid (h.lexModes valid hvalid)
  have tokens := toList?_arr_map TokenDef.ofJson? t.tokens
    fun d hd => TokenDef.ofJson?_toJson (h.tokens d hd)
  rw [ofJson?, toJson, fields?_record (by rfl) (by decide)]
  simp [symbols, productions, states, lexModes, tokens, toList?_ids h.extras,
    toList?_ids h.externals, wordOfJson?_word h.word, toId?_ofNat h.start, orDefault, ofString,
    toString?]

end Tables

/-! ## Nothing in the payload is beyond reading -/

theorem SymbolInfo.plain_toJson (i : SymbolInfo) : Plain i.toJson := by
  refine plain_record ?_
  simp only [List.forall_mem_cons]
  exact ⟨.str _, .bool _, .bool _, .bool _, .bool _, by simp⟩

theorem Production.plain_toJson (p : Production) : Plain p.toJson := by
  refine plain_record ?_
  simp only [List.forall_mem_cons]
  exact ⟨.int _, .int _, .int _, .str _, .int _, by simp⟩

theorem Action.plain_toJson (a : Action) : Plain a.toJson := by
  cases a with
  | shift s => exact plain_record (by simpa using .int s)
  | reduce p => exact plain_record (by simpa using .int p)
  | accept => exact .str _

theorem plain_pair {v w : Json} (hv : Plain v) (hw : Plain w) : Plain (arr [v, w]) := by
  refine .arr ?_
  simp only [List.forall_mem_cons]
  exact ⟨hv, hw, by simp⟩

theorem StateRow.plain_toJson (row : StateRow) : Plain row.toJson := by
  refine plain_record ?_
  simp only [List.forall_mem_cons]
  refine ⟨plain_arr_map fun cell _ => ?_, plain_arr_map fun cell _ => ?_, .int _, by simp⟩
  · exact plain_pair (.int _) (plain_arr_map fun a _ => a.plain_toJson)
  · exact plain_pair (.int _) (.int _)

theorem TokenDef.plain_toJson (d : TokenDef) : Plain d.toJson := by
  obtain ⟨symbol, pattern⟩ := d
  refine plain_record ?_
  simp only [List.forall_mem_cons]
  refine ⟨.int _, ?_, by simp⟩
  cases pattern with
  | literal text => exact plain_record (by simpa using .str text)
  | regex source => exact plain_record (by simpa using .str source)

namespace Tables

theorem plain_ids (ids : List Nat) : Plain (arr (ids.map ofNat)) :=
  plain_arr_map fun s _ => .int s

theorem plain_toJson (t : Tables) : Plain t.toJson := by
  have word : Plain ((t.wordToken.map ofNat).getD null) := by
    cases t.wordToken with
    | none => exact .null
    | some s => exact .int s
  refine plain_record ?_
  simp only [List.forall_mem_cons]
  exact ⟨.str _, plain_arr_map fun i _ => i.plain_toJson, plain_arr_map fun p _ => p.plain_toJson,
    plain_arr_map fun row _ => row.plain_toJson,
    plain_arr_map fun valid _ => plain_record (by simpa using plain_ids valid),
    plain_arr_map fun d _ => d.plain_toJson, plain_ids _, word, plain_ids _, .int _, by simp⟩

/-- The payload of tables holds those tables. -/
theorem ofPayload?_payload {t : Tables} (h : t.Fits) : ofPayload? t.payload = some t := by
  rw [ofPayload?, payload, read?_render (plain_toJson t)]
  exact ofJson?_toJson h

end Tables

end Glr
