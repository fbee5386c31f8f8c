import Glr.Proofs.Lowered
import Glr.Proofs.Meaning

/-!
# What the expansion of an expression adds to a draft

Expanding an expression adds a helper for each repetition in it, in the order in which they stand
there, and the productions of the helpers; nothing else of a draft changes (`Appends`).  So it is
known beforehand which symbol will be the helper of which repetition, and a legend can be laid down
for a draft that is not there yet (`Labels`).

With such a legend the expansion is what it should be: the alternatives are right sides of the
expression in any flat grammar that the draft ends up in, and every production that was added is
faithful to the legend (`alternatives_flattened`).
-/

namespace Glr

mutual

/-- What is repeated in an expression, in the order of the helpers. -/
def Expr.repeated : Expr → List Expr
  | .seq items => repeatedAll items
  | .choice items => repeatedAll items
  | .many item => item :: repeated item
  | .some item => item :: repeated item
  | .optional item => repeated item
  | .prec _ item => repeated item
  | .precLeft _ item => repeated item
  | .precRight _ item => repeated item
  | .precDynamic _ item => repeated item
  | .blank => []
  | .ref _ => []
  | .literal _ => []
  | .pattern _ => []
  | .token _ => []

/-- What is repeated in several expressions. -/
def Expr.repeatedAll : List Expr → List Expr
  | [] => []
  | e :: es => e.repeated ++ repeatedAll es

end

/-- Symbols from a number on are the helpers of some repetitions. -/
def Labels (legend : Symbol → Expr) (start : Nat) (items : List Expr) : Prop :=
  ∀ (i : Nat) (item : Expr), items[i]? = some item → legend (start + i) = .some item

namespace Labels

variable {legend : Symbol → Expr} {start : Nat} {item : Expr} {items more : List Expr}

theorem head (h : Labels legend start (item :: items)) : legend start = .some item :=
  h 0 item rfl

theorem tail (h : Labels legend start (item :: items)) : Labels legend (start + 1) items := by
  intro i e he
  rw [Nat.add_assoc, Nat.add_comm 1 i]
  exact h (i + 1) e he

theorem left (h : Labels legend start (items ++ more)) : Labels legend start items := by
  intro i e he
  refine h i e ?_
  rw [List.getElem?_append_left (List.getElem?_eq_some_iff.mp he).1]
  exact he

theorem right (h : Labels legend start (items ++ more)) :
    Labels legend (start + items.length) more := by
  intro i e he
  rw [Nat.add_assoc]
  refine h _ e ?_
  rw [List.getElem?_append_right (Nat.le_add_right _ _), Nat.add_sub_cancel_left]
  exact he

end Labels

namespace Draft

variable {d d' d'' : Draft} {s : Symbol}

/-- A draft with a number of helpers more, and some productions. -/
structure Appends (d d' : Draft) (count : Nat) : Prop where
  names : d'.names = d.names
  anonymous : d'.anonymous = d.anonymous
  tokens : d'.tokens = d.tokens
  symbols : ∃ infos : List SymbolInfo, infos.length = count ∧
    (∀ info ∈ infos, info.named = false ∧ info.terminal = false) ∧
    d'.symbols.toList = d.symbols.toList ++ infos
  room : d.symbols.size ≤ 65535 → d'.symbols.size ≤ 65535
  productions : ∀ p ∈ d.productions, p ∈ d'.productions

namespace Appends

theorem refl (d : Draft) : Appends d d 0 :=
  ⟨rfl, rfl, rfl, ⟨[], rfl, fun _ h => absurd h List.not_mem_nil, (List.append_nil _).symm⟩,
    id, fun _ h => h⟩

theorem trans {m n : Nat} (h : Appends d d' m) (h' : Appends d' d'' n) :
    Appends d d'' (m + n) := by
  obtain ⟨infos, rfl, helpers, symbols⟩ := h.symbols
  obtain ⟨infos', rfl, helpers', symbols'⟩ := h'.symbols
  refine ⟨h'.names.trans h.names, h'.anonymous.trans h.anonymous, h'.tokens.trans h.tokens,
    ⟨infos ++ infos', List.length_append, fun info mem => ?_, ?_⟩,
    fun room => h'.room (h.room room), fun p hp => h'.productions p (h.productions p hp)⟩
  · exact (List.mem_append.mp mem).elim (helpers info) (helpers' info)
  · rw [symbols', symbols, List.append_assoc]

theorem size {n : Nat} (h : Appends d d' n) : d'.symbols.size = d.symbols.size + n := by
  obtain ⟨infos, rfl, -, symbols⟩ := h.symbols
  rw [← Array.length_toList, symbols, List.length_append, Array.length_toList]

end Appends

/-- What a draft knows, a flat grammar with a legend has. -/
structure Within (d : Draft) (g : FlatGrammar) (legend : Symbol → Expr) : Prop where
  explains : Explains g legend
  names : ∀ name s, d.lookup? name = some s → g.Names s name
  anonymous : ∀ p s, d.anonymous.lookup p = some s →
    g.isTerminal s = true ∧ g.letter? s = some (.anonymous p)
  productions : ∀ p ∈ d.productions, p ∈ g.productions

theorem Within.of_appends {g : FlatGrammar} {legend : Symbol → Expr} {n : Nat}
    (within : Within d' g legend) (appends : Appends d d' n) : Within d g legend where
  explains := within.explains
  names name s h := within.names name s (by rwa [lookup?, appends.names])
  anonymous p s h := within.anonymous p s (by rwa [appends.anonymous])
  productions p hp := within.productions p (appends.productions p hp)

theorem addProductions_spec {lhs : Symbol} {as : List Alternative} :
    ∀ {d : Draft} {seen : List (List Symbol)}, d.addProductions lhs seen as = .ok d' →
      Appends d d' 0 ∧
        (∀ p ∈ d'.productions, p ∈ d.productions ∨ ∃ a ∈ as, p.lhs = lhs ∧ p.rhs = a.symbols) ∧
        ∀ a ∈ as, a.symbols ∈ seen ∨ ∃ p ∈ d'.productions, p.lhs = lhs ∧ p.rhs = a.symbols := by
  induction as with
  | nil =>
    intro d seen hd
    rw [addProductions] at hd
    cases hd
    exact ⟨.refl _, fun _ hp => Or.inl hp, fun _ ha => absurd ha List.not_mem_nil⟩
  | cons a as ih =>
    intro d seen hd
    rw [addProductions] at hd
    split at hd
    · next known =>
      obtain ⟨appends, new, all⟩ := ih hd
      refine ⟨appends, fun p hp => ?_, fun b hb => ?_⟩
      · rcases new p hp with old | ⟨b, hb, sides⟩
        · exact Or.inl old
        · exact Or.inr ⟨b, List.mem_cons_of_mem a hb, sides⟩
      · rcases List.mem_cons.mp hb with rfl | hb
        · exact Or.inl (List.contains_iff_mem.mp known)
        · exact all b hb
    · split at hd
      · cases hd
      · have pushed : Appends d
            { d with productions := d.productions.push (a.toProduction lhs) } 0 :=
          { Appends.refl d with productions := fun p hp => Array.mem_push_of_mem _ hp }
        obtain ⟨appends, new, all⟩ := ih hd
        have here : a.toProduction lhs ∈ d'.productions :=
          appends.productions _ Array.mem_push_self
        refine ⟨pushed.trans appends, fun p hp => ?_, fun b hb => ?_⟩
        · rcases new p hp with old | ⟨b, hb, sides⟩
          · rcases Array.mem_push.mp old with old | rfl
            · exact Or.inl old
            · exact Or.inr ⟨a, List.mem_cons_self, rfl, rfl⟩
          · exact Or.inr ⟨b, List.mem_cons_of_mem a hb, sides⟩
        · rcases List.mem_cons.mp hb with rfl | hb
          · exact Or.inr ⟨_, here, rfl, rfl⟩
          · rcases all b hb with mem | later
            · rcases List.mem_cons.mp mem with same | mem
              · exact Or.inr ⟨_, here, rfl, same.symm⟩
              · exact Or.inl mem
            · exact Or.inr later

theorem addHelper_appends {rule helper : Symbol} (hd : d.addHelper rule = .ok (helper, d')) :
    Appends d d' 1 ∧ helper = d.symbols.size ∧ d'.productions = d.productions := by
  rw [addHelper] at hd
  obtain ⟨t, ht, hd⟩ := of_bind_eq_ok hd
  cases hd
  refine ⟨⟨rfl, rfl, rfl, ⟨[_], rfl, fun info mem => ?_, Array.toList_push⟩, fun _ => ?_,
    fun _ h => h⟩, nextSymbol_eq ht, rfl⟩
  · rw [List.mem_singleton.mp mem]
    exact ⟨rfl, rfl⟩
  · rw [Array.size_push]
    exact nextSymbol_lt ht

/-! ## Alternatives -/

/-- The right sides of alternatives. -/
def rights (as : List Alternative) : List (List Symbol) := as.map (·.symbols)

theorem rights_product (as bs : List Alternative) :
    rights (Alternative.product as bs) = (rights as).flatMap fun a => (rights bs).map (a ++ ·) := by
  simp only [rights, Alternative.product, List.map_flatMap, List.flatMap_map, List.map_map]
  rfl

theorem rights_map (as : List Alternative) (f : Alternative → Alternative)
    (symbols : ∀ a, (f a).symbols = a.symbols) : rights (as.map f) = rights as := by
  rw [rights, List.map_map]
  exact List.map_congr_left fun a _ => symbols a

theorem bounded_eq {as bs : List Alternative} (h : bounded as = .ok bs) : bs = as := by
  rw [bounded] at h
  split at h
  · cases h
  · exact (Except.ok.inj h).symm

section

variable {G : Grammar} {g : FlatGrammar} {legend : Symbol → Expr}

/-- Every production that one draft has over another is faithful. -/
def AddsFaithful (G : Grammar) (legend : Symbol → Expr) (d d' : Draft) : Prop :=
  ∀ p ∈ d'.productions, p ∈ d.productions ∨ Faithful G legend p

theorem AddsFaithful.refl (d : Draft) : AddsFaithful G legend d d := fun _ h => Or.inl h

theorem AddsFaithful.trans (h : AddsFaithful G legend d d') (h' : AddsFaithful G legend d' d'') :
    AddsFaithful G legend d d'' := fun p hp => (h' p hp).elim (h p) Or.inr

/-- A repetition: the helper, the body, and the productions of the one over the other. -/
theorem repeat_flattened {rule helper : Symbol} {item : Expr}
    {body : List Alternative} {d₁ d₂ d₃ : Draft} (first : d.addHelper rule = .ok (helper, d₁))
    (second : Appends d₁ d₂ item.repeated.length ∧
      (Within d₂ g legend → Labels legend d₁.symbols.size item.repeated →
        Flattened g legend item (rights body) ∧ AddsFaithful G legend d₁ d₂))
    (third : d₂.addProductions helper [] (helperAlternatives helper body) = .ok d₃) :
    Appends d d₃ (item :: item.repeated).length ∧
      (Within d₃ g legend → Labels legend d.symbols.size (item :: item.repeated) →
        Flattened g legend item (rights body) ∧ Helps g legend helper item (rights body) ∧
          AddsFaithful G legend d d₃) := by
  obtain ⟨appends₁, number, same⟩ := addHelper_appends first
  obtain ⟨appends₂, expanded⟩ := second
  obtain ⟨appends₃, new, all⟩ := addProductions_spec third
  refine ⟨?_, fun within labels => ?_⟩
  · have := (appends₁.trans appends₂).trans appends₃
    rwa [Nat.add_comm 1, Nat.add_zero] at this
  · have later : Labels legend d₁.symbols.size item.repeated := by
      rw [appends₁.size]
      exact labels.tail
    obtain ⟨flattened, faithful⟩ := expanded (within.of_appends appends₃) later
    have helps : legend helper = .some item := number ▸ labels.head
    refine ⟨flattened, ⟨helps, ?_, ?_⟩, ?_⟩
    · intro b hb
      obtain ⟨a, ha, rfl⟩ := List.mem_map.mp hb
      rcases all a (List.mem_append_right _ ha) with absent | ⟨p, hp, sides⟩
      · exact absurd absent List.not_mem_nil
      · exact ⟨p, within.productions p hp, sides⟩
    · intro b hb
      obtain ⟨a, ha, rfl⟩ := List.mem_map.mp hb
      rcases all _ (List.mem_append_left _ (List.mem_map_of_mem ha)) with absent | ⟨p, hp, sides⟩
      · exact absurd absent List.not_mem_nil
      · exact ⟨p, within.productions p hp, sides⟩
    · have before : AddsFaithful G legend d d₂ := by
        intro p hp
        rw [← same]
        exact faithful p hp
      refine before.trans fun p hp => (new p hp).imp_right ?_
      rintro ⟨a, ha, lhs, rhs⟩ ts h
      have item_sound : ∀ b ∈ body, ∀ ts, G.Denotes (.seq (b.symbols.map legend)) ts →
          G.Denotes item ts := fun b hb =>
        flattened.sound within.explains b.symbols (List.mem_map_of_mem hb)
      rw [lhs, helps]
      rw [rhs] at h
      rcases List.mem_append.mp ha with ha | ha
      · obtain ⟨b, hb, rfl⟩ := List.mem_map.mp ha
        exact (Grammar.Denotes.of_helper helps (item_sound b hb)).2 ts h
      · exact (Grammar.Denotes.of_helper helps (item_sound a ha)).1 ts h

theorem token_flattened {e : Expr} {as : List Alternative} (isToken : e.isToken = true)
    (hd : (d.anonymousSymbol e >>= fun s => Except.ok ([Alternative.single s], d)) =
      .ok (as, d')) :
    Appends d d' 0 ∧ (Within d' g legend → Flattened g legend e (rights as) ∧
      AddsFaithful G legend d d') := by
  obtain ⟨s, hs, hd⟩ := of_bind_eq_ok hd
  cases hd
  refine ⟨.refl d, fun within => ⟨?_, .refl d⟩⟩
  rw [anonymousSymbol] at hs
  obtain ⟨p, pattern, hs⟩ := of_bind_eq_ok hs
  split at hs
  · next found =>
    cases hs
    obtain ⟨terminal, letter⟩ := within.anonymous p _ found
    exact .token isToken pattern terminal letter
  · cases hs

/-- What a precedence adds to the right sides of an item is not in their symbols. -/
theorem wrapped_flattened {item e : Expr} {as : List Alternative} {f : Alternative → Alternative}
    {n : Nat} {labelled : Prop} (same : ∀ a, (f a).symbols = a.symbols)
    (wrap : ∀ {rs}, Flattened g legend item rs → Flattened g legend e rs)
    (inner : Appends d d' n ∧ (Within d' g legend → labelled →
      Flattened g legend item (rights as) ∧ AddsFaithful G legend d d')) :
    Appends d d' n ∧ (Within d' g legend → labelled →
      Flattened g legend e (rights (as.map f)) ∧ AddsFaithful G legend d d') := by
  rw [rights_map as f same]
  exact ⟨inner.1, fun within labels => (inner.2 within labels).imp wrap id⟩

mutual

theorem alternatives_flattened :
    ∀ (e : Expr) {d d' : Draft} {rule : Symbol} {as : List Alternative},
      d.alternatives rule e = .ok (as, d') →
      Appends d d' e.repeated.length ∧
        (Within d' g legend → Labels legend d.symbols.size e.repeated →
          Flattened g legend e (rights as) ∧ AddsFaithful G legend d d')
  | .blank, d, _, _, _, hd => by
    rw [alternatives] at hd
    cases hd
    exact ⟨.refl d, fun _ _ => ⟨.blank, .refl d⟩⟩
  | .ref name, d, _, _, _, hd => by
    rw [alternatives] at hd
    obtain ⟨s, hs, hd⟩ := of_bind_eq_ok hd
    cases hd
    refine ⟨.refl d, fun within _ => ⟨.ref (within.names name s ?_), .refl d⟩⟩
    rw [resolve] at hs
    split at hs
    · next found => rw [found, Except.ok.inj hs]
    · cases hs
  | .literal text, d, _, _, _, hd => by
    rw [alternatives] at hd
    obtain ⟨appends, flattened⟩ := token_flattened rfl hd
    exact ⟨appends, fun within _ => flattened within⟩
  | .pattern source, d, _, _, _, hd => by
    rw [alternatives] at hd
    obtain ⟨appends, flattened⟩ := token_flattened rfl hd
    exact ⟨appends, fun within _ => flattened within⟩
  | .token item, d, _, _, _, hd => by
    rw [alternatives] at hd
    obtain ⟨appends, flattened⟩ := token_flattened rfl hd
    exact ⟨appends, fun within _ => flattened within⟩
  | .seq items, _, _, _, as, hd => by
    rw [alternatives] at hd
    obtain ⟨appends, flattened⟩ := sequence_flattened items hd
    refine ⟨appends, fun within labels => ?_⟩
    obtain ⟨bs, result, same, faithful⟩ := flattened within labels
    have alone : rights as = bs := by
      rw [same]
      simp [rights, Alternative.blank]
    exact ⟨alone ▸ result, faithful⟩
  | .choice items, _, _, _, _, hd => by
    rw [alternatives] at hd
    obtain ⟨⟨as, d₁⟩, first, hd⟩ := of_bind_eq_ok hd
    obtain ⟨bs, hbounded, hd⟩ := of_bind_eq_ok hd
    cases hd
    rw [bounded_eq hbounded]
    exact branches_flattened items first
  | .optional item, _, _, _, _, hd => by
    rw [alternatives] at hd
    obtain ⟨⟨as, d₁⟩, first, hd⟩ := of_bind_eq_ok hd
    obtain ⟨bs, hbounded, hd⟩ := of_bind_eq_ok hd
    cases hd
    rw [bounded_eq hbounded]
    obtain ⟨appends, flattened⟩ := alternatives_flattened item first
    refine ⟨appends, fun within labels => ?_⟩
    obtain ⟨result, faithful⟩ := flattened within labels
    exact ⟨.optional result, faithful⟩
  | .many item, _, _, _, _, hd => by
    rw [alternatives] at hd
    obtain ⟨⟨helper, d₁⟩, first, hd⟩ := of_bind_eq_ok hd
    obtain ⟨⟨body, d₂⟩, second, hd⟩ := of_bind_eq_ok hd
    obtain ⟨d₃, third, hd⟩ := of_bind_eq_ok hd
    cases hd
    obtain ⟨appends, flattened⟩ :=
      repeat_flattened first (alternatives_flattened item second) third
    refine ⟨appends, fun within labels => ?_⟩
    obtain ⟨result, helps, faithful⟩ := flattened within labels
    exact ⟨.many result helps, faithful⟩
  | .some item, _, _, _, _, hd => by
    rw [alternatives] at hd
    obtain ⟨⟨helper, d₁⟩, first, hd⟩ := of_bind_eq_ok hd
    obtain ⟨⟨body, d₂⟩, second, hd⟩ := of_bind_eq_ok hd
    obtain ⟨d₃, third, hd⟩ := of_bind_eq_ok hd
    cases hd
    obtain ⟨appends, flattened⟩ :=
      repeat_flattened first (alternatives_flattened item second) third
    refine ⟨appends, fun within labels => ?_⟩
    obtain ⟨result, helps, faithful⟩ := flattened within labels
    exact ⟨.some result helps, faithful⟩
  | .prec level item, _, _, _, _, hd => by
    rw [alternatives] at hd
    obtain ⟨⟨as, d₁⟩, first, hd⟩ := of_bind_eq_ok hd
    cases hd
    exact wrapped_flattened (fun _ => rfl) .prec (alternatives_flattened item first)
  | .precLeft level item, _, _, _, _, hd => by
    rw [alternatives] at hd
    obtain ⟨⟨as, d₁⟩, first, hd⟩ := of_bind_eq_ok hd
    cases hd
    exact wrapped_flattened (fun _ => rfl) .precLeft (alternatives_flattened item first)
  | .precRight level item, _, _, _, _, hd => by
    rw [alternatives] at hd
    obtain ⟨⟨as, d₁⟩, first, hd⟩ := of_bind_eq_ok hd
    cases hd
    exact wrapped_flattened (fun _ => rfl) .precRight (alternatives_flattened item first)
  | .precDynamic level item, _, _, _, _, hd => by
    rw [alternatives] at hd
    obtain ⟨⟨as, d₁⟩, first, hd⟩ := of_bind_eq_ok hd
    cases hd
    exact wrapped_flattened (fun _ => rfl) .precDynamic (alternatives_flattened item first)

theorem sequence_flattened :
    ∀ (es : List Expr) {d d' : Draft} {rule : Symbol} {before as : List Alternative},
      d.sequence rule before es = .ok (as, d') →
      Appends d d' (Expr.repeatedAll es).length ∧
        (Within d' g legend → Labels legend d.symbols.size (Expr.repeatedAll es) →
          ∃ bs, Flattened g legend (.seq es) bs ∧
            rights as = (rights before).flatMap (fun a => bs.map (a ++ ·)) ∧
            AddsFaithful G legend d d')
  | [], d, _, _, before, _, hd => by
    rw [sequence] at hd
    cases hd
    exact ⟨.refl d, fun _ _ => ⟨[[]], .seqNil, by simp, .refl d⟩⟩
  | e :: es, d, _, _, before, _, hd => by
    rw [sequence] at hd
    obtain ⟨⟨next, d₁⟩, first, hd⟩ := of_bind_eq_ok hd
    dsimp only at hd
    split at hd
    · cases hd
    · obtain ⟨appends, flattened⟩ := alternatives_flattened e first
      obtain ⟨appends', flattened'⟩ := sequence_flattened es hd
      refine ⟨?_, fun within labels => ?_⟩
      · rw [Expr.repeatedAll, List.length_append]
        exact appends.trans appends'
      · rw [Expr.repeatedAll] at labels
        obtain ⟨result, faithful⟩ := flattened (within.of_appends appends') labels.left
        obtain ⟨bs, rest, same, faithful'⟩ := flattened' within
          (by rw [appends.size]; exact labels.right)
        refine ⟨_, .seqCons result rest, ?_, faithful.trans faithful'⟩
        rw [same, rights_product]
        simp [List.flatMap_assoc, List.map_flatMap, List.flatMap_map, Function.comp_def]

theorem branches_flattened :
    ∀ (es : List Expr) {d d' : Draft} {rule : Symbol} {as : List Alternative},
      d.branches rule es = .ok (as, d') →
      Appends d d' (Expr.repeatedAll es).length ∧
        (Within d' g legend → Labels legend d.symbols.size (Expr.repeatedAll es) →
          Flattened g legend (.choice es) (rights as) ∧ AddsFaithful G legend d d')
  | [], d, _, _, _, hd => by
    rw [branches] at hd
    cases hd
    exact ⟨.refl d, fun _ _ => ⟨.choiceNil, .refl d⟩⟩
  | e :: es, _, _, _, _, hd => by
    rw [branches] at hd
    obtain ⟨⟨as, d₁⟩, first, hd⟩ := of_bind_eq_ok hd
    obtain ⟨⟨bs, d₂⟩, second, hd⟩ := of_bind_eq_ok hd
    cases hd
    obtain ⟨appends, flattened⟩ := alternatives_flattened e first
    obtain ⟨appends', flattened'⟩ := branches_flattened es second
    refine ⟨?_, fun within labels => ?_⟩
    · rw [Expr.repeatedAll, List.length_append]
      exact appends.trans appends'
    · rw [Expr.repeatedAll] at labels
      obtain ⟨result, faithful⟩ := flattened (within.of_appends appends') labels.left
      obtain ⟨rest, faithful'⟩ := flattened' within (by rw [appends.size]; exact labels.right)
      refine ⟨?_, faithful.trans faithful'⟩
      rw [rights, List.map_append]
      exact .choiceCons result rest

end

/-- The productions of rules: each alternative of a body is a right side of its rule. -/
theorem addRules_flattened (G : Grammar) (g : FlatGrammar) (legend : Symbol → Expr)
    {rs : List Rule} : ∀ {d : Draft}, d.addRules rs = .ok d' →
      Appends d d' (Expr.repeatedAll (rs.map (·.body))).length ∧
        ((∀ r ∈ rs, G.rule? r.name = some r ∧ r.body.isToken = false) → Within d' g legend →
          Labels legend d.symbols.size (Expr.repeatedAll (rs.map (·.body))) →
          (∀ r ∈ rs, ∃ s as, d.lookup? r.name = some s ∧ Flattened g legend r.body as ∧
            ∀ a ∈ as, g.Has s a) ∧ AddsFaithful G legend d d') := by
  induction rs with
  | nil =>
    intro d hd
    rw [addRules] at hd
    cases hd
    exact ⟨.refl _, fun _ _ _ => ⟨fun _ hr => absurd hr List.not_mem_nil, .refl _⟩⟩
  | cons r rs ih =>
    intro d hd
    rw [addRules] at hd
    obtain ⟨lhs, hlhs, hd⟩ := of_bind_eq_ok hd
    obtain ⟨⟨as, d₁⟩, first, hd⟩ := of_bind_eq_ok hd
    obtain ⟨d₂, second, hd⟩ := of_bind_eq_ok hd
    obtain ⟨appends₁, flattened⟩ := alternatives_flattened r.body first
    obtain ⟨appends₂, new, all⟩ := addProductions_spec second
    obtain ⟨appends₃, later⟩ := ih hd
    have appends : Appends d d₂ r.body.repeated.length := appends₁.trans appends₂
    have looked : d.lookup? r.name = some lhs := by
      rw [resolve] at hlhs
      split at hlhs
      · next found => rw [found, Except.ok.inj hlhs]
      · cases hlhs
    refine ⟨?_, fun first within labels => ?_⟩
    · rw [List.map_cons, Expr.repeatedAll, List.length_append]
      exact appends.trans appends₃
    · rw [List.map_cons, Expr.repeatedAll] at labels
      have within₂ := within.of_appends appends₃
      obtain ⟨result, faithful₁⟩ := flattened (within₂.of_appends appends₂) labels.left
      obtain ⟨others, faithful₃⟩ := later (fun r' hr' => first r' (List.mem_cons_of_mem r hr'))
        within (by rw [appends.size]; exact labels.right)
      obtain ⟨rule, inner⟩ := first r List.mem_cons_self
      have named := (within₂.of_appends appends).names r.name lhs looked
      have faithful₂ : AddsFaithful G legend d₁ d₂ := by
        refine fun p hp => (new p hp).imp_right ?_
        rintro ⟨a, ha, hl, hr⟩ ts h
        rw [hr] at h
        rw [hl, within.explains.named lhs r.name named]
        exact .rule rule inner (result.sound within.explains _ (List.mem_map_of_mem ha) ts h)
      refine ⟨fun r' hr' => ?_, (faithful₁.trans faithful₂).trans faithful₃⟩
      rcases List.mem_cons.mp hr' with rfl | hr'
      · refine ⟨lhs, rights as, looked, result, fun b hb => ?_⟩
        obtain ⟨a, ha, rfl⟩ := List.mem_map.mp hb
        rcases all a ha with absent | ⟨p, hp, sides⟩
        · exact absurd absent List.not_mem_nil
        · exact ⟨p, within₂.productions p hp, sides⟩
      · obtain ⟨s, bs, found, rest⟩ := others r' hr'
        rw [lookup?, appends.names] at found
        exact ⟨s, bs, found, rest⟩

end

end Draft

end Glr
