import Glr.Regex.Reader
import Glr.Proofs.NormalForms

/-!
# What the reader of patterns builds

Whatever is written, the reader only ever builds fit patterns: it refuses a range or a count that
runs backwards, and all else is the builders' own doing.  One step of the reader keeps all that is
read so far fit (`Fit.step?`), so a pattern that is read is fit, and can be run (`fit_of_read?`).
-/

namespace Glr.Pattern

/-! ## Classes -/

/-- Whether what a backslash stands for is a proper set, if it is a set. -/
def Escaped.Proper : Escaped → Prop
  | .literal _ => True
  | .set s => s.Proper

theorem proper_readCode {count : Nat} {cs rest : List Char} {e : Escaped}
    (h : readCode count cs = some (e, rest)) : e.Proper := by
  unfold readCode at h
  split at h
  · obtain ⟨⟨code, cs⟩, -, h⟩ := Option.bind_eq_some_iff.mp h
    obtain ⟨c, -, h⟩ := Option.bind_eq_some_iff.mp h
    cases h
    exact True.intro
  · obtain ⟨⟨code, cs⟩, -, h⟩ := Option.bind_eq_some_iff.mp h
    obtain ⟨c, -, h⟩ := Option.bind_eq_some_iff.mp h
    cases h
    exact True.intro

theorem proper_readEscape {cs rest : List Char} {e : Escaped}
    (h : readEscape cs = some (e, rest)) : e.Proper := by
  unfold readEscape at h
  split at h
  case h_1 => cases h
  case h_2 =>
    cases h
    exact CharSet.proper_space
  case h_3 =>
    cases h
    exact CharSet.proper_complement CharSet.proper_space
  case h_10 | h_11 | h_12 => exact proper_readCode h
  case h_13 =>
    split at h
    · cases h
      exact True.intro
    · cases h
  all_goals
    cases h
    exact True.intro

theorem proper_readClassItem {cs rest : List Char} {e : Escaped}
    (h : readClassItem cs = some (e, rest)) : e.Proper := by
  unfold readClassItem at h
  split at h
  · cases h
  · exact proper_readEscape h
  · cases h
    exact True.intro

theorem proper_readClassRange {cs rest : List Char} {s : CharSet}
    (h : readClassRange cs = some (s, rest)) : s.Proper := by
  rw [readClassRange] at h
  obtain ⟨⟨first, cs⟩, hfirst, h⟩ := Option.bind_eq_some_iff.mp h
  have alone : (match first with
      | .literal c => CharSet.single c
      | .set s => s).Proper := by
    cases first with
    | literal c => exact CharSet.proper_single c
    | set s => exact proper_readClassItem hfirst
  dsimp only at h
  split at h
  · cases h
    exact alone
  · cases h
    exact alone
  · obtain ⟨⟨last, cs⟩, -, h⟩ := Option.bind_eq_some_iff.mp h
    dsimp only at h
    split at h
    · split at h
      · next le =>
        cases h
        exact CharSet.proper_range le
      · cases h
    · cases h
  · cases h
    exact alone

theorem ClassFrame.proper_add {f : ClassFrame} {s : CharSet} {depth : Nat} (hf : f.set.Proper)
    (hs : s.Proper) : (f.add s depth).set.Proper := CharSet.proper_union hf hs

theorem ClassFrame.proper_close {f : ClassFrame} (hf : f.set.Proper) : f.close.Proper := by
  rw [close]
  split
  · exact CharSet.proper_complement hf
  · exact hf

theorem proper_readLeadingDashes {f : ClassFrame} (hf : f.set.Proper) (cs : List Char) :
    (readLeadingDashes f cs).1.set.Proper := by
  fun_induction readLeadingDashes f cs with
  | case1 f cs ih => exact ih (ClassFrame.proper_add hf (CharSet.proper_single '-'))
  | case2 f cs _ => exact hf

theorem proper_openClass (cs : List Char) : (openClass cs).1.set.Proper := by
  have dashes {negated : Bool} {cs cs' : List Char} {f : ClassFrame}
      (h : readLeadingDashes ⟨negated, .none, 0, 0⟩ cs = (f, cs')) : f.set.Proper := by
    have proper := proper_readLeadingDashes (f := ⟨negated, .none, 0, 0⟩) CharSet.proper_none cs
    rwa [h] at proper
  fun_cases openClass cs with
  | case1 negated cs' _ f left _ opened =>
    exact ClassFrame.proper_add (dashes opened) (CharSet.proper_single ']')
  | case2 negated cs' _ f left _ opened => exact dashes opened

theorem proper_readClassFrom {f : ClassFrame} {outer : List ClassFrame} {cs : List Char}
    {s : CharSet} {depth : Nat} {rest : List Char} (hf : f.set.Proper)
    (houter : ∀ o ∈ outer, o.set.Proper)
    (h : readClassFrom f outer cs = some (s, depth, rest)) : s.Proper := by
  fun_induction readClassFrom f outer cs with
  | case1 => cases h
  | case2 f cs =>
    cases h
    exact ClassFrame.proper_close hf
  | case3 f cs o os ih =>
    obtain ⟨ho, hos⟩ := List.forall_mem_cons.mp houter
    exact ih (ClassFrame.proper_add ho (ClassFrame.proper_close hf)) hos h
  | case4 => cases h
  | case5 f outer cs inner left opened _ _ _ ih =>
    have := proper_openClass cs
    rw [opened] at this
    exact ih this (List.forall_mem_cons.mpr ⟨hf, houter⟩) h
  | case6 => cases h
  | case7 f outer c cs _ _ _ s left item _ ih =>
    exact ih (ClassFrame.proper_add hf (proper_readClassRange item)) houter h
  | case8 => cases h
  | case9 => cases h

theorem ordered_readBounds {cs rest : List Char} {least : Nat} {greatest : Option Nat}
    (h : readBounds cs = some (least, greatest, rest)) : ∀ g ∈ greatest, least ≤ g := by
  rw [readBounds] at h
  obtain ⟨⟨n, cs⟩, -, h⟩ := Option.bind_eq_some_iff.mp h
  dsimp only at h
  split at h
  · cases h
    exact fun g hg => Nat.le_of_eq (Option.some.inj hg)
  · cases h
    exact fun g hg => nomatch hg
  · obtain ⟨⟨m, cs⟩, -, h⟩ := Option.bind_eq_some_iff.mp h
    dsimp only at h
    split at h
    · split at h
      · next le =>
        cases h
        exact fun g hg => Option.some.inj hg ▸ le
      · cases h
    · cases h
  · cases h

/-! ## Groups -/

/-- Whether all that is read of a group is fit. -/
structure Group.Fit (g : Group) : Prop where
  branches : ∀ n ∈ g.branches, n.pattern.Fit
  pieces : ∀ n ∈ g.pieces, n.pattern.Fit

namespace Group

variable {g : Group}

theorem fit_start (number : Option Nat) : (start number).Fit :=
  ⟨fun _ mem => absurd mem List.not_mem_nil, fun _ mem => absurd mem List.not_mem_nil⟩

theorem Fit.push (fit : g.Fit) {piece : Nested} (h : piece.pattern.Fit) : (g.push piece).Fit :=
  ⟨fit.branches, List.forall_mem_cons.mpr ⟨h, fit.pieces⟩⟩

theorem fit_map_reverse {ns : List Nested} (all : ∀ n ∈ ns, n.pattern.Fit) :
    ∀ p ∈ ns.reverse.map (·.pattern), p.Fit := by
  intro p mem
  obtain ⟨n, hn, rfl⟩ := List.mem_map.mp mem
  exact all n (List.mem_reverse.mp hn)

theorem Fit.branch (fit : g.Fit) : g.branch.pattern.Fit := fit_concat (fit_map_reverse fit.pieces)

theorem Fit.allBranches (fit : g.Fit) : ∀ n ∈ g.branch :: g.branches, n.pattern.Fit :=
  List.forall_mem_cons.mpr ⟨fit.branch, fit.branches⟩

theorem Fit.nextBranch (fit : g.Fit) : g.nextBranch.Fit :=
  ⟨fit.allBranches, fun _ mem => absurd mem List.not_mem_nil⟩

theorem Fit.content (fit : g.Fit) : g.content.pattern.Fit :=
  fit_choice (fit_map_reverse fit.allBranches)

theorem Fit.close (fit : g.Fit) : g.close.pattern.Fit := by
  rw [Group.close]
  split
  · rw [Pattern.Fit]
    exact fit.content
  · exact fit.content

end Group

namespace Reading

/-- Whether all that is read so far is fit. -/
structure Fit (r : Reading) : Prop where
  inner : r.inner.Fit
  outer : ∀ g ∈ r.outer, g.Fit

variable {r r' : Reading} {c : Char} {cs rest : List Char}

theorem fit_start : start.Fit := ⟨Group.fit_start none, fun _ mem => absurd mem List.not_mem_nil⟩

theorem Fit.push (fit : r.Fit) {piece : Nested} (h : piece.pattern.Fit) : (r.push piece).Fit :=
  ⟨fit.inner.push h, fit.outer⟩

theorem Fit.pushChar (fit : r.Fit) (c : Char) : (r.pushChar c).Fit :=
  fit.push (by rw [Pattern.Fit]; exact True.intro)

theorem Fit.pushSet (fit : r.Fit) {s : CharSet} (proper : s.Proper) (depth : Nat) :
    (r.pushSet s depth).Fit := fit.push (fit_ofSet proper)

theorem Fit.openGroup (fit : r.Fit) (h : r.openGroup cs = some (r', rest)) : r'.Fit := by
  have opened (number : Option Nat) (numbered : Nat) :
      (⟨.start number, r.inner :: r.outer, numbered⟩ : Reading).Fit :=
    ⟨Group.fit_start number, List.forall_mem_cons.mpr ⟨fit.inner, fit.outer⟩⟩
  unfold Reading.openGroup at h
  split at h
  · cases h
    exact opened _ _
  · cases h
  · cases h
    exact opened _ _

theorem Fit.closeGroup? (fit : r.Fit) (h : r.closeGroup? = some r') : r'.Fit := by
  rw [Reading.closeGroup?] at h
  split at h
  · cases h
  · next outer =>
    cases h
    obtain ⟨own, others⟩ := List.forall_mem_cons.mp (outer ▸ fit.outer)
    exact ⟨own.push fit.inner.close, others⟩

theorem Fit.repeatLast? (fit : r.Fit) {least : Nat} {greatest : Option Nat}
    (ordered : ∀ g ∈ greatest, least ≤ g)
    (h : r.repeatLast? least greatest cs = some (r', rest)) : r'.Fit := by
  rw [Reading.repeatLast?] at h
  split at h
  · cases h
  · next pieces =>
    cases h
    obtain ⟨own, others⟩ := List.forall_mem_cons.mp (pieces ▸ fit.inner.pieces)
    exact ⟨⟨fit.inner.branches, List.forall_mem_cons.mpr ⟨fit_repeated own ordered _, others⟩⟩,
      fit.outer⟩

/-- A step keeps all that is read fit. -/
theorem Fit.step? (fit : r.Fit) (h : r.step? c cs = some (r', rest)) : r'.Fit := by
  unfold Reading.step? at h
  split at h
  · exact fit.openGroup h
  · obtain ⟨closed, hclosed, h⟩ := Option.bind_eq_some_iff.mp h
    cases h
    exact fit.closeGroup? hclosed
  · cases h
    exact ⟨fit.inner.nextBranch, fit.outer⟩
  · dsimp only at h
    obtain ⟨⟨s, depth, left⟩, found, h⟩ := Option.bind_eq_some_iff.mp h
    cases h
    exact fit.pushSet (proper_readClassFrom (proper_openClass cs)
      (fun _ mem => absurd mem List.not_mem_nil) found) depth
  · exact fit.repeatLast? (fun g hg => by cases hg) h
  · exact fit.repeatLast? (fun g hg => by cases hg) h
  · exact fit.repeatLast? (fun g _ => Nat.zero_le g) h
  · obtain ⟨⟨least, greatest, left⟩, bounds, h⟩ := Option.bind_eq_some_iff.mp h
    exact fit.repeatLast? (ordered_readBounds bounds) h
  · obtain ⟨⟨e, left⟩, escaped, h⟩ := Option.bind_eq_some_iff.mp h
    have proper := proper_readEscape escaped
    dsimp only at h
    split at h
    · cases h
      exact fit.pushChar _
    · cases h
      exact fit.pushSet proper 0
  · cases h
    exact fit.pushSet CharSet.proper_notNewline 0
  · cases h
  · cases h
  · cases h
    exact fit.pushChar _

theorem Fit.run (fit : r.Fit) {n : Nested} (h : r.run cs = some n) : n.pattern.Fit := by
  fun_induction Reading.run r cs with
  | case1 r _ =>
    cases h
    exact fit.inner.content
  | case2 => cases h
  | case3 r c cs r' rest step _ ih => exact ih (fit.step? step) h
  | case4 => cases h
  | case5 => cases h

end Reading

/-- A pattern that is read is fit. -/
theorem fit_of_read? {source : String} {p : Pattern} (h : read? source = some p) : p.Fit := by
  rw [read?] at h
  split at h
  · next n run =>
    split at h
    · cases h
      exact Reading.fit_start.run run
    · cases h
  · cases h

end Glr.Pattern
