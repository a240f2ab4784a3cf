/-
Edits made once, and once more.

An edit that does not ask for a former value selects a comparison by what is compared and by the
operator, and it changes neither of them. So it finds the same comparison each time, whatever else
was edited, and whatever was written and read between. A comparison comes to have the value of the
last edit that reaches it; this value is written as a string if the comparison had a string before
any of the edits, or was given one by any of them, and what is written for a value in the end is a
string in the same cases. So nothing changes if all edits are made again.

* `Condition.comparisons`, `Constraint.reaches`: what counts for an edit.
* `Literal.escape_foldl_carryQuotes`: the value of one comparison.
* `Condition.revised`: a condition after edits in it, and in the queries inside it; by its parts.
* `Condition.canonical_revised_canonical`: edits made again.
* `merge_merge_edits`: edits merged again.
-/
import NodeQuery.Proofs.Canonical
import NodeQuery.Proofs.OutsideIn
import NodeQuery.Proofs.Updating

namespace NodeQuery

/-! ### The value of one comparison -/

namespace Literal

open Condition (carryQuotes)

theorem isQuoted_foldl_carryQuotes (vs : List String) (old : String) :
    isQuoted (vs.foldl carryQuotes old) = (isQuoted old || vs.any isQuoted) := by
  induction vs generalizing old with
  | nil => simp
  | cons v vs ih => rw [List.foldl_cons, ih, isQuoted_carryQuotes, List.any_cons, Bool.or_assoc]

theorem isQuoted_escape {v : String} (h : isQuoted v = true) : isQuoted (escape v) = true := by
  rw [escape_of_isQuoted h, h]

/-- A new value is written the same for two old ones if the second is a string just when that is
what is written for the first. -/
theorem escape_carryQuotes_congr {x y v : String}
    (h : isQuoted y = isQuoted (escape (carryQuotes x v))) :
    escape (carryQuotes y v) = escape (carryQuotes x v) := by
  by_cases hv : isQuoted v = true
  · simp [carryQuotes, hv]
  have hcarry : ∀ z, carryQuotes z v = if isQuoted z then quote v else v := by
    simp [carryQuotes, hv]
  have hquote : escape (quote v) = quote v := escape_of_isQuoted (isQuoted_quote v)
  rw [hcarry x] at h ⊢
  rw [hcarry y, h]
  split_ifs with hx hy hy
  · rfl
  · exact absurd (isQuoted_escape (isQuoted_quote v)) hy
  · -- what is written for the new value is a string, and it was none itself
    rw [hquote]
    rw [escape] at hy ⊢
    split_ifs at hy ⊢
    · exact absurd hy hv
    · rfl
  · rfl

/-- What is written for a value after edits is what is written for it after they are made again. -/
theorem escape_foldl_carryQuotes (vs : List String) (old : String) :
    escape (vs.foldl carryQuotes (escape (vs.foldl carryQuotes old)))
      = escape (vs.foldl carryQuotes old) := by
  rcases List.eq_nil_or_concat vs with rfl | ⟨ws, v, rfl⟩
  · exact escape_escape old
  · -- the last value counts, and whether one of the values in front of it is a string
    simp only [List.concat_eq_append, List.foldl_append, List.foldl_cons, List.foldl_nil]
    refine escape_carryQuotes_congr ?_
    rw [isQuoted_foldl_carryQuotes, Bool.or_eq_left_iff_imp]
    intro hws
    refine isQuoted_escape ?_
    rw [isQuoted_carryQuotes, isQuoted_foldl_carryQuotes, hws, Bool.or_true, Bool.true_or]

end Literal

/-! ### What counts for an edit -/

namespace Condition

/-- What is compared in a condition and how, from left to right; nested queries are not looked
into. -/
def comparisons (c : Condition) : List (Attribute × ValueOp) :=
  c.atomics.filterMap fun a =>
    match a with
    | .value m => some (m.subject, m.operator)
    | .relation .. => none

@[simp] theorem comparisons_value (m : ValueMatch) :
    (value m).comparisons = [(m.subject, m.operator)] := rfl

@[simp] theorem comparisons_relation (a : Attribute) (op : RelOp) (e : Entity) (c : Condition)
    (spans : QuerySpans) : (relation a op e c spans).comparisons = [] := rfl

@[simp] theorem comparisons_negation (c : Condition) :
    (negation c).comparisons = c.comparisons := rfl

@[simp] theorem comparisons_group (k : Connective) (cs : List Condition) :
    (group k cs).comparisons = cs.flatMap comparisons := by
  rw [comparisons, atomics, atomicsOfAll_eq_flatMap, List.filterMap_flatMap]
  rfl

theorem comparisons_canonical (c : Condition) : c.canonical.comparisons = c.comparisons := by
  induction c with
  | value m => rfl
  | relation a op e c spans ih => rfl
  | negation c ih => exact ih
  | group k cs ih =>
    rw [canonical_group, comparisons_group, comparisons_group, List.flatMap_map]
    exact List.flatMap_congr ih

theorem comparisons_rebuild (change : Nat → Entity → Condition → Condition) (c : Condition)
    (next : Nat) : (c.rebuild change next).comparisons = c.comparisons := by
  induction c generalizing next with
  | value m => rfl
  | relation a op e c spans ih => rfl
  | negation c ih => exact ih next
  | group k cs ih =>
    rw [rebuild, comparisons_group, comparisons_group]
    induction cs generalizing next with
    | nil => rfl
    | cons c cs ihs =>
      rw [List.forall_mem_cons] at ih
      rw [rebuildAll, List.flatMap_cons, List.flatMap_cons, ih.1, ihs ih.2]

theorem comparisons_update (s : Selector) (new : String) (c : Condition) :
    (c.update s new).comparisons = c.comparisons := by
  refine update_induction (motive := fun c d => d.comparisons = c.comparisons) (fun _ => rfl)
    (fun _ _ => rfl) (fun _ _ hd => hd) (fun k as c d bs hd => ?_) c
  simp [hd]

end Condition

/-- Whether the constraint selects some comparison in a condition, whatever is the value there. -/
def Constraint.reaches (x : Constraint) (c : Condition) : Bool :=
  c.comparisons.any fun (a, op) =>
    a.path = x.selector.path && x.selector.selectsOperator op.spelling

section Reaches

variable {x : Constraint}

theorem Constraint.reaches_value (hx : x.former? = none) (m : ValueMatch) :
    x.reaches (.value m) = x.selector.selectsValue m := by
  simp [reaches, Selector.selectsValue, selector, hx, Selector.selectsText]

theorem Constraint.reaches_iff (hx : x.former? = none) (c : Condition) :
    x.reaches c = true ↔ ∃ m, .value m ∈ c.atomics ∧ x.selector.selectsValue m = true := by
  have hvalue : ∀ m : ValueMatch, (decide (m.subject.path = x.selector.path)
      && x.selector.selectsOperator m.operator.spelling) = x.selector.selectsValue m := by
    intro m
    rw [← reaches_value hx]
    simp [reaches]
  rw [reaches, Condition.comparisons, List.any_filterMap, List.any_eq_true]
  constructor
  · rintro ⟨a, ha, hreaches⟩
    cases a with
    | value m => exact ⟨m, ha, (hvalue m).symm.trans hreaches⟩
    | relation a op q => cases hreaches
  · rintro ⟨m, hm, hselects⟩
    exact ⟨.value m, hm, (hvalue m).trans hselects⟩

theorem Constraint.isSome_update? (hx : x.former? = none) (v : String) (c : Condition) :
    (c.update? x.selector v).isSome = x.reaches c := by
  rw [Bool.eq_iff_iff, reaches_iff hx, ← Option.ne_none_iff_isSome, Ne,
    Condition.update?_eq_none_iff]
  simp

end Reaches

/-! ### Edits of the parts of a condition -/

namespace Changes

/-- Conditions after an edit of the first one that has a comparison selected. -/
def editMembers (cs : List Condition) (x : Constraint) : List Condition :=
  match x.valueText? with
  | none => cs
  | some v => (Condition.updateInAll? x.selector v cs).getD cs

theorem comparisons_foldl_editFreely (xs : List Constraint) (c : Condition) :
    (xs.foldl editFreely c).comparisons = c.comparisons := by
  induction xs generalizing c with
  | nil => rfl
  | cons x xs ih =>
    rw [List.foldl_cons, ih, editFreely]
    cases x.valueText? with
    | none => rfl
    | some v => exact Condition.comparisons_update x.selector v c

theorem entities_foldl_editFreely (xs : List Constraint) (c : Condition) :
    (xs.foldl editFreely c).entities = c.entities := by
  induction xs generalizing c with
  | nil => rfl
  | cons x xs ih =>
    rw [List.foldl_cons, ih, editFreely]
    cases x.valueText? with
    | none => rfl
    | some v => exact Condition.entities_update x.selector v c

theorem foldl_editFreely_relation (xs : List Constraint) (a : Attribute) (op : RelOp) (e : Entity)
    (c : Condition) (spans : QuerySpans) :
    xs.foldl editFreely (.relation a op e c spans) = .relation a op e c spans := by
  induction xs with
  | nil => rfl
  | cons x xs ih =>
    rw [List.foldl_cons, editFreely]
    cases x.valueText? with
    | none => exact ih
    | some v => exact ih

theorem foldl_editFreely_negation (xs : List Constraint) (c : Condition) :
    xs.foldl editFreely (.negation c) = .negation (xs.foldl editFreely c) := by
  refine List.foldl_hom Condition.negation fun d x => ?_
  rw [editFreely, editFreely]
  cases x.valueText? with
  | none => rfl
  | some v =>
    simp only [Condition.update, Condition.update?]
    cases d.update? x.selector v <;> rfl

theorem foldl_editFreely_group (xs : List Constraint) (k : Connective) (cs : List Condition) :
    xs.foldl editFreely (.group k cs) = .group k (xs.foldl editMembers cs) := by
  refine List.foldl_hom (Condition.group k) fun ds x => ?_
  rw [editFreely, editMembers]
  cases x.valueText? with
  | none => rfl
  | some v =>
    simp only [Condition.update, Condition.update?]
    cases Condition.updateInAll? x.selector v ds <;> rfl

theorem foldl_editMembers_nil (xs : List Constraint) : xs.foldl editMembers [] = [] := by
  induction xs with
  | nil => rfl
  | cons x xs ih =>
    rw [List.foldl_cons, editMembers]
    cases x.valueText? with
    | none => exact ih
    | some v => exact ih

section Former

variable {xs : List Constraint}

/-- The values that come, one after the other, in the place of that of a comparison. -/
def newValues (xs : List Constraint) (m : ValueMatch) : List String :=
  (xs.filter (·.reaches (.value m))).filterMap fun x => x.valueText?.map Text.trim

theorem foldl_editFreely_value (hxs : ∀ x ∈ xs, x.former? = none) (m : ValueMatch) :
    xs.foldl editFreely (.value m) = .value
      ⟨m.subject, m.operator, (newValues xs m).foldl Condition.carryQuotes m.value⟩ := by
  induction xs generalizing m with
  | nil => rfl
  | cons x xs ih =>
    rw [List.forall_mem_cons] at hxs
    have hstep : editFreely (.value m) x = .value ⟨m.subject, m.operator,
        (newValues [x] m).foldl Condition.carryQuotes m.value⟩ := by
      rw [editFreely, newValues]
      by_cases hreaches : x.reaches (.value m) = true
      · rw [List.filter_cons, if_pos hreaches]
        rw [Constraint.reaches_value hxs.1] at hreaches
        cases hv : x.valueText? <;> simp [Condition.update, Condition.update?, hreaches, hv]
      · rw [List.filter_cons, if_neg hreaches]
        rw [Constraint.reaches_value hxs.1] at hreaches
        cases x.valueText? <;> simp [Condition.update, Condition.update?, hreaches]
    -- the edits that follow reach what they reached before
    have hsame : ∀ v, newValues xs ⟨m.subject, m.operator, v⟩ = newValues xs m := fun v => rfl
    have hvalues : newValues (x :: xs) m = newValues [x] m ++ newValues xs m := by
      rw [newValues, ← List.singleton_append, List.filter_append, List.filterMap_append]
      rfl
    rw [List.foldl_cons, hstep, ih hxs.2, hsame, hvalues, List.foldl_append]

/-- The edits that reach the first of several conditions are made in it, and the others in those
behind it. -/
theorem foldl_editMembers_cons (hxs : ∀ x ∈ xs, x.former? = none) (c : Condition)
    (cs : List Condition) :
    xs.foldl editMembers (c :: cs) = (xs.filter (·.reaches c)).foldl editFreely c
      :: (xs.filter (!·.reaches c)).foldl editMembers cs := by
  induction xs generalizing c cs with
  | nil => rfl
  | cons x xs ih =>
    rw [List.forall_mem_cons] at hxs
    have hfirst : ∀ v, (c.update? x.selector v).isSome = x.reaches c :=
      fun v => Constraint.isSome_update? hxs.1 v c
    by_cases hreaches : x.reaches c = true
    · have hstep : editMembers (c :: cs) x = editFreely c x :: cs := by
        rw [editMembers, editFreely]
        cases x.valueText? with
        | none => rfl
        | some v =>
          obtain ⟨d, hd⟩ := Option.isSome_iff_exists.mp ((hfirst v).trans hreaches)
          simp [Condition.update, Condition.updateInAll?, hd]
      have hsame : ∀ y : Constraint, y.reaches (editFreely c x) = y.reaches c := by
        intro y
        rw [Constraint.reaches, Constraint.reaches]
        exact congrArg (List.any · _) (comparisons_foldl_editFreely [x] c)
      rw [List.foldl_cons, hstep, ih hxs.2]
      simp [hsame, hreaches]
    · have hstep : editMembers (c :: cs) x = c :: editMembers cs x := by
        rw [editMembers, editMembers]
        cases x.valueText? with
        | none => rfl
        | some v =>
          have hnone : c.update? x.selector v = none := by
            rw [← Option.not_isSome_iff_eq_none, hfirst v]
            exact hreaches
          simp only [Condition.updateInAll?, hnone]
          cases Condition.updateInAll? x.selector v cs <;> rfl
      rw [List.foldl_cons, hstep, ih hxs.2]
      simp [hreaches]

end Former

end Changes

/-! ### Edits in a condition and in the queries inside it -/

namespace Condition

section Revised

variable (edits : Nat → List Constraint)

/-- Edits of the conditions of queries, given those for the `i`-th one. -/
def reviseAt (i : Nat) (_ : Entity) (c : Condition) : Condition :=
  (edits i).foldl Changes.editFreely c

/-- A condition after edits in it, and those in the queries inside it; `next` queries are in
front. -/
def revised (next : Nat) (xs : List Constraint) (c : Condition) : Condition :=
  xs.foldl Changes.editFreely (c.rebuild (reviseAt edits) next)

/-- Conditions after edits in the first one that they reach, and those in the queries inside
them. -/
def revisedAll (next : Nat) (xs : List Constraint) (cs : List Condition) : List Condition :=
  xs.foldl Changes.editMembers (rebuildAll (reviseAt edits) next cs)

theorem comparisons_revised (next : Nat) (xs : List Constraint) (c : Condition) :
    (c.revised edits next xs).comparisons = c.comparisons := by
  rw [revised, Changes.comparisons_foldl_editFreely, comparisons_rebuild]

theorem entities_revised (next : Nat) (xs : List Constraint) (c : Condition) :
    (c.revised edits next xs).entities = c.entities := by
  rw [revised, Changes.entities_foldl_editFreely]
  exact entities_rebuild_eq (fun i e d => Changes.entities_foldl_editFreely (edits i) d) next c

/-- Queries in a condition keep their numbers. -/
theorem length_queries_revised (next : Nat) (xs : List Constraint) (c : Condition) :
    (c.revised edits next xs).queries.length = c.queries.length :=
  length_queries_eq (entities_revised edits next xs c)

theorem revised_relation (next : Nat) (xs : List Constraint) (a : Attribute) (op : RelOp)
    (e : Entity) (c : Condition) (spans : QuerySpans) :
    (relation a op e c spans).revised edits next xs
      = .relation a op e (c.revised edits (next + 1) (edits next)) spans := by
  rw [revised, rebuild, Changes.foldl_editFreely_relation]
  rfl

theorem revised_negation (next : Nat) (xs : List Constraint) (c : Condition) :
    (negation c).revised edits next xs = .negation (c.revised edits next xs) := by
  rw [revised, rebuild, Changes.foldl_editFreely_negation]
  rfl

theorem revised_group (next : Nat) (xs : List Constraint) (k : Connective) (cs : List Condition) :
    (group k cs).revised edits next xs = .group k (revisedAll edits next xs cs) := by
  rw [revised, rebuild, Changes.foldl_editFreely_group]
  rfl

variable {edits} {xs : List Constraint}

theorem revised_value (hxs : ∀ x ∈ xs, x.former? = none) (next : Nat) (m : ValueMatch) :
    (value m).revised edits next xs = .value
      ⟨m.subject, m.operator, (Changes.newValues xs m).foldl carryQuotes m.value⟩ := by
  rw [revised, rebuild, Changes.foldl_editFreely_value hxs]

theorem revisedAll_cons (hxs : ∀ x ∈ xs, x.former? = none) (next : Nat) (c : Condition)
    (cs : List Condition) :
    revisedAll edits next xs (c :: cs) = c.revised edits next (xs.filter (·.reaches c))
      :: revisedAll edits (next + c.queries.length) (xs.filter (!·.reaches c)) cs := by
  have hsame : ∀ y : Constraint, y.reaches (c.rebuild (reviseAt edits) next) = y.reaches c := by
    intro y
    rw [Constraint.reaches, Constraint.reaches, comparisons_rebuild]
  rw [revisedAll, rebuildAll, Changes.foldl_editMembers_cons hxs]
  simp only [hsame]
  rfl

/-- What is written for a condition after edits is what is written for it after they are made
again. -/
theorem canonical_revised_canonical (hedits : ∀ i, ∀ x ∈ edits i, x.former? = none)
    (hxs : ∀ x ∈ xs, x.former? = none) (next : Nat) (c : Condition) :
    ((c.revised edits next xs).canonical.revised edits next xs).canonical
      = (c.revised edits next xs).canonical := by
  induction c generalizing next xs with
  | value m =>
    rw [revised_value hxs, canonical_value, revised_value hxs, canonical_value]
    congr 2
    exact Literal.escape_foldl_carryQuotes (Changes.newValues xs m) m.value
  | relation a op e c spans ih =>
    rw [revised_relation, canonical_relation, revised_relation, canonical_relation,
      ih (hedits next)]
  | negation c ih =>
    rw [revised_negation, canonical_negation, revised_negation, canonical_negation, ih hxs]
  | group k cs ih =>
    have key : ∀ next xs, (∀ x ∈ xs, x.former? = none) →
        (revisedAll edits next xs ((revisedAll edits next xs cs).map canonical)).map canonical
          = (revisedAll edits next xs cs).map canonical := by
      clear hxs
      induction cs with
      | nil =>
        intro next xs _
        simp only [revisedAll, rebuildAll, Changes.foldl_editMembers_nil, List.map_nil]
      | cons c cs ihs =>
        rw [List.forall_mem_cons] at ih
        intro next xs hxs
        have hfilter : ∀ p : Constraint → Bool, ∀ x ∈ xs.filter p, x.former? = none :=
          fun p x hx => hxs x (List.mem_of_mem_filter hx)
        -- the same edits reach the first member again, and the same numbers are behind it
        have hsame : ∀ y : Constraint, ∀ ys,
            y.reaches (c.revised edits next ys).canonical = y.reaches c := by
          intro y ys
          rw [Constraint.reaches, Constraint.reaches, comparisons_canonical, comparisons_revised]
        have hlength : ∀ ys, (c.revised edits next ys).canonical.queries.length
            = c.queries.length := by
          intro ys
          rw [length_queries_canonical, length_queries_revised]
        rw [revisedAll_cons hxs, List.map_cons, revisedAll_cons hxs]
        simp only [hsame, hlength, List.map_cons]
        rw [ih.1 (hfilter _), ihs ih.2 _ _ (hfilter _)]
    rw [revised_group, canonical_group, revised_group, canonical_group, key next xs hxs]

end Revised

end Condition

/-! ### Edits that are made -/

namespace Changes

theorem levels_foldl_editFreely (xs : List Constraint) (c : Condition) :
    (xs.foldl editFreely c).levels = c.levels := by
  induction xs generalizing c with
  | nil => rfl
  | cons x xs ih =>
    rw [List.foldl_cons, ih, editFreely]
    cases x.valueText? with
    | none => rfl
    | some v => exact Condition.depth_update x.selector v c

theorem isPlain_foldl_editFreely (xs : List Constraint) {c : Condition} (h : c.IsPlain) :
    (xs.foldl editFreely c).IsPlain := by
  refine List.foldlRecOn (motive := fun d : Condition => d.IsPlain) _ _ h fun d hd x _ => ?_
  rw [editFreely]
  cases x.valueText? with
  | none => exact hd
  | some v => exact Condition.wellFormed_update x.selector v hd

end Changes

section Made

variable (edits : Nat → List Constraint)

theorem Condition.isPlain_rebuild_reviseAt {c : Condition} (h : c.IsPlain) (next : Nat) :
    (c.rebuild (reviseAt edits) next).IsPlain := by
  have hmeets : c.Meets (.wellFormed fun a => a.isPlain = true) ⟨"", none⟩ :=
    meets_wellFormed_iff.mpr h
  refine meets_wellFormed_iff.mp (meets_rebuild (fun i e d _ hd => ?_) hmeets)
  exact meets_wellFormed_iff.mpr
    (Changes.isPlain_foldl_editFreely (edits i) (meets_wellFormed_iff.mp hd))

theorem Condition.isPlain_revised {c : Condition} (h : c.IsPlain) (next : Nat)
    (xs : List Constraint) : (c.revised edits next xs).IsPlain :=
  Changes.isPlain_foldl_editFreely xs (isPlain_rebuild_reviseAt edits h next)

variable {edits}

/-- All edits are made in a condition that is not nested too deep once they are made. -/
theorem Condition.rebuild_edit_eq {c : Condition} (h : c.IsPlain) {next : Nat}
    (hn : (c.rebuild (reviseAt edits) next).levels ≤ Parser.maxNesting) :
    c.rebuild (fun i _ d => (edits i).foldl Changes.edit d) next
      = c.rebuild (reviseAt edits) next := by
  induction c generalizing next with
  | value m => rfl
  | relation a op e c spans ih =>
    obtain ⟨-, he, hc⟩ := h
    -- the condition of the nested query is nested less deep, if it is written
    have hinner : (reviseAt edits next e (c.rebuild (reviseAt edits) (next + 1))).levels
        ≤ Parser.maxNesting := by
      rw [rebuild, levels, depth] at hn
      split_ifs at hn with hplaceholder
      · rw [isPlaceholder_iff.mp hplaceholder, levels_placeholder he]
        decide
      · exact (Nat.le_succ _).trans ((Nat.le_add_left _ _).trans hn)
    rw [reviseAt, Changes.levels_foldl_editFreely] at hinner
    have hopens := (isPlain_rebuild_reviseAt edits hc (next + 1)).mono fun _ =>
      Attribute.opens_of_isPlain
    rw [rebuild, rebuild, ih hc hinner, Changes.foldl_edit_eq (edits next) hopens hinner]
    rfl
  | negation c ih => rw [rebuild, rebuild, ih h ((Nat.le_succ _).trans hn)]
  | group k cs ih =>
    have key : ∀ ds ⊆ cs, ∀ next,
        (∀ d ∈ rebuildAll (reviseAt edits) next ds, d.levels ≤ Parser.maxNesting) →
        rebuildAll (fun i _ d => (edits i).foldl Changes.edit d) next ds
          = rebuildAll (reviseAt edits) next ds := by
      intro ds hds
      induction ds with
      | nil => exact fun _ _ => rfl
      | cons d ds ihs =>
        obtain ⟨hd, hds⟩ := List.cons_subset.mp hds
        intro next hle
        rw [rebuildAll, List.forall_mem_cons] at hle
        rw [rebuildAll, rebuildAll, ih d hd (allWellFormed_iff.mp h.2 d hd) hle.1,
          ihs hds _ hle.2]
    rw [rebuild, rebuild, key cs (List.Subset.refl cs) next]
    intro d hd
    exact (depth_le_depthOfAll hd).trans ((Nat.le_succ _).trans hn)

theorem Query.rebuild_edit_eq {q : Query} (h : q.IsPlain)
    (hn : (q.rebuild (Condition.reviseAt edits)).condition.levels ≤ Parser.maxNesting) :
    q.rebuild (fun i _ d => (edits i).foldl Changes.edit d)
      = q.rebuild (Condition.reviseAt edits) := by
  rw [rebuild, Condition.reviseAt, Changes.levels_foldl_editFreely] at hn
  have hopens := (Condition.isPlain_rebuild_reviseAt edits h.2 1).mono fun _ =>
    Attribute.opens_of_isPlain
  rw [rebuild, rebuild, Condition.rebuild_edit_eq h.2 hn, Changes.foldl_edit_eq (edits 0) hopens hn]
  rfl

end Made

/-! ### Edits merged again -/

section Merge

variable {settings : Settings} {source : String} {p q : Query} {es : List Constraint}
  {edits : Nat → List Constraint}

/-- Nothing changes if edits are made again in what is read of a query after they were made. -/
theorem Query.canonical_rebuild_reviseAt (hedits : ∀ i, ∀ x ∈ edits i, x.former? = none)
    (h : p.eraseSpans = (q.rebuild (Condition.reviseAt edits)).canonical) :
    (p.rebuild (Condition.reviseAt edits)).canonical = p.canonical := by
  have herase : (p.rebuild (Condition.reviseAt edits)).eraseSpans
      = p.eraseSpans.rebuild (Condition.reviseAt edits) := by
    have hchange : ∀ i e c, (Condition.reviseAt edits i e c).eraseSpans
        = Condition.reviseAt edits i e c.eraseSpans :=
      fun i _ c => (Changes.foldl_editFreely_actsInside Condition.actsInside_eraseSpans c _).symm
    rw [eraseSpans, rebuild, rebuild, hchange, Condition.eraseSpans_rebuild hchange]
    rfl
  have hagain := Condition.canonical_revised_canonical hedits (hedits 0) 1 q.condition
  calc (p.rebuild (Condition.reviseAt edits)).canonical
      = (p.eraseSpans.rebuild (Condition.reviseAt edits)).canonical := by
        rw [← canonical_eraseSpans, herase]
    _ = (q.rebuild (Condition.reviseAt edits)).canonical := by
        rw [h]
        exact congrArg (Query.mk q.entity · {}) hagain
    _ = p.canonical := by
        rw [← canonical_eraseSpans p, h, canonical_canonical]

/-- The constraints that are aimed at the `i`-th query in `q`. -/
def aimedAt (q : Query) (cs : List Constraint) (i : Nat) : List Constraint :=
  cs.filter fun c => target? q c = some i

section Edits

variable (hes : ∀ c ∈ es, c.action = .edit)

include hes

theorem changesAt_of_forall_edit (q : Query) (i : Nat) :
    changesAt q es i = ⟨[], aimedAt q es i, []⟩ := by
  have hedit : ∀ c ∈ aimedAt q es i, c.action = .edit :=
    fun c hc => hes c (List.mem_of_mem_filter hc)
  rw [changesAt, Changes.ofList, ← aimedAt, filter_action hedit, filter_action hedit,
    filter_action hedit]
  rfl

theorem not_added_of_forall_edit (q : Query) (c : Constraint) : ¬Added q es c := by
  rintro ⟨hmem, -, hadd⟩
  rw [hes c hmem] at hadd
  cases hadd

theorem Query.isPlain_applyAll_of_forall_edit (hq : q.IsPlain) :
    (q.applyAll settings es).IsPlain := by
  refine ⟨hq.1, Query.wellFormed_applyAll (fun _ h => h) hq (fun c hc => ?_) settings⟩
  exact absurd hc (not_added_of_forall_edit hes q c)

theorem Query.entities_applyAll_of_forall_edit (q : Query) :
    (q.applyAll settings es).entities = q.entities := by
  refine entities_applyAll_eq (fun i c hc => ?_) fun c hc => ?_
  · rw [changesAt_of_forall_edit hes] at hc
    cases hc
  · rw [hes c hc]
    exact Constraint.Action.noConfusion

/-- All edits are made if what is merged can be read. -/
theorem Query.applyAll_eq_rebuild_reviseAt (hq : parse source = .ok q)
    (hmerge : ∃ p, parse (merge settings source es) = .ok p) :
    q.applyAll settings es = q.rebuild (Condition.reviseAt (aimedAt q es)) := by
  have hnone := not_added_of_forall_edit hes q
  obtain ⟨hplain, -, -⟩ := tidy_of_parse hq
  have hlevels := (parse_merge_of_isClosed settings hq fun c hc => absurd hc (hnone c)).1.mp hmerge
  have hrespects := respects_changesAt (P := Attribute.Opens) fun c hc => absurd hc (hnone c)
  have hfreely : (fun i => (changesAt q es i).applyFreely settings)
      = Condition.reviseAt (aimedAt q es) := by
    funext i e c
    rw [changesAt_of_forall_edit hes, Changes.applyFreely]
    simp only [List.foldl_nil, Condition.reviseAt]
  have hrebuild := Query.rebuildAt_eq_freely hrespects hplain 0 hlevels
  rw [hfreely] at hrebuild
  exact hrebuild

/-- The same edits are made in what is read of a query after they were made. -/
theorem Query.render_applyAll_of_canonical_eq (hes' : ∀ c ∈ es, c.former? = none)
    (hp : p.IsPlain) (hnesting : p.condition.nesting ≤ Parser.maxNesting)
    (hentities : p.entities = q.entities)
    (h : p.eraseSpans = (q.rebuild (Condition.reviseAt (aimedAt q es))).canonical) :
    (p.applyAll settings es).render = p.render := by
  have hformer : ∀ i, ∀ x ∈ aimedAt q es i, x.former? = none :=
    fun i x hx => hes' x (List.mem_of_mem_filter hx)
  have hsame := canonical_rebuild_reviseAt hformer h
  have hplain : (p.rebuild (Condition.reviseAt (aimedAt q es))).condition.IsPlain :=
    Condition.isPlain_revised (aimedAt q es) hp.2 1 (aimedAt q es 0)
  -- the query is nested as deep as it was, so that no edit is left out
  have hlevels : (p.rebuild (Condition.reviseAt (aimedAt q es))).condition.levels
      ≤ Parser.maxNesting := by
    have hcondition : (p.rebuild (Condition.reviseAt (aimedAt q es))).condition.canonical
        = p.condition.canonical := congrArg Query.condition hsame
    rwa [Condition.levels_of_isPlain hplain, ← Condition.nesting_canonical hplain, hcondition,
      Condition.nesting_canonical hp.2]
  have happly : p.applyAll settings es = p.rebuild (Condition.reviseAt (aimedAt q es)) := by
    have hedit : (fun i => (changesAt q es i).apply settings)
        = fun i _ c => (aimedAt q es i).foldl Changes.edit c := by
      funext i e c
      rw [changesAt_of_forall_edit hes, Changes.apply]
      simp only [List.foldl_nil]
    rw [← rebuild_edit_eq hp hlevels, applyAll, changesAt_of_entities_eq hentities, hedit]
  rw [happly, ← render_canonical hplain, hsame, render_canonical hp.2]

end Edits

/-- Edits that ask for no former value can be merged again, and the text stays as it is. -/
theorem merge_merge_edits (h : ∀ c ∈ es, c.action = .edit ∧ c.former? = none) :
    merge settings (merge settings source es) es = merge settings source es := by
  have hes : ∀ c ∈ es, c.action = .edit := fun c hc => (h c hc).1
  cases hq : parse source with
  | error e => rw [merge_of_error hq, merge_of_error hq]
  | ok q =>
    by_cases hnone : ∀ c ∈ es, target? q c = none
    · rw [merge_of_forall_eq_none hq hnone, merge_of_forall_eq_none hq hnone]
    cases hp : parse (merge settings source es) with
    | error e => exact merge_of_error hp
    | ok p =>
      obtain ⟨hplain, -, -⟩ := tidy_of_parse hq
      obtain ⟨hpplain, hnesting, -⟩ := tidy_of_parse hp
      have hmerge : merge settings source es = (q.applyAll settings es).render :=
        merge_of_exists_ne_none hq hnone
      have hfirst : (q.applyAll settings es).IsPlain :=
        Query.isPlain_applyAll_of_forall_edit hes hplain
      have hread : parse (q.applyAll settings es).render = .ok p := hmerge ▸ hp
      -- what is read has the declarations of the query, and is written as what was merged
      have hentities : p.entities = q.entities :=
        (Query.entities_of_parse_render hfirst hread).trans
          (Query.entities_applyAll_of_forall_edit hes q)
      have hcanonical := Query.canonical_of_parse_render hfirst hread
      have hrender : p.render = merge settings source es := by
        rw [hmerge, ← Query.render_canonical_of_isPlain hfirst, ← hcanonical,
          Query.render_eraseSpans]
      have hnone' : ¬∀ c ∈ es, target? p c = none := by
        simpa only [target?_of_entities_eq hentities] using hnone
      rw [Query.applyAll_eq_rebuild_reviseAt hes hq ⟨p, hp⟩] at hcanonical
      rw [merge_of_exists_ne_none hp hnone', Query.render_applyAll_of_canonical_eq hes
        (fun c hc => (h c hc).2) hpplain hnesting hentities hcanonical, hrender]

end Merge

/-- Two edits of one comparison, which leave a string, and one of a placeholder, which is written
then. -/
theorem merge_merge_edits_string :
    let source := "functionCall fc where and(fc.name == x, fc.a contain literal lit) ;"
    let es : List Constraint := [
      { path := "fc.name", value? := some "\"a b\"", action := .edit },
      { path := "fc.name", operator? := some "==", value? := some "c", action := .edit },
      { path := "lit", operator? := some "is", value? := some "number", action := .edit }]
    merge {} (merge {} source es) es = merge {} source es
      ∧ merge {} source es = "functionCall fc where and(fc.name == \"c\", "
        ++ "fc.a contain literal lit where lit is number ;) ;" := by
  intro source es
  have hes : ∀ c ∈ es, c.action = .edit ∧ c.former? = none := by decide
  exact ⟨merge_merge_edits hes, by decide +kernel⟩

end NodeQuery
