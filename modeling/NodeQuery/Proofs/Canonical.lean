/-
What is read of a query that was written.

A query made of names is read, once it is written, as itself, but that its values are what is
written for them and that its parts stand somewhere. So two queries that are the same in these
respects are written alike, have the same declarations, and are nested equally deep.

* `Condition.canonical`, `Query.canonical`: what is read of a condition or a query, places apart.
* `Query.canonical_of_parse_render`: what is read of a query made of names.
* `Condition.render_canonical`, `Condition.nesting_canonical`, `Condition.queries_canonical`: what
  does not change by that.
* `Condition.KeepsShape`: the maps of conditions that change values at most; they keep the numbers
  of queries.
* `Condition.canonical_rebuild`: changes for which only canonical conditions count.
* `changesAt_of_entities_eq`: the constraints that are aimed at a query that is read again.
-/
import NodeQuery.Proofs.Merging

namespace NodeQuery

/-! ### Values that are written as names -/

/-- Only a name is written as a name. -/
theorem Literal.eq_of_escape_eq {v s : String} (hs : isName s = true) (h : escape v = s) :
    v = s := by
  rw [escape] at h
  split_ifs at h
  · exact h
  · -- a string begins with a quote, and no name does
    have hword := isWord_of_isName hs
    rw [← h, quote, String.toList_ofList] at hword
    exact absurd hword (by simp [isWord, Lexeme.isWordStart])

namespace Condition

/-! ### Canonical conditions -/

/-- The condition that is read of a condition made of names once it is written, without the places
of queries. -/
def canonical (c : Condition) : Condition :=
  c.escaped.eraseSpans

@[simp] theorem canonical_value (m : ValueMatch) :
    (value m).canonical = .value ⟨m.subject, m.operator, Literal.escape m.value⟩ := rfl

@[simp] theorem canonical_relation (a : Attribute) (op : RelOp) (e : Entity) (c : Condition)
    (spans : QuerySpans) :
    (relation a op e c spans).canonical = .relation a op e c.canonical {} := rfl

@[simp] theorem canonical_negation (c : Condition) :
    (negation c).canonical = .negation c.canonical := rfl

@[simp] theorem canonical_group (k : Connective) (cs : List Condition) :
    (group k cs).canonical = .group k (cs.map canonical) := by
  rw [canonical, escaped, eraseSpans, escapedAll_eq_map, eraseAllSpans_eq_map, List.map_map]
  rfl

theorem canonical_eraseSpans (c : Condition) : c.eraseSpans.canonical = c.canonical := by
  induction c with
  | value m => rfl
  | relation a op e c spans ih => rw [eraseSpans, canonical_relation, canonical_relation, ih]
  | negation c ih => rw [eraseSpans, canonical_negation, canonical_negation, ih]
  | group k cs ih =>
    rw [eraseSpans, canonical_group, canonical_group, eraseAllSpans_eq_map, List.map_map]
    exact congrArg _ (List.map_congr_left ih)

theorem canonical_canonical (c : Condition) : c.canonical.canonical = c.canonical := by
  induction c with
  | value m => rw [canonical_value, canonical_value, Literal.escape_escape]
  | relation a op e c spans ih => rw [canonical_relation, canonical_relation, ih]
  | negation c ih => rw [canonical_negation, canonical_negation, ih]
  | group k cs ih =>
    rw [canonical_group, canonical_group, List.map_map]
    exact congrArg _ (List.map_congr_left ih)

theorem canonical_placeholder {e : Entity} (he : e.isPlain = true) :
    (placeholder e).canonical = placeholder e := by
  rw [canonical, escaped_placeholder he]
  rfl

theorem isPlaceholder_canonical {e : Entity} (he : e.isPlain = true) (c : Condition) :
    c.canonical.isPlaceholder e = c.isPlaceholder e := by
  cases c with
  | value m =>
    have hname : Literal.isName e.nodeType = true := by
      rw [Entity.isPlain, Bool.and_eq_true] at he
      exact he.1
    -- the type of the node is the value just when it is what is written for the value
    have hvalue : Literal.escape m.value = e.nodeType ↔ m.value = e.nodeType := by
      constructor
      · exact Literal.eq_of_escape_eq hname
      · intro h
        rw [h, Literal.escape_of_isName hname]
    obtain ⟨a, op, v⟩ := m
    simp only [canonical_value, isPlaceholder, ValueMatch.mk.injEq, hvalue]
  | _ => rfl

/-! ### What does not change -/

section WellFormed

variable {P : Attribute → Prop} {c : Condition}

theorem render_canonical (h : c.WellFormed P) : c.canonical.render = c.render := by
  induction c with
  | value m => rw [canonical_value, render, render, ValueMatch.render, ValueMatch.render,
      Literal.escape_escape]
  | relation a op e c spans ih =>
    rw [canonical_relation, render, render, Entity.renderNested, Entity.renderNested, ih h.2.2,
      isPlaceholder_canonical h.2.1]
  | negation c ih => rw [canonical_negation, render, render, ih h]
  | group k cs ih =>
    have hmap : cs.map (render ∘ canonical) = cs.map render :=
      List.map_congr_left fun c hc => ih c hc (allWellFormed_iff.mp h.2 c hc)
    rw [canonical_group, render, render, renderAll_eq_map, renderAll_eq_map, List.map_map, hmap]

theorem depth_canonical (extra : Attribute → Nat) (h : c.WellFormed P) :
    c.canonical.depth extra = c.depth extra := by
  induction c with
  | value m => rfl
  | relation a op e c spans ih =>
    rw [canonical_relation, depth, depth, ih h.2.2, isPlaceholder_canonical h.2.1]
  | negation c ih => rw [canonical_negation, depth, depth, ih h]
  | group k cs ih =>
    have key : ∀ ds ⊆ cs, depthOfAll extra (ds.map canonical) = depthOfAll extra ds := by
      intro ds hds
      induction ds with
      | nil => rfl
      | cons d ds ihs =>
        obtain ⟨hd, hds⟩ := List.cons_subset.mp hds
        rw [List.map_cons, depthOfAll, depthOfAll,
          ih d hd (allWellFormed_iff.mp h.2 d hd), ihs hds]
    rw [canonical_group, depth, depth, key cs (List.Subset.refl cs)]

theorem nesting_canonical (h : c.WellFormed P) : c.canonical.nesting = c.nesting :=
  depth_canonical _ h

end WellFormed

end Condition

/-- The query that is read of a query made of names once it is written, without places. -/
def Query.canonical (q : Query) : Query :=
  ⟨q.entity, q.condition.canonical, {}⟩

namespace Condition

/-! ### Queries and their numbers -/

/-- The map changes nothing of a condition but the values in it, and leaves out the places of
queries. -/
structure KeepsShape (g : Condition → Condition) : Prop where
  value : ∀ m, ∃ v, g (.value m) = .value ⟨m.subject, m.operator, v⟩
  relation : ∀ a op e c spans, g (.relation a op e c spans) = .relation a op e (g c) {}
  negation : ∀ c, g (.negation c) = .negation (g c)
  group : ∀ k cs, g (.group k cs) = .group k (cs.map g)

theorem keepsShape_canonical : KeepsShape canonical where
  value m := ⟨_, canonical_value m⟩
  relation := canonical_relation
  negation := canonical_negation
  group := canonical_group

theorem keepsShape_eraseSpans : KeepsShape eraseSpans where
  value m := ⟨m.value, rfl⟩
  relation _ _ _ _ _ := rfl
  negation _ := rfl
  group _ _ := by rw [eraseSpans, eraseAllSpans_eq_map]

section KeepsShape

variable {g : Condition → Condition} (hg : KeepsShape g)

include hg

theorem KeepsShape.queries (c : Condition) :
    (g c).queries = c.queries.map fun p => ⟨p.entity, g p.condition, {}⟩ := by
  induction c with
  | value m =>
    obtain ⟨v, hv⟩ := hg.value m
    rw [hv]
    rfl
  | relation a op e c spans ih =>
    rw [hg.relation, Condition.queries, Condition.queries, List.map_cons, ih]
  | negation c ih =>
    rw [hg.negation]
    exact ih
  | group k cs ih =>
    rw [hg.group, Condition.queries, Condition.queries, queriesOfAll_eq_flatMap,
      queriesOfAll_eq_flatMap, List.flatMap_map, List.map_flatMap]
    exact List.flatMap_congr ih

/-- The leaves speak of the same attributes. -/
theorem KeepsShape.subjects (c : Condition) :
    (g c).atomics.map Atomic.subject = c.atomics.map Atomic.subject := by
  induction c with
  | value m =>
    obtain ⟨v, hv⟩ := hg.value m
    rw [hv]
    rfl
  | relation a op e c spans ih =>
    rw [hg.relation]
    rfl
  | negation c ih =>
    rw [hg.negation]
    exact ih
  | group k cs ih =>
    rw [hg.group, atomics, atomics, atomicsOfAll_eq_flatMap, atomicsOfAll_eq_flatMap,
      List.flatMap_map, List.map_flatMap, List.map_flatMap]
    exact List.flatMap_congr ih

theorem KeepsShape.forall_atomics {c : Condition} {P : Attribute → Prop} :
    (∀ a ∈ (g c).atomics, P a.subject) ↔ ∀ a ∈ c.atomics, P a.subject := by
  rw [← List.forall_mem_map (P := P), hg.subjects, List.forall_mem_map]

theorem KeepsShape.wellFormed {P : Attribute → Prop} {c : Condition} :
    (g c).WellFormed P ↔ c.WellFormed P := by
  induction c with
  | value m =>
    obtain ⟨v, hv⟩ := hg.value m
    rw [hv]
    rfl
  | relation a op e c spans ih => rw [hg.relation, WellFormed, WellFormed, ih]
  | negation c ih =>
    rw [hg.negation]
    exact ih
  | group k cs ih =>
    rw [hg.group, WellFormed, WellFormed, allWellFormed_iff, allWellFormed_iff, List.length_map,
      List.forall_mem_map]
    exact and_congr_right fun _ => forall₂_congr ih

theorem KeepsShape.length_queries (c : Condition) : (g c).queries.length = c.queries.length := by
  rw [hg.queries, List.length_map]

end KeepsShape

theorem queries_canonical (c : Condition) : c.canonical.queries = c.queries.map Query.canonical :=
  keepsShape_canonical.queries c

theorem length_queries_canonical (c : Condition) :
    c.canonical.queries.length = c.queries.length :=
  keepsShape_canonical.length_queries c

end Condition

namespace Query

theorem queries_canonical (q : Query) : q.canonical.queries = q.queries.map canonical := by
  rw [queries, queries, List.map_cons, canonical, Condition.queries_canonical]

theorem queries_eraseSpans (q : Query) : q.eraseSpans.queries = q.queries.map eraseSpans := by
  rw [queries, queries, List.map_cons, eraseSpans, Condition.keepsShape_eraseSpans.queries]
  rfl

theorem entities_canonical (q : Query) : q.canonical.entities = q.entities := by
  rw [entities, queries_canonical, List.map_map]
  rfl

theorem canonical_eraseSpans (q : Query) : q.eraseSpans.canonical = q.canonical := by
  rw [canonical, canonical, eraseSpans, Condition.canonical_eraseSpans]

theorem canonical_canonical (q : Query) : q.canonical.canonical = q.canonical := by
  rw [canonical, canonical, Condition.canonical_canonical]

theorem render_canonical {P : Attribute → Prop} {q : Query} (h : q.condition.WellFormed P) :
    q.canonical.render = q.render := by
  rw [render, render, canonical, Condition.render_canonical h]

theorem render_canonical_of_isPlain {q : Query} (h : q.IsPlain) : q.canonical.render = q.render :=
  render_canonical h.2

/-- What is read of a query made of names, once it is written. -/
theorem canonical_of_parse_render {p q : Query} (hq : q.IsPlain) (h : parse q.render = .ok p) :
    p.eraseSpans = q.canonical := by
  have hparse := parse_of_rereads hq.1 (rereads_of_isPlain hq.2) q.spans
  have hle : q.condition.nesting ≤ Parser.maxNesting := by
    by_contra hdeep
    exact hparse.2 (not_le.mp hdeep) p h
  obtain ⟨p', hp', herase⟩ := hparse.1 hle
  rw [Except.ok.inj (h.symm.trans hp')]
  exact herase

/-- A query that is read of what was written for another one is written like that one. -/
theorem canonical_eq_of_parse_render {p q : Query} (hq : q.IsPlain) (h : parse q.render = .ok p) :
    p.canonical = q.canonical := by
  rw [← canonical_eraseSpans, canonical_of_parse_render hq h, canonical_canonical]

end Query

/-! ### Changes of all conditions -/

section Rebuild

variable {change : Nat → Entity → Condition → Condition} {P : Attribute → Prop}

/-- If places are of no account to a change, neither are they to a rebuild with it. -/
theorem Condition.eraseSpans_rebuild
    (hchange : ∀ i e c, (change i e c).eraseSpans = change i e c.eraseSpans) (c : Condition)
    (next : Nat) : (c.rebuild change next).eraseSpans = c.eraseSpans.rebuild change next := by
  induction c generalizing next with
  | value m => rfl
  | relation a op e c spans ih => rw [rebuild, eraseSpans, eraseSpans, rebuild, hchange, ih]
  | negation c ih => rw [rebuild, eraseSpans, eraseSpans, rebuild, ih]
  | group k cs ih =>
    have key : ∀ next, (rebuildAll change next cs).map eraseSpans
        = rebuildAll change next (cs.map eraseSpans) := by
      induction cs with
      | nil => exact fun _ => rfl
      | cons c cs ihs =>
        rw [List.forall_mem_cons] at ih
        intro next
        rw [rebuildAll, List.map_cons, List.map_cons, rebuildAll, ih.1, ihs ih.2,
          keepsShape_eraseSpans.length_queries]
    rw [rebuild, eraseSpans, eraseSpans, rebuild, eraseAllSpans_eq_map, eraseAllSpans_eq_map, key]

/-- If a change makes the same of conditions that are written alike, so does a rebuild with it. -/
theorem Condition.canonical_rebuild
    (hchange : ∀ i e c, e.isPlain = true →
      (change i e c).canonical = (change i e c.canonical).canonical)
    {c : Condition} (h : c.WellFormed P) (next : Nat) :
    (c.rebuild change next).canonical = (c.canonical.rebuild change next).canonical := by
  induction c generalizing next with
  | value m => exact (canonical_canonical (.value m)).symm
  | relation a op e c spans ih =>
    obtain ⟨-, he, hc⟩ := h
    rw [canonical_relation, rebuild, rebuild, canonical_relation, canonical_relation,
      hchange next e _ he, ih hc, ← hchange next e _ he]
  | negation c ih =>
    rw [canonical_negation, rebuild, rebuild, canonical_negation, canonical_negation, ih h]
  | group k cs ih =>
    have key : ∀ ds ⊆ cs, ∀ next, (rebuildAll change next ds).map canonical
        = (rebuildAll change next (ds.map canonical)).map canonical := by
      intro ds hds
      induction ds with
      | nil => exact fun _ => rfl
      | cons d ds ihs =>
        obtain ⟨hd, hds⟩ := List.cons_subset.mp hds
        intro next
        rw [List.map_cons, rebuildAll, rebuildAll, List.map_cons, List.map_cons,
          length_queries_canonical, ih d hd (allWellFormed_iff.mp h.2 d hd), ihs hds]
    rw [canonical_group, rebuild, rebuild, canonical_group, canonical_group,
      key cs (List.Subset.refl cs)]

theorem Query.canonical_rebuild
    (hchange : ∀ i e c, e.isPlain = true →
      (change i e c).canonical = (change i e c.canonical).canonical)
    {q : Query} (he : q.entity.isPlain = true) (h : q.condition.WellFormed P) :
    (q.rebuild change).canonical = (q.canonical.rebuild change).canonical := by
  rw [rebuild, rebuild, canonical, canonical, canonical, hchange 0 _ _ he,
    Condition.canonical_rebuild hchange h, ← hchange 0 _ _ he]

end Rebuild

/-! ### Constraints aimed at a query that is read again -/

section Targets

variable {p q : Query}

theorem target?_of_entities_eq (h : p.entities = q.entities) (c : Constraint) :
    target? p c = target? q c := by
  have haliases : ∀ r : Query, (r.queries.map fun s => s.entity.alias?)
      = r.entities.map Entity.alias? := fun r => (List.map_map ..).symm
  rw [target?, target?, haliases p, haliases q, h]

theorem changesAt_of_entities_eq (h : p.entities = q.entities) (cs : List Constraint) :
    changesAt p cs = changesAt q cs := by
  funext i
  simp only [changesAt, target?_of_entities_eq h]

/-- Constraints that all do the same are the changes of that kind. -/
theorem filter_action {cs : List Constraint} {action : Constraint.Action}
    (h : ∀ c ∈ cs, c.action = action) (other : Constraint.Action) :
    cs.filter (·.action = other) = if action = other then cs else [] := by
  split_ifs with heq
  · rw [List.filter_eq_self]
    intro c hc
    simp [h c hc, heq]
  · rw [List.filter_eq_nil_iff]
    intro c hc
    simp [h c hc, heq]

theorem Condition.length_queries_eq {c d : Condition} (h : c.entities = d.entities) :
    c.queries.length = d.queries.length := by
  have hlength := congrArg List.length h
  rwa [entities, entities, List.length_map, List.length_map] at hlength

/-- What is read of a query has the declarations of the query. -/
theorem Query.entities_of_parse_render (hq : q.IsPlain) (h : parse q.render = .ok p) :
    p.entities = q.entities := by
  rw [← entities_canonical p, canonical_eq_of_parse_render hq h, entities_canonical]

end Targets

end NodeQuery
