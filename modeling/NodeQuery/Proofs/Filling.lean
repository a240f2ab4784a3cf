/-
Edits, and the queries nested in the condition that is edited.

The queries nested directly in a condition can be marked with their numbers, and later another
query can be put in the place of each that is still there. Edits do not look into nested queries,
so that it makes no difference to them which query that is.

* `Condition.numbered`, `Condition.nested?`, `Condition.fill`: nested queries marked, found by
  their numbers, and replaced.
* `Condition.fill_rebuilt`: queries rebuilt where they stand, as queries put in their places.
* `Condition.ActsInside`: the maps of conditions that change nested queries at most;
  `Condition.ActsInside.remove`, `Condition.ActsInside.update`, `Condition.ActsInside.join`: one
  edit in a condition to which such a map is applied.
* `Constraint.fill_condition`: what a constraint describes has no marks in it.
-/
import NodeQuery.Proofs.Opening

namespace NodeQuery

/-! ### Marks -/

namespace QuerySpans

/-- A mark in the place of the spans of a query. A query that is read of a text has none, as its
declaration stands somewhere in the text. -/
def mark (i : Nat) : QuerySpans :=
  { whereWord := some ⟨i, i⟩ }

/-- The number with which a query is marked. -/
def number? (spans : QuerySpans) : Option Nat :=
  if spans.entity.isSome then none else spans.whereWord.map Span.start

@[simp] theorem number?_mark (i : Nat) : (mark i).number? = some i := rfl

end QuerySpans

namespace Condition

mutual

/-- A condition in which each query nested directly in it is marked with its number; `next`
queries are in front. -/
def numbered (next : Nat) : Condition → Condition
  | value m => .value m
  | relation a op e c _ => .relation a op e c (.mark next)
  | negation c => .negation (c.numbered next)
  | group k cs => .group k (numberedAll next cs)

/-- Conditions in which each query nested directly in them is marked with its number. -/
def numberedAll (next : Nat) : List Condition → List Condition
  | [] => []
  | c :: cs => c.numbered next :: numberedAll (next + c.queries.length) cs

end

mutual

/-- The query with the number `i`, if it is nested directly in the condition. -/
def nested? (next i : Nat) : Condition → Option Query
  | value _ => none
  | relation _ _ e c spans => if i = next then some ⟨e, c, spans⟩ else none
  | negation c => c.nested? next i
  | group _ cs => nestedInAll? next i cs

/-- The query with the number `i`, if it is nested directly in one of the conditions. -/
def nestedInAll? (next i : Nat) : List Condition → Option Query
  | [] => none
  | c :: cs =>
    if i < next + c.queries.length then c.nested? next i
    else nestedInAll? (next + c.queries.length) i cs

end

mutual

/-- A condition in which each query nested directly in it that is marked with a number is replaced
by the query for that number, if there is one. -/
def fill (queries : Nat → Option Query) : Condition → Condition
  | value m => .value m
  | relation a op e c spans =>
    relate a op ((spans.number?.bind queries).getD ⟨e, c, spans⟩)
  | negation c => .negation (c.fill queries)
  | group k cs => .group k (fillAll queries cs)

/-- Conditions in which marked queries are replaced. -/
def fillAll (queries : Nat → Option Query) : List Condition → List Condition
  | [] => []
  | c :: cs => c.fill queries :: fillAll queries cs

end

theorem exists_nested?_of_nestedInAll? {cs : List Condition} {next i : Nat} {q : Query}
    (h : nestedInAll? next i cs = some q) : ∃ c ∈ cs, ∃ next, c.nested? next i = some q := by
  induction cs generalizing next with
  | nil => cases h
  | cons c cs ih =>
    rw [nestedInAll?] at h
    split_ifs at h
    · exact ⟨c, List.mem_cons_self .., next, h⟩
    · obtain ⟨d, hd, hnested⟩ := ih h
      exact ⟨d, List.mem_cons_of_mem c hd, hnested⟩

theorem fillAll_eq_map (f : Nat → Option Query) (cs : List Condition) :
    fillAll f cs = cs.map (fill f) := by
  induction cs with
  | nil => rfl
  | cons c cs ih => rw [fillAll, ih, List.map_cons]

/-- A mark is a place like any other. -/
theorem eraseSpans_numbered (next : Nat) (c : Condition) :
    (c.numbered next).eraseSpans = c.eraseSpans := by
  induction c generalizing next with
  | value m => rfl
  | relation a op e c spans ih => rfl
  | negation c ih => rw [numbered, eraseSpans, eraseSpans, ih]
  | group k cs ih =>
    have key : ∀ next, (numberedAll next cs).map eraseSpans = cs.map eraseSpans := by
      induction cs with
      | nil => exact fun _ => rfl
      | cons c cs ihs =>
        rw [List.forall_mem_cons] at ih
        intro next
        rw [numberedAll, List.map_cons, List.map_cons, ih.1, ihs ih.2]
    rw [numbered, eraseSpans, eraseSpans, eraseAllSpans_eq_map, eraseAllSpans_eq_map, key]

theorem isPlain_numbered {c : Condition} (h : c.IsPlain) (next : Nat) :
    (c.numbered next).IsPlain := by
  rw [IsPlain, ← wellFormed_eraseSpans, eraseSpans_numbered, wellFormed_eraseSpans]
  exact h

theorem nesting_numbered (next : Nat) (c : Condition) :
    (c.numbered next).nesting = c.nesting := by
  rw [nesting, ← depth_eraseSpans, eraseSpans_numbered, depth_eraseSpans, nesting]

end Condition

/-- A query with its condition and those of all queries in it changed; `i` queries are in front. -/
def Query.rebuildAt (change : Nat → Entity → Condition → Condition) (i : Nat) (q : Query) : Query :=
  ⟨q.entity, change i q.entity (q.condition.rebuild change (i + 1)), q.spans⟩

namespace Condition

/-! ### Queries in the places of others -/

section Places

variable {f g : Nat → Option Query}

theorem fillAll_numberedAll_congr {cs : List Condition} {next : Nat}
    (ih : ∀ c ∈ cs, ∀ next, (∀ i, next ≤ i → i < next + c.queries.length → f i = g i) →
      (c.numbered next).fill f = (c.numbered next).fill g)
    (h : ∀ i, next ≤ i → i < next + (queriesOfAll cs).length → f i = g i) :
    fillAll f (numberedAll next cs) = fillAll g (numberedAll next cs) := by
  induction cs generalizing next with
  | nil => rfl
  | cons c cs ihs =>
    rw [List.forall_mem_cons] at ih
    simp only [queriesOfAll, List.length_append] at h
    have hc := ih.1 next fun i h₁ h₂ => h i h₁ (by omega)
    have hcs := @ihs (next + c.queries.length) ih.2 fun i h₁ h₂ => h i (by omega) (by omega)
    rw [numberedAll, fillAll, fillAll, hc, hcs]

/-- Only the queries for the numbers of nested queries count. -/
theorem fill_numbered_congr {c : Condition} {next : Nat}
    (h : ∀ i, next ≤ i → i < next + c.queries.length → f i = g i) :
    (c.numbered next).fill f = (c.numbered next).fill g := by
  induction c generalizing next with
  | value m => rfl
  | relation a op e c spans ih =>
    have hnext : f next = g next := h next (le_refl next) (by simp [queries])
    simp [numbered, fill, hnext]
  | negation c ih => rw [numbered, fill, fill, ih h]
  | group k cs ih =>
    rw [numbered, fill, fill, fillAll_numberedAll_congr (fun c hc next => ih c hc) h]

/-- Nested queries are rebuilt where they stand, or put in their places once they are rebuilt. -/
theorem fill_rebuilt (change : Nat → Entity → Condition → Condition) (c : Condition) (next : Nat) :
    (c.numbered next).fill (fun i => (c.nested? next i).map (Query.rebuildAt change i))
      = c.rebuild change next := by
  induction c generalizing next with
  | value m => rfl
  | relation a op e c spans ih => simp [numbered, fill, nested?, relate, Query.rebuildAt, rebuild]
  | negation c ih => simpa only [numbered, fill, nested?, rebuild, negation.injEq] using ih next
  | group k cs ih =>
    have key : ∀ next, fillAll
        (fun i => (nestedInAll? next i cs).map (Query.rebuildAt change i)) (numberedAll next cs)
          = rebuildAll change next cs := by
      induction cs with
      | nil => exact fun _ => rfl
      | cons c cs ihs =>
        rw [List.forall_mem_cons] at ih
        intro next
        -- the numbers of queries in the first member are smaller than those in the others
        have hc : ∀ i, next ≤ i → i < next + c.queries.length →
            (nestedInAll? next i (c :: cs)).map (Query.rebuildAt change i)
              = (c.nested? next i).map (Query.rebuildAt change i) := by
          intro i _ hi
          rw [nestedInAll?, if_pos hi]
        have hcs : ∀ i, next + c.queries.length ≤ i →
            i < next + c.queries.length + (queriesOfAll cs).length →
            (nestedInAll? next i (c :: cs)).map (Query.rebuildAt change i)
              = (nestedInAll? (next + c.queries.length) i cs).map (Query.rebuildAt change i) := by
          intro i hi _
          rw [nestedInAll?, if_neg (not_lt.mpr hi)]
        rw [numberedAll, fillAll, rebuildAll, fill_numbered_congr hc, ih.1,
          fillAll_numberedAll_congr (fun c _ next => fill_numbered_congr) hcs, ihs ih.2]
    rw [numbered, fill, rebuild, ← key next]
    rfl

end Places

/-! ### Edits do not look into nested queries -/

/-- The map changes nothing of a condition but the queries nested directly in it. -/
structure ActsInside (g : Condition → Condition) : Prop where
  value : ∀ m, g (.value m) = .value m
  relation : ∀ a op e c spans, ∃ q : Query, g (.relation a op e c spans) = relate a op q
  negation : ∀ c, g (.negation c) = .negation (g c)
  group : ∀ k cs, g (.group k cs) = .group k (cs.map g)

theorem actsInside_fill (f : Nat → Option Query) : ActsInside (fill f) where
  value _ := rfl
  relation _ _ _ _ _ := ⟨_, rfl⟩
  negation _ := rfl
  group _ _ := by rw [fill, fillAll_eq_map]

theorem actsInside_eraseSpans : ActsInside eraseSpans where
  value _ := rfl
  relation _ _ e c _ := ⟨⟨e, c.eraseSpans, {}⟩, rfl⟩
  negation _ := rfl
  group _ _ := by rw [eraseSpans, eraseAllSpans_eq_map]

namespace ActsInside

variable {g : Condition → Condition} (hg : ActsInside g)

include hg

theorem isPlaceholder (e : Entity) (c : Condition) :
    (g c).isPlaceholder e = c.isPlaceholder e := by
  cases c with
  | value m => rw [hg.value]
  | relation a op d c spans =>
    obtain ⟨q, hq⟩ := hg.relation a op d c spans
    rw [hq]
    rfl
  | negation c =>
    rw [hg.negation]
    rfl
  | group k cs =>
    rw [hg.group]
    rfl

theorem regroup (k : Connective) (cs : List Condition) :
    regroup k (cs.map g) = (regroup k cs).map g := by
  match cs with
  | [] => rfl
  | [c] => rfl
  | c :: d :: cs => simp [Condition.regroup, hg.group]

theorem remove (s : Selector) (c : Condition) :
    (g c).remove s = ((c.remove s).1.map g, (c.remove s).2) := by
  induction c with
  | value m =>
    rw [hg.value, Condition.remove]
    split_ifs
    · rfl
    · rw [Option.map_some, hg.value]
  | relation a op e c spans ih =>
    -- a selector asks for the attribute and the operator only
    have hselects : ∀ q r : Query, s.selects (.relation a op q) = s.selects (.relation a op r) :=
      fun _ _ => rfl
    obtain ⟨q, hq⟩ := hg.relation a op e c spans
    rw [hq, relate, Condition.remove, Condition.remove, hselects _ ⟨e, c, spans⟩]
    split_ifs
    · rfl
    · rw [Option.map_some, hq, relate]
  | negation c ih =>
    rw [hg.negation, Condition.remove, Condition.remove, ih]
    simp [Function.comp_def, hg.negation]
  | group k cs ih =>
    have key : removeFromAll s (cs.map g)
        = ((removeFromAll s cs).1.map g, (removeFromAll s cs).2) := by
      induction cs with
      | nil => rfl
      | cons c cs ihs =>
        rw [List.forall_mem_cons] at ih
        rw [List.map_cons, removeFromAll, removeFromAll, ih.1]
        rcases hc : c.remove s with ⟨rest, hit⟩
        cases hit with
        | true => cases rest <;> simp
        | false => cases rest <;> simp [ihs ih.2]
    rw [hg.group, Condition.remove, Condition.remove, key]
    simp only [hg.regroup]

theorem update? (s : Selector) (new : String) (c : Condition) :
    (g c).update? s new = (c.update? s new).map g := by
  induction c with
  | value m =>
    rw [hg.value, Condition.update?]
    split_ifs
    · rw [Option.map_some, hg.value]
    · rfl
  | relation a op e c spans ih =>
    obtain ⟨q, hq⟩ := hg.relation a op e c spans
    rw [hq]
    rfl
  | negation c ih =>
    rw [hg.negation, Condition.update?, Condition.update?, ih, Option.map_map, Option.map_map]
    exact congrArg (Option.map · _) (funext fun d => (hg.negation d).symm)
  | group k cs ih =>
    have key : updateInAll? s new (cs.map g) = (updateInAll? s new cs).map (List.map g) := by
      induction cs with
      | nil => rfl
      | cons c cs ihs =>
        rw [List.forall_mem_cons] at ih
        rw [List.map_cons, updateInAll?, updateInAll?, ih.1]
        cases c.update? s new with
        | some d => rfl
        | none =>
          simp only [Option.map_none]
          rw [ihs ih.2, Option.map_map, Option.map_map]
          rfl
    rw [hg.group, Condition.update?, Condition.update?, key, Option.map_map, Option.map_map]
    exact congrArg (Option.map · _) (funext fun ds => (hg.group k ds).symm)

theorem update (s : Selector) (new : String) (c : Condition) :
    (g c).update s new = g (c.update s new) := by
  rw [Condition.update, Condition.update, hg.update?]
  cases c.update? s new <;> rfl

theorem join (k : Connective) (existing : Option Condition) (new : Condition) :
    join k (existing.map g) (g new) = g (join k existing new) := by
  match existing with
  | none => rfl
  | some (.group l cs) =>
    by_cases hl : l = k
    · simp [Condition.join, hg.group, hl]
    · simp [Condition.join, hg.group, hl]
  | some (.value m) => simp [Condition.join, hg.group, hg.value]
  | some (.relation a op e c spans) =>
    obtain ⟨q, hq⟩ := hg.relation a op e c spans
    simp [Condition.join, hg.group, hq, relate]
  | some (.negation c) => simp [Condition.join, hg.group, hg.negation]

end ActsInside

end Condition

/-! ### What is read of a text bears no marks -/

theorem number?_of_parseNested {source : String} {q : Query} (h : parseNested source = .ok q) :
    q.spans.number? = none := by
  obtain ⟨-, h⟩ := Parser.run_eq_ok.mp h
  rw [Parser.wholeNested] at h
  obtain ⟨⟨q', c₁⟩, h₁, h⟩ := Except.bind_eq_ok.mp h
  obtain ⟨⟨⟩, hend, h⟩ := Except.bind_eq_ok.mp h
  cases h
  rw [Parser.nestedQuery] at h₁
  obtain ⟨⟨e, c₂⟩, h₂, h₁⟩ := Except.bind_eq_ok.mp h₁
  -- the place of the declaration is known, with a condition behind it or without
  simp only at h₁
  split_ifs at h₁
  · obtain ⟨⟨inner, c₃⟩, h₃, h₁⟩ := Except.bind_eq_ok.mp h₁
    cases h₁
    rfl
  · cases h₁
    rfl

/-- What a constraint describes has no marks in it. -/
theorem Constraint.fill_condition (f : Nat → Option Query) {c : Constraint} {new : Condition}
    (h : c.condition? = some new) : new.fill f = new := by
  obtain ⟨p, hp, rfl⟩ := Option.map_eq_some_iff.mp h
  have hfill : p.fill f = p := by
    obtain ⟨a, operator, v, -, -, -, ⟨op, q, -, hq, rfl⟩ | ⟨op, -, -, rfl⟩⟩ :=
      positiveCondition?_eq_some hp
    · rw [Condition.relate, Condition.fill, number?_of_parseNested hq]
      rfl
    · rfl
  cases c.isNegative with
  | false => exact hfill
  | true => exact congrArg Condition.negation hfill

end NodeQuery
