/-
The shape of conditions.

* `Condition.induction`: proofs by induction on conditions.
* `Condition.WellFormed`: groups have two members or more, entities are declared with names,
  and attributes are of a given sort; `Condition.IsPlain`: attributes are made of names.
* `Condition.depth`, `Condition.nesting`: how deep conditions are nested in one another.
* `Condition.escaped`: a condition in which values are what is written for them.
* `Query.queries_eq`: the queries in a query, by way of the leaves of conditions.

None of this depends on the places of queries, and neither does the text of a condition.
-/
import Mathlib.Data.List.Basic
import NodeQuery.Proofs.Literal
import NodeQuery.Query.Equality
import NodeQuery.Query.Printer

namespace NodeQuery

/-- Whether the declaration is made of names. -/
def Entity.isPlain (e : Entity) : Bool :=
  Literal.isName e.nodeType && e.alias?.all Literal.isName

theorem Entity.isName_referenceName {e : Entity} (h : e.isPlain = true) :
    Literal.isName e.referenceName = true := by
  obtain ⟨nodeType, alias?⟩ := e
  simp only [isPlain, Bool.and_eq_true] at h
  cases alias? with
  | none => exact h.1
  | some name => exact h.2

/-- Whether the attribute is made of names. -/
def Attribute.isPlain (a : Attribute) : Bool :=
  Literal.isName a.name && a.properties.all Literal.isName

namespace Condition

/-! ### Induction -/

/-- What holds of a condition if it holds of the conditions inside it holds of all. -/
@[induction_eliminator]
theorem induction {motive : Condition → Prop} (value : ∀ m, motive (.value m))
    (relation : ∀ a op e c spans, motive c → motive (.relation a op e c spans))
    (negation : ∀ c, motive c → motive (.negation c))
    (group : ∀ k cs, (∀ c ∈ cs, motive c) → motive (.group k cs)) (c : Condition) : motive c := by
  -- the recursor has a motive for lists as well, here that all members have the property
  refine @Condition.rec motive (fun cs => ∀ c ∈ cs, motive c) value relation negation group
    ?nil ?cons c
  case nil => exact fun c h => absurd h List.not_mem_nil
  case cons =>
    intro c cs hc hcs
    exact List.forall_mem_cons.mpr ⟨hc, hcs⟩

/-! ### Well-formed conditions -/

section WellFormed

variable (P : Attribute → Prop)

mutual

/-- Groups have two members or more, entities are declared with names, and attributes are of
the sort `P`. -/
def WellFormed : Condition → Prop
  | value m => P m.subject
  | relation a _ e c _ => P a ∧ e.isPlain = true ∧ c.WellFormed
  | negation c => c.WellFormed
  | group _ cs => 2 ≤ cs.length ∧ AllWellFormed cs

/-- All of the conditions are well-formed. -/
def AllWellFormed : List Condition → Prop
  | [] => True
  | c :: cs => c.WellFormed ∧ AllWellFormed cs

end

end WellFormed

section Decidable

variable {P : Attribute → Prop} [DecidablePred P]

mutual

/-- Whether a condition is well-formed can be decided if the sort of attributes can. -/
def decidableWellFormed : (c : Condition) → Decidable (c.WellFormed P)
  | value m => inferInstanceAs (Decidable (P m.subject))
  | relation a _ e c _ =>
    have := decidableWellFormed c
    inferInstanceAs (Decidable (P a ∧ e.isPlain = true ∧ c.WellFormed P))
  | negation c => decidableWellFormed c
  | group _ cs =>
    have := decidableAllWellFormed cs
    inferInstanceAs (Decidable (2 ≤ cs.length ∧ AllWellFormed P cs))

/-- Whether all conditions are well-formed can be decided. -/
def decidableAllWellFormed : (cs : List Condition) → Decidable (AllWellFormed P cs)
  | [] => inferInstanceAs (Decidable True)
  | c :: cs =>
    have := decidableWellFormed c
    have := decidableAllWellFormed cs
    inferInstanceAs (Decidable (c.WellFormed P ∧ AllWellFormed P cs))

end

instance (c : Condition) : Decidable (c.WellFormed P) :=
  decidableWellFormed c

end Decidable

theorem allWellFormed_iff {P : Attribute → Prop} {cs : List Condition} :
    AllWellFormed P cs ↔ ∀ c ∈ cs, c.WellFormed P := by
  induction cs with
  | nil => simp [AllWellFormed]
  | cons c cs ih => rw [AllWellFormed, ih, List.forall_mem_cons]

theorem WellFormed.mono {P Q : Attribute → Prop} (h : ∀ a, P a → Q a) {c : Condition}
    (hc : c.WellFormed P) : c.WellFormed Q := by
  induction c with
  | value m => exact h _ hc
  | relation a op e c spans ih => exact ⟨h _ hc.1, hc.2.1, ih hc.2.2⟩
  | negation c ih => exact ih hc
  | group k cs ih =>
    refine ⟨hc.1, allWellFormed_iff.mpr fun c hmem => ?_⟩
    exact ih c hmem (allWellFormed_iff.mp hc.2 c hmem)

/-- Attributes and declarations are made of names, and groups have two members or more. -/
def IsPlain (c : Condition) : Prop :=
  c.WellFormed fun a => a.isPlain = true

instance (c : Condition) : Decidable c.IsPlain :=
  inferInstanceAs (Decidable (c.WellFormed fun a => a.isPlain = true))

/-! ### How deep conditions are nested -/

section Depth

variable (extra : Attribute → Nat)

mutual

/-- How deep conditions are nested in one another, if each attribute adds some levels to
those of the leaf in which it stands. A nested query without `where` adds none. -/
def depth : Condition → Nat
  | value m => extra m.subject + 1
  | relation a _ e c _ => extra a + if c.isPlaceholder e then 1 else c.depth + 1
  | negation c => c.depth + 1
  | group _ cs => depthOfAll cs + 1

/-- The depth of the deepest of the conditions. -/
def depthOfAll : List Condition → Nat
  | [] => 0
  | c :: cs => max c.depth (depthOfAll cs)

end

end Depth

/-- How deep conditions are nested in one another. -/
def nesting (c : Condition) : Nat :=
  c.depth fun _ => 0

theorem depth_congr {f g : Attribute → Nat} {P : Attribute → Prop} (hfg : ∀ a, P a → f a = g a)
    {c : Condition} (hc : c.WellFormed P) : c.depth f = c.depth g := by
  induction c with
  | value m => rw [depth, depth, hfg _ hc]
  | relation a op e c spans ih => rw [depth, depth, hfg _ hc.1, ih hc.2.2]
  | negation c ih => rw [depth, depth, ih hc]
  | group k cs ih =>
    have key : ∀ ds ⊆ cs, depthOfAll f ds = depthOfAll g ds := by
      intro ds hds
      induction ds with
      | nil => rfl
      | cons d ds ihs =>
        obtain ⟨hd, hds⟩ := List.cons_subset.mp hds
        rw [depthOfAll, depthOfAll, ih d hd (allWellFormed_iff.mp hc.2 d hd), ihs hds]
    rw [depth, depth, key cs (List.Subset.refl cs)]

section Bounds

variable {extra : Attribute → Nat}

theorem one_le_depth (c : Condition) : 1 ≤ c.depth extra := by
  cases c with
  | relation a op e c spans =>
    rw [depth]
    split_ifs <;> omega
  | _ => exact Nat.le_add_left 1 _

theorem depth_le_depthOfAll {cs : List Condition} {c : Condition} (h : c ∈ cs) :
    c.depth extra ≤ depthOfAll extra cs := by
  induction cs with
  | nil => cases h
  | cons d cs ih =>
    rw [depthOfAll]
    rcases List.mem_cons.mp h with rfl | h
    · exact le_max_left _ _
    · exact (ih h).trans (le_max_right _ _)

theorem depthOfAll_le {cs : List Condition} {n : Nat} (h : ∀ c ∈ cs, c.depth extra ≤ n) :
    depthOfAll extra cs ≤ n := by
  induction cs with
  | nil => exact Nat.zero_le n
  | cons c cs ih =>
    rw [List.forall_mem_cons] at h
    exact max_le h.1 (ih h.2)

theorem depthOfAll_append (cs ds : List Condition) :
    depthOfAll extra (cs ++ ds) = max (depthOfAll extra cs) (depthOfAll extra ds) := by
  induction cs with
  | nil => exact (Nat.zero_max _).symm
  | cons c cs ih => rw [List.cons_append, depthOfAll, depthOfAll, ih, max_assoc]

end Bounds

/-! ### Values as they are written -/

mutual

/-- The condition in which each value is what is written for it. -/
def escaped : Condition → Condition
  | value m => .value ⟨m.subject, m.operator, Literal.escape m.value⟩
  | relation a op e c spans => .relation a op e c.escaped spans
  | negation c => .negation c.escaped
  | group k cs => .group k (escapedAll cs)

/-- The conditions in which each value is what is written for it. -/
def escapedAll : List Condition → List Condition
  | [] => []
  | c :: cs => c.escaped :: escapedAll cs

end

theorem eraseAllSpans_eq_map (cs : List Condition) : eraseAllSpans cs = cs.map eraseSpans := by
  induction cs with
  | nil => rfl
  | cons c cs ih => rw [eraseAllSpans, ih, List.map_cons]

theorem escapedAll_eq_map (cs : List Condition) : escapedAll cs = cs.map escaped := by
  induction cs with
  | nil => rfl
  | cons c cs ih => rw [escapedAll, ih, List.map_cons]

theorem renderAll_eq_map (cs : List Condition) : renderAll cs = cs.map render := by
  induction cs with
  | nil => rfl
  | cons c cs ih => rw [renderAll, ih, List.map_cons]

/-! ### Conditions without places -/

theorem eq_value_of_eraseSpans {c : Condition} {m : ValueMatch}
    (h : c.eraseSpans = .value m) : c = .value m := by
  cases c with
  | value n => exact h
  | _ => simp [eraseSpans] at h

theorem isPlaceholder_eraseSpans (e : Entity) (c : Condition) :
    c.eraseSpans.isPlaceholder e = c.isPlaceholder e := by
  cases c <;> rfl

theorem render_eraseSpans (c : Condition) : c.eraseSpans.render = c.render := by
  induction c with
  | value m => rfl
  | relation a op e c spans ih =>
    rw [eraseSpans, render, render, Entity.renderNested, Entity.renderNested, ih,
      isPlaceholder_eraseSpans]
  | negation c ih => rw [eraseSpans, render, render, ih]
  | group k cs ih =>
    have hmap : cs.map (render ∘ eraseSpans) = cs.map render := List.map_congr_left ih
    rw [eraseSpans, render, render, eraseAllSpans_eq_map, renderAll_eq_map, renderAll_eq_map,
      List.map_map, hmap]

theorem wellFormed_eraseSpans {P : Attribute → Prop} {c : Condition} :
    c.eraseSpans.WellFormed P ↔ c.WellFormed P := by
  induction c with
  | value m => rfl
  | relation a op e c spans ih => rw [eraseSpans, WellFormed, WellFormed, ih]
  | negation c ih => exact ih
  | group k cs ih =>
    rw [eraseSpans, WellFormed, WellFormed, eraseAllSpans_eq_map, allWellFormed_iff,
      allWellFormed_iff, List.length_map, List.forall_mem_map]
    exact and_congr_right fun _ => forall₂_congr ih

theorem depth_eraseSpans (extra : Attribute → Nat) (c : Condition) :
    c.eraseSpans.depth extra = c.depth extra := by
  induction c with
  | value m => rfl
  | relation a op e c spans ih => rw [eraseSpans, depth, depth, ih, isPlaceholder_eraseSpans]
  | negation c ih => rw [eraseSpans, depth, depth, ih]
  | group k cs ih =>
    -- the deepest member is as deep as before
    have key : depthOfAll extra (cs.map eraseSpans) = depthOfAll extra cs := by
      induction cs with
      | nil => rfl
      | cons c cs ihs =>
        rw [List.forall_mem_cons] at ih
        rw [List.map_cons, depthOfAll, depthOfAll, ih.1, ihs ih.2]
    rw [eraseSpans, depth, depth, eraseAllSpans_eq_map, key]

/-- Values are what is written for them in a condition if they are once places are left out. -/
theorem escaped_eq_self {c : Condition} (h : c.eraseSpans.escaped = c.eraseSpans) :
    c.escaped = c := by
  induction c with
  | value m => exact h
  | relation a op e c spans ih =>
    simp only [eraseSpans, escaped, relation.injEq, true_and, and_true] at h
    rw [escaped, ih h]
  | negation c ih =>
    simp only [eraseSpans, escaped, negation.injEq] at h
    rw [escaped, ih h]
  | group k cs ih =>
    simp only [eraseSpans, escaped, group.injEq, true_and, eraseAllSpans_eq_map,
      escapedAll_eq_map, List.map_map] at h
    rw [escaped, escapedAll_eq_map]
    congr 1
    refine (List.map_congr_left fun c hc => ih c hc ?_).trans (List.map_id _)
    exact List.map_inj_left.mp h c hc

/-! ### Placeholders -/

theorem isPlaceholder_iff {e : Entity} {c : Condition} :
    c.isPlaceholder e = true ↔ c = placeholder e := by
  cases c <;> simp [isPlaceholder, placeholder]

theorem escaped_placeholder {e : Entity} (h : e.isPlain = true) :
    (placeholder e).escaped = placeholder e := by
  simp only [Entity.isPlain, Bool.and_eq_true] at h
  simp [placeholder, escaped, Literal.escape_of_isName h.1]

theorem isPlain_placeholder {e : Entity} (h : e.isPlain = true) : (placeholder e).IsPlain := by
  simp [IsPlain, placeholder, WellFormed, Attribute.node, Attribute.isPlain,
    Entity.isName_referenceName h]

/-! ### Queries in queries -/

theorem queries_eq (c : Condition) :
    c.queries = (c.atomics.filterMap Atomic.query?).flatMap Query.queries := by
  induction c with
  | value m => rfl
  | relation a op e c spans ih => simp [queries, atomics, Atomic.query?, Query.queries]
  | negation c ih => exact ih
  | group k cs ih =>
    rw [queries, atomics, queriesOfAll_eq_flatMap, atomicsOfAll_eq_flatMap,
      List.filterMap_flatMap, List.flatMap_assoc]
    exact List.flatMap_congr ih

end Condition

namespace Query

/-- The queries in a query are the query itself and those in each query nested directly in it. -/
theorem queries_eq (q : Query) : q.queries = q :: q.nestedQueries.flatMap Query.queries := by
  rw [queries, Condition.queries_eq]
  rfl

/-- The query in which each value is what is written for it. -/
def escaped (q : Query) : Query :=
  ⟨q.entity, q.condition.escaped, q.spans⟩

/-- Declarations and attributes are made of names, and groups have two members or more. -/
def IsPlain (q : Query) : Prop :=
  q.entity.isPlain = true ∧ q.condition.IsPlain

instance (q : Query) : Decidable q.IsPlain :=
  inferInstanceAs (Decidable (q.entity.isPlain = true ∧ q.condition.IsPlain))

end Query

end NodeQuery
