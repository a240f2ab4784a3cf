/-
Additions lose nothing.

The first condition that is added may take the place of a placeholder, the others become members
of a group with what was there, or begin one. Whichever it is, apart from the placeholder, which
says nothing, each leaf stays where it was among the leaves, under as many negations as before,
and the leaf of each condition that is added comes last.

* `Condition.leaves`: the leaves of a condition, each with the negations around it.
* `Constraint.addedAtomic?`: the leaf that is added for a constraint.
* `Changes.leaves_add`: the leaves after one addition.
* `Changes.atomics_additions`: the leaves after a list of additions.
-/
import NodeQuery.Proofs.Merging

namespace NodeQuery

/-! ### Leaves and the negations around them -/

/-- A leaf of a condition, and the number of negations inside of which it stands. -/
structure Leaf where
  negations : Nat
  atomic : Atomic

/-- Whether a leaf is exactly the placeholder of an entity. -/
def Atomic.isPlaceholder (e : Entity) (a : Atomic) : Bool :=
  (Condition.ofAtomic a).isPlaceholder e

/-- Whether a leaf is the placeholder of an entity, and not negated. -/
def Leaf.isPlaceholder (e : Entity) (l : Leaf) : Bool :=
  l.negations = 0 && l.atomic.isPlaceholder e

/-- The leaf inside of one more negation. -/
def Leaf.negated (l : Leaf) : Leaf :=
  ⟨l.negations + 1, l.atomic⟩

namespace Condition

mutual

/-- The leaves of a condition, from left to right, with the negations around them; nested queries
are not looked into. -/
def leaves : Condition → List Leaf
  | value m => [⟨0, .value m⟩]
  | relation a op e c spans => [⟨0, .relation a op ⟨e, c, spans⟩⟩]
  | negation c => c.leaves.map Leaf.negated
  | group _ cs => leavesOfAll cs

/-- The leaves of conditions, one condition after the other. -/
def leavesOfAll : List Condition → List Leaf
  | [] => []
  | c :: cs => c.leaves ++ leavesOfAll cs

end

theorem leavesOfAll_eq_flatMap (cs : List Condition) : leavesOfAll cs = cs.flatMap leaves := by
  induction cs with
  | nil => rfl
  | cons c cs ih => rw [leavesOfAll, ih, List.flatMap_cons]

theorem map_atomic_leaves (c : Condition) : c.leaves.map Leaf.atomic = c.atomics := by
  induction c with
  | value m => rfl
  | relation a op e c spans ih => rfl
  | negation c ih =>
    rw [leaves, List.map_map, atomics, ← ih]
    rfl
  | group k cs ih =>
    rw [leaves, leavesOfAll_eq_flatMap, List.map_flatMap, atomics, atomicsOfAll_eq_flatMap]
    exact List.flatMap_congr ih

@[simp] theorem leaves_ofAtomic (a : Atomic) : (ofAtomic a).leaves = [⟨0, a⟩] := by
  cases a <;> rfl

@[simp] theorem atomic?_ofAtomic (a : Atomic) : (ofAtomic a).atomic? = some a := by
  cases a <;> rfl

theorem leaves_placeholder (e : Entity) :
    ∀ l ∈ (placeholder e).leaves, l.isPlaceholder e = true := by
  simp [placeholder, leaves, Leaf.isPlaceholder, Atomic.isPlaceholder, ofAtomic, isPlaceholder]

/-- What is joined with a condition comes behind its leaves. -/
theorem leaves_join (k : Connective) (existing : Option Condition) (new : Condition) :
    (join k existing new).leaves = existing.toList.flatMap leaves ++ new.leaves := by
  unfold join
  split
  · rfl
  · split_ifs <;> simp [leaves, leavesOfAll_eq_flatMap]
  · simp [leaves, leavesOfAll_eq_flatMap]

end Condition

/-! ### What is added for a constraint -/

namespace Constraint

/-- A condition with the sign of the constraint. -/
def signed (c : Constraint) (condition : Condition) : Condition :=
  if c.isNegative then .negation condition else condition

/-- The leaf of the condition that the constraint describes. -/
def atomic? (c : Constraint) : Option Atomic :=
  c.positiveCondition?.bind Condition.atomic?

/-- The condition that is added for the constraint, if it describes one that can be read. -/
def added? (c : Constraint) : Option Condition :=
  c.condition?.filter Condition.isReadable

/-- The leaf that is added for the constraint. -/
def addedAtomic? (c : Constraint) : Option Atomic :=
  c.added?.bind fun _ => c.atomic?

/-- The leaf that is added for the constraint, inside of a negation if the constraint is
negative. -/
def addedLeaf? (c : Constraint) : Option Leaf :=
  c.addedAtomic?.map fun a => ⟨if c.isNegative then 1 else 0, a⟩

variable {c : Constraint}

/-- A constraint describes a single leaf. -/
theorem condition?_eq (c : Constraint) :
    c.condition? = c.atomic?.map fun a => c.signed (.ofAtomic a) := by
  have hpositive : c.positiveCondition? = c.atomic?.map Condition.ofAtomic := by
    rw [atomic?]
    cases hp : c.positiveCondition? with
    | none => rfl
    | some p =>
      obtain ⟨a, operator, v, -, -, -, ⟨op, q, -, -, rfl⟩ | ⟨op, -, -, rfl⟩⟩ :=
        positiveCondition?_eq_some hp
      · rfl
      · rfl
  rw [condition?, hpositive, Option.map_map]
  rfl

theorem leaves_signed (c : Constraint) (a : Atomic) :
    (c.signed (.ofAtomic a)).leaves = [⟨if c.isNegative then 1 else 0, a⟩] := by
  rw [signed]
  split_ifs
  · simp [Condition.leaves, Leaf.negated]
  · simp

/-- What is added for a constraint is its leaf, negated if the constraint is negative. -/
theorem added?_eq_some_iff {new : Condition} :
    c.added? = some new ↔ ∃ a, c.addedAtomic? = some a ∧ new = c.signed (.ofAtomic a) := by
  rw [addedAtomic?, added?, condition?_eq]
  cases ha : c.atomic? with
  | none => simp
  | some a =>
    by_cases hreadable : (c.signed (.ofAtomic a)).isReadable = true
    · simp [Option.filter, hreadable, eq_comm]
    · simp [Option.filter, hreadable]

theorem leaves_added (c : Constraint) :
    c.added?.toList.flatMap Condition.leaves = c.addedLeaf?.toList := by
  cases hadded : c.added? with
  | none => simp [addedLeaf?, addedAtomic?, hadded]
  | some new =>
    obtain ⟨a, ha, rfl⟩ := added?_eq_some_iff.mp hadded
    simp [addedLeaf?, ha, leaves_signed]

theorem map_atomic_addedLeaf? (c : Constraint) : c.addedLeaf?.map Leaf.atomic = c.addedAtomic? := by
  rw [addedLeaf?]
  cases c.addedAtomic? with
  | none => rfl
  | some a => rfl

end Constraint

/-! ### The leaves after additions -/

namespace Changes

variable {settings : Settings} {e : Entity}

theorem add_eq (settings : Settings) (e : Entity) (c : Condition) (x : Constraint) :
    add settings e c x = match x.added? with
      | none => c
      | some new => Condition.join settings.combine
          (if c.isPlaceholder e then none else some c) new := by
  rw [add, Constraint.added?]
  cases x.condition? with
  | none => rfl
  | some new =>
    by_cases hreadable : new.isReadable = true
    · simp [Option.filter, hreadable]
    · simp [Option.filter, hreadable]

/-- One addition puts its leaf behind the others, of which it takes away the placeholder at
most. -/
theorem leaves_add (settings : Settings) (e : Entity) (c : Condition) (x : Constraint) :
    (add settings e c x).leaves.filter (!·.isPlaceholder e)
      = (c.leaves ++ x.addedLeaf?.toList).filter (!·.isPlaceholder e) := by
  rw [add_eq, ← x.leaves_added]
  cases x.added? with
  | none => simp
  | some new =>
    simp only
    rw [Condition.leaves_join]
    split_ifs with hplaceholder
    · -- the placeholder has no leaf that counts
      have hnone : c.leaves.filter (!·.isPlaceholder e) = [] := by
        rw [Condition.isPlaceholder_iff.mp hplaceholder, List.filter_eq_nil_iff]
        simpa using Condition.leaves_placeholder e
      simp [hnone]
    · simp

/-- By induction on the additions, each of which leaves the leaves that count in front of it. -/
theorem leaves_foldl_add (settings : Settings) (e : Entity) (c : Condition)
    (xs : List Constraint) :
    (xs.foldl (add settings e) c).leaves.filter (!·.isPlaceholder e)
      = (c.leaves ++ xs.filterMap Constraint.addedLeaf?).filter (!·.isPlaceholder e) := by
  induction xs generalizing c with
  | nil => simp
  | cons x xs ih =>
    rw [List.foldl_cons, ih, List.filter_append, leaves_add, ← List.filter_append,
      List.append_assoc, List.filterMap_cons]
    cases x.addedLeaf? with
    | none => rfl
    | some l => rfl

/-- The leaves that count are found among all leaves, negated or not. -/
theorem filter_atomics (e : Entity) (ls : List Leaf) :
    (ls.map Leaf.atomic).filter (!·.isPlaceholder e)
      = ((ls.filter (!·.isPlaceholder e)).map Leaf.atomic).filter (!·.isPlaceholder e) := by
  rw [List.filter_map, List.filter_map, List.filter_filter]
  congr 1
  refine List.filter_congr fun l _ => ?_
  cases hplaceholder : l.atomic.isPlaceholder e with
  | true => simp [hplaceholder]
  | false => simp [Leaf.isPlaceholder, hplaceholder]

/-- Additions lose nothing. What is added for a constraint is one leaf, negated if the constraint
is negative, and it is added just when the constraint describes a condition that can be read. The
leaves of a condition after additions are those that it had and, behind them, those that are
added, in the order of the constraints: all of them but the placeholders of the entity, which may
be replaced. They also stand inside of as many negations as they did. -/
theorem atomics_additions (settings : Settings) (e : Entity) (c : Condition)
    (xs : List Constraint) :
    (((⟨[], [], xs⟩ : Changes).apply settings e c).atomics.filter (!·.isPlaceholder e)
        = (c.atomics ++ xs.filterMap Constraint.addedAtomic?).filter (!·.isPlaceholder e))
      ∧ (((⟨[], [], xs⟩ : Changes).apply settings e c).leaves.filter (!·.isPlaceholder e)
        = (c.leaves ++ xs.filterMap Constraint.addedLeaf?).filter (!·.isPlaceholder e))
      ∧ ∀ (x : Constraint) (new : Condition), (x.condition? = some new ∧ new.isReadable = true)
        ↔ ∃ a, x.addedAtomic? = some a ∧ new = x.signed (.ofAtomic a) := by
  have hleaves := leaves_foldl_add settings e c xs
  have hadded : xs.filterMap Constraint.addedAtomic?
      = (xs.filterMap Constraint.addedLeaf?).map Leaf.atomic := by
    rw [List.map_filterMap]
    exact List.filterMap_congr fun x _ => x.map_atomic_addedLeaf?.symm
  refine ⟨?_, hleaves, fun x new => ?_⟩
  · show ((xs.foldl (add settings e) c).atomics).filter _ = _
    rw [← Condition.map_atomic_leaves, filter_atomics, hleaves, ← filter_atomics, hadded,
      ← Condition.map_atomic_leaves, List.map_append]
  · rw [← Constraint.added?_eq_some_iff, Constraint.added?, Option.filter_eq_some_iff]

end Changes

end NodeQuery
