/-
An update gives a new value to one comparison, and changes nothing else.

The comparison is the first of those that are selected; relations are passed over, also those with
the path and the operator that are asked for. The leaves in front of it and behind it stay as they
are, and so does the way in which the condition is put together from its leaves. A comparison with a
string is given a string: what is written for the new value is one string for the lexer, whatever
the new value is.

* `Condition.Skeleton`, `Condition.skeleton`: a condition without its leaves.
* `Condition.update?_eq_none_iff`: when there is nothing to update.
* `Condition.exists_of_update?_eq_some`: the leaves after an update.
* `Literal.isString_escape_carryQuotes`: the new value in the place of a string.
* `Condition.update_first_selected`: all of this.
-/
import NodeQuery.Proofs.Editing
import NodeQuery.Proofs.OneToken

namespace NodeQuery

/-! ### New values -/

namespace Literal

open Condition (carryQuotes)

theorem isQuoted_quote (v : String) : isQuoted (quote v) = true :=
  isQuotedChars_quote v

theorem escape_of_isQuoted {v : String} (h : isQuoted v = true) : escape v = v := by
  rw [escape, h]
  rfl

/-- A value that is edited is a string if it was one, or if the new value is. -/
theorem isQuoted_carryQuotes (old new : String) :
    isQuoted (carryQuotes old new) = (isQuoted old || isQuoted new) := by
  rw [carryQuotes]
  cases hold : isQuoted old <;> cases hnew : isQuoted new <;> simp [hnew, isQuoted_quote]

/-- What is written for a value in the place of a string is a string. -/
theorem isString_escape_carryQuotes {old : String} (h : IsString old) (new : String) :
    IsString (escape (carryQuotes old new)) := by
  have hquoted : isQuoted (carryQuotes old new) = true := by
    rw [isQuoted_carryQuotes, isQuoted_iff.mpr h, Bool.true_or]
  rw [escape_of_isQuoted hquoted]
  exact isQuoted_iff.mp hquoted

end Literal

namespace Condition

/-! ### Skeletons -/

/-- How a condition is put together from leaves. -/
inductive Skeleton where
  | leaf
  | negation (inner : Skeleton)
  | group (k : Connective) (members : List Skeleton)

mutual

/-- How the condition is put together from its leaves. -/
def skeleton : Condition → Skeleton
  | value _ => .leaf
  | relation .. => .leaf
  | negation c => .negation c.skeleton
  | group k cs => .group k (skeletons cs)

/-- How each of the conditions is put together from its leaves. -/
def skeletons : List Condition → List Skeleton
  | [] => []
  | c :: cs => c.skeleton :: skeletons cs

end

theorem skeletons_eq_map (cs : List Condition) : skeletons cs = cs.map skeleton := by
  induction cs with
  | nil => rfl
  | cons c cs ih => rw [skeletons, ih, List.map_cons]

section Update

variable {s : Selector} {new : String}

theorem skeleton_update (s : Selector) (new : String) (c : Condition) :
    (c.update s new).skeleton = c.skeleton := by
  refine update_induction (motive := fun c d => d.skeleton = c.skeleton) (fun _ => rfl)
    (fun _ _ => rfl) (fun c d hd => ?_) (fun k as c d bs hd => ?_) c
  · rw [skeleton, hd, skeleton]
  · rw [skeleton, skeleton, skeletons_eq_map, skeletons_eq_map, List.map_append, List.map_append,
      List.map_cons, List.map_cons, hd]

/-! ### The comparison that is updated -/

theorem updateInAll?_eq_none_iff {cs : List Condition} :
    updateInAll? s new cs = none ↔ ∀ c ∈ cs, c.update? s new = none := by
  induction cs with
  | nil => simp [updateInAll?]
  | cons c cs ih =>
    rw [updateInAll?, List.forall_mem_cons, ← ih]
    cases c.update? s new <;> simp

/-- There is nothing to update if no comparison is selected. -/
theorem update?_eq_none_iff {c : Condition} :
    c.update? s new = none ↔ ∀ m, .value m ∈ c.atomics → s.selectsValue m = false := by
  induction c with
  | value m => simp [update?, atomics]
  | relation a op e c spans ih => simp [update?, atomics]
  | negation c ih => rw [update?, Option.map_eq_none_iff, ih, atomics]
  | group k cs ih =>
    rw [update?, Option.map_eq_none_iff, updateInAll?_eq_none_iff, atomics, atomicsOfAll_eq_flatMap]
    constructor
    · intro hnone m hm
      obtain ⟨c, hc, hm⟩ := List.mem_flatMap.mp hm
      exact (ih c hc).mp (hnone c hc) m hm
    · intro hnone c hc
      exact (ih c hc).mpr fun m hm => hnone m (List.mem_flatMap.mpr ⟨c, hc, hm⟩)

/-- The leaves after an update: the first comparison that is selected has the new value. -/
theorem exists_of_update?_eq_some {c d : Condition} (h : c.update? s new = some d) :
    ∃ before m after, c.atomics = before ++ .value m :: after
      ∧ (∀ n, .value n ∈ before → s.selectsValue n = false) ∧ s.selectsValue m = true
      ∧ d.atomics = before
        ++ .value ⟨m.subject, m.operator, carryQuotes m.value (Text.trim new)⟩ :: after := by
  induction c generalizing d with
  | value m =>
    rw [update?] at h
    split_ifs at h with hs
    cases h
    exact ⟨[], m, [], rfl, by simp, hs, rfl⟩
  | relation a op e c spans ih => cases h
  | negation c ih =>
    obtain ⟨b, hb, rfl⟩ := Option.map_eq_some_iff.mp h
    have hleaves := ih hb
    exact hleaves
  | group k cs ih =>
    obtain ⟨ds, hds, rfl⟩ := Option.map_eq_some_iff.mp h
    obtain ⟨as, b, d, bs, rfl, rfl, hfront, hb⟩ := updateInAll?_eq_some hds
    obtain ⟨before, m, after, hatomics, hbefore, hm, hnew⟩ := ih b (by simp) hb
    refine ⟨as.flatMap atomics ++ before, m, after ++ bs.flatMap atomics, ?_, ?_, hm, ?_⟩
    · simp [atomics, atomicsOfAll_eq_flatMap, hatomics]
    · intro n hn
      rcases List.mem_append.mp hn with hn | hn
      · obtain ⟨c, hc, hn⟩ := List.mem_flatMap.mp hn
        exact update?_eq_none_iff.mp (hfront c hc) n hn
      · exact hbefore n hn
    · simp [atomics, atomicsOfAll_eq_flatMap, hnew]

/-- An update leaves the way in which a condition is put together from its leaves, and the leaves as
they are, but for the first comparison that is selected. If there is none, nothing is updated. If
there is one, its value is replaced; and in the place of a string a string is written. -/
theorem update_first_selected (s : Selector) (new : String) (c : Condition) :
    (c.update s new).skeleton = c.skeleton
      ∧ ((∀ m, .value m ∈ c.atomics → s.selectsValue m = false) →
        c.update? s new = none ∧ c.update s new = c)
      ∧ ((∃ m, .value m ∈ c.atomics ∧ s.selectsValue m = true) →
        c.update? s new = some (c.update s new)
          ∧ ∃ before m after v, c.atomics = before ++ .value m :: after
            ∧ (∀ n, .value n ∈ before → s.selectsValue n = false) ∧ s.selectsValue m = true
            ∧ (c.update s new).atomics = before ++ .value ⟨m.subject, m.operator, v⟩ :: after
            ∧ v = carryQuotes m.value (Text.trim new)
            ∧ (Literal.IsString m.value → Literal.IsString (Literal.escape v))) := by
  refine ⟨skeleton_update s new c, fun hnone => ?_, fun ⟨m, hm, hs⟩ => ?_⟩
  · have hupdate : c.update? s new = none := update?_eq_none_iff.mpr hnone
    exact ⟨hupdate, by rw [update, hupdate, Option.getD_none]⟩
  · cases hupdate : c.update? s new with
    | none =>
      rw [update?_eq_none_iff.mp hupdate m hm] at hs
      cases hs
    | some d =>
      have hd : c.update s new = d := by rw [update, hupdate, Option.getD_some]
      obtain ⟨before, n, after, hatomics, hbefore, hn, hnew⟩ := exists_of_update?_eq_some hupdate
      rw [hd]
      exact ⟨rfl, before, n, after, _, hatomics, hbefore, hn, hnew, rfl,
        fun hstring => Literal.isString_escape_carryQuotes hstring _⟩

end Update

/-- A relation and a comparison with another value are passed over, and a string is given a new
value that is none. -/
theorem update_first_selected_string :
    let relation : Atomic := .relation ⟨"fc", ["a"]⟩ .contains (.withPlaceholder ⟨"literal", none⟩)
    let other : Atomic := .value ⟨⟨"fc", ["a"]⟩, .equal, "\"x\""⟩
    let old : ValueMatch := ⟨⟨"fc", ["a"]⟩, .equal, "'it'"⟩
    let c : Condition := .group .disj [.ofAtomic relation, .negation (.ofAtomic other), .value old]
    let s : Selector := { path := "fc.a", former? := some " it " }
    c.update? s " a b " = some (c.update s " a b ")
      ∧ (c.update s " a b ").skeleton = .group .disj [.leaf, .negation .leaf, .leaf]
      ∧ (c.update s " a b ").atomics
        = [relation, other, .value ⟨⟨"fc", ["a"]⟩, .equal, "\"a b\""⟩]
      ∧ Literal.IsString "'it'" ∧ Literal.IsString (Literal.escape "\"a b\"") := by
  intro relation other old c s
  obtain ⟨hskeleton, -, hupdate⟩ := update_first_selected s " a b " c
  obtain ⟨hsome, before, m, after, v, hatomics, hbefore, hm, hnew, hv, hstring⟩ :=
    hupdate ⟨old, by simp [c, atomics, atomicsOfAll], by decide +kernel⟩
  -- neither of the two leaves in front is a comparison that is selected
  have hplace : before = [relation, other] ∧ m = old ∧ after = [] := by
    rcases before with _ | ⟨b₁, _ | ⟨b₂, _ | ⟨b₃, before⟩⟩⟩
    · cases hatomics
    · cases hatomics
      exact absurd hm (by decide +kernel)
    · cases hatomics
      exact ⟨rfl, rfl, rfl⟩
    · have hlength : 3 = _ := congrArg List.length hatomics
      simp only [List.length_append, List.length_cons] at hlength
      omega
  obtain ⟨rfl, rfl, rfl⟩ := hplace
  have hvalue : v = "\"a b\"" := by
    rw [hv]
    decide +kernel
  have hold : Literal.IsString "'it'" := Literal.isQuoted_iff.mp (by decide +kernel)
  rw [hvalue] at hnew hstring
  exact ⟨hsome, hskeleton, hnew, hold, hstring hold⟩

end Condition

end NodeQuery
