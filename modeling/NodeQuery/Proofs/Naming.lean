/-
Constraints of which the paths are made of names.

A path is meant to be names with dots between them. It is then read as these names, so that
what a constraint describes is made of names like everything that is read of a text, and no text
that is written for it can be taken for something else: a query into which such constraints were
merged is read, once it is written, as what was merged.

* `Attribute.isDotless_of_isPlain`: attributes made of names can be read from their paths.
* `Constraint.IsDotted`: the constraints of which the paths are names with dots between them.
* `Constraint.isPlain_of_isDotted`: what they describe is made of names.
* `parse_merge_of_isDotted`: what is read of the merged text.
-/
import NodeQuery.Proofs.Merging
import NodeQuery.Proofs.Selecting

namespace NodeQuery

/-! ### Paths made of names -/

theorem Literal.isWordPart_of_isName {s : String} (h : isName s = true) :
    ∀ c ∈ s.toList, Lexeme.isWordPart c = true := by
  have hword := isWord_of_isName h
  cases hs : s.toList with
  | nil => simp
  | cons c cs =>
    rw [hs, isWord, Bool.and_eq_true, List.all_eq_true] at hword
    exact List.forall_mem_cons.mpr ⟨Lexeme.isWordPart_of_isWordStart hword.1, hword.2⟩

theorem Literal.toList_ne_nil_of_isName {s : String} (h : isName s = true) : s.toList ≠ [] := by
  intro hs
  have hword := isWord_of_isName h
  rw [hs] at hword
  cases hword

namespace Attribute

variable {a : Attribute}

theorem isName_of_isPlain (h : a.isPlain = true) :
    ∀ name ∈ a.name :: a.properties, Literal.isName name = true := by
  simpa [isPlain] using h

/-- A dot is no part of a name. -/
theorem isDotless_of_isPlain (h : a.isPlain = true) : a.IsDotless := by
  intro name hname
  have hname := isName_of_isPlain h name hname
  refine ⟨?_, fun hdot => ?_⟩
  · rintro rfl
    exact Literal.toList_ne_nil_of_isName hname rfl
  · exact absurd (Literal.isWordPart_of_isName hname '.' hdot) (by decide)

/-- No blanks stand around the path of an attribute that is made of names. -/
theorem trim_path (h : a.isPlain = true) : Text.trim a.path = a.path := by
  have hblank : ∀ name ∈ a.name :: a.properties, ∀ c ∈ name.toList, Text.isBlank c = false :=
    fun name hname c hc => Lexeme.isBlank_of_isWordPart
      (Literal.isWordPart_of_isName (isName_of_isPlain h name hname) c hc)
  have hpath : ∀ c ∈ a.path.toList, Text.isBlank c = false := by
    rw [toList_path, List.forall_mem_append]
    refine ⟨hblank _ (List.mem_cons_self ..), fun c hc => ?_⟩
    obtain ⟨p, hp, hc⟩ := List.mem_flatMap.mp hc
    rcases List.mem_cons.mp hc with rfl | hc
    · decide
    · exact hblank p (List.mem_cons_of_mem _ hp) c hc
  have htrim := Text.trimChars_eq_self (fun c hc => hpath c (List.mem_of_mem_head? hc))
    fun c hc => hpath c (List.mem_of_getLast? hc)
  rw [Text.trim, htrim, String.ofList_toList]

end Attribute

/-! ### What such constraints describe -/

namespace Constraint

/-- The path of the constraint is names with dots between them. -/
def IsDotted (c : Constraint) : Prop :=
  ∃ a : Attribute, a.isPlain = true ∧ c.path = a.path

/-- What a constraint with such a path describes is made of names. -/
theorem isPlain_of_isDotted {c : Constraint} {new : Condition} (h : c.IsDotted)
    (hnew : c.condition? = some new) : new.IsPlain := by
  obtain ⟨a, ha, hpath⟩ := h
  obtain ⟨p, hp, rfl⟩ := Option.map_eq_some_iff.mp hnew
  -- a negation is made of names if what is negated is
  suffices hplain : p.IsPlain by
    cases c.isNegative with
    | false => exact hplain
    | true => exact hplain
  obtain ⟨b, operator, v, hb, -, -, hleaf⟩ := positiveCondition?_eq_some hp
  rw [hpath, Attribute.trim_path ha,
    Attribute.ofPath?_path (Attribute.isDotless_of_isPlain ha)] at hb
  cases hb
  obtain ⟨op, q, -, hq, rfl⟩ | ⟨op, -, -, rfl⟩ := hleaf
  · have hplain := isPlain_of_parseNested hq
    exact ⟨ha, hplain.1, hplain.2⟩
  · exact ha

end Constraint

/-- A query is made of names after constraints with such paths are applied, if it was. -/
theorem Query.isPlain_applyAll (settings : Settings) {q : Query} {cs : List Constraint}
    (hq : q.IsPlain) (hcs : ∀ c ∈ cs, c.IsDotted) : (q.applyAll settings cs).IsPlain := by
  refine ⟨hq.1, Query.wellFormed_applyAll (fun _ h => h) hq ?_ settings⟩
  exact fun c hc new hnew _ => Constraint.isPlain_of_isDotted (hcs c hc.1) hnew

/-! ### What is read of the merged text -/

/-- A query into which constraints with paths made of names were merged is read as what was
merged, with each value replaced by what is written for it, if one of the constraints is aimed at
it and it is not nested too deep. -/
theorem parse_merge_of_isDotted {settings : Settings} {source : String} {q : Query}
    {cs : List Constraint} (hq : parse source = .ok q) (hcs : ∀ c ∈ cs, c.IsDotted)
    (htarget : ∃ c ∈ cs, (target? q c).isSome = true)
    (hnesting : (q.applyAll settings cs).condition.nesting ≤ Parser.maxNesting) :
    ∃ p, parse (merge settings source cs) = .ok p
      ∧ p.eraseSpans = (q.applyAll settings cs).escaped.eraseSpans := by
  obtain ⟨hplain, -, -⟩ := tidy_of_parse hq
  have hmerge : merge settings source cs = (q.applyAll settings cs).render := by
    refine merge_of_exists_ne_none hq fun hnone => ?_
    obtain ⟨c, hc, hsome⟩ := htarget
    rw [hnone c hc] at hsome
    cases hsome
  rw [hmerge]
  exact Query.parse_render_of_isPlain (Query.isPlain_applyAll settings hplain hcs) hnesting

/-- A value that is no literal is edited in a query, and a nested query is added to it. -/
theorem parse_merge_of_isDotted_nested :
    let source := "functionCall fc where fc.name == \"a\" ;"
    let c : Constraint :=
      { path := "fc.name", operator? := some "==", value? := some "b c", action := .edit }
    let d : Constraint :=
      { path := "fc.arguments", operator? := some "contain", value? := some "literal lit",
        action := .add }
    ∃ q p, parse source = .ok q ∧ parse (merge {} source [c, d]) = .ok p
      ∧ p.eraseSpans = (q.applyAll {} [c, d]).escaped.eraseSpans := by
  intro source c d
  obtain ⟨q, hq⟩ := Except.isOk_iff.mp (by decide +kernel : (parse source).isOk = true)
  have hfacts : ((parse source).toOption.all fun q => (target? q c).isSome
      && decide ((q.applyAll {} [c, d]).condition.nesting ≤ Parser.maxNesting)) = true := by
    decide +kernel
  rw [hq] at hfacts
  simp only [Except.toOption, Option.all_some, Bool.and_eq_true, decide_eq_true_eq] at hfacts
  have hdotted : ∀ e ∈ [c, d], e.IsDotted := by
    simp only [List.forall_mem_cons, List.not_mem_nil, false_implies, implies_true, and_true]
    exact ⟨⟨⟨"fc", ["name"]⟩, by decide, by decide⟩, ⟨⟨"fc", ["arguments"]⟩, by decide, by decide⟩⟩
  obtain ⟨p, hp, herase⟩ := parse_merge_of_isDotted hq hdotted
    ⟨c, List.mem_cons_self .., hfacts.1⟩ hfacts.2
  exact ⟨q, p, hq, hp, herase⟩

end NodeQuery
