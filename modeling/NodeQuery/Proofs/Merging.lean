/-
Reading queries into which constraints were merged.

* `Constraint.IsClosed`: the constraints of which the condition leaves no comment open.
* `parse_merge_of_isClosed`: what is merged can be read just when it is not nested too deep, if
  the additions are of this sort.
* `exists_parse_merge_of_not_isClosed`: each of the others spoils some query.
* `parse_merge_iff`: both of these.
-/
import NodeQuery.Proofs.Opening

namespace NodeQuery

open Grammar

/-! ### Additions that leave no comment open -/

namespace Constraint

/-- What is written for the constraint leaves no comment open, if it can be read. -/
def IsClosed (c : Constraint) : Prop :=
  ∀ new, c.condition? = some new → new.isReadable = true →
    hasOpenComment new.render.toList = false

/-- What is written for the constraint has no relation in it, if it can be read. -/
def DeclaresNothing (c : Constraint) : Prop :=
  ∀ new, c.condition? = some new → new.isReadable = true →
    ¬∃ op, .relOp op ∈ kinds new.render.toList

instance (c : Constraint) : Decidable c.IsClosed :=
  inferInstanceAs (Decidable (∀ new ∈ c.condition?, new.isReadable = true →
    hasOpenComment new.render.toList = false))

instance (cs : List Char) : Decidable (∃ op, Token.Kind.relOp op ∈ kinds cs) :=
  decidable_of_iff (∃ op ∈ RelOp.all, .relOp op ∈ kinds cs)
    ⟨fun ⟨op, _, h⟩ => ⟨op, h⟩, fun ⟨op, h⟩ => ⟨op, by cases op <;> decide, h⟩⟩

instance (c : Constraint) : Decidable c.DeclaresNothing :=
  inferInstanceAs (Decidable (∀ new ∈ c.condition?, new.isReadable = true →
    ¬∃ op, .relOp op ∈ kinds new.render.toList))

end Constraint

theorem mem_additions {q : Query} {cs : List Constraint} {i : Nat} {c : Constraint}
    (h : c ∈ (changesAt q cs i).additions) :
    c ∈ cs ∧ target? q c = some i ∧ c.action = .add := by
  rw [changesAt, Changes.ofList, List.mem_filter, List.mem_filter] at h
  exact ⟨h.1.1, of_decide_eq_true h.1.2, of_decide_eq_true h.2⟩

section Merge

variable {settings : Settings} {source : String} {q : Query} {cs : List Constraint}

/-- `Added q cs c`: the constraint `c` is one of `cs`, and adds a condition to `q`. -/
def Added (q : Query) (cs : List Constraint) (c : Constraint) : Prop :=
  c ∈ cs ∧ (target? q c).isSome = true ∧ c.action = .add

/-- Changes keep attributes of a sort if those of what is added are. -/
theorem respects_changesAt {P : Attribute → Prop} (hcs : ∀ c, Added q cs c →
    ∀ new, c.condition? = some new → new.isReadable = true → new.WellFormed P) (i : Nat) :
    (changesAt q cs i).Respects (.wellFormed P) := by
  -- edits keep the attribute of the leaf that they change
  refine ⟨fun c hc v hv e m he hs hm => hm, fun c hc new hnew hreadable e he => ?_⟩
  obtain ⟨hmem, htarget, hadd⟩ := mem_additions hc
  have hadded : Added q cs c := ⟨hmem, by rw [htarget]; rfl, hadd⟩
  exact Condition.meets_wellFormed_iff.mpr (hcs c hadded new hnew hreadable)

/-- Attributes are of a sort after constraints are applied if they were, and those of what is
added are. -/
theorem Query.wellFormed_applyAll {P : Attribute → Prop} (hP : ∀ a, a.isPlain = true → P a)
    (hq : q.IsPlain) (hcs : ∀ c, Added q cs c → ∀ new, c.condition? = some new →
      new.isReadable = true → new.WellFormed P) (settings : Settings) :
    (q.applyAll settings cs).condition.WellFormed P := by
  have hplain : ∀ {c : Condition} {e : Entity}, c.IsPlain → c.Meets (.wellFormed P) e :=
    fun hc => Condition.meets_wellFormed_iff.mpr (hc.mono hP)
  refine Condition.meets_wellFormed_iff.mp
    (Query.meets_applyAll ?_ (respects_changesAt hcs) hq.1 (hplain hq.2))
  exact fun e he => hplain (Condition.isPlain_placeholder he)

theorem merge_of_error {e : List ParseError} (h : parse source = .error e) :
    merge settings source cs = source := by
  rw [merge, h]

theorem merge_of_forall_eq_none (hq : parse source = .ok q)
    (hcs : ∀ c ∈ cs, target? q c = none) : merge settings source cs = source := by
  rw [merge, hq]
  refine if_neg ?_
  simpa [Option.not_isSome_iff_eq_none] using hcs

theorem merge_of_exists_ne_none (hq : parse source = .ok q)
    (hcs : ¬∀ c ∈ cs, target? q c = none) :
    merge settings source cs = (q.applyAll settings cs).render := by
  rw [merge, hq]
  refine if_pos ?_
  simpa [← Option.isSome_iff_ne_none] using hcs

/-- What is merged can be read just when it is not nested too deep, if no comment is left
open. What is read mirrors the query with the constraints applied, if no relations are added. -/
theorem parse_merge_of_isClosed (settings : Settings) (hq : parse source = .ok q)
    (hcs : ∀ c, Added q cs c → c.IsClosed) :
    ((∃ p, parse (merge settings source cs) = .ok p)
      ↔ (q.applyAll settings cs).condition.levels ≤ Parser.maxNesting)
      ∧ ∀ p, parse (merge settings source cs) = .ok p →
        (∀ c, Added q cs c → c.DeclaresNothing) → p = q
          ∨ p.entity = q.entity
            ∧ (q.applyAll settings cs).condition.Mirrors p.condition.eraseSpans := by
  obtain ⟨hplain, hnesting, -⟩ := tidy_of_parse hq
  by_cases hnone : ∀ c ∈ cs, target? q c = none
  · rw [merge_of_forall_eq_none hq hnone, Query.applyAll_of_forall_eq_none hnone,
      Condition.levels_of_isPlain hplain.2]
    refine ⟨⟨fun _ => hnesting, fun _ => ⟨q, hq⟩⟩, fun p hp _ => .inl ?_⟩
    exact Except.ok.inj (hp.symm.trans hq)
  · -- what was there is made of names, and what is added opens a leaf
    have hopens := Query.wellFormed_applyAll (fun a => Attribute.opens_of_isPlain) hplain
      (fun c hc new hnew hreadable =>
        (Constraint.wellFormed_opens hnew hreadable (hcs c hc new hnew hreadable)).1) settings
    obtain ⟨r, hr, hmirrors⟩ := rereads_of_opens hopens
    have hparse := parse_of_rereads hplain.1 hr q.spans
    rw [merge_of_exists_ne_none hq hnone]
    refine ⟨⟨?_, ?_⟩, fun p hp hno => .inr ?_⟩
    · rintro ⟨p, hp⟩
      by_contra hdeep
      exact hparse.2 (not_le.mp hdeep) p hp
    · intro hle
      obtain ⟨p, hp, -⟩ := hparse.1 hle
      exact ⟨p, hp⟩
    · have hle : (q.applyAll settings cs).condition.levels ≤ Parser.maxNesting := by
        by_contra hdeep
        exact hparse.2 (not_le.mp hdeep) p hp
      obtain ⟨p', hp', herase⟩ := hparse.1 hle
      obtain rfl := Except.ok.inj (hp.symm.trans hp')
      obtain ⟨hentity, hcondition⟩ := Query.mk.inj herase
      refine ⟨hentity, hcondition.1 ▸ hmirrors ?_⟩
      refine Query.wellFormed_applyAll (fun a => Attribute.not_declares_of_isPlain) hplain
        (fun c hc new hnew hreadable => ?_) settings
      have hclosed := hcs c hc new hnew hreadable
      exact (Constraint.wellFormed_opens hnew hreadable hclosed).2 (hno c hc new hnew hreadable)

end Merge

/-! ### Additions that leave a comment open -/

theorem leadingAlias_ne_empty {c : Constraint} (h : Literal.isName c.leadingAlias = true) :
    c.leadingAlias ≠ "" := by
  intro hempty
  rw [hempty] at h
  exact absurd h (by decide)

/-- What is made of a query with one comparison by an addition. -/
theorem applyAll_singleton (settings : Settings) {q : Query} {c : Constraint} {m : ValueMatch}
    {new : Condition} (hvalue : q.condition = .value m)
    (hplaceholder : q.condition.isPlaceholder q.entity = false) (htarget : target? q c = some 0)
    (hadd : c.action = .add) (hnew : c.condition? = some new) (hreadable : new.isReadable = true) :
    q.applyAll settings [c] = ⟨q.entity, .group settings.combine [.value m, new], q.spans⟩ := by
  have hchanges : changesAt q [c] 0 = ⟨[], [], [c]⟩ := by
    simp [changesAt, Changes.ofList, htarget, hadd]
  rw [hvalue] at hplaceholder
  simp only [Query.applyAll, Query.rebuild, hchanges, hvalue, Condition.rebuild, Changes.apply,
    List.foldl_nil, List.foldl_cons, Changes.add, hnew, hreadable, hplaceholder, if_true]
  rfl

/-- The brackets of a text that is read as a query are balanced. -/
theorem balanced_of_parse {source : String} {q : Query} (h : parse source = .ok q) :
    Balanced (kinds source.toList) := by
  obtain ⟨n, t, m, ks, -, -, hr, hks⟩ := Parser.parse_sound h
  rw [hks]
  have hwhere := balanced_singleton (k := .whereWord) (by simp) (by simp)
  exact (balanced_entity _).append (hwhere.append (hr.balanced.append (balanced_semicolons _)))

/-- The tokens of a query of which the last member of a group leaves a comment open. -/
theorem kinds_render_of_open {e : Entity} {m : ValueMatch} {new : Condition} {k : Connective}
    {spans : QuerySpans} (he : e.isPlain = true) (hm : (Condition.value m).IsPlain)
    (herr : ∀ message, .error message ∉ kinds new.render.toList)
    (hopen : hasOpenComment new.render.toList = true) :
    ∃ ks, Balanced ks ∧ kinds (Query.render ⟨e, .group k [.value m, new], spans⟩).toList
      = e.kinds ++ .whereWord :: .connective k :: .opening
          :: (ks ++ .comma :: kinds new.render.toList) := by
  obtain ⟨ks, t, j, -, hlex, hr⟩ := rereads_of_isPlain hm
  refine ⟨_, hr.balanced.append (balanced_semicolons j), ?_⟩
  have hword : Literal.isWord k.spelling.toList = true
      ∧ Lexeme.wordKind (String.ofList k.spelling.toList) = .connective k := by
    cases k <;> exact ⟨by decide, rfl⟩
  have htext : (Query.render ⟨e, .group k [.value m, new], spans⟩).toList
      = (e.render.toList ++ ' ' :: "where".toList) ++ ' ' :: (k.spelling.toList
        ++ '(' :: ((Condition.value m).render.toList
          ++ ',' :: ' ' :: (new.render.toList ++ [')', ' ', ';']))) := by
    simp [Query.render, Condition.render, Condition.renderAll, String.intercalate_cons_cons]
  rw [htext, (lexes_entity he).spaced lexes_where _ (delimited_space _), kinds_space,
    Literal.kinds_word hword.1 (by simp; decide), hword.2, kinds_opening,
    hlex _ (delimited_comma _), kinds_comma, kinds_space,
    kinds_append_of_open (delimited_closing _) (by decide) (by decide) herr hopen]
  simp

/-- A constraint that leaves a comment open in what is added for it spoils some query. -/
theorem exists_parse_merge_of_not_isClosed (settings : Settings) {c : Constraint}
    (hadd : c.action = .add) (hname : Literal.isName c.leadingAlias = true) (h : ¬c.IsClosed) :
    ∃ source q, parse source = .ok q ∧ ∀ p, parse (merge settings source [c]) ≠ .ok p := by
  simp only [Constraint.IsClosed, not_forall, Bool.not_eq_false] at h
  obtain ⟨new, hnew, hreadable, hopen⟩ := h
  obtain ⟨r, hr⟩ := Except.isOk_iff.mp hreadable
  let m : ValueMatch := ⟨.node c.leadingAlias, .equal, "true"⟩
  let q : Query := ⟨⟨"node", some c.leadingAlias⟩, .value m, {}⟩
  have hq : q.IsPlain := by
    constructor
    · simpa [q, Entity.isPlain, hname] using (by decide : Literal.isName "node" = true)
    · simpa [q, m, Condition.IsPlain, Condition.WellFormed, Attribute.isPlain, Attribute.node]
        using hname
  obtain ⟨p, hp, herase⟩ :=
    Query.parse_render_of_isPlain hq (show 1 ≤ Parser.maxNesting by decide)
  refine ⟨q.render, p, hp, fun p' hp' => ?_⟩
  have hescaped : q.escaped = q := by
    have htrue : Literal.escape "true" = "true" := by decide
    simp [q, m, Query.escaped, Condition.escaped, htrue]
  rw [hescaped] at herase
  have hpe : p.entity = q.entity := by
    have := congrArg Query.entity herase
    exact this
  have hpc : p.condition = .value m := by
    have := congrArg Query.condition herase
    exact Condition.eq_value_of_eraseSpans this
  have htarget : target? p c = some 0 := by
    simp [target?, leadingAlias_ne_empty hname, Query.queries, hpc, hpe, Condition.queries, q,
      lastIndexOf?]
  have hplaceholder : p.condition.isPlaceholder p.entity = false := by
    simp [hpc, Condition.isPlaceholder, m]
  have happly := applyAll_singleton settings hpc hplaceholder htarget hadd hnew hreadable
  have hmerge : merge settings q.render [c] = (p.applyAll settings [c]).render :=
    merge_of_exists_ne_none hp (by simp [htarget])
  rw [hmerge, happly, hpe] at hp'
  -- the bracket of the group that the addition makes is never closed
  obtain ⟨ks, hks, htext⟩ := kinds_render_of_open hq.1 hq.2
    (error_not_mem_of_parseCondition hr) hopen
  have hbal := (balanced_of_parse hp').1
  obtain ⟨n, t, j, ls, -, -, hnewr, hls⟩ := Parser.parseCondition_sound hr
  have hnewbal := (hnewr.balanced.append (balanced_semicolons j)).1
  rw [htext, hls] at hbal
  have he := (balanced_entity q.entity).1
  have hks := hks.1
  simp only [List.count_append, List.count_cons, beq_iff_eq, reduceCtorEq, if_false, if_true]
    at hbal hnewbal
  omega

/-! ### What is merged can be read -/

/-- What is merged into a query can be read, as long as the conditions that are added leave no
comment open, just when it is not nested too deep; and every constraint that leaves a comment
open spoils some query. -/
theorem parse_merge_iff (settings : Settings) :
    (∀ source q cs, parse source = .ok q →
      (∀ c, Added q cs c → c.IsClosed) →
        ((∃ p, parse (merge settings source cs) = .ok p)
          ↔ (q.applyAll settings cs).condition.levels ≤ Parser.maxNesting))
      ∧ ∀ c : Constraint, c.action = .add → Literal.isName c.leadingAlias = true → ¬c.IsClosed →
        ∃ source q, parse source = .ok q ∧ ∀ p, parse (merge settings source [c]) ≠ .ok p :=
  ⟨fun _ _ _ hq hcs => (parse_merge_of_isClosed settings hq hcs).1,
    fun _ hadd hname h => exists_parse_merge_of_not_isClosed settings hadd hname h⟩

/-- A constraint without comments, and one with a comment in its path. -/
theorem parse_merge_iff_name :
    let source := "functionCall fc where fc.a == 1 ;"
    let c : Constraint :=
      { path := "fc.name", operator? := some "==", value? := some "b", action := .add }
    let d : Constraint := { c with path := "fc.name /*" }
    (∃ p, parse (merge {} source [c]) = .ok p) ∧ c.IsClosed ∧ ¬d.IsClosed
      ∧ ∃ text q, parse text = .ok q ∧ ∀ p, parse (merge {} text [d]) ≠ .ok p := by
  intro source c d
  have hclosed : c.IsClosed := by decide +kernel
  have hopen : ¬d.IsClosed := by decide +kernel
  obtain ⟨q, hq⟩ := Except.isOk_iff.mp (by decide +kernel : (parse source).isOk = true)
  have hlevels : ((parse source).toOption.all fun q =>
      decide ((q.applyAll {} [c]).condition.levels ≤ Parser.maxNesting)) = true := by
    decide +kernel
  rw [hq] at hlevels
  refine ⟨?_, hclosed, hopen, ?_⟩
  · have hle : (q.applyAll {} [c]).condition.levels ≤ Parser.maxNesting := by
      simpa [Except.toOption] using hlevels
    refine ((parse_merge_iff {}).1 source q [c] hq ?_).mpr hle
    rintro _ ⟨hmem, -, -⟩
    rwa [List.mem_singleton.mp hmem]
  · exact (parse_merge_iff {}).2 d rfl (by decide +kernel) hopen

/-- A path with a comment in it hides what stands behind it. -/
theorem parse_merge_comment :
    let source := "functionCall fc where fc.name == \"a\" ;"
    let c : Constraint :=
      { path := "fc.name //", operator? := some "==", value? := some "\"b\"", action := .add }
    (parse source).isOk = true ∧ (parse (merge {} source [c])).isOk = false := by
  decide +kernel

end NodeQuery
