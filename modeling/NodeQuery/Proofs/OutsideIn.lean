/-
Constraints applied from the outside in.

A query nested in a condition is changed in front of the condition. It could as well be changed
behind it: from the outermost query on inwards, each condition is changed while the queries nested
in it are as they were, and of these the ones that are left are changed next. Edits do not look
into nested queries, so the order is of no account to them; but whether an edit is made at all
depends on whether the condition can be read with it, and what was added to a nested query before
may be the reason why it can not.

* `Query.outsideIn`, `mergeOutsideIn`: constraints applied in the other order.
* `Changes.applyFreely`, `mergeFreely`: constraints applied in the usual order, with edits made in
  any case.
* `Query.outsideIn_eq_rebuildAt`: the order is of no account to changes that do not look into
  nested queries.
* `Changes.apply_eq_applyFreely`: edits are made in a condition that is not nested too deep.
* `merge_eq_mergeOutsideIn`: where the two orders agree.
-/
import NodeQuery.Proofs.Filling
import NodeQuery.Proofs.Merging
import NodeQuery.Proofs.Nesting

namespace NodeQuery

/-! ### The other order -/

namespace Condition

/-- A nested query has fewer queries in its condition than the condition in which it is nested. -/
theorem length_queries_lt {c : Condition} {next i : Nat} {q : Query}
    (h : c.nested? next i = some q) : q.condition.queries.length < c.queries.length := by
  induction c generalizing next with
  | value m => cases h
  | relation a op e c spans ih =>
    rw [nested?] at h
    split_ifs at h
    cases h
    simp [queries]
  | negation c ih => exact ih h
  | group k cs ih =>
    obtain ⟨c, hmem, next, h⟩ := exists_nested?_of_nestedInAll? h
    refine (ih c hmem h).trans_le ?_
    rw [queries, queriesOfAll_eq_flatMap, List.flatMap_def]
    exact (List.sublist_flatten_of_mem (List.mem_map_of_mem hmem)).length_le

end Condition

/-- Proofs by induction on queries, for a query from the ones nested directly in its condition. -/
theorem Query.nestedInduction {motive : Query → Prop}
    (step : ∀ q, (∀ {next i p}, q.condition.nested? next i = some p → motive p) → motive q)
    (q : Query) : motive q := by
  induction hn : q.condition.queries.length using Nat.strong_induction_on generalizing q with
  | _ n ih =>
    subst hn
    exact step q fun h => ih _ (Condition.length_queries_lt h) _ rfl

/-- A query, the `i`-th one, with its condition changed while the queries nested in it are as they
were, and those of them that are left changed in the same way after that. -/
def Query.outsideIn (change : Nat → Entity → Condition → Condition) (i : Nat) (q : Query) : Query :=
  ⟨q.entity,
    (change i q.entity (q.condition.numbered (i + 1))).fill fun j =>
      match _h : q.condition.nested? (i + 1) j with
      | none => none
      | some p => some (p.outsideIn change j),
    q.spans⟩
termination_by q.condition.queries.length
decreasing_by exact Condition.length_queries_lt (by assumption)

/-- The text of a query with constraints applied from the outside in. -/
def mergeOutsideIn (settings : Settings) (source : String) (cs : List Constraint) : String :=
  match parse source with
  | .error _ => source
  | .ok q =>
    if cs.any fun c => (target? q c).isSome then
      (q.outsideIn (fun i => (changesAt q cs i).apply settings) 0).render
    else
      source

namespace Changes

/-- The condition after an edit, whether it can be read or not. -/
def editFreely (condition : Condition) (c : Constraint) : Condition :=
  match c.valueText? with
  | none => condition
  | some value => condition.update c.selector value

/-- The condition on `e` after all changes, with edits made in any case. -/
def applyFreely (settings : Settings) (changes : Changes) (e : Entity) (condition : Condition) :
    Condition :=
  let deleted := changes.deletions.foldl (delete e) condition
  let edited := changes.edits.foldl editFreely deleted
  changes.additions.foldl (add settings e) edited

end Changes

/-- The text of a query with constraints applied, and edits made in any case. -/
def mergeFreely (settings : Settings) (source : String) (cs : List Constraint) : String :=
  match parse source with
  | .error _ => source
  | .ok q =>
    if cs.any fun c => (target? q c).isSome then
      (q.rebuild fun i => (changesAt q cs i).applyFreely settings).render
    else
      source

/-! ### Changes that do not look into nested queries -/

theorem Query.outsideIn_eq (change : Nat → Entity → Condition → Condition) (i : Nat) (q : Query) :
    q.outsideIn change i = ⟨q.entity, (change i q.entity (q.condition.numbered (i + 1))).fill
      fun j => (q.condition.nested? (i + 1) j).map (Query.outsideIn change j), q.spans⟩ := by
  rw [outsideIn]
  congr 2
  funext j
  split
  · rename_i h
    rw [h]
    rfl
  · rename_i p h
    rw [h]
    rfl

/-- The order is of no account to changes that do not look into nested queries. -/
theorem Query.outsideIn_eq_rebuildAt {change : Nat → Entity → Condition → Condition}
    (hchange : ∀ i e f c, change i e (c.fill f) = (change i e c).fill f) (i : Nat) (q : Query) :
    q.outsideIn change i = q.rebuildAt change i := by
  induction q using nestedInduction generalizing i with
  | step q ih =>
    have hnested : (fun j => (q.condition.nested? (i + 1) j).map (Query.outsideIn change j))
        = fun j => (q.condition.nested? (i + 1) j).map (Query.rebuildAt change j) :=
      funext fun j => Option.map_congr fun p hp => ih hp j
    rw [outsideIn_eq, hnested, ← hchange, Condition.fill_rebuilt]
    rfl

namespace Changes

section ActsInside

variable {g : Condition → Condition} (hg : Condition.ActsInside g) (e : Entity) (c : Condition)

include hg

theorem delete_actsInside (x : Constraint) : delete e (g c) x = g (delete e c x) := by
  rw [delete, delete, hg.remove]
  cases (c.remove x.selector).1 with
  | none => exact (hg.value _).symm
  | some r => rfl

theorem deletions_actsInside (xs : List Constraint) :
    xs.foldl (delete e) (g c) = g (xs.foldl (delete e) c) :=
  List.foldl_hom g fun b x => delete_actsInside hg e b x

theorem editFreely_actsInside (x : Constraint) : editFreely (g c) x = g (editFreely c x) := by
  rw [editFreely, editFreely]
  cases x.valueText? with
  | none => rfl
  | some v => exact hg.update x.selector v c

theorem foldl_editFreely_actsInside (xs : List Constraint) :
    xs.foldl editFreely (g c) = g (xs.foldl editFreely c) :=
  List.foldl_hom g fun b x => editFreely_actsInside hg b x

end ActsInside

section Fill

variable (f : Nat → Option Query) (e : Entity) (c : Condition)

theorem add_fill (x : Constraint) (settings : Settings) :
    add settings e (c.fill f) x = (add settings e c x).fill f := by
  rw [add, add]
  cases hnew : x.condition? with
  | none => rfl
  | some new =>
    have hfill := Constraint.fill_condition f hnew
    simp only [(Condition.actsInside_fill f).isPlaceholder]
    split_ifs with hreadable hplaceholder
    · exact hfill.symm
    · have hjoin := (Condition.actsInside_fill f).join settings.combine (some c) new
      rwa [hfill] at hjoin
    · rfl

theorem applyFreely_fill (settings : Settings) (changes : Changes) :
    changes.applyFreely settings e (c.fill f) = (changes.applyFreely settings e c).fill f := by
  simp only [applyFreely]
  have hfill := Condition.actsInside_fill f
  rw [deletions_actsInside hfill, foldl_editFreely_actsInside hfill,
    List.foldl_hom (Condition.fill f) fun b x => add_fill f e b x settings]

end Fill

end Changes

/-! ### Edits that are made -/

/-- A condition of which the attributes are read back can be read if it is not nested too deep. -/
theorem Condition.isReadable_of_opens {c : Condition} (h : c.WellFormed Attribute.Opens)
    (hn : c.levels ≤ Parser.maxNesting) : c.isReadable = true := by
  obtain ⟨r, hr, -⟩ := rereads_of_opens h
  obtain ⟨s, hs, -⟩ := (parseCondition_of_rereads hr).1 hn
  exact Except.isOk_iff.mpr ⟨s, hs⟩

theorem Condition.wellFormed_update {P : Attribute → Prop} (s : Selector) (new : String)
    {c : Condition} (h : c.WellFormed P) : (c.update s new).WellFormed P := by
  have hmeets : c.Meets (.wellFormed P) ⟨"", none⟩ := meets_wellFormed_iff.mpr h
  exact meets_wellFormed_iff.mp (meets_update (fun _ _ hm => hm) hmeets)

namespace Changes

variable {settings : Settings} {changes : Changes} {e : Entity} {c : Condition}

theorem wellFormed_deletions {P : Attribute → Prop} (hP : ∀ a, a.isPlain = true → P a)
    (he : e.isPlain = true) (h : c.WellFormed P) (xs : List Constraint) :
    (xs.foldl (delete e) c).WellFormed P := by
  have hplaceholder : ∀ d, d.isPlain = true → (Condition.placeholder d).Meets (.wellFormed P) d :=
    fun d hd => Condition.meets_wellFormed_iff.mpr ((Condition.isPlain_placeholder hd).mono hP)
  have hmeets : c.Meets (.wellFormed P) e := Condition.meets_wellFormed_iff.mpr h
  have hdeletions := meets_deletions hplaceholder he hmeets xs
  exact Condition.meets_wellFormed_iff.mp hdeletions

/-- Edits are made in a condition of which the attributes are read back, unless it is nested too
deep. -/
theorem foldl_edit_eq (xs : List Constraint) (h : c.WellFormed Attribute.Opens)
    (hn : c.levels ≤ Parser.maxNesting) : xs.foldl edit c = xs.foldl editFreely c := by
  induction xs generalizing c with
  | nil => rfl
  | cons x xs ih =>
    rw [List.foldl_cons, List.foldl_cons, edit, editFreely]
    cases x.valueText? with
    | none => exact ih h hn
    | some v =>
      have hwf := Condition.wellFormed_update x.selector v h
      have hle : (c.update x.selector v).levels ≤ Parser.maxNesting :=
        (Condition.depth_update x.selector v c).trans_le hn
      simp only [Condition.isReadable_of_opens hwf hle, if_true]
      exact ih hwf hle

/-- All edits are made in a condition that is not nested too deep after the deletions. -/
theorem apply_eq_applyFreely (he : e.isPlain = true) (h : c.WellFormed Attribute.Opens)
    (hn : (changes.deletions.foldl (delete e) c).levels ≤ Parser.maxNesting) :
    changes.apply settings e c = changes.applyFreely settings e c := by
  have hwf := wellFormed_deletions (fun _ => Attribute.opens_of_isPlain) he h changes.deletions
  simp only [apply, applyFreely]
  rw [foldl_edit_eq changes.edits hwf hn]

end Changes

/-! ### From the outside in, all edits are made -/

theorem Condition.isPlain_of_nested {c : Condition} {next i : Nat} {q : Query}
    (h : c.nested? next i = some q) (hc : c.IsPlain) :
    q.IsPlain ∧ q.condition.nesting ≤ c.nesting := by
  induction c generalizing next with
  | value m => cases h
  | relation a op e c spans ih =>
    rw [nested?] at h
    split_ifs at h
    cases h
    refine ⟨hc.2, ?_⟩
    rw [nesting, nesting, depth]
    split_ifs with hplaceholder
    · rw [isPlaceholder_iff.mp hplaceholder]
      exact le_refl 1
    · exact (Nat.le_succ _).trans (Nat.le_add_left _ _)
  | negation c ih =>
    obtain ⟨hq, hn⟩ := ih h hc
    exact ⟨hq, hn.trans (Nat.le_succ _)⟩
  | group k cs ih =>
    obtain ⟨c, hmem, next, h⟩ := exists_nested?_of_nestedInAll? h
    obtain ⟨hq, hn⟩ := ih c hmem h (allWellFormed_iff.mp hc.2 c hmem)
    exact ⟨hq, hn.trans ((depth_le_depthOfAll hmem).trans (Nat.le_succ _))⟩

/-- From the outside in, all edits are made in a query that is not nested too deep. -/
theorem Query.outsideIn_eq_freely {settings : Settings} {changes : Nat → Changes} {q : Query}
    (hq : q.IsPlain) (hn : q.condition.nesting ≤ Parser.maxNesting) (i : Nat) :
    q.outsideIn (fun i => (changes i).apply settings) i
      = q.outsideIn (fun i => (changes i).applyFreely settings) i := by
  induction q using nestedInduction generalizing i with
  | step q ih =>
    have hnested : (fun j => (q.condition.nested? (i + 1) j).map
          (Query.outsideIn (fun i => (changes i).apply settings) j))
        = fun j => (q.condition.nested? (i + 1) j).map
          (Query.outsideIn (fun i => (changes i).applyFreely settings) j) := by
      funext j
      refine Option.map_congr fun p hp => ?_
      obtain ⟨hplain, hle⟩ := Condition.isPlain_of_nested hp hq.2
      exact ih hp hplain (hle.trans hn) j
    -- marks do not change how deep a condition is nested
    have hplain := Condition.isPlain_numbered hq.2 (i + 1)
    have hlevels : (q.condition.numbered (i + 1)).levels ≤ Parser.maxNesting := by
      rw [Condition.levels_of_isPlain hplain, Condition.nesting_numbered]
      exact hn
    have hopens := hplain.mono fun _ => Attribute.opens_of_isPlain
    rw [outsideIn_eq, outsideIn_eq, hnested,
      Changes.apply_eq_applyFreely hq.1 hopens (Changes.levels_deletions_le hq.1 _ hlevels)]

/-! ### From the inside out, edits are made in what can be read in the end -/

/-- Two ways to fill a condition come to the same if they agree on queries that are not nested too
deep, and what is made of the condition is not nested too deep. -/
theorem Condition.fill_eq_of_levels {f g : Nat → Option Query} {c : Condition}
    (hnone : ∀ i, f i = none → g i = none)
    (hsome : ∀ i q, f i = some q → q.entity.isPlain = true
      ∧ (q.condition.levels ≤ Parser.maxNesting → g i = some q))
    (hn : (c.fill f).levels ≤ Parser.maxNesting) : c.fill f = c.fill g := by
  induction c with
  | value m => rfl
  | relation a op e c spans ih =>
    cases hnumber : spans.number? with
    | none => rw [fill, fill, hnumber]; rfl
    | some i =>
      rw [fill, hnumber, Option.bind_some] at hn
      rw [fill, fill, hnumber, Option.bind_some, Option.bind_some]
      cases hf : f i with
      | none => rw [hnone i hf]
      | some q =>
        obtain ⟨hplain, hg⟩ := hsome i q hf
        rw [hg]
        -- the query is nested less deep than the condition in which it stands
        rw [hf, Option.getD_some, relate, levels, depth] at hn
        split_ifs at hn with hplaceholder
        · rw [isPlaceholder_iff.mp hplaceholder, levels_placeholder hplain]
          decide
        · exact (Nat.le_succ _).trans ((Nat.le_add_left _ _).trans hn)
  | negation c ih => rw [fill, fill, ih ((Nat.le_succ _).trans hn)]
  | group k cs ih =>
    rw [fill, fillAll_eq_map] at hn
    rw [fill, fill, fillAll_eq_map, fillAll_eq_map]
    congr 1
    refine List.map_congr_left fun c hc => ih c hc ?_
    exact (depth_le_depthOfAll (List.mem_map_of_mem hc)).trans ((Nat.le_succ _).trans hn)

/-- Attributes are read back after changes of nested queries if those of what is added are. -/
theorem Query.wellFormed_rebuild {settings : Settings} {changes : Nat → Changes}
    (hchanges : ∀ i, (changes i).Respects (.wellFormed Attribute.Opens)) {q : Query}
    (hq : q.IsPlain) (next : Nat) :
    (q.condition.rebuild (fun i => (changes i).apply settings) next).WellFormed
      Attribute.Opens := by
  have hplain : ∀ {c : Condition} {e : Entity}, c.IsPlain →
      c.Meets (.wellFormed Attribute.Opens) e :=
    fun hc => Condition.meets_wellFormed_iff.mpr (hc.mono fun _ => Attribute.opens_of_isPlain)
  have hchange : ∀ i e c, e.isPlain = true → c.Meets (.wellFormed Attribute.Opens) e →
      ((changes i).apply settings e c).Meets (.wellFormed Attribute.Opens) e := by
    intro i e c he hc
    exact Changes.meets_apply (fun d hd => hplain (Condition.isPlain_placeholder hd)) (hchanges i)
      he hc
  have hmeets : q.condition.Meets (.wellFormed Attribute.Opens) q.entity := hplain hq.2
  have hrebuild : (q.condition.rebuild (fun i => (changes i).apply settings) next).Meets
      (.wellFormed Attribute.Opens) q.entity := Condition.meets_rebuild hchange hmeets
  exact Condition.meets_wellFormed_iff.mp hrebuild

/-- From the inside out, all edits that count are made in a query that is not nested too deep in
the end, if the attributes of what is added are read back. -/
theorem Query.rebuildAt_eq_freely {settings : Settings} {changes : Nat → Changes}
    (hchanges : ∀ i, (changes i).Respects (.wellFormed Attribute.Opens)) {q : Query}
    (hq : q.IsPlain) (i : Nat)
    (hn : (q.rebuildAt (fun i => (changes i).apply settings) i).condition.levels
      ≤ Parser.maxNesting) :
    q.rebuildAt (fun i => (changes i).apply settings) i
      = q.rebuildAt (fun i => (changes i).applyFreely settings) i := by
  induction q using nestedInduction generalizing i with
  | step q ih =>
    -- both ways, what is made of the nested queries is put in their places
    have hf := Condition.fill_rebuilt (fun i => (changes i).apply settings) q.condition (i + 1)
    have hg := Condition.fill_rebuilt (fun i => (changes i).applyFreely settings) q.condition
      (i + 1)
    set f : Nat → Option Query := fun j => (q.condition.nested? (i + 1) j).map
      (Query.rebuildAt (fun i => (changes i).apply settings) j) with hfdef
    set g : Nat → Option Query := fun j => (q.condition.nested? (i + 1) j).map
      (Query.rebuildAt (fun i => (changes i).applyFreely settings) j) with hgdef
    have hwf : ((q.condition.numbered (i + 1)).fill f).WellFormed Attribute.Opens := by
      rw [hf]
      exact wellFormed_rebuild hchanges hq _
    rw [rebuildAt, ← hf] at hn
    have hle := (Changes.levels_deletions_le_apply hq.1).trans hn
    have hfill := hle
    rw [Changes.deletions_actsInside (Condition.actsInside_fill f)] at hfill
    have heq := Condition.fill_eq_of_levels (g := g) ?_ ?_ hfill
    · rw [rebuildAt, rebuildAt, ← hf, ← hg, Changes.apply_eq_applyFreely hq.1 hwf hle,
        Changes.applyFreely, Changes.applyFreely,
        Changes.deletions_actsInside (Condition.actsInside_fill f),
        Changes.deletions_actsInside (Condition.actsInside_fill g), heq]
    · intro j hj
      simpa [hfdef, hgdef] using hj
    · intro j p hp
      obtain ⟨p, hnested, rfl⟩ := Option.map_eq_some_iff.mp hp
      obtain ⟨hplain, -⟩ := Condition.isPlain_of_nested hnested hq.2
      refine ⟨hplain.1, fun hlevels => ?_⟩
      rw [hgdef]
      simp only [hnested, Option.map_some]
      rw [← ih hnested hplain j hlevels]

/-! ### The two orders -/

section Merge

variable {settings : Settings} {source : String} {q : Query} {cs : List Constraint}

/-- The order is of no account if edits are made in any case. -/
theorem mergeFreely_eq_mergeOutsideIn (settings : Settings) (source : String)
    (cs : List Constraint) :
    mergeFreely settings source cs = mergeOutsideIn settings source cs := by
  rw [mergeFreely, mergeOutsideIn]
  cases hq : parse source with
  | error e => rfl
  | ok q =>
    obtain ⟨hplain, hnesting, -⟩ := tidy_of_parse hq
    have hrebuild : q.outsideIn (fun i => (changesAt q cs i).applyFreely settings) 0
        = q.rebuildAt (fun i => (changesAt q cs i).applyFreely settings) 0 :=
      Query.outsideIn_eq_rebuildAt (fun i e f c => Changes.applyFreely_fill f e c settings _) 0 q
    simp only [Query.outsideIn_eq_freely hplain hnesting, hrebuild]
    rfl

/-- All edits that count are made in what can be read after that, if no comment is left open. -/
theorem merge_eq_mergeFreely_of_isClosed (hq : parse source = .ok q)
    (hcs : ∀ c, Added q cs c → c.IsClosed)
    (hmerge : ∃ p, parse (merge settings source cs) = .ok p) :
    merge settings source cs = mergeFreely settings source cs := by
  obtain ⟨hplain, -, -⟩ := tidy_of_parse hq
  have hlevels := (parse_merge_of_isClosed settings hq hcs).1.mp hmerge
  have hrespects := respects_changesAt fun c hc new hnew hreadable =>
    (Constraint.wellFormed_opens hnew hreadable (hcs c hc new hnew hreadable)).1
  have hrebuild := Query.rebuildAt_eq_freely hrespects hplain 0 hlevels
  rw [merge, mergeFreely, hq]
  exact if_congr Iff.rfl (congrArg Query.render hrebuild) rfl

theorem merge_eq_mergeFreely_of_not_edit (hcs : ∀ c ∈ cs, c.action ≠ .edit) :
    merge settings source cs = mergeFreely settings source cs := by
  have hnone : ∀ q i, (changesAt q cs i).edits = [] := by
    intro q i
    rw [changesAt, Changes.ofList, List.filter_eq_nil_iff]
    intro c hc
    simpa using hcs c (List.mem_of_mem_filter hc)
  have happly : ∀ q, (fun i => (changesAt q cs i).apply settings)
      = fun i => (changesAt q cs i).applyFreely settings := by
    intro q
    funext i e c
    rw [Changes.apply, Changes.applyFreely, hnone q i]
    rfl
  rw [merge, mergeFreely]
  cases parse source with
  | error e => rfl
  | ok q => simp only [Query.applyAll, happly]

end Merge

/-- Constraints give the same text from the outside in as they do in the usual order, if edits are
made there in any case. So they do as it is if there are no edits, and if no comment is left open
by what is added and the text can be read. -/
theorem merge_eq_mergeOutsideIn (settings : Settings) (source : String) (cs : List Constraint) :
    mergeFreely settings source cs = mergeOutsideIn settings source cs
      ∧ ((∀ c ∈ cs, c.action ≠ .edit) →
        merge settings source cs = mergeOutsideIn settings source cs)
      ∧ ((∀ q, parse source = .ok q → ∀ c, Added q cs c → c.IsClosed) →
        (∃ p, parse (merge settings source cs) = .ok p) →
          merge settings source cs = mergeOutsideIn settings source cs) := by
  have hfreely := mergeFreely_eq_mergeOutsideIn settings source cs
  refine ⟨hfreely, fun hcs => ?_, fun hcs hmerge => ?_⟩
  · exact (merge_eq_mergeFreely_of_not_edit hcs).trans hfreely
  · cases hq : parse source with
    | error e => rw [merge, mergeOutsideIn, hq]
    | ok q => exact (merge_eq_mergeFreely_of_isClosed hq (hcs q hq) hmerge).trans hfreely

/-- An edit of a condition with a condition added to the query nested in it. -/
theorem merge_eq_mergeOutsideIn_nested :
    let source := "functionCall fc where and(fc.name == \"a\", "
      ++ "fc.arguments contain literal lit where lit.value == 1) ;"
    let cs : List Constraint := [
      { path := "lit.kind", operator? := some "==", value? := some "2", action := .add },
      { path := "fc.name", operator? := some "==", value? := some "\"b\"", action := .edit }]
    (parse (merge {} source cs)).isOk = true
      ∧ merge {} source cs = mergeOutsideIn {} source cs := by
  intro source cs
  have hclosed : ∀ c ∈ cs, c.IsClosed := by decide +kernel
  have hmerge : (parse (merge {} source cs)).isOk = true := by decide +kernel
  refine ⟨hmerge, (merge_eq_mergeOutsideIn {} source cs).2.2 ?_ (Except.isOk_iff.mp hmerge)⟩
  exact fun q hq c hc => hclosed c hc.1

/-- A comment left open in a nested query keeps an edit from being made after that, but not
before. -/
theorem mergeOutsideIn_comment :
    let source := "functionCall fc where and(fc.name == \"a\", "
      ++ "fc.arguments contain literal lit where lit.value == 1) ;"
    let cs : List Constraint := [
      { path := "lit.value //", operator? := some "==", value? := some "2", action := .add },
      { path := "fc.name", operator? := some "==", value? := some "\"b\"", action := .edit }]
    (parse source).isOk = true
      ∧ merge {} source cs = "functionCall fc where and(fc.name == \"a\", fc.arguments contain "
        ++ "literal lit where and(lit.value == 1, lit.value // == 2) ;) ;"
      ∧ mergeOutsideIn {} source cs = "functionCall fc where and(fc.name == \"b\", fc.arguments "
        ++ "contain literal lit where and(lit.value == 1, lit.value // == 2) ;) ;" := by
  decide +kernel

end NodeQuery
