/-
Additions in one merge, and in two.

An addition of a comparison looks at nothing but whether the condition is the placeholder and
whether it is a group, and it declares nothing, so that queries keep their numbers. None of this
is lost when a query is written and read again, and it does not matter either whether the queries
inside a condition are changed before or behind it. So a list of such additions can be cut
anywhere, and the second part merged into the text that the first part gives.

* `Constraint.AddsValue`: the constraints that add comparisons.
* `Changes.canonical_add`: what counts for an addition.
* `Condition.rebuild_rebuild`: two rebuilds in one.
* `Query.applyAll_append`: additions to a query, one list after the other.
* `merge_append`: additions to a text, one list after the other.
-/
import NodeQuery.Proofs.Adding
import NodeQuery.Proofs.Canonical
import NodeQuery.Proofs.Grouping
import NodeQuery.Proofs.Naming

namespace NodeQuery

/-! ### Constraints that add comparisons -/

/-- The constraint adds a condition, and its operator is none of those that relate to a query. -/
def Constraint.AddsValue (c : Constraint) : Prop :=
  c.action = .add ∧ ∀ text ∈ c.operatorText?, RelOp.ofText? text = none

instance (c : Constraint) : Decidable c.AddsValue :=
  inferInstanceAs (Decidable (c.action = .add
    ∧ ∀ text ∈ c.operatorText?, RelOp.ofText? text = none))

theorem Constraint.AddsValue.queries_eq_nil {c : Constraint} (h : c.AddsValue) {new : Condition}
    (hnew : c.condition? = some new) : new.queries = [] := by
  obtain ⟨p, hp, rfl⟩ := Option.map_eq_some_iff.mp hnew
  have hqueries : p.queries = [] := by
    obtain ⟨a, operator, v, -, hoperator, -, ⟨op, q, hop, -, -⟩ | ⟨op, -, -, rfl⟩⟩ :=
      positiveCondition?_eq_some hp
    · rw [h.2 operator hoperator] at hop
      cases hop
    · rfl
  cases c.isNegative with
  | false => exact hqueries
  | true => exact hqueries

section Additions

variable {settings : Settings} {q : Query} {cs : List Constraint}

theorem changesAt_of_addsValue (h : ∀ c ∈ cs, c.AddsValue) (q : Query) (i : Nat) :
    changesAt q cs i = ⟨[], [], cs.filter fun c => target? q c = some i⟩ := by
  have hadd : ∀ c ∈ cs.filter (fun c => target? q c = some i), c.action = .add :=
    fun c hc => (h c (List.mem_of_mem_filter hc)).1
  rw [changesAt, Changes.ofList, filter_action hadd, filter_action hadd, filter_action hadd]
  rfl

theorem declareNothing_of_addsValue {changes : Changes} (h : ∀ c ∈ changes.additions, c.AddsValue) :
    changes.DeclareNothing := by
  intro c hc new hnew _
  rw [Condition.entities, (h c hc).queries_eq_nil hnew, List.map_nil]

theorem Query.entities_applyAll_of_addsValue (h : ∀ c ∈ cs, c.AddsValue) :
    (q.applyAll settings cs).entities = q.entities := by
  refine entities_applyAll_eq (fun i => ?_) fun c hc => ?_
  · refine declareNothing_of_addsValue fun c hc => ?_
    exact h c (mem_additions hc).1
  · rw [(h c hc).1]
    exact Constraint.Action.noConfusion

end Additions

/-! ### What counts for an addition -/

namespace Condition

theorem canonical_join (k : Connective) (existing : Option Condition) (new : Condition) :
    (join k existing new).canonical = join k (existing.map canonical) new.canonical := by
  match existing with
  | none => rfl
  | some (.group l cs) =>
    by_cases hl : l = k
    · simp [join, hl]
    · simp [join, hl]
  | some (.value m) => simp [join]
  | some (.relation a op e c spans) => simp [join]
  | some (.negation c) => simp [join]

end Condition

namespace Changes

variable {settings : Settings} {e : Entity}

/-- Conditions that are written alike are written alike after an addition. -/
theorem canonical_add (he : e.isPlain = true) (c : Condition) (x : Constraint) :
    (add settings e c x).canonical = (add settings e c.canonical x).canonical := by
  rw [add_eq, add_eq, Condition.isPlaceholder_canonical he]
  cases x.added? with
  | none => exact c.canonical_canonical.symm
  | some new =>
    simp only
    rw [Condition.canonical_join, Condition.canonical_join]
    split_ifs
    · rfl
    · rw [Option.map_some, Option.map_some, c.canonical_canonical]

theorem canonical_additions (he : e.isPlain = true) (c : Condition) (xs : List Constraint) :
    (xs.foldl (add settings e) c).canonical
      = (xs.foldl (add settings e) c.canonical).canonical := by
  induction xs generalizing c with
  | nil => exact c.canonical_canonical.symm
  | cons x xs ih =>
    rw [List.foldl_cons, List.foldl_cons, ih, canonical_add he, ← ih]

end Changes

/-! ### Two rebuilds -/

namespace Condition

section Rebuild

variable {f g : Nat → Entity → Condition → Condition}

theorem rebuild_of_queries_eq_nil {c : Condition} (h : c.queries = []) (next : Nat) :
    c.rebuild g next = c := by
  refine rebuild_of_forall fun i h₁ h₂ => ?_
  rw [h, List.length_nil] at h₂
  omega

theorem rebuildAll_append (next : Nat) (cs ds : List Condition) :
    rebuildAll g next (cs ++ ds)
      = rebuildAll g next cs ++ rebuildAll g (next + (queriesOfAll cs).length) ds := by
  induction cs generalizing next with
  | nil => rfl
  | cons c cs ih =>
    rw [List.cons_append, rebuildAll, ih, rebuildAll, queriesOfAll, List.length_append,
      Nat.add_assoc, List.cons_append]

/-- A condition without queries in it can be joined before the queries are changed or behind. -/
theorem rebuild_join {new : Condition} (hnew : new.queries = []) (k : Connective)
    (existing : Option Condition) (next : Nat) :
    (join k existing new).rebuild g next
      = join k (existing.map fun c => c.rebuild g next) new := by
  match existing with
  | none => exact rebuild_of_queries_eq_nil hnew next
  | some (.group l cs) =>
    by_cases hl : l = k
    · simp [join, hl, rebuild, rebuildAll_append, rebuildAll, rebuild_of_queries_eq_nil hnew]
    · simp [join, hl, rebuild, rebuildAll, rebuild_of_queries_eq_nil hnew]
  | some (.value m) => simp [join, rebuild, rebuildAll, rebuild_of_queries_eq_nil hnew]
  | some (.relation a op e c spans) =>
    simp [join, rebuild, rebuildAll, rebuild_of_queries_eq_nil hnew]
  | some (.negation c) => simp [join, rebuild, rebuildAll, rebuild_of_queries_eq_nil hnew]

theorem isPlaceholder_rebuild (e : Entity) (c : Condition) (next : Nat) :
    (c.rebuild g next).isPlaceholder e = c.isPlaceholder e := by
  cases c <;> rfl

theorem length_queries_rebuild (hf : ∀ i e c, (f i e c).entities = c.entities) (next : Nat)
    (c : Condition) : (c.rebuild f next).queries.length = c.queries.length :=
  length_queries_eq (entities_rebuild_eq hf next c)

/-- Two rebuilds come to one, if the changes of the first one declare nothing and can be made
before those of the second one or behind them. -/
theorem rebuild_rebuild (hf : ∀ i e c, (f i e c).entities = c.entities)
    (hfg : ∀ i e c next, (f i e c).rebuild g next = f i e (c.rebuild g next)) (c : Condition)
    (next : Nat) :
    (c.rebuild f next).rebuild g next = c.rebuild (fun i e d => g i e (f i e d)) next := by
  induction c generalizing next with
  | value m => rfl
  | relation a op e c spans ih => rw [rebuild, rebuild, rebuild, hfg, ih]
  | negation c ih => rw [rebuild, rebuild, rebuild, ih]
  | group k cs ih =>
    have key : ∀ next, rebuildAll g next (rebuildAll f next cs)
        = rebuildAll (fun i e d => g i e (f i e d)) next cs := by
      induction cs with
      | nil => exact fun _ => rfl
      | cons c cs ihs =>
        rw [List.forall_mem_cons] at ih
        intro next
        rw [rebuildAll, rebuildAll, rebuildAll, length_queries_rebuild hf, ih.1, ihs ih.2]
    rw [rebuild, rebuild, rebuild, key]

end Rebuild

end Condition

theorem Query.rebuild_rebuild {f g : Nat → Entity → Condition → Condition}
    (hf : ∀ i e c, (f i e c).entities = c.entities)
    (hfg : ∀ i e c next, (f i e c).rebuild g next = f i e (c.rebuild g next)) (q : Query) :
    (q.rebuild f).rebuild g = q.rebuild fun i e d => g i e (f i e d) := by
  rw [rebuild, rebuild, rebuild, hfg, Condition.rebuild_rebuild hf hfg]

namespace Changes

variable {settings : Settings} {e : Entity} {g : Nat → Entity → Condition → Condition}

theorem rebuild_add {x : Constraint} (hx : x.AddsValue) (c : Condition) (next : Nat) :
    (add settings e c x).rebuild g next = add settings e (c.rebuild g next) x := by
  rw [add, add]
  cases hnew : x.condition? with
  | none => rfl
  | some new =>
    simp only [Condition.isPlaceholder_rebuild]
    split_ifs
    · exact Condition.rebuild_join (hx.queries_eq_nil hnew) settings.combine none next
    · exact Condition.rebuild_join (hx.queries_eq_nil hnew) settings.combine (some c) next
    · rfl

theorem rebuild_additions {xs : List Constraint} (hxs : ∀ x ∈ xs, x.AddsValue) (c : Condition)
    (next : Nat) :
    (xs.foldl (add settings e) c).rebuild g next
      = xs.foldl (add settings e) (c.rebuild g next) := by
  induction xs generalizing c with
  | nil => rfl
  | cons x xs ih =>
    rw [List.forall_mem_cons] at hxs
    rw [List.foldl_cons, List.foldl_cons, ih hxs.2, rebuild_add hxs.1]

end Changes

/-! ### One list of additions after the other -/

/-- Additions to a query can be made one list after the other. -/
theorem Query.applyAll_append {settings : Settings} {q : Query} {as bs : List Constraint}
    (h : ∀ c ∈ as ++ bs, c.AddsValue) :
    q.applyAll settings (as ++ bs) = (q.applyAll settings as).applyAll settings bs := by
  obtain ⟨has, hbs⟩ := List.forall_mem_append.mp h
  have hentities : (q.applyAll settings as).entities = q.entities :=
    entities_applyAll_of_addsValue has
  have hmem : ∀ i, ∀ c ∈ as.filter (fun c => target? q c = some i), c.AddsValue :=
    fun i c hc => has c (List.mem_of_mem_filter hc)
  -- the queries keep their numbers, so that the second list is aimed at what it was aimed at
  rw [applyAll, applyAll, changesAt_of_entities_eq hentities, applyAll, rebuild_rebuild]
  · congr 1
    funext i e c
    rw [changesAt_of_addsValue h, changesAt_of_addsValue has, changesAt_of_addsValue hbs,
      List.filter_append]
    simp only [Changes.apply, List.foldl_nil, List.foldl_append]
  · intro i e c
    rw [changesAt_of_addsValue has]
    exact Changes.entities_apply_eq (declareNothing_of_addsValue (hmem i)) e c
  · intro i e c next
    rw [changesAt_of_addsValue has]
    exact Changes.rebuild_additions (hmem i) c next

/-- Additions make the same of queries that are written alike. -/
theorem Query.canonical_applyAll {settings : Settings} {q : Query} {cs : List Constraint}
    (hcs : ∀ c ∈ cs, c.AddsValue) (hq : q.entity.isPlain = true) {P : Attribute → Prop}
    (h : q.condition.WellFormed P) :
    (q.applyAll settings cs).canonical = (q.canonical.applyAll settings cs).canonical := by
  rw [applyAll, applyAll, changesAt_of_entities_eq q.entities_canonical]
  refine canonical_rebuild (fun i e c he => ?_) hq h
  rw [changesAt_of_addsValue hcs]
  exact Changes.canonical_additions he c _

section Merge

variable {settings : Settings} {source : String} {q : Query} {cs : List Constraint}

/-- Nothing is known of the attributes of what constraints describe, but this is of no account to
how it is written. -/
theorem Query.render_canonical_applyAll (hq : q.IsPlain) :
    (q.applyAll settings cs).canonical.render = (q.applyAll settings cs).render := by
  refine render_canonical (P := fun _ => True) ?_
  refine wellFormed_applyAll (fun _ _ => trivial) hq ?_ settings
  exact fun c _ new hnew _ => Constraint.wellFormed_of_condition? hnew

end Merge

/-- Additions of comparisons can be merged all at once or in two lists, one after the other, if
the paths in the first list are made of names and what is merged first can be read. -/
theorem merge_append {settings : Settings} {source : String} {as bs : List Constraint}
    (has : ∀ c ∈ as, c.IsDotted) (hvalue : ∀ c ∈ as ++ bs, c.AddsValue)
    (hmerge : ∃ p, parse (merge settings source as) = .ok p) :
    merge settings (merge settings source as) bs = merge settings source (as ++ bs) := by
  cases hq : parse source with
  | error e =>
    -- nothing is merged into what can not be read
    rw [merge_of_error hq, merge_of_error hq, merge_of_error hq]
  | ok q =>
    obtain ⟨hplain, -, -⟩ := tidy_of_parse hq
    have happend : q.applyAll settings (as ++ bs) = (q.applyAll settings as).applyAll settings bs :=
      Query.applyAll_append hvalue
    by_cases hanone : ∀ c ∈ as, target? q c = none
    · rw [Query.applyAll_of_forall_eq_none hanone] at happend
      rw [merge_of_forall_eq_none hq hanone]
      by_cases hbnone : ∀ c ∈ bs, target? q c = none
      · rw [merge_of_forall_eq_none hq hbnone,
          merge_of_forall_eq_none hq (List.forall_mem_append.mpr ⟨hanone, hbnone⟩)]
      · rw [merge_of_exists_ne_none hq hbnone, merge_of_exists_ne_none hq, happend]
        exact fun hnone => hbnone (List.forall_mem_append.mp hnone).2
    · have hsome : ¬∀ c ∈ as ++ bs, target? q c = none :=
        fun hnone => hanone (List.forall_mem_append.mp hnone).1
      obtain ⟨p, hp⟩ := hmerge
      rw [merge_of_exists_ne_none hq hanone] at hp ⊢
      rw [merge_of_exists_ne_none hq hsome, happend]
      -- what is read of the first merge is written like what was merged
      have hfirst : (q.applyAll settings as).IsPlain := Query.isPlain_applyAll settings hplain has
      have hcanonical := Query.canonical_eq_of_parse_render hfirst hp
      have htarget : ∀ c, target? p c = target? (q.applyAll settings as) c :=
        target?_of_entities_eq (Query.entities_of_parse_render hfirst hp)
      obtain ⟨hpplain, -, -⟩ := tidy_of_parse hp
      obtain ⟨-, hbs⟩ := List.forall_mem_append.mp hvalue
      by_cases hbnone : ∀ c ∈ bs, target? (q.applyAll settings as) c = none
      · rw [merge_of_forall_eq_none hp (by simpa only [htarget] using hbnone),
          Query.applyAll_of_forall_eq_none hbnone]
      · rw [merge_of_exists_ne_none hp (by simpa only [htarget] using hbnone)]
        calc (p.applyAll settings bs).render
            = (p.applyAll settings bs).canonical.render :=
              (Query.render_canonical_applyAll hpplain).symm
          _ = ((q.applyAll settings as).applyAll settings bs).canonical.render := by
              rw [Query.canonical_applyAll hbs hpplain.1 hpplain.2, hcanonical,
                ← Query.canonical_applyAll hbs hfirst.1 hfirst.2]
          _ = ((q.applyAll settings as).applyAll settings bs).render :=
              Query.render_canonical_applyAll hfirst

/-- An addition to a nested query without a condition of its own, of a value that is no literal,
and two more, one of them negative. -/
theorem merge_append_quoted :
    let source := "functionCall fc where fc.a contain literal x ;"
    let c : Constraint :=
      { path := "x.value", operator? := some "==", value? := some "a b", action := .add }
    let d : Constraint :=
      { path := "x.kind", operator? := some "match", value? := some "a\"b", action := .add,
        isNegative := true }
    let e : Constraint :=
      { path := "fc.name", operator? := some "!=", value? := some "1", action := .add }
    (parse (merge {} source [c])).isOk = true
      ∧ merge {} (merge {} source [c]) [d, e] = merge {} source [c, d, e]
      ∧ merge {} source [c, d, e] = "functionCall fc where and(fc.a contain literal x where "
        ++ "and(x.value == \"a b\", not(x.kind match \"a\\\"b\")) ;, fc.name != 1) ;" := by
  intro source c d e
  have hdotted : ∀ f ∈ [c], f.IsDotted := by
    intro f hf
    rw [List.mem_singleton.mp hf]
    exact ⟨⟨"x", ["value"]⟩, by decide, by decide⟩
  have hvalue : ∀ f ∈ [c] ++ [d, e], f.AddsValue := by decide +kernel
  have hmerge : (parse (merge {} source [c])).isOk = true := by decide +kernel
  exact ⟨hmerge, merge_append hdotted hvalue (Except.isOk_iff.mp hmerge), by decide +kernel⟩

end NodeQuery
