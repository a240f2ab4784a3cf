/-
Constraints without repetitions.

Constraints that repeat one in front of them are left out in two ways: those that say the same, and
those that are about the same path and action, whatever they say of it. Two sets are filled on the
way, and a constraint that is left out is in the one and not in the other. The invariant is that
whatever was said is about something that has been kept. So the first test finds nothing that the
second would not find, and what is left are the first constraints about each path and action.

* `Constraint.firsts`: the constraints that are about something new.
* `Constraint.dedupeAfter_eq`: what is left behind constraints that have been there.
* `extract_firsts`: the constraints that are found in a text, with and without repetitions.
-/
import Mathlib.Data.List.Nodup
import NodeQuery.Constraint.Extract

namespace NodeQuery

namespace Constraint

/-! ### The first constraints about something -/

/-- The constraints of a list about a path and an action that none in front of them is about. -/
def firsts (cs : List Constraint) : List Constraint :=
  (cs.zipIdx.filter fun x : Constraint × Nat =>
    ∀ b ∈ cs.take x.2, b.topic ≠ x.1.topic).map Prod.fst

/-- The constraints of a list about something that none in front of them is about, and that is not
among `topics`. -/
def firstsAfter (topics : List (String × Action)) (cs : List Constraint) : List Constraint :=
  (cs.zipIdx.filter fun x : Constraint × Nat =>
    x.1.topic ∉ topics ∧ ∀ b ∈ cs.take x.2, b.topic ≠ x.1.topic).map Prod.fst

variable {topics : List (String × Action)}

theorem firstsAfter_nil_left (cs : List Constraint) : firstsAfter [] cs = firsts cs := by
  simp [firstsAfter, firsts]

theorem firstsAfter_nil (topics : List (String × Action)) : firstsAfter topics [] = [] :=
  rfl

theorem firstsAfter_congr {topics' : List (String × Action)} (h : ∀ t, t ∈ topics ↔ t ∈ topics')
    (cs : List Constraint) : firstsAfter topics cs = firstsAfter topics' cs := by
  simp only [firstsAfter, h]

theorem firstsAfter_cons (c : Constraint) (cs : List Constraint) :
    firstsAfter topics (c :: cs)
      = if c.topic ∈ topics then firstsAfter topics cs
        else c :: firstsAfter (c.topic :: topics) cs := by
  -- behind `c`, its topic is one of those that have been there
  have htail : ((cs.zipIdx 1).filter fun x : Constraint × Nat =>
      x.1.topic ∉ topics ∧ ∀ b ∈ (c :: cs).take x.2, b.topic ≠ x.1.topic).map Prod.fst
      = firstsAfter (c.topic :: topics) cs := by
    rw [List.zipIdx_succ, List.filter_map, List.map_map, firstsAfter]
    congr 1
    refine List.filter_congr fun x _ => decide_eq_decide.mpr ?_
    rw [List.take_succ_cons, List.forall_mem_cons, List.mem_cons, not_or, ne_comm, and_left_comm,
      and_assoc]
  rw [firstsAfter, List.zipIdx_cons, List.filter_cons]
  by_cases hc : c.topic ∈ topics
  · rw [if_neg (by simp [hc]), if_pos hc]
    exact htail.trans (firstsAfter_congr (by simp [hc]) cs)
  · rw [if_pos (by simp [hc]), if_neg hc, List.map_cons]
    exact congrArg (c :: ·) htail

theorem mem_topics_firstsAfter {cs : List Constraint} {t : String × Action} :
    t ∈ (firstsAfter topics cs).map topic ↔ t ∉ topics ∧ t ∈ cs.map topic := by
  induction cs generalizing topics with
  | nil => simp [firstsAfter_nil]
  | cons c cs ih =>
    rw [firstsAfter_cons]
    by_cases hc : c.topic ∈ topics
    · rw [if_pos hc, ih, List.map_cons, List.mem_cons]
      refine and_congr_right fun ht => (or_iff_right ?_).symm
      rintro rfl
      exact ht hc
    · rw [if_neg hc, List.map_cons, List.mem_cons, ih, List.map_cons, List.mem_cons, List.mem_cons,
        not_or]
      by_cases ht : t = c.topic
      · simp [ht, hc]
      · simp [ht]

theorem nodup_topics_firstsAfter (cs : List Constraint) :
    ((firstsAfter topics cs).map topic).Nodup := by
  induction cs generalizing topics with
  | nil => exact List.nodup_nil
  | cons c cs ih =>
    rw [firstsAfter_cons]
    split_ifs with hc
    · exact ih
    · rw [List.map_cons, List.nodup_cons, mem_topics_firstsAfter]
      exact ⟨fun h => h.1 (List.mem_cons_self ..), ih⟩

/-- Constraints about different things are all kept. -/
theorem firstsAfter_eq_self {cs : List Constraint} (hnew : ∀ c ∈ cs, c.topic ∉ topics)
    (hnodup : (cs.map topic).Nodup) : firstsAfter topics cs = cs := by
  induction cs generalizing topics with
  | nil => rfl
  | cons c cs ih =>
    rw [List.forall_mem_cons] at hnew
    rw [List.map_cons, List.nodup_cons] at hnodup
    rw [firstsAfter_cons, if_neg hnew.1, ih _ hnodup.2]
    intro d hd hmem
    rcases List.mem_cons.mp hmem with heq | hmem
    · exact hnodup.1 (heq ▸ List.mem_map_of_mem hd)
    · exact hnew.2 d hd hmem

/-! ### The two tests -/

/-- If whatever was said is about something that has been kept, only those constraints are left that
are about something new. -/
theorem dedupeAfter_eq {contents : List (String × Action × Option String × Option String)}
    (h : ∀ x ∈ contents, (x.1, x.2.1) ∈ topics) (cs : List Constraint) :
    dedupeAfter contents topics cs = firstsAfter topics cs := by
  induction cs generalizing contents topics with
  | nil => rfl
  | cons c cs ih =>
    rw [dedupeAfter, firstsAfter_cons]
    simp only [List.contains_iff_mem]
    by_cases hcontent : c.content ∈ contents
    · -- a constraint that says what has been said is about what has been kept
      have htopic : c.topic ∈ topics := h c.content hcontent
      rw [if_pos hcontent, if_pos htopic, ih h]
    rw [if_neg hcontent]
    by_cases htopic : c.topic ∈ topics
    · rw [if_pos htopic, if_pos htopic]
      exact ih (List.forall_mem_cons.mpr ⟨htopic, h⟩)
    · rw [if_neg htopic, if_neg htopic, ih]
      refine List.forall_mem_cons.mpr ⟨List.mem_cons_self .., fun x hx => ?_⟩
      exact List.mem_cons_of_mem c.topic (h x hx)

theorem dedupe_eq_firsts (cs : List Constraint) : dedupe cs = firsts cs := by
  rw [dedupe, dedupeAfter_eq (List.forall_mem_nil _), firstsAfter_nil_left]

theorem firsts_sublist (cs : List Constraint) : (firsts cs).Sublist cs := by
  have h : (firsts cs).Sublist (cs.zipIdx.map Prod.fst) := List.filter_sublist.map Prod.fst
  rwa [List.zipIdx_map_fst] at h

end Constraint

/-! ### Constraints in a text -/

/-- Without repetitions, the constraints that are found in a text are those, in their order, that
are about a path and an action that no constraint in front of them is about. So no two of them are
about the same, nothing that one of all is about is lost, and nothing more is left out a second
time. -/
theorem extract_firsts (settings : Settings) (origin : Constraint.Origin) (text : String) :
    let all := extract { settings with dedupeConstraints := false } origin text
    let kept := extract { settings with dedupeConstraints := true } origin text
    kept = Constraint.firsts all
      ∧ kept.Sublist all
      ∧ (kept.map Constraint.topic).Nodup
      ∧ (∀ t, t ∈ kept.map Constraint.topic ↔ t ∈ all.map Constraint.topic)
      ∧ Constraint.dedupe kept = kept := by
  intro all kept
  have hkept : kept = Constraint.firsts all := Constraint.dedupe_eq_firsts all
  have hnodup : (kept.map Constraint.topic).Nodup := by
    rw [hkept, ← Constraint.firstsAfter_nil_left]
    exact Constraint.nodup_topics_firstsAfter all
  refine ⟨hkept, hkept ▸ Constraint.firsts_sublist all, hnodup, fun t => ?_, ?_⟩
  · rw [hkept, ← Constraint.firstsAfter_nil_left, Constraint.mem_topics_firstsAfter]
    exact and_iff_right (List.not_mem_nil)
  · rw [Constraint.dedupe_eq_firsts, ← Constraint.firstsAfter_nil_left]
    exact Constraint.firstsAfter_eq_self (fun c _ => List.not_mem_nil) hnodup

end NodeQuery
