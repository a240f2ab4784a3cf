/-
What is read of a path in front of an operator.

A condition that a constraint describes is written with the path of the constraint as it is.
If what is written can be read, and leaves no comment open, then the path leads up to a leaf
by itself, wherever in a query the condition ends up.

* `Attribute.Opens`: the attributes of which the paths lead up to a leaf, and
  `Attribute.Declares`: those of which the paths declare entities.
* `Condition.Mirrors`, `rereads_of_opens`: a condition with such attributes is read back, as a
  mirror of itself if its attributes declare no entities.
* `Constraint.wellFormed_opens`: the attributes in a condition that a constraint describes.
-/
import NodeQuery.Proofs.Editing
import NodeQuery.Proofs.RoundTrip
import NodeQuery.Proofs.Steady

namespace NodeQuery

open Grammar

/-! ### Attributes that are read back -/

namespace Attribute

/-- What is said of the attribute is read, once it is written, as a leaf, perhaps inside of
relations that begin in its path. -/
def Opens (a : Attribute) : Prop :=
  ∃ b wrap, a.LeadsTo b wrap

/-- Relations begin in the path of the attribute. -/
def Declares (a : Attribute) : Prop :=
  ∃ op, .relOp op ∈ a.pathKinds

variable {a : Attribute}

theorem opens_of_isPlain (h : a.isPlain = true) : a.Opens :=
  ⟨a, id, leadsTo_of_isPlain h⟩

theorem not_declares_of_isPlain (h : a.isPlain = true) : ¬a.Declares := by
  rintro ⟨op, hop⟩
  rw [pathKinds_of_isPlain h] at hop
  exact a.operator_not_mem_kinds rfl hop

end Attribute

theorem Leads.eq_id {b : Attribute} {wrap : Condition → Condition} {ks : List Token.Kind}
    (h : Leads b wrap ks) (hks : ¬∃ op, .relOp op ∈ ks) : wrap = id := by
  cases h with
  | here => rfl
  | step a op e h => exact absurd ⟨op, by simp⟩ hks

namespace Condition

/-- How deep conditions are nested in one another once the condition is written, with the
levels that are hidden in paths. -/
def levels (c : Condition) : Nat :=
  c.depth Attribute.hiddenLevels

/-- No levels are hidden in the paths of attributes that are made of names. -/
theorem levels_of_isPlain {c : Condition} (h : c.IsPlain) : c.levels = c.nesting :=
  depth_congr (fun _ => Attribute.hiddenLevels_of_isPlain) h

/-- No relations begin in the paths of the attributes. -/
def DeclaresNothing (c : Condition) : Prop :=
  c.WellFormed fun a => ¬a.Declares

end Condition

/-- What is demanded of the parts of a condition if what is read of them is to be as `D`
demands. -/
def Demands.reread (D : Demands) : Demands where
  value e m := ∀ b, m.subject.LeadsTo b id → D.value e ⟨b, m.operator, Literal.escape m.value⟩
  subject e a := ∀ b, a.LeadsTo b id → D.subject e b
  entity := D.entity

/-- `c.Mirrors r`: the entities in `r` are those in `c`, and what is demanded holds of `r` if it
holds of what is read of `c`. -/
def Condition.Mirrors (c r : Condition) : Prop :=
  r.entities = c.entities ∧ ∀ D e, c.Meets (Demands.reread D) e → r.Meets D e

theorem mirrors_placeholder {e : Entity} (h : e.isPlain = true) :
    (Condition.placeholder e).Mirrors (.placeholder e) := by
  refine ⟨rfl, fun D d hc => ?_⟩
  have hname : (Attribute.node e.referenceName).isPlain = true := Condition.isPlain_placeholder h
  have hescaped := Condition.escaped_placeholder h
  simp only [Condition.placeholder, Condition.escaped, Condition.value.injEq,
    ValueMatch.mk.injEq, true_and] at hescaped
  have := hc _ (Attribute.leadsTo_of_isPlain hname)
  rwa [hescaped] at this

theorem exists_rereads_of_forall {cs : List Condition}
    (h : ∀ c ∈ cs, ∃ r, Rereads c r c.levels ∧ (c.DeclaresNothing → c.Mirrors r)) :
    ∃ rs, List.Forall₂ (fun c r => Rereads c r c.levels) cs rs
      ∧ ((∀ c ∈ cs, c.DeclaresNothing) → List.Forall₂ Condition.Mirrors cs rs) := by
  induction cs with
  | nil => exact ⟨[], .nil, fun _ => .nil⟩
  | cons c cs ih =>
    rw [List.forall_mem_cons] at h
    obtain ⟨r, hr, hmirrors⟩ := h.1
    obtain ⟨rs, hrs, hall⟩ := ih h.2
    refine ⟨r :: rs, .cons hr hrs, fun hcs => ?_⟩
    rw [List.forall_mem_cons] at hcs
    exact .cons (hmirrors hcs.1) (hall hcs.2)

theorem mirrors_group {k : Connective} {cs rs : List Condition}
    (h : List.Forall₂ Condition.Mirrors cs rs) :
    (Condition.group k cs).Mirrors (.group k rs) := by
  constructor
  · rw [Condition.entities_group, Condition.entities_group]
    induction h with
    | nil => rfl
    | cons hc _ ih => rw [List.flatMap_cons, List.flatMap_cons, hc.1, ih]
  · rintro D e ⟨hlen, hcs⟩
    refine ⟨h.length_eq ▸ hlen, ?_⟩
    clear hlen
    induction h with
    | nil => trivial
    | cons hc _ ih => exact ⟨hc.2 D e hcs.1, ih hcs.2⟩

/-- A condition is read back if its attributes are. What is read mirrors it, unless relations
begin in the paths of its attributes. -/
theorem rereads_of_opens {c : Condition} (h : c.WellFormed Attribute.Opens) :
    ∃ r, Rereads c r c.levels ∧ (c.DeclaresNothing → c.Mirrors r) := by
  induction c with
  | value m =>
    obtain ⟨b, wrap, hleads⟩ := h
    refine ⟨_, rereads_value hleads m.operator m.value, fun hno => ?_⟩
    obtain rfl := hleads.1.eq_id hno
    exact ⟨rfl, fun D e hc => hc b hleads⟩
  | relation a op e c spans ih =>
    obtain ⟨⟨b, wrap, hleads⟩, he, hc⟩ := h
    -- a placeholder is read back without `where`
    obtain ⟨r, n, hr, hn, hmirrors⟩ : ∃ r n, RereadsNested e c r n
        ∧ n = (if c.isPlaceholder e then 1 else c.levels + 1)
        ∧ (c.DeclaresNothing → c.Mirrors r) := by
      split_ifs with hplaceholder
      · obtain rfl := Condition.isPlaceholder_iff.mp hplaceholder
        exact ⟨_, 1, rereadsNested_plain he hplaceholder, rfl, fun _ => mirrors_placeholder he⟩
      · obtain ⟨r, hr, hmirrors⟩ := ih hc
        exact ⟨r, _, rereadsNested_stated he (by simpa using hplaceholder) hr, rfl, hmirrors⟩
    rw [Condition.levels, Condition.depth, ← Condition.levels, ← hn]
    refine ⟨_, rereads_relation hleads op spans hr, fun hno => ?_⟩
    obtain rfl := hleads.1.eq_id hno.1
    obtain ⟨hentities, hmeets⟩ := hmirrors hno.2.2
    refine ⟨?_, fun D d hd => ⟨hd.1 b hleads, hd.2.1, hmeets D e hd.2.2⟩⟩
    rw [id, Condition.entities_relation, Condition.entities_relation, hentities]
  | negation c ih =>
    obtain ⟨r, hr, hmirrors⟩ := ih h
    exact ⟨_, rereads_negation hr, hmirrors⟩
  | group k cs ih =>
    obtain ⟨hlen, hcs⟩ := h
    obtain ⟨rs, hrs, hmirrors⟩ := exists_rereads_of_forall fun c hc =>
      ih c hc (Condition.allWellFormed_iff.mp hcs c hc)
    refine ⟨_, rereads_group_of_forall₂ k hlen hrs, fun hno => ?_⟩
    exact mirrors_group (hmirrors fun c hc => Condition.allWellFormed_iff.mp hno.2 c hc)

theorem Attribute.kinds_injective {a b : Attribute} (h : a.kinds = b.kinds) : a = b := by
  have key : ∀ ps qs : List String, (ps.flatMap fun p => [Token.Kind.dot, .identifier p])
      = (qs.flatMap fun p => [.dot, .identifier p]) → ps = qs := by
    intro ps
    induction ps with
    | nil =>
      rintro (_ | ⟨q, qs⟩) h
      · rfl
      · simp at h
    | cons p ps ih =>
      rintro (_ | ⟨q, qs⟩) h
      · simp at h
      · simp only [List.flatMap_cons, List.cons_append, List.nil_append, List.cons.injEq,
          Token.Kind.identifier.injEq, true_and] at h
        rw [h.1, ih qs h.2]
  obtain ⟨name, ps⟩ := a
  obtain ⟨name', qs⟩ := b
  simp only [kinds, List.cons.injEq, Token.Kind.identifier.injEq] at h
  rw [h.1, key ps qs h.2]

theorem Leads.kinds_eq {b : Attribute} {ks : List Token.Kind} (h : Leads b id ks) :
    ks = b.kinds := by
  generalize hwrap : (id : Condition → Condition) = wrap at h
  cases h with
  | here => rfl
  | step a op e h =>
    -- a leaf is no relation
    have := congrFun hwrap (.placeholder e)
    cases this

/-- An attribute is read back as one attribute at most. -/
theorem Attribute.LeadsTo.unique {a b d : Attribute} (hb : a.LeadsTo b id)
    (hd : a.LeadsTo d id) : b = d :=
  kinds_injective (hb.1.kinds_eq.symm.trans hd.1.kinds_eq)

/-- What is demanded holds of what is read of a condition made of names if it holds of the
condition, as long as its values are what is written for them. -/
theorem meets_reread_of_isPlain {D : Demands} {c : Condition} {e : Entity} (hc : c.IsPlain)
    (hescaped : c.escaped = c) (h : c.Meets D e) : c.Meets D.reread e := by
  induction c generalizing e with
  | value m =>
    intro b hb
    obtain rfl := (Attribute.leadsTo_of_isPlain hc).unique hb
    rw [Condition.escaped, Condition.value.injEq] at hescaped
    rw [hescaped]
    exact h
  | relation a op d c spans ih =>
    simp only [Condition.escaped, Condition.relation.injEq, true_and, and_true] at hescaped
    refine ⟨fun b hb => ?_, h.2.1, ih hc.2.2 hescaped h.2.2⟩
    obtain rfl := (Attribute.leadsTo_of_isPlain hc.1).unique hb
    exact h.1
  | negation c ih =>
    rw [Condition.escaped, Condition.negation.injEq] at hescaped
    exact ih hc hescaped h
  | group k cs ih =>
    rw [Condition.escaped, Condition.escapedAll_eq_map, Condition.group.injEq] at hescaped
    refine ⟨h.1, Condition.allMeet_iff.mpr fun c hmem => ?_⟩
    exact ih c hmem (Condition.allWellFormed_iff.mp hc.2 c hmem)
      (List.map_inj_left.mp (hescaped.2.trans (List.map_id cs).symm) c hmem)
      (Condition.allMeet_iff.mp h.2 c hmem)

/-! ### Conditions that constraints describe -/

/-- A path opens a leaf if it does so in front of an operator in a whole condition. -/
theorem Attribute.opens_of_reads {a : Attribute} {x : Token.Kind} {xs ks : List Token.Kind}
    {r : Condition} {n t m : Nat} (hlex : Lexes a.path.toList a.pathKinds)
    (hx : x.isOperator = true) (hxs : xs.count .opening = xs.count .closing)
    (hr : Reads (.condition r) n t ks) (heq : a.pathKinds ++ x :: xs = ks ++ semicolons m) :
    a.Opens := by
  have hmem : x ∉ semicolons m := by
    intro h
    rw [List.eq_of_mem_replicate h] at hx
    cases hx
  -- the operator stands in the condition, not among the semicolons behind it
  obtain ⟨ys, rfl, hys⟩ : ∃ ys, ks = a.pathKinds ++ x :: ys ∧ xs = ys ++ semicolons m := by
    rcases List.append_eq_append_iff.mp heq with ⟨is, rfl, his⟩ | ⟨is, hpath, his⟩
    · cases is with
      | nil =>
        rw [List.nil_append] at his
        exact absurd (his ▸ List.mem_cons_self ..) hmem
      | cons i is =>
        simp only [List.cons_append, List.cons.injEq] at his
        exact ⟨is, by rw [his.1], his.2⟩
    · exact absurd (his ▸ List.mem_append_right _ (List.mem_cons_self ..)) hmem
  have hbal := hr.balanced.1
  have hsemi := (balanced_semicolons m).1
  have hcount : a.pathKinds.count .opening = a.pathKinds.count .closing := by
    have ho : x ≠ .opening := by
      rintro rfl
      cases hx
    have hc : x ≠ .closing := by
      rintro rfl
      cases hx
    rw [hys, List.count_append, List.count_append] at hxs
    rw [List.count_append, List.count_append, List.count_cons_of_ne ho,
      List.count_cons_of_ne hc] at hbal
    omega
  obtain ⟨b, wrap, hleads⟩ := ledBy_of_reads hr rfl hx hcount
  exact ⟨b, wrap, hleads, hlex⟩

theorem Grammar.Reads.of_notWord {c : Condition} {n t : Nat} {ls : List Token.Kind}
    (h : Reads (.condition c) n t (.notWord :: ls)) :
    ∃ d l s m ks, Reads (.condition d) l s ks
      ∧ ls = .opening :: (ks ++ semicolons m ++ [.closing]) := by
  generalize hks : Token.Kind.notWord :: ls = ks at h
  cases h with
  | negation h hm =>
    simp only [List.cons.injEq, true_and] at hks
    exact ⟨_, _, _, _, _, h, hks⟩
  | _ => simp [Attribute.kinds] at hks

section Readable

variable {a : Attribute} {tail : List Char} {x : Token.Kind} {xs : List Token.Kind}
  {source : String} {r : Condition}

theorem error_not_mem_of_parseCondition (h : parseCondition source = .ok r) (message : String) :
    .error message ∉ kinds source.toList :=
  Parser.error_not_mem_of_run_eq_ok h message

/-- The path of a leaf leads up to it if the leaf can be read. -/
theorem opens_of_leaf (hsteady : Scan.Steady tail) (htail : Lexes tail (x :: xs))
    (hx : x.isOperator = true) (hxs : xs.count .opening = xs.count .closing)
    (htext : source.toList = a.path.toList ++ ' ' :: tail)
    (hopen : hasOpenComment source.toList = false) (hok : parseCondition source = .ok r) :
    a.Opens ∧ a.pathKinds ⊆ kinds source.toList := by
  obtain ⟨n, t, m, ks, -, -, hr, hks⟩ := Parser.parseCondition_sound hok
  have herr := error_not_mem_of_parseCondition hok
  rw [htext] at herr hopen hks
  -- what is written behind the path is steady, so the path is not cut inside a string or comment
  obtain ⟨hcode, hpath⟩ := Scan.stops_of_steady hsteady herr hopen
  have hlex : Lexes a.path.toList a.pathKinds := Scan.lexes_of_after hcode hpath
  have hkinds := (hlex.spaced htail).kinds_eq
  refine ⟨Attribute.opens_of_reads hlex hx hxs hr (hkinds.symm.trans hks), ?_⟩
  rw [htext, hkinds]
  exact List.subset_append_left _ _

/-- The path of a leaf leads up to it if the negated leaf can be read. -/
theorem opens_of_negated_leaf (hsteady : Scan.Steady tail) (htail : Lexes tail (x :: xs))
    (hx : x.isOperator = true) (hxs : xs.count .opening = xs.count .closing)
    (htext : source.toList = "not".toList ++ '(' :: (a.path.toList ++ ' ' :: tail ++ [')']))
    (hopen : hasOpenComment source.toList = false) (hok : parseCondition source = .ok r) :
    a.Opens ∧ a.pathKinds ⊆ kinds source.toList := by
  obtain ⟨n, t, m, ks, -, -, hr, hks⟩ := Parser.parseCondition_sound hok
  have herr := error_not_mem_of_parseCondition hok
  rw [htext] at hks
  have hcut : source.toList
      = ("not".toList ++ '(' :: a.path.toList) ++ ' ' :: (tail ++ [')']) := by
    rw [htext]
    simp
  rw [hcut] at herr hopen
  have hclosing : Scan.Steady [')'] := Scan.steady_of_all (by decide)
  obtain ⟨hcode, hpath⟩ := Scan.stops_of_steady (hsteady.append hclosing) herr hopen
  have hword : kinds ("not".toList ++ '(' :: a.path.toList)
      = .notWord :: .opening :: a.pathKinds := by
    rw [Literal.kinds_word (by decide) (by simp; decide), kinds_opening]
    rfl
  rw [hword] at hpath
  have hlex : Lexes a.path.toList a.pathKinds := by
    refine Scan.lexes_of_after hcode fun message h => hpath message ?_
    exact List.mem_cons_of_mem _ (List.mem_cons_of_mem _ h)
  have hall := (@Lexes.bracketed "not".toList _ .notWord _ (by decide) rfl
    (hlex.spaced htail)).kinds_eq
  refine ⟨?_, by rw [htext, hall]; intro k hk; simp [hk]⟩
  rw [hall] at hks
  cases ks with
  | nil => exact absurd rfl hr.ne_nil
  | cons k ks =>
    rw [List.cons_append, List.cons.injEq] at hks
    obtain ⟨rfl, hks⟩ := hks
    obtain ⟨d, l, s, j, is, hd, rfl⟩ := hr.of_notWord
    simp only [List.cons_append, List.cons.injEq, true_and] at hks
    -- nothing stands behind the closing bracket
    cases m with
    | zero =>
      have heq : a.pathKinds ++ x :: xs ++ [.closing] = is ++ semicolons j ++ [.closing] := by
        simpa [semicolons] using hks
      exact Attribute.opens_of_reads hlex hx hxs hd (List.append_cancel_right heq)
    | succ m =>
      rw [semicolons_succ, ← List.append_assoc] at hks
      have := List.append_inj_right' hks rfl
      simp at this

end Readable

/-- What is known of a nested query that is read of a text. -/
theorem isPlain_of_parseNested {source : String} {q : Query} (h : parseNested source = .ok q) :
    q.IsPlain := by
  obtain ⟨n, t, m, ks, -, -, hr, hks⟩ := Parser.parseNested_sound h
  have hgenuine : ∀ k ∈ kinds source.toList, k.isGenuine = true := isGenuine_of_mem_kinds
  rw [hks, List.forall_mem_append] at hgenuine
  obtain ⟨he, hc, -⟩ := tidy_of_reads hr hgenuine.1
  exact ⟨he, Condition.wellFormed_eraseSpans.mp hc⟩

theorem rereadsNested_of_isPlain {q : Query} (h : q.IsPlain) :
    ∃ r n, RereadsNested q.entity q.condition r n := by
  by_cases hplaceholder : q.condition.isPlaceholder q.entity = true
  · exact ⟨_, _, rereadsNested_plain h.1 hplaceholder⟩
  · exact ⟨_, _, rereadsNested_stated h.1 (by simpa using hplaceholder) (rereads_of_isPlain h.2)⟩

namespace Constraint

variable {c : Constraint} {p new : Condition}

/-- What a constraint describes is said of the attribute that its path names. -/
theorem positiveCondition?_eq_some (h : c.positiveCondition? = some p) :
    ∃ a operator v, Attribute.ofPath? (Text.trim c.path) = some a
      ∧ c.operatorText? = some operator ∧ c.valueText? = some v
      ∧ ((∃ op q, RelOp.ofText? operator = some op ∧ parseNested v = .ok q
          ∧ p = Condition.relate a op q)
        ∨ ∃ op, RelOp.ofText? operator = none ∧ ValueOp.ofText? operator = some op
          ∧ p = .value ⟨a, op, v⟩) := by
  rw [positiveCondition?] at h
  simp only [Option.bind_eq_bind, Option.bind_eq_some_iff] at h
  obtain ⟨a, ha, operator, hoperator, v, hv, h⟩ := h
  refine ⟨a, operator, v, ha, hoperator, hv, ?_⟩
  split at h
  · rename_i op hop
    obtain ⟨q, hq, rfl⟩ := Option.map_eq_some_iff.mp h
    cases hparse : parseNested v with
    | error errors =>
      rw [hparse] at hq
      cases hq
    | ok q' =>
      rw [hparse] at hq
      cases hq
      exact .inl ⟨op, q, hop, rfl, rfl⟩
  · rename_i hop
    obtain ⟨op, hvalueOp, rfl⟩ := Option.map_eq_some_iff.mp h
    exact .inr ⟨op, hop, hvalueOp, rfl⟩

/-- What is written for a leaf that a constraint describes. -/
theorem exists_tail (h : c.positiveCondition? = some p) :
    ∃ (a : Attribute) (tail : List Char) (x : Token.Kind) (xs : List Token.Kind),
      Scan.Steady tail ∧ Lexes tail (x :: xs) ∧ x.isOperator = true
      ∧ xs.count .opening = xs.count .closing ∧ p.render.toList = a.path.toList ++ ' ' :: tail
      ∧ ∀ P : Attribute → Prop, (∀ b, b.isPlain = true → P b) → P a → p.WellFormed P := by
  obtain ⟨a, -, v, -, -, -, ⟨op, q, -, hq, rfl⟩ | ⟨op, -, -, rfl⟩⟩ := positiveCondition?_eq_some h
  · have hplain := isPlain_of_parseNested hq
    obtain ⟨r, n, ks, t, m, -, hlex, hr⟩ := rereadsNested_of_isPlain hplain
    refine ⟨a, _, _, _, (Scan.steady_relOp op).spaced
      (Scan.steady_renderNested hplain.1 (Scan.steady_render hplain.2)),
      (lexes_relOp op).spaced hlex, rfl, (hr.balanced.append (balanced_semicolons m)).1, ?_, ?_⟩
    · simp [Condition.relate, Condition.render]
    · exact fun P hP ha => ⟨ha, hplain.1, hplain.2.mono hP⟩
  · obtain ⟨k, hk, hlex⟩ := Literal.lexes_escape v
    refine ⟨a, _, _, _, (Scan.steady_valueOp op).spaced (Scan.steady_escape v),
      (lexes_valueOp op).spaced hlex, rfl, ?_, ?_, fun P hP ha => ha⟩
    · cases k <;> simp_all [Token.Kind.value?]
    · simp [Condition.render, ValueMatch.render]

/-- The attributes of a condition that can be read, and leaves no comment open, are read back;
and no relations begin in them if the condition is read without any. -/
theorem wellFormed_opens (h : c.condition? = some new) (hreadable : new.isReadable = true)
    (hopen : hasOpenComment new.render.toList = false) :
    new.WellFormed Attribute.Opens
      ∧ ((¬∃ op, .relOp op ∈ kinds new.render.toList) → new.DeclaresNothing) := by
  obtain ⟨p, hp, rfl⟩ := Option.map_eq_some_iff.mp h
  obtain ⟨a, tail, x, xs, hsteady, hlex, hx, hxs, htext, hwf⟩ := exists_tail hp
  obtain ⟨r, hr⟩ := Except.isOk_iff.mp hreadable
  have key : ∀ ks, a.Opens ∧ a.pathKinds ⊆ ks → p.WellFormed Attribute.Opens
      ∧ ((¬∃ op, .relOp op ∈ ks) → p.DeclaresNothing) := by
    intro ks ha
    refine ⟨hwf _ (fun b => Attribute.opens_of_isPlain) ha.1, fun hno => ?_⟩
    refine hwf _ (fun b => Attribute.not_declares_of_isPlain) ?_
    rintro ⟨op, hop⟩
    exact hno ⟨op, ha.2 hop⟩
  cases hneg : c.isNegative with
  | false =>
    rw [hneg] at hr hopen
    exact key _ (opens_of_leaf hsteady hlex hx hxs htext hopen hr)
  | true =>
    rw [hneg] at hr hopen
    refine key _ (opens_of_negated_leaf hsteady hlex hx hxs ?_ hopen hr)
    simp [Condition.render, htext]

end Constraint

end NodeQuery
