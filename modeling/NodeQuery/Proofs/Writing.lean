/-
What is read of a condition that was written.

Names are written as they are, so what is read of a path depends on the text of its names.
A path may even hold the beginnings of relations, which then are read around the leaf for
which the path was meant.

* `Leads`, `Attribute.LeadsTo`: the paths behind which a leaf is read, in relations or not.
* `ledBy_of_reads`: what stands in front of an operator leads to a leaf, if it opens and closes
  as many brackets.
* `Attribute.hiddenLevels`: the levels of nesting that a path brings along.
* `Rereads`, `RereadsAll`, `RereadsNested`: what a condition, the members of a group and a
  nested query are read as, once they are written; one lemma for each way to build them.
* `parse_of_rereads`, `parseCondition_of_rereads`, `parseNested_of_rereads`: whole texts.
-/
import Mathlib.Data.List.Forall2
import NodeQuery.Proofs.Parsing
import NodeQuery.Proofs.Shape

namespace NodeQuery

open Grammar

/-! ### Words and operators in a text -/

theorem lexes_valueOp (op : ValueOp) : Lexes op.spelling.toList [.valueOp op] := by
  cases op with
  | matching => exact Literal.lexes_word (w := "match".toList) (by decide)
  | is => exact Literal.lexes_word (w := "is".toList) (by decide)
  | equal => exact @Lexes.of_read '=' ['='] _ (by decide) (by decide) rfl (by simp)
  | unequal => exact @Lexes.of_read '!' ['='] _ (by decide) (by decide) rfl (by simp)

theorem lexes_relOp (op : RelOp) : Lexes op.spelling.toList [.relOp op] := by
  cases op with
  | contains => exact Literal.lexes_word (w := "contain".toList) (by decide)
  | inside => exact Literal.lexes_word (w := "in".toList) (by decide)
  | outside => exact Literal.lexes_word (w := "notIn".toList) (by decide)

theorem lexes_where : Lexes "where".toList [.whereWord] :=
  Literal.lexes_word (w := "where".toList) (by decide)

/-- A word and a text in brackets behind it. -/
theorem Lexes.bracketed {w as : List Char} {k : Token.Kind} {ks : List Token.Kind}
    (hw : Literal.isWord w = true) (hk : Lexeme.wordKind (String.ofList w) = k)
    (h : Lexes as ks) :
    Lexes (w ++ '(' :: (as ++ [')'])) (k :: .opening :: (ks ++ [.closing])) := by
  intro rest _
  rw [List.append_assoc, List.cons_append, List.append_assoc,
    Literal.kinds_word hw (by simp; decide), hk, kinds_opening, List.singleton_append,
    h _ (delimited_closing _), kinds_closing]
  simp

/-! ### Attributes and declarations in a text -/

theorem toList_path (a : Attribute) :
    a.path.toList = a.name.toList ++ a.properties.flatMap fun p => '.' :: p.toList := by
  obtain ⟨name, ps⟩ := a
  simp only [Attribute.path, Text.joinWith]
  induction ps generalizing name with
  | nil => simp
  | cons p ps ih =>
    rw [String.intercalate_cons_cons]
    simp [ih]

theorem lexes_path {a : Attribute} (h : a.isPlain = true) : Lexes a.path.toList a.kinds := by
  obtain ⟨name, ps⟩ := a
  simp only [Attribute.isPlain, Bool.and_eq_true, List.all_eq_true] at h
  obtain ⟨hname, hps⟩ := h
  intro rest hrest
  have hhead : ∀ ps : List String,
      ∀ c ∈ ((ps.flatMap fun p => '.' :: p.toList) ++ rest).head?, Lexeme.isWordPart c = false := by
    intro ps
    cases ps with
    | nil => exact Literal.isWordPart_of_delimited hrest
    | cons p ps => simp; decide
  -- what follows a name in a path, a dot or the delimiter, does not go on with it
  have hword : ∀ w ds, Literal.isName w = true → (∀ c ∈ ds.head?, Lexeme.isWordPart c = false) →
      kinds (w.toList ++ ds) = .identifier w :: kinds ds := by
    intro w ds hw hds
    rw [Literal.kinds_word (Literal.isWord_of_isName hw) hds, String.ofList_toList,
      Literal.wordKind_of_isName hw]
  have hbehind : kinds ((ps.flatMap fun p => '.' :: p.toList) ++ rest)
      = (ps.flatMap fun p => [.dot, .identifier p]) ++ kinds rest := by
    induction ps with
    | nil => rfl
    | cons p ps ih =>
      rw [List.forall_mem_cons] at hps
      rw [List.flatMap_cons, List.flatMap_cons, List.append_assoc, List.cons_append, kinds_dot,
        hword p _ hps.1 (hhead ps), ih hps.2]
      rfl
  rw [toList_path, List.append_assoc, hword name _ hname (hhead ps), hbehind]
  rfl

theorem lexes_entity {e : Entity} (h : e.isPlain = true) : Lexes e.render.toList e.kinds := by
  obtain ⟨nodeType, alias?⟩ := e
  simp only [Entity.isPlain, Bool.and_eq_true] at h
  cases alias? with
  | none => exact Literal.lexes_name h.1
  | some name =>
    have := (Literal.lexes_name h.1).spaced (Literal.lexes_name h.2)
    simpa [Entity.render, Entity.kinds] using this

/-! ### Paths that lead to a leaf -/

theorem Attribute.count_whereWord_kinds (a : Attribute) : a.kinds.count .whereWord = 0 :=
  List.count_eq_zero.mpr (a.not_mem_kinds rfl)

theorem Entity.count_whereWord_kinds (e : Entity) : e.kinds.count .whereWord = 0 :=
  List.count_eq_zero.mpr (e.not_mem_kinds rfl)

/-- `Leads b wrap ks`: behind the tokens `ks`, what is said of the attribute `b` is read as a
leaf, and what is read in all is that leaf wrapped by `wrap`. -/
inductive Leads (b : Attribute) : (Condition → Condition) → List Token.Kind → Prop where
  | here : Leads b id b.kinds
  | step {wrap : Condition → Condition} {ks : List Token.Kind} (a : Attribute) (op : RelOp)
      (e : Entity) (h : Leads b wrap ks) :
      Leads b (fun c => .relation a op e (wrap c) {})
        (a.kinds ++ .relOp op :: (e.kinds ++ .whereWord :: ks))

theorem Leads.reads {b : Attribute} {wrap : Condition → Condition} {ks ls : List Token.Kind}
    (h : Leads b wrap ks) {c : Condition} {n t : Nat}
    (hc : Reads (.condition c) n t (b.kinds ++ ls)) :
    ∃ l, t ≤ l ∧ Reads (.condition (wrap c)) (ks.count .whereWord + n) l (ks ++ ls) := by
  -- each relation in the path puts a level and a nested query around the leaf
  induction h with
  | here =>
    refine ⟨t, le_refl t, ?_⟩
    rw [Attribute.count_whereWord_kinds, Nat.zero_add]
    exact hc
  | step a op e h ih =>
    rename_i wrap ks
    obtain ⟨l, hl, hr⟩ := ih
    have hcount : (a.kinds ++ .relOp op :: (e.kinds ++ .whereWord :: ks)).count .whereWord
        = ks.count .whereWord + 1 := by
      rw [List.count_append, Attribute.count_whereWord_kinds, List.count_cons_of_ne (by simp),
        List.count_append, Entity.count_whereWord_kinds, List.count_cons_self]
      omega
    refine ⟨l + 1, by omega, ?_⟩
    rw [hcount]
    have := Reads.relation a op (Reads.stated e hr)
    simpa [Nat.add_right_comm] using this

/-- Whether a token is an operator. -/
def Token.Kind.isOperator : Token.Kind → Bool
  | .valueOp _ => true
  | .relOp _ => true
  | _ => false

/-- What the tokens in front of an operator are, as a part of a phrase. -/
def Grammar.Phrase.LedBy (ks : List Token.Kind) : Phrase → Prop
  | .condition _ => ∃ b wrap, Leads b wrap ks
  | .members _ => True
  | .nested e _ => ∃ b wrap ls, ks = e.kinds ++ .whereWord :: ls ∧ Leads b wrap ls

theorem Token.Kind.isNaming_of_isOperator {x : Token.Kind} (hx : x.isOperator = true) :
    x.isNaming = false := by
  cases x <;> first | rfl | cases hx

theorem Attribute.operator_not_mem_kinds {x : Token.Kind} (hx : x.isOperator = true)
    (a : Attribute) : x ∉ a.kinds :=
  a.not_mem_kinds (Token.Kind.isNaming_of_isOperator hx)

theorem Entity.operator_not_mem_kinds {x : Token.Kind} (hx : x.isOperator = true) (e : Entity) :
    x ∉ e.kinds :=
  e.not_mem_kinds (Token.Kind.isNaming_of_isOperator hx)

/-- The bracket behind a first word is not closed in front of an operator. -/
theorem count_ne_of_bracketed {k x : Token.Kind} {ks ls xs : List Token.Kind}
    (hks : Balanced ks) (hk : k ≠ .opening ∧ k ≠ .closing ∧ k.isOperator = false)
    (hx : x.isOperator = true) (h : k :: .opening :: (ks ++ [.closing]) = ls ++ x :: xs) :
    ls.count .opening ≠ ls.count .closing := by
  obtain ⟨hopening, hclosing, hoperator⟩ := hk
  match ls, h with
  | [], h =>
    simp only [List.nil_append, List.cons.injEq] at h
    rw [h.1, hx] at hoperator
    cases hoperator
  | [l], h =>
    simp only [List.cons_append, List.nil_append, List.cons.injEq] at h
    rw [← h.2.1] at hx
    cases hx
  | l :: m :: ls, h =>
    simp only [List.cons_append, List.cons.injEq] at h
    obtain ⟨rfl, rfl, h⟩ := h
    have hprefix : ls <+: ks := by
      rcases List.append_eq_append_iff.mp h with ⟨is, rfl, his⟩ | ⟨is, rfl, his⟩
      · cases is with
        | nil => exact (List.append_nil ks).symm ▸ List.prefix_refl _
        | cons i is => simp at his
      · exact List.prefix_append ls is
    have hle := hks.2 ls hprefix
    rw [List.count_cons_of_ne hopening, List.count_cons_of_ne hclosing, List.count_cons_self,
      List.count_cons_of_ne (by simp)]
    omega

theorem ledBy_of_reads {p : Phrase} {n t : Nat} {ks : List Token.Kind} (h : Reads p n t ks)
    {ls xs : List Token.Kind} {x : Token.Kind} (heq : ks = ls ++ x :: xs)
    (hx : x.isOperator = true) (hcount : ls.count .opening = ls.count .closing) :
    p.LedBy ls := by
  -- the operator stands in one part of the phrase, and in brackets in none of the cases
  induction h generalizing ls with
  | value a op hk =>
    rename_i k v
    rcases List.append_cons_eq_append_cons heq (a.operator_not_mem_kinds hx) with
      ⟨rfl, -⟩ | ⟨is, rfl, his⟩
    · exact ⟨a, id, .here⟩
    · cases is with
      | nil =>
        simp only [List.nil_append, List.cons.injEq] at his
        rw [← his.1] at hx
        cases k <;> simp_all [Token.Kind.isOperator, Token.Kind.value?]
      | cons i is => simp at his
  | bare a =>
    exact absurd (heq ▸ by simp) (a.operator_not_mem_kinds hx)
  | relation a op h ih =>
    rcases List.append_cons_eq_append_cons heq (a.operator_not_mem_kinds hx) with
      ⟨rfl, -⟩ | ⟨is, rfl, his⟩
    · exact ⟨a, id, .here⟩
    · have hbal := (balanced_kinds a).1
      have ho : Token.Kind.relOp op ≠ .opening := by simp
      have hc : Token.Kind.relOp op ≠ .closing := by simp
      rw [List.count_append, List.count_append, List.count_cons_of_ne ho,
        List.count_cons_of_ne hc] at hcount
      obtain ⟨b, wrap, js, rfl, hjs⟩ := ih his (by omega)
      exact ⟨b, _, .step a op _ hjs⟩
  | negation h hm ih =>
    have hne := count_ne_of_bracketed (h.balanced.append (balanced_semicolons _))
      (by simp [Token.Kind.isOperator]) hx heq
    exact absurd hcount hne
  | group k h ih =>
    exact absurd hcount (count_ne_of_bracketed h.balanced (by simp [Token.Kind.isOperator]) hx heq)
  | last h hm ih => trivial
  | more h hm hs ih ihs => trivial
  | plain e => exact absurd (heq ▸ by simp) (e.operator_not_mem_kinds hx)
  | stated e h ih =>
    rcases List.append_cons_eq_append_cons heq (e.operator_not_mem_kinds hx) with
      ⟨-, rfl⟩ | ⟨is, rfl, his⟩
    · cases hx
    · have hbal := (balanced_entity e).1
      have ho : Token.Kind.whereWord ≠ .opening := by simp
      have hc : Token.Kind.whereWord ≠ .closing := by simp
      rw [List.count_append, List.count_append, List.count_cons_of_ne ho,
        List.count_cons_of_ne hc] at hcount
      obtain ⟨b, wrap, hleads⟩ := ih his (by omega)
      exact ⟨b, wrap, is, rfl, hleads⟩

namespace Attribute

/-- The tokens of the path of an attribute as it is written. -/
def pathKinds (a : Attribute) : List Token.Kind :=
  NodeQuery.kinds a.path.toList

/-- What is said of `a` is read, once it is written, as a leaf on `b` wrapped by `wrap`. -/
def LeadsTo (a b : Attribute) (wrap : Condition → Condition) : Prop :=
  Leads b wrap a.pathKinds ∧ Lexes a.path.toList a.pathKinds

/-- The number of levels of nesting that are hidden in the path of an attribute. -/
def hiddenLevels (a : Attribute) : Nat :=
  a.pathKinds.count .whereWord

variable {a : Attribute}

theorem pathKinds_of_isPlain (h : a.isPlain = true) : a.pathKinds = a.kinds :=
  (lexes_path h).kinds_eq

theorem leadsTo_of_isPlain (h : a.isPlain = true) : a.LeadsTo a id := by
  rw [LeadsTo, pathKinds_of_isPlain h]
  exact ⟨.here, lexes_path h⟩

theorem hiddenLevels_of_isPlain (h : a.isPlain = true) : a.hiddenLevels = 0 := by
  rw [hiddenLevels, pathKinds_of_isPlain h, count_whereWord_kinds]

theorem LeadsTo.congr {a a' b : Attribute} {wrap : Condition → Condition}
    (h : a.LeadsTo b wrap) (hpath : a'.path = a.path) : a'.LeadsTo b wrap := by
  rw [LeadsTo, pathKinds, hpath]
  exact h

end Attribute

/-! ### What is read of a text that was written -/

/-- The condition `c` is read, once it is written, as `r`, in which conditions are nested `n`
deep. -/
def Rereads (c r : Condition) (n : Nat) : Prop :=
  ∃ ks t m, m ≤ t ∧ Lexes c.render.toList (ks ++ semicolons m) ∧ Reads (.condition r) n t ks

/-- The members `cs` of a group are read, once they are written, as `rs`. -/
def RereadsAll (cs rs : List Condition) (n : Nat) : Prop :=
  ∃ ks, Lexes (", ".intercalate (Condition.renderAll cs)).toList ks ∧ Reads (.members rs) n 0 ks

/-- A query on `e` is read, once it is written as a nested query, as one on `e` with the
condition `r`. -/
def RereadsNested (e : Entity) (c r : Condition) (n : Nat) : Prop :=
  ∃ ks t m, m ≤ t ∧ Lexes (e.renderNested c c.render).toList (ks ++ semicolons m)
    ∧ Reads (.nested e r) n t ks

section Rereads

variable {a b : Attribute} {wrap : Condition → Condition} {e : Entity} {c r : Condition} {n : Nat}

theorem rereads_value (ha : a.LeadsTo b wrap) (op : ValueOp) (v : String) :
    Rereads (.value ⟨a, op, v⟩) (wrap (.value ⟨b, op, Literal.escape v⟩))
      (a.hiddenLevels + 1) := by
  obtain ⟨kind, hvalue, hlex⟩ := Literal.lexes_escape v
  obtain ⟨t, -, hr⟩ := ha.1.reads (Reads.value b op hvalue)
  refine ⟨_, t, 0, Nat.zero_le t, ?_, hr⟩
  have := ha.2.spaced ((lexes_valueOp op).spaced hlex)
  simpa [Condition.render, ValueMatch.render, semicolons] using this

theorem rereadsNested_plain (he : e.isPlain = true) (hc : c.isPlaceholder e = true) :
    RereadsNested e c (.placeholder e) 1 := by
  refine ⟨_, 1, 1, le_refl 1, ?_, Reads.plain e⟩
  have := (lexes_entity he).ended
  simpa [Entity.renderNested, hc, semicolons] using this

theorem rereadsNested_stated (he : e.isPlain = true) (hc : c.isPlaceholder e = false)
    (h : Rereads c r n) : RereadsNested e c r (n + 1) := by
  obtain ⟨ks, t, m, hm, hlex, hr⟩ := h
  refine ⟨_, t + 1, m + 1, Nat.succ_le_succ hm, ?_, Reads.stated e hr⟩
  have := (lexes_entity he).spaced (lexes_where.spaced hlex.ended)
  simpa [Entity.renderNested, hc, semicolons_succ] using this

theorem rereads_relation (ha : a.LeadsTo b wrap) (op : RelOp) (spans : QuerySpans)
    (h : RereadsNested e c r n) :
    Rereads (.relation a op e c spans) (wrap (.relation b op e r {})) (a.hiddenLevels + n) := by
  obtain ⟨ks, t, m, hm, hlex, hr⟩ := h
  obtain ⟨l, hl, hr⟩ := ha.1.reads (Reads.relation b op hr)
  refine ⟨_, l, m, hm.trans hl, ?_, hr⟩
  have := ha.2.spaced ((lexes_relOp op).spaced hlex)
  simpa [Condition.render] using this

theorem rereads_negation (h : Rereads c r n) : Rereads (.negation c) (.negation r) (n + 1) := by
  obtain ⟨ks, t, m, hm, hlex, hr⟩ := h
  refine ⟨_, 0, 0, le_refl 0, ?_, Reads.negation hr hm⟩
  have := @Lexes.bracketed "not".toList _ .notWord _ (by decide) rfl hlex
  simpa [Condition.render, semicolons] using this

theorem rereadsAll_singleton (h : Rereads c r n) : RereadsAll [c] [r] n := by
  obtain ⟨ks, t, m, hm, hlex, hr⟩ := h
  exact ⟨_, by simpa [Condition.renderAll] using hlex, Reads.last hr hm⟩

theorem rereadsAll_cons {d s : Condition} {cs rs : List Condition} {l : Nat} (h : Rereads c r n)
    (hs : RereadsAll (d :: cs) (s :: rs) l) :
    RereadsAll (c :: d :: cs) (r :: s :: rs) (max n l) := by
  obtain ⟨ks, t, m, hm, hlex, hr⟩ := h
  obtain ⟨ls, hlex', hrs⟩ := hs
  refine ⟨_, ?_, Reads.more hr hm hrs⟩
  have := hlex.listed hlex'
  simp only [Condition.renderAll, String.intercalate_cons_cons] at this ⊢
  simpa using this

theorem rereads_group {cs : List Condition} {s : Condition} {rs : List Condition}
    (k : Connective) (h : RereadsAll cs (r :: s :: rs) n) :
    Rereads (.group k cs) (.group k (r :: s :: rs)) (n + 1) := by
  obtain ⟨ks, hlex, hr⟩ := h
  refine ⟨_, 0, 0, le_refl 0, ?_, Reads.group k hr⟩
  cases k with
  | conj =>
    have := @Lexes.bracketed "and".toList _ (.connective .conj) _ (by decide) rfl hlex
    simpa [Condition.render, semicolons, Connective.spelling] using this
  | disj =>
    have := @Lexes.bracketed "or".toList _ (.connective .disj) _ (by decide) rfl hlex
    simpa [Condition.render, semicolons, Connective.spelling] using this

end Rereads

/-- The members of a group are read together if each of them is read by itself. -/
theorem rereadsAll_of_forall₂ {extra : Attribute → Nat} {cs rs : List Condition}
    (h : List.Forall₂ (fun c r => Rereads c r (c.depth extra)) cs rs) (hne : cs ≠ []) :
    RereadsAll cs rs (Condition.depthOfAll extra cs) := by
  -- the last member has no comma behind it
  induction h with
  | nil => exact absurd rfl hne
  | cons hc hcs ih =>
    rename_i c r cs rs
    cases hcs with
    | nil => simpa [Condition.depthOfAll] using rereadsAll_singleton hc
    | cons hd hds =>
      rw [Condition.depthOfAll]
      exact rereadsAll_cons hc (ih (List.cons_ne_nil _ _))

theorem rereads_group_of_forall₂ {extra : Attribute → Nat} {cs rs : List Condition}
    (k : Connective) (hlen : 2 ≤ cs.length)
    (h : List.Forall₂ (fun c r => Rereads c r (c.depth extra)) cs rs) :
    Rereads (.group k cs) (.group k rs) ((Condition.group k cs).depth extra) := by
  have hne : cs ≠ [] := by
    rintro rfl
    simp at hlen
  have hall := rereadsAll_of_forall₂ h hne
  rw [h.length_eq] at hlen
  match rs, hlen with
  | r :: s :: rs, _ => exact rereads_group k hall

/-- A condition is read, once it is written as that of a query, as it is. -/
theorem parse_of_rereads {e : Entity} {c r : Condition} {n : Nat} (he : e.isPlain = true)
    (h : Rereads c r n) (spans : QuerySpans) :
    (n ≤ Parser.maxNesting →
        ∃ q, parse (Query.render ⟨e, c, spans⟩) = .ok q ∧ q.eraseSpans = ⟨e, r, {}⟩)
      ∧ (Parser.maxNesting < n → ∀ q, parse (Query.render ⟨e, c, spans⟩) ≠ .ok q) := by
  obtain ⟨ks, t, m, hm, hlex, hr⟩ := h
  refine Parser.parse_of_reads hr hm ?_
  have := ((lexes_entity he).spaced (lexes_where.spaced hlex.ended)).kinds_eq
  simpa [Query.render, semicolons_succ] using this

theorem parseCondition_of_rereads {c r : Condition} {n : Nat} (h : Rereads c r n) :
    (n ≤ Parser.maxNesting → ∃ s, parseCondition c.render = .ok s ∧ s.eraseSpans = r)
      ∧ (Parser.maxNesting < n → ∀ s, parseCondition c.render ≠ .ok s) := by
  obtain ⟨ks, t, m, hm, hlex, hr⟩ := h
  exact Parser.parseCondition_of_reads hr (hm.trans (Nat.le_succ t)) hlex.kinds_eq

theorem Rereads.eraseSpans_eq {c r s : Condition} {n : Nat} (h : Rereads c r n)
    (hs : parseCondition c.render = .ok s) : s.eraseSpans = r := by
  have hle : n ≤ Parser.maxNesting := by
    by_contra hdeep
    exact (parseCondition_of_rereads h).2 (not_le.mp hdeep) s hs
  obtain ⟨s', hs', herase⟩ := (parseCondition_of_rereads h).1 hle
  rwa [Except.ok.inj (hs.symm.trans hs')]

theorem parseNested_of_rereads {e : Entity} {c r : Condition} {n : Nat} (spans : QuerySpans)
    (h : RereadsNested e c r n) :
    (n ≤ Parser.maxNesting + 1 →
        ∃ q, parseNested (Query.renderNested ⟨e, c, spans⟩) = .ok q ∧ q.eraseSpans = ⟨e, r, {}⟩)
      ∧ (Parser.maxNesting + 1 < n →
        ∀ q, parseNested (Query.renderNested ⟨e, c, spans⟩) ≠ .ok q) := by
  obtain ⟨ks, t, m, hm, hlex, hr⟩ := h
  exact Parser.parseNested_of_reads hr (hm.trans (Nat.le_succ t)) hlex.kinds_eq

end NodeQuery
