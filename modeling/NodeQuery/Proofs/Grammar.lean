/-
The grammar of conditions, as a relation between trees and tokens.

A nested query may be followed by one semicolon. The semicolons behind nested queries that
end at the same place can not be told apart, so they are kept out of the tokens of a phrase
and counted instead: a phrase of which `t` nested queries end with it may be followed by up
to `t` semicolons before the text around it goes on.

* `Attribute.kinds`, `Entity.kinds`: the tokens of attributes and declarations.
* `Grammar.Phrase`: conditions, the members of a group, nested queries.
* `Grammar.Reads`: how phrases are read, with the depth to which conditions are nested in
  them and the number of nested queries that end with them.
* `Grammar.Balanced`, `Grammar.Reads.balanced`: brackets are closed as often as opened.
* `Grammar.Reads.relOp_mem_iff`: a condition has a relation in it just when its tokens do.
-/
import NodeQuery.Proofs.Literal
import NodeQuery.Query.Parser

namespace NodeQuery

/-- The tokens of an attribute: its names with dots between them. -/
def Attribute.kinds (a : Attribute) : List Token.Kind :=
  .identifier a.name :: a.properties.flatMap fun p => [.dot, .identifier p]

/-- The tokens of a declaration. -/
def Entity.kinds (e : Entity) : List Token.Kind :=
  .identifier e.nodeType :: e.alias?.toList.map .identifier

/-- Whether attributes and declarations are made of tokens of this kind. -/
def Token.Kind.isNaming : Token.Kind → Bool
  | dot => true
  | identifier _ => true
  | _ => false

theorem Attribute.not_mem_kinds (a : Attribute) {k : Token.Kind} (hk : k.isNaming = false) :
    k ∉ a.kinds := by
  intro h
  rcases List.mem_cons.mp h with rfl | h
  · cases hk
  · obtain ⟨p, -, h⟩ := List.mem_flatMap.mp h
    rcases List.mem_pair.mp h with rfl | rfl <;> cases hk

theorem Entity.not_mem_kinds (e : Entity) {k : Token.Kind} (hk : k.isNaming = false) :
    k ∉ e.kinds := by
  intro h
  rcases List.mem_cons.mp h with rfl | h
  · cases hk
  · obtain ⟨name, -, rfl⟩ := List.mem_map.mp h
    cases hk

theorem Entity.error_not_mem_kinds (e : Entity) (message : String) : .error message ∉ e.kinds :=
  e.not_mem_kinds rfl

namespace Grammar

/-- What can be read. -/
inductive Phrase where
  | condition (c : Condition)
  | members (cs : List Condition)
  | nested (e : Entity) (c : Condition)

/-- Some semicolons. -/
def semicolons (m : Nat) : List Token.Kind :=
  List.replicate m .semicolon

theorem semicolons_succ (m : Nat) : semicolons (m + 1) = semicolons m ++ [.semicolon] :=
  List.replicate_succ'

/-- `Reads p n t ks`: the tokens `ks` are the phrase `p`, in which conditions are nested `n`
deep and with which `t` nested queries end. The level of the leaf in which a nested query
stands is counted as one of the nested query. -/
inductive Reads : Phrase → Nat → Nat → List Token.Kind → Prop where
  | value {k : Token.Kind} {v : String} (a : Attribute) (op : ValueOp) (hk : k.value? = some v) :
      Reads (.condition (.value ⟨a, op, v⟩)) 1 0 (a.kinds ++ [.valueOp op, k])
  | bare (a : Attribute) : Reads (.condition (.value ⟨a, .equal, "true"⟩)) 1 0 a.kinds
  | relation {e : Entity} {c : Condition} {n t : Nat} {ks : List Token.Kind} (a : Attribute)
      (op : RelOp) (h : Reads (.nested e c) n t ks) :
      Reads (.condition (.relation a op e c {})) n t (a.kinds ++ .relOp op :: ks)
  | negation {c : Condition} {n t m : Nat} {ks : List Token.Kind}
      (h : Reads (.condition c) n t ks) (hm : m ≤ t) :
      Reads (.condition (.negation c)) (n + 1) 0
        (.notWord :: .opening :: (ks ++ semicolons m ++ [.closing]))
  | group {c d : Condition} {cs : List Condition} {n : Nat} {ks : List Token.Kind}
      (k : Connective) (h : Reads (.members (c :: d :: cs)) n 0 ks) :
      Reads (.condition (.group k (c :: d :: cs))) (n + 1) 0
        (.connective k :: .opening :: (ks ++ [.closing]))
  | last {c : Condition} {n t m : Nat} {ks : List Token.Kind}
      (h : Reads (.condition c) n t ks) (hm : m ≤ t) :
      Reads (.members [c]) n 0 (ks ++ semicolons m)
  | more {c d : Condition} {cs : List Condition} {n l t m : Nat} {ks ls : List Token.Kind}
      (h : Reads (.condition c) n t ks) (hm : m ≤ t) (hs : Reads (.members (d :: cs)) l 0 ls) :
      Reads (.members (c :: d :: cs)) (max n l) 0 (ks ++ semicolons m ++ .comma :: ls)
  | plain (e : Entity) : Reads (.nested e (.placeholder e)) 1 1 e.kinds
  | stated {c : Condition} {n t : Nat} {ks : List Token.Kind} (e : Entity)
      (h : Reads (.condition c) n t ks) :
      Reads (.nested e c) (n + 1) (t + 1) (e.kinds ++ .whereWord :: ks)

namespace Reads

variable {p : Phrase} {n t : Nat} {ks : List Token.Kind}

/-- Conditions are nested at least one deep. -/
theorem one_le (h : Reads p n t ks) : 1 ≤ n := by
  induction h <;> omega

theorem ne_nil (h : Reads p n t ks) : ks ≠ [] := by
  induction h <;> simp_all [Attribute.kinds, Entity.kinds]

/-- Neither errors nor the end of the input are parts of a phrase. -/
theorem not_mem (h : Reads p n t ks) {l : Token.Kind}
    (hl : l = .endOfInput ∨ ∃ message, l = .error message) : l ∉ ks := by
  have hvalue : l.value? = none := by rcases hl with rfl | ⟨message, rfl⟩ <;> rfl
  have hnaming : l.isNaming = false := by rcases hl with rfl | ⟨message, rfl⟩ <;> rfl
  have hattribute : ∀ a : Attribute, l ∉ a.kinds := fun a => a.not_mem_kinds hnaming
  have hentity : ∀ e : Entity, l ∉ e.kinds := fun e => e.not_mem_kinds hnaming
  induction h with
  | value a op hk =>
    rename_i k v
    have hne : l ≠ k := by
      rintro rfl
      rw [hvalue] at hk
      cases hk
    rcases hl with rfl | ⟨message, rfl⟩ <;> simp [hattribute, hne]
  | _ => rcases hl with rfl | ⟨message, rfl⟩ <;> simp_all [semicolons]

theorem error_not_mem (h : Reads p n t ks) (message : String) : .error message ∉ ks :=
  h.not_mem (.inr ⟨message, rfl⟩)

theorem endOfInput_not_mem (h : Reads p n t ks) : .endOfInput ∉ ks :=
  h.not_mem (.inl rfl)

end Reads

/-! ### Brackets -/

/-- Brackets are closed as often as they are opened, and never before. -/
def Balanced (ks : List Token.Kind) : Prop :=
  ks.count .opening = ks.count .closing
    ∧ ∀ ls, ls <+: ks → ls.count .closing ≤ ls.count .opening

theorem balanced_of_not_mem {ks : List Token.Kind} (hopening : .opening ∉ ks)
    (hclosing : .closing ∉ ks) : Balanced ks := by
  -- no prefix has a bracket in it either
  have hzero : ∀ ls, ls <+: ks → ls.count .closing = 0 ∧ ls.count .opening = 0 := by
    intro ls hls
    exact ⟨List.count_eq_zero.mpr fun h => hclosing (hls.subset h),
      List.count_eq_zero.mpr fun h => hopening (hls.subset h)⟩
  refine ⟨?_, fun ls hls => ?_⟩
  · rw [(hzero ks (List.prefix_refl ks)).1, (hzero ks (List.prefix_refl ks)).2]
  · rw [(hzero ls hls).1, (hzero ls hls).2]

namespace Balanced

variable {ks ls : List Token.Kind}

theorem append (hk : Balanced ks) (hl : Balanced ls) : Balanced (ks ++ ls) := by
  refine ⟨?_, fun is his => ?_⟩
  · rw [List.count_append, List.count_append, hk.1, hl.1]
  · obtain ⟨rest, hrest⟩ := his
    rcases List.append_eq_append_iff.mp hrest with ⟨js, hks, -⟩ | ⟨js, rfl, hls⟩
    · exact hk.2 is ⟨js, hks.symm⟩
    · have h₁ := hk.1
      have h₂ := hl.2 js ⟨rest, hls.symm⟩
      rw [List.count_append, List.count_append]
      omega

theorem bracketed (hk : Balanced ks) : Balanced (.opening :: (ks ++ [.closing])) := by
  refine ⟨?_, fun ls hls => ?_⟩
  · have := hk.1
    simp
    omega
  · cases ls with
    | nil => exact le_refl 0
    | cons l ls =>
      obtain ⟨rfl, hprefix⟩ := List.cons_prefix_cons.mp hls
      have hle : ls.count .closing ≤ ls.count .opening + 1 := by
        rcases List.prefix_concat_iff.mp hprefix with rfl | hprefix
        · rw [List.count_append, List.count_append, hk.1]
          simp
        · have := hk.2 ls hprefix
          omega
      rw [List.count_cons_of_ne (by simp), List.count_cons_self]
      exact hle

end Balanced

theorem balanced_kinds (a : Attribute) : Balanced a.kinds :=
  balanced_of_not_mem (a.not_mem_kinds rfl) (a.not_mem_kinds rfl)

theorem balanced_entity (e : Entity) : Balanced e.kinds :=
  balanced_of_not_mem (e.not_mem_kinds rfl) (e.not_mem_kinds rfl)

theorem balanced_semicolons (m : Nat) : Balanced (semicolons m) := by
  refine balanced_of_not_mem ?_ ?_ <;> simp [semicolons]

theorem balanced_singleton {k : Token.Kind} (ho : k ≠ .opening) (hc : k ≠ .closing) :
    Balanced [k] :=
  balanced_of_not_mem (by simpa using ho.symm) (by simpa using hc.symm)

theorem Reads.balanced {p : Phrase} {n t : Nat} {ks : List Token.Kind} (h : Reads p n t ks) :
    Balanced ks := by
  have hcons : ∀ {k : Token.Kind} {ls}, k ≠ .opening → k ≠ .closing → Balanced ls →
      Balanced (k :: ls) := fun ho hc hl => (balanced_singleton ho hc).append hl
  -- brackets come in pairs with a phrase between them; no other token is one
  induction h with
  | value a op hk =>
    rename_i k v
    have ho : k ≠ .opening := by
      rintro rfl
      cases hk
    have hc : k ≠ .closing := by
      rintro rfl
      cases hk
    exact (balanced_kinds a).append (hcons (by simp) (by simp) (balanced_singleton ho hc))
  | bare a => exact balanced_kinds a
  | relation a op h ih => exact (balanced_kinds a).append (hcons (by simp) (by simp) ih)
  | negation h hm ih =>
    exact hcons (by simp) (by simp) (ih.append (balanced_semicolons _)).bracketed
  | group k h ih => exact hcons (by simp) (by simp) ih.bracketed
  | last h hm ih => exact ih.append (balanced_semicolons _)
  | more h hm hs ih ihs =>
    exact (ih.append (balanced_semicolons _)).append (hcons (by simp) (by simp) ihs)
  | plain e => exact balanced_entity e
  | stated e h ih => exact (balanced_entity e).append (hcons (by simp) (by simp) ih)

/-! ### Relations -/

/-- The queries inside the conditions of a phrase. -/
def Phrase.queries : Phrase → List Query
  | .condition c => c.queries
  | .members cs => Condition.queriesOfAll cs
  | .nested _ c => c.queries

/-- A phrase has a relation in it just when its tokens do. -/
theorem Reads.relOp_mem_iff {p : Phrase} {n t : Nat} {ks : List Token.Kind}
    (h : Reads p n t ks) : (∃ op, .relOp op ∈ ks) ↔ p.queries ≠ [] := by
  -- only the production of relations has such a token
  have hattribute : ∀ (a : Attribute) op, Token.Kind.relOp op ∉ a.kinds :=
    fun a op => a.not_mem_kinds rfl
  have hentity : ∀ (e : Entity) op, Token.Kind.relOp op ∉ e.kinds :=
    fun e op => e.not_mem_kinds rfl
  induction h with
  | value a op hk =>
    rename_i k v
    have : ∀ op, Token.Kind.relOp op ≠ k := by
      rintro op rfl
      cases hk
    simp [hattribute, this, Phrase.queries, Condition.queries]
  | bare a => simp [hattribute, Phrase.queries, Condition.queries]
  | relation a op h ih =>
    simp only [Phrase.queries, Condition.queries, ne_eq, reduceCtorEq, not_false_eq_true, iff_true]
    exact ⟨op, by simp⟩
  | negation h hm ih => simpa [semicolons, Phrase.queries, Condition.queries] using ih
  | group k h ih => simpa [Phrase.queries, Condition.queries] using ih
  | last h hm ih => simpa [semicolons, Phrase.queries, Condition.queriesOfAll] using ih
  | more h hm hs ih ihs =>
    simp only [Phrase.queries, ne_eq] at ih ihs
    simp only [semicolons, List.mem_append, List.mem_cons, List.mem_replicate, reduceCtorEq,
      and_false, or_false, false_or, exists_or, ih, ihs, Phrase.queries,
      Condition.queriesOfAll, ne_eq, List.append_eq_nil_iff, not_and_or]
  | plain e => simp [hentity, Phrase.queries, Condition.placeholder, Condition.queries]
  | stated e h ih => simpa [hentity, Phrase.queries] using ih

end Grammar

end NodeQuery
