/-
What is read follows the grammar.

The readers of the parser take tokens from the front of a cursor. What a reader has taken,
if it succeeds, are the tokens of what it returns, up to the places of queries.

* `Parser.Cursor.ahead`: the kinds of the tokens in front of which a cursor stands.
* `Parser.take_sound`, …, `Parser.nestedQuery_sound`: one statement for each reader.
* `Parser.condition_sound`: the same for conditions, which are nested in one another.
-/
import NodeQuery.Proofs.Grammar
import NodeQuery.Query.Equality

namespace NodeQuery

namespace Parser

open Grammar

/-! ### The tokens ahead -/

/-- The kinds of the tokens ahead. -/
def Cursor.ahead (c : Cursor) : List Token.Kind :=
  c.rest.map Token.kind

theorem Cursor.peek?_eq (c : Cursor) : c.peek? = c.ahead.head? := by
  rw [peek?, ahead, List.head?_map]

theorem Cursor.ahead_advance (c : Cursor) : c.advance.ahead = c.ahead.tail := by
  rw [advance]
  split
  · rename_i h
    simp [ahead, h]
  · rename_i t rest h
    simp [ahead, h]

/-- The tokens ahead of a cursor at which a token is seen. -/
theorem Cursor.ahead_eq_cons {c : Cursor} {k : Token.Kind} (h : c.peek? = some k) :
    c.ahead = k :: c.advance.ahead := by
  rw [peek?_eq] at h
  rw [ahead_advance]
  exact List.eq_cons_of_mem_head? h

/-- Tokens of any kinds. -/
def tokensOf (ks : List Token.Kind) : List Token :=
  ks.map fun k => ⟨k, {}, 0, k.spelling⟩

theorem map_kind_tokensOf (ks : List Token.Kind) : (tokensOf ks).map Token.kind = ks := by
  rw [tokensOf, List.map_map]
  exact List.map_id ks

theorem semicolons_add (m l : Nat) : semicolons (m + l) = semicolons m ++ semicolons l :=
  List.replicate_add ..

/-! ### What is read follows the grammar -/

theorem take_sound {kind : Token.Kind} {what : Expectation} {c d : Cursor}
    (h : take kind what c = .ok d) : c.ahead = kind :: d.ahead := by
  rw [take] at h
  split_ifs at h with hk
  cases h
  exact Cursor.ahead_eq_cons hk

theorem identifier_sound {what : Expectation} {c d : Cursor} {name : String}
    (h : identifier what c = .ok (name, d)) : c.ahead = .identifier name :: d.ahead := by
  rw [identifier] at h
  split at h
  · rename_i hk
    cases h
    exact Cursor.ahead_eq_cons hk
  · cases h

theorem entity_sound {c d : Cursor} {e : Entity} (h : entity c = .ok (e, d)) :
    c.ahead = e.kinds ++ d.ahead := by
  rw [entity] at h
  obtain ⟨⟨nodeType, c₁⟩, h₁, h⟩ := Except.bind_eq_ok.mp h
  rw [identifier_sound h₁]
  simp only at h
  split at h
  · rename_i name hk
    cases h
    rw [Cursor.ahead_eq_cons hk]
    rfl
  · cases h
    rfl

theorem properties_sound {fuel : Nat} {c d : Cursor} {ps : List String}
    (h : properties fuel c = .ok (ps, d)) :
    c.ahead = (ps.flatMap fun p => [.dot, .identifier p]) ++ d.ahead := by
  induction fuel generalizing c ps with
  | zero =>
    cases h
    rfl
  | succ fuel ih =>
    rw [properties] at h
    split_ifs at h with hk
    · obtain ⟨⟨first, c₁⟩, h₁, h⟩ := Except.bind_eq_ok.mp h
      obtain ⟨⟨more, c₂⟩, h₂, h⟩ := Except.bind_eq_ok.mp h
      cases h
      rw [Cursor.ahead_eq_cons hk, identifier_sound h₁, ih h₂]
      rfl
    · cases h
      rfl

theorem subject_sound {c d : Cursor} {a : Attribute} (h : subject c = .ok (a, d)) :
    c.ahead = a.kinds ++ d.ahead := by
  rw [subject] at h
  obtain ⟨⟨name, c₁⟩, h₁, h⟩ := Except.bind_eq_ok.mp h
  obtain ⟨⟨behind, c₂⟩, h₂, h⟩ := Except.bind_eq_ok.mp h
  cases h
  rw [identifier_sound h₁, properties_sound h₂]
  rfl

theorem value_sound {c d : Cursor} {raw : String} (h : value c = .ok (raw, d)) :
    ∃ k : Token.Kind, k.value? = some raw ∧ c.ahead = k :: d.ahead := by
  rw [value] at h
  split at h
  · rename_i hk
    cases h
    obtain ⟨k, hpeek, hvalue⟩ := Option.bind_eq_some_iff.mp hk
    exact ⟨k, hvalue, Cursor.ahead_eq_cons hpeek⟩
  · cases h

theorem nestedEnd_sound (c : Cursor) :
    ∃ m ≤ 1, c.ahead = semicolons m ++ (nestedEnd c).ahead := by
  rw [nestedEnd]
  split_ifs with hk
  · rw [Bool.and_eq_true, decide_eq_true_eq] at hk
    exact ⟨1, le_refl 1, Cursor.ahead_eq_cons hk.1⟩
  · exact ⟨0, Nat.zero_le 1, rfl⟩

/-- A reader of conditions follows the grammar up to a depth of `N`. -/
def Sound (N : Nat) (read : Cursor → Except Failure (Condition × Cursor)) : Prop :=
  ∀ ⦃c d r⦄, read c = .ok (r, d) → ∃ n t m ks, n ≤ N ∧ m ≤ t
    ∧ Reads (.condition r.eraseSpans) n t ks ∧ c.ahead = ks ++ semicolons m ++ d.ahead

section Layer

variable {N : Nat} {read : Cursor → Except Failure (Condition × Cursor)}

theorem nestedQuery_sound (hread : Sound N read) {c d : Cursor} {q : Query}
    (h : nestedQuery read c = .ok (q, d)) :
    ∃ n t m ks, n ≤ N + 1 ∧ m ≤ t ∧ Reads (.nested q.entity q.condition.eraseSpans) n t ks
      ∧ c.ahead = ks ++ semicolons m ++ d.ahead := by
  rw [nestedQuery] at h
  obtain ⟨⟨e, c₁⟩, h₁, h⟩ := Except.bind_eq_ok.mp h
  rw [entity_sound h₁]
  simp only at h
  split_ifs at h with hk
  · -- with a condition: a level more, and one more query that ends here
    obtain ⟨⟨r, c₂⟩, h₂, h⟩ := Except.bind_eq_ok.mp h
    cases h
    obtain ⟨n, t, m, ks, hn, hm, hr, hahead⟩ := hread h₂
    obtain ⟨l, hl, hend⟩ := nestedEnd_sound c₂
    refine ⟨n + 1, t + 1, m + l, _, by omega, by omega, .stated e hr, ?_⟩
    rw [Cursor.ahead_eq_cons hk, hahead, hend, semicolons_add]
    simp
  · -- without one the placeholder is its condition
    cases h
    obtain ⟨l, hl, hend⟩ := nestedEnd_sound c₁
    refine ⟨1, 1, l, _, by omega, hl, .plain e, ?_⟩
    rw [hend, List.append_assoc]

theorem leaf_sound (hread : Sound N read) : Sound (N + 1) (leaf read) := by
  intro c d r h
  rw [leaf] at h
  obtain ⟨⟨a, c₁⟩, h₁, h⟩ := Except.bind_eq_ok.mp h
  rw [subject_sound h₁]
  simp only at h
  split at h
  · rename_i op hk
    obtain ⟨⟨raw, c₂⟩, h₂, h⟩ := Except.bind_eq_ok.mp h
    cases h
    obtain ⟨k, hvalue, hahead⟩ := value_sound h₂
    refine ⟨1, 0, 0, _, by omega, le_refl 0, .value a op hvalue, ?_⟩
    rw [Cursor.ahead_eq_cons hk, hahead]
    simp [semicolons]
  · rename_i op hk
    obtain ⟨⟨q, c₂⟩, h₂, h⟩ := Except.bind_eq_ok.mp h
    cases h
    obtain ⟨n, t, m, ks, hn, hm, hr, hahead⟩ := nestedQuery_sound hread h₂
    refine ⟨n, t, m, _, hn, hm, .relation a op hr, ?_⟩
    rw [Cursor.ahead_eq_cons hk, hahead]
    simp
  · cases h
    refine ⟨1, 0, 0, _, by omega, le_refl 0, .bare a, ?_⟩
    simp [semicolons]

/-- Members read behind a first one follow the grammar together with it. -/
theorem furtherMembers_sound (hread : Sound N read) {fuel : Nat} {c d : Cursor}
    {cs : List Condition} (h : furtherMembers read fuel c = .ok (cs, d)) {first : Condition}
    {n t m : Nat} {ks : List Token.Kind} (hn : n ≤ N) (hm : m ≤ t)
    (hfirst : Reads (.condition first) n t ks) :
    ∃ l ls, l ≤ N ∧ Reads (.members (first :: Condition.eraseAllSpans cs)) l 0 ls
      ∧ ks ++ semicolons m ++ c.ahead = ls ++ d.ahead := by
  -- the first member is carried along, since the group is built from the right
  induction fuel generalizing c cs first n t m ks with
  | zero =>
    cases h
    exact ⟨n, _, hn, .last hfirst hm, rfl⟩
  | succ fuel ih =>
    rw [furtherMembers] at h
    split_ifs at h with hk
    · obtain ⟨⟨member, c₁⟩, h₁, h⟩ := Except.bind_eq_ok.mp h
      obtain ⟨⟨more, c₂⟩, h₂, h⟩ := Except.bind_eq_ok.mp h
      cases h
      obtain ⟨n', t', m', ks', hn', hm', hmember, hahead⟩ := hread h₁
      obtain ⟨l, ls, hl, hmore, heq⟩ := ih h₂ hn' hm' hmember
      refine ⟨max n l, _, by omega, .more hfirst hm hmore, ?_⟩
      rw [Cursor.ahead_eq_cons hk, hahead, heq]
      simp
    · cases h
      exact ⟨n, _, hn, .last hfirst hm, rfl⟩

theorem conditionLayer_sound (hread : Sound N read) : Sound (N + 1) (conditionLayer read) := by
  intro c d r h
  rw [conditionLayer] at h
  -- by the first token: a negation, a group, or a leaf
  split at h
  · rename_i hk
    obtain ⟨c₁, h₁, h⟩ := Except.bind_eq_ok.mp h
    obtain ⟨⟨inner, c₂⟩, h₂, h⟩ := Except.bind_eq_ok.mp h
    obtain ⟨c₃, h₃, h⟩ := Except.bind_eq_ok.mp h
    cases h
    obtain ⟨n, t, m, ks, hn, hm, hinner, hahead⟩ := hread h₂
    refine ⟨n + 1, 0, 0, _, by omega, le_refl 0, .negation hinner hm, ?_⟩
    rw [Cursor.ahead_eq_cons hk, take_sound h₁, hahead, take_sound h₃]
    simp [semicolons]
  · rename_i k hk
    obtain ⟨c₁, h₁, h⟩ := Except.bind_eq_ok.mp h
    obtain ⟨⟨member, c₂⟩, h₂, h⟩ := Except.bind_eq_ok.mp h
    obtain ⟨⟨more, c₃⟩, h₃, h⟩ := Except.bind_eq_ok.mp h
    obtain ⟨c₄, h₄, h⟩ := Except.bind_eq_ok.mp h
    obtain ⟨n, t, m, ks, hn, hm, hmember, hahead⟩ := hread h₂
    obtain ⟨l, ls, hl, hmembers, heq⟩ := furtherMembers_sound hread h₃ hn hm hmember
    cases more with
    | nil => cases h
    | cons next more =>
      cases h
      refine ⟨l + 1, 0, 0, _, by omega, le_refl 0, .group k hmembers, ?_⟩
      rw [Cursor.ahead_eq_cons hk, take_sound h₁, hahead, heq, take_sound h₄]
      simp [semicolons]
  · exact leaf_sound hread h
  · cases h

end Layer

theorem condition_sound (N : Nat) : Sound N (condition N) := by
  induction N with
  | zero =>
    intro c d r h
    cases h
  | succ N ih => exact conditionLayer_sound ih

end Parser

end NodeQuery
