/-
The leaves that an edit selects.

A constraint aims at leaves by the text of its path and of its operator. The leaves that an edit
selects are those that it would describe, apart from the value, and what takes the place of the
value is the text of the constraint, perhaps between quotes.

* `Text.trim_of_trim?`: the fields of a constraint as it reads them.
* `Literal.unquote_escape_carryQuotes`: what stands between the quotes of a new value.
* `Constraint.eq_of_selectsValue`: the leaves selected.
-/
import Mathlib.Data.List.DropRight
import NodeQuery.Proofs.Opening
import NodeQuery.Proofs.Paths

namespace NodeQuery

/-! ### Texts of fields -/

namespace Text

theorem trimChars_eq_self {cs : List Char} (hhead : ∀ c ∈ cs.head?, isBlank c = false)
    (hlast : ∀ c ∈ cs.getLast?, isBlank c = false) : trimChars cs = cs := by
  have hdrop : cs.dropWhile isBlank = cs := by
    cases cs with
    | nil => rfl
    | cons c cs => exact List.dropWhile_cons_of_neg (by simp [hhead c rfl])
  rw [trimChars, hdrop]
  refine List.rdropWhile_eq_self_iff.mpr fun hne => ?_
  simp [hlast _ (List.getLast?_eq_getLast_of_ne_nil hne)]

theorem trimChars_trimChars (cs : List Char) : trimChars (trimChars cs) = trimChars cs := by
  -- what is left starts with the first character that is not blank, if anything is left
  have hhead : (trimChars cs).dropWhile isBlank = trimChars cs := by
    rw [List.dropWhile_eq_self_iff]
    intro hlen
    have hprefix : trimChars cs <+: cs.dropWhile isBlank := List.rdropWhile_prefix isBlank _
    have hget := hprefix.getElem hlen
    rw [hget]
    exact List.dropWhile_get_zero_not isBlank cs (hlen.trans_le hprefix.length_le)
  rw [trimChars, hhead]
  exact List.rdropWhile_idempotent isBlank (cs.dropWhile isBlank)

theorem isBlank_of_trimChars_eq_nil {cs : List Char} (h : trimChars cs = []) :
    ∀ c ∈ cs, isBlank c = true := by
  have hrest : ∀ c ∈ cs.dropWhile isBlank, isBlank c = true := List.rdropWhile_eq_nil_iff.mp h
  intro c hc
  rw [← List.takeWhile_append_dropWhile (p := isBlank) (l := cs)] at hc
  rcases List.mem_append.mp hc with hc | hc
  · exact List.mem_takeWhile_imp hc
  · exact hrest c hc

theorem trim_eq_of_trim? {s t : String} (h : trim? s = some t) : trim s = t := by
  unfold trim? at h
  simp only at h
  split_ifs at h
  exact Option.some.inj h

theorem trim_of_trim? {s t : String} (h : trim? s = some t) : trim t = t := by
  rw [← trim_eq_of_trim? h, trim, trim, String.toList_ofList, trimChars_trimChars]

end Text

theorem ValueOp.eq_of_sameWord {op op' : ValueOp}
    (h : Text.sameWord op.spelling op'.spelling = true) : op = op' := by
  cases op <;> cases op' <;> revert h <;> decide

/-! ### Values -/

theorem Literal.flatMap_quoteChar {cs : List Char} (h : ∀ c ∈ cs, Scan.isMild c = true) :
    cs.flatMap quoteChar = cs := by
  induction cs with
  | nil => rfl
  | cons c cs ih =>
    rw [List.forall_mem_cons] at h
    obtain ⟨-, -, h₁, h₂, h₃, h₄, h₅, h₆⟩ := Scan.isMild_iff.mp h.1
    have hc : quoteChar c = [c] := by
      unfold quoteChar
      split <;> first | rfl | contradiction
    rw [List.flatMap_cons, ih h.2, hc, List.singleton_append]

theorem Literal.unquote_quote (v : String) :
    unquote (quote v) = String.ofList (v.toList.flatMap quoteChar) := by
  have hquoted : isQuoted (quote v) = true := isQuotedChars_quote v
  rw [unquote, if_pos hquoted, quote]
  simp

/-- A value that takes the place of a string is the same text between quotes. -/
theorem Literal.unquote_escape_carryQuotes (old v : String) :
    unquote (escape (Condition.carryQuotes old v)) = unquote (escape v) := by
  rw [Condition.carryQuotes]
  split_ifs with hcarry
  · have hquoted : isQuoted (quote v) = true := isQuotedChars_quote v
    have hquote : escape (quote v) = quote v := by simp [escape, hquoted]
    simp only [Bool.and_eq_true, Bool.not_eq_true'] at hcarry
    have hv : isQuoted v = false := hcarry.2
    rw [hquote]
    rw [escape]
    split_ifs with hplain
    · have hmild : ∀ c ∈ v.toList, Scan.isMild c = true := by
        simp only [hv, Bool.false_or, Bool.or_eq_true, isPlainWord, Bool.and_eq_true] at hplain
        rcases hplain with h | h
        · exact Scan.isMild_of_isNumeral h
        · exact Scan.isMild_of_isWord h.1
      rw [unquote_quote, flatMap_quoteChar hmild, String.ofList_toList]
      simp [unquote, hv]
    · rfl
  · rfl

/-! ### Leaves that constraints select -/

/-- The leaves that an edit selects are those that it describes, apart from the value. -/
theorem Constraint.eq_of_selectsValue {c : Constraint} {m n : ValueMatch}
    (hm : c.positiveCondition? = some (.value m)) (hn : c.selector.selectsValue n = true) :
    c.valueText? = some m.value ∧ n.subject.path = m.subject.path ∧ n.operator = m.operator := by
  obtain ⟨a, text, v, ha, htext, hv, hm⟩ := positiveCondition?_eq_some hm
  obtain ⟨op, q, -, -, hm⟩ | ⟨op, -, hop, hm⟩ := hm
  · cases hm
  · cases hm
    simp only [Selector.selectsValue, Bool.and_eq_true, decide_eq_true_eq] at hn
    obtain ⟨⟨hpath, hoperator⟩, -⟩ := hn
    refine ⟨hv, hpath.trans (Attribute.path_of_ofPath? ha).symm, ?_⟩
    have hspelling : Text.sameWord (Text.trim text) op.spelling = true := by
      simpa using List.find?_some hop
    simp only [selector, Selector.selectsOperator, htext] at hoperator
    refine ValueOp.eq_of_sameWord ?_
    simp only [Text.sameWord, decide_eq_true_eq] at hspelling hoperator ⊢
    exact hoperator.trans hspelling

end NodeQuery
