/-
Words and literals as tokens.

* `Literal.isName`: the words that can name something.
* `Literal.isNumeral_eq`: the texts that are one number, by how far the lexer reads a number.
* `Literal.lexes_word`, `Literal.lexes_quoted`, `Literal.lexes_numeral`: words, strings and
  numbers are one token each.
* `Literal.lexes_escape`: a value is written as one token, which stands for what is written.
* `Token.Kind.isGenuine`, `isGenuine_of_mem_kinds`: the text that a token carries has the
  shape of its kind.
* `Literal.escape_of_isGenuine`: the value for which a token stands is written as it is.
-/
import NodeQuery.Proofs.Lexing
import NodeQuery.Query.Printer

namespace NodeQuery

namespace Literal

/-! ### Words, numbers and strings as tokens -/

/-- A word in front of a character that does not go on with it. -/
theorem kinds_word {w rest : List Char} (hw : isWord w = true)
    (hrest : ∀ c ∈ rest.head?, Lexeme.isWordPart c = false) :
    kinds (w ++ rest) = Lexeme.wordKind (String.ofList w) :: kinds rest := by
  cases w with
  | nil => simp [isWord] at hw
  | cons c cs =>
    simp only [isWord, Bool.and_eq_true] at hw
    obtain ⟨hstart, hall⟩ := hw
    have hpart := Lexeme.isWordPart_of_isWordStart hstart
    have hslash : c ≠ '/' := by
      rintro rfl
      exact absurd hstart (by decide)
    have hext : Lexeme.wordExtent (cs ++ rest) = cs.length := by
      rw [Lexeme.wordExtent, List.length_takeWhile_append hrest, List.takeWhile_eq_self_iff.mpr]
      exact List.all_eq_true.mp hall
    rw [List.cons_append, kinds_cons (Lexeme.isBlank_of_isWordPart hpart) hslash,
      Lexeme.read_word hstart, hext, List.drop_left, List.take_left]

theorem isWordPart_of_delimited {rest : List Char} (h : Delimited rest) :
    ∀ c ∈ rest.head?, Lexeme.isWordPart c = false := by
  intro c hc
  rcases h c hc with rfl | rfl | rfl <;> decide

theorem lexes_word {w : List Char} (hw : isWord w = true) :
    Lexes w [Lexeme.wordKind (String.ofList w)] :=
  fun _ hrest => kinds_word hw (isWordPart_of_delimited hrest)

theorem lexes_quoted {lit : List Char} (h : isQuotedChars lit = true) :
    Lexes lit [.string (String.ofList lit)] := by
  cases lit with
  | nil => simp [isQuotedChars] at h
  | cons c cs =>
    simp only [isQuotedChars, Bool.and_eq_true, Bool.or_eq_true, decide_eq_true_eq] at h
    obtain ⟨hc, hext⟩ := h
    refine Lexes.of_read ?_ ?_ ?_ (fun _ => Token.Kind.noConfusion)
    · rcases hc with rfl | rfl <;> decide
    · rcases hc with rfl | rfl <;> decide
    · rw [Lexeme.read_quote hc hext, List.take_length]

theorem behindDigits?_eq (cs : List Char) :
    behindDigits? cs = if Lexeme.digitsExtent cs = 0 then none
      else some (cs.drop (Lexeme.digitsExtent cs)) := by
  have hdrop : cs.drop (Lexeme.digitsExtent cs) = cs.dropWhile Char.isDigit := by
    have hsplit := congrArg (List.drop (Lexeme.digitsExtent cs))
      (List.takeWhile_append_dropWhile (p := Char.isDigit) (l := cs))
    exact hsplit.symm.trans List.drop_left
  rw [behindDigits?, hdrop, Lexeme.digitsExtent]
  cases cs with
  | nil => rfl
  | cons c cs => by_cases hc : c.isDigit = true <;> simp [hc]

/-- A point is no fraction if no digit is behind it, and a number does not go on with it. -/
theorem behindFraction?_eq (cs : List Char) :
    behindFraction? cs = if cs.head? = some '.' ∧ Lexeme.fractionExtent cs = 0 then none
      else some (cs.drop (Lexeme.fractionExtent cs)) := by
  cases cs with
  | nil => rfl
  | cons c cs =>
    by_cases hc : c = '.'
    · subst hc
      rw [behindFraction?, behindDigits?_eq, Lexeme.fractionExtent]
      cases Lexeme.digitsExtent cs <;> simp
    · simp [behindFraction?, Lexeme.fractionExtent, hc]

theorem behindSign_eq {cs : List Char} (h : cs.head? ≠ some '+' ∧ cs.head? ≠ some '-') :
    behindSign cs = cs := by
  unfold behindSign
  split <;> simp_all

/-- A mark is no exponent if no digit is behind it and its sign, and a number does not go on with
it. -/
theorem behindExponent?_eq (cs : List Char) :
    behindExponent? cs = if (cs.head? = some 'e' ∨ cs.head? = some 'E')
        ∧ Lexeme.exponentExtent cs = 0 then none
      else some (cs.drop (Lexeme.exponentExtent cs)) := by
  cases cs with
  | nil => rfl
  | cons mark cs =>
    by_cases hmark : mark = 'e' ∨ mark = 'E'
    · have hbehind : behindExponent? (mark :: cs) = behindDigits? (behindSign cs) := by
        rcases hmark with rfl | rfl <;> rfl
      rw [hbehind, behindDigits?_eq]
      by_cases hs : cs.head? ≠ some '+' ∧ cs.head? ≠ some '-'
      · rw [behindSign_eq hs, Lexeme.exponentExtent_unsigned hs]
        by_cases hd : Lexeme.digitsExtent cs = 0 <;> simp [hmark, hd]
      · obtain ⟨sign, ds, rfl, hsign⟩ :
            ∃ sign ds, cs = sign :: ds ∧ (sign = '+' ∨ sign = '-') := by
          cases cs with
          | nil => simp at hs
          | cons sign ds => exact ⟨sign, ds, rfl, by simp at hs; tauto⟩
        have hsigned : behindSign (sign :: ds) = ds := by
          rcases hsign with rfl | rfl <;> rfl
        rw [hsigned, Lexeme.exponentExtent_signed hsign]
        by_cases hd : Lexeme.digitsExtent ds = 0 <;> simp [hmark, hd]
    · have hnone : behindExponent? (mark :: cs) = some (mark :: cs) := by
        rw [not_or] at hmark
        unfold behindExponent?
        split <;> simp_all
      simp [hnone, Lexeme.exponentExtent, hmark]

/-- A text is one number just when the lexer, which takes as much of it as it can, takes it all. -/
theorem isNumeral_eq (cs : List Char) :
    isNumeral cs = ((behindMinus cs).head?.any Char.isDigit
      && decide (Lexeme.numeralExtent (behindMinus cs) = (behindMinus cs).length)) := by
  rw [isNumeral]
  generalize behindMinus cs = ds
  have hle := Lexeme.numeralExtent_le ds
  have hdigits : ds.head?.any Char.isDigit = !decide (Lexeme.digitsExtent ds = 0) := by
    cases ds with
    | nil => rfl
    | cons d ds => by_cases hd : d.isDigit = true <;> simp [Lexeme.digitsExtent, hd]
  have hlt : ∀ n c, (ds.drop n).head? = some c → n < ds.length := by
    intro n c hc
    by_contra hn
    rw [List.drop_eq_nil_of_le (Nat.le_of_not_lt hn)] at hc
    cases hc
  -- the three parts of a number, as the lexer takes them
  generalize hw : Lexeme.digitsExtent ds = whole at hdigits
  generalize hf : Lexeme.fractionExtent (ds.drop whole) = fraction
  generalize he : Lexeme.exponentExtent (ds.drop (whole + fraction)) = exponent
  have hext : Lexeme.numeralExtent ds = whole + fraction + exponent := by
    simp only [Lexeme.numeralExtent, hw, hf, he]
  rw [hext] at hle ⊢
  rw [hdigits, behindDigits?_eq, hw]
  by_cases hwhole : whole = 0
  · simp [hwhole]
  rw [if_neg hwhole, Option.bind_some, behindFraction?_eq, hf]
  by_cases hpoint : (ds.drop whole).head? = some '.' ∧ fraction = 0
  · -- a point is left over, and no exponent begins with it
    have hexponent : exponent = 0 := by
      obtain ⟨rest, hrest⟩ := List.head?_eq_some_iff.mp hpoint.1
      rw [← he, hpoint.2, Nat.add_zero, hrest]
      rfl
    have := hlt whole _ hpoint.1
    simp [hpoint]
    omega
  rw [if_neg hpoint, Option.bind_some, behindExponent?_eq, List.drop_drop, he]
  by_cases hmark : ((ds.drop (whole + fraction)).head? = some 'e'
      ∨ (ds.drop (whole + fraction)).head? = some 'E') ∧ exponent = 0
  · -- a mark is left over
    have : whole + fraction < ds.length := hmark.1.elim (hlt _ _) (hlt _ _)
    rw [if_pos hmark]
    simp
    omega
  · rw [if_neg hmark, List.drop_drop]
    simp [hwhole]
    omega

/-- A number without a sign begins with a digit. -/
theorem isNumeral_cons {c : Char} (hc : c ≠ '-') (cs : List Char) :
    isNumeral (c :: cs)
      = (c.isDigit && decide (Lexeme.numeralExtent (c :: cs) = cs.length + 1)) := by
  have hminus : behindMinus (c :: cs) = c :: cs := by
    unfold behindMinus
    split
    · rename_i heq
      cases heq
      exact absurd rfl hc
    · rfl
  rw [isNumeral_eq, hminus]
  rfl

theorem lexes_numeral {cs : List Char} (h : isNumeral cs = true) :
    Lexes cs [.number (String.ofList cs)] := by
  cases cs with
  | nil => cases h
  | cons c cs =>
    by_cases hc : c = '-'
    · subst hc
      rw [isNumeral_eq, Bool.and_eq_true, decide_eq_true_eq] at h
      obtain ⟨hdigit, hext⟩ : cs.head?.any Char.isDigit = true
        ∧ Lexeme.numeralExtent cs = cs.length := h
      refine Lexes.of_read (by decide) (by decide) ?_ (fun _ => Token.Kind.noConfusion)
      simp [Lexeme.read, hdigit, hext]
    · rw [isNumeral_cons hc, Bool.and_eq_true, decide_eq_true_eq] at h
      obtain ⟨hdigit, hext⟩ := h
      rw [Lexeme.numeralExtent_cons hdigit, Nat.add_right_cancel_iff] at hext
      refine Lexes.of_read (Lexeme.isBlank_of_isWordPart (Lexeme.isWordPart_of_isDigit hdigit)) ?_
        ?_ (fun _ => Token.Kind.noConfusion)
      · rintro rfl
        exact absurd hdigit (by decide)
      · rw [Lexeme.read_digit hdigit, hext, List.take_length]

/-! ### Values as tokens -/

/-- A character of a string that is written is read back, and the string goes on. -/
theorem quotedExtent_quoteChar (c : Char) (cs : List Char) :
    Lexeme.quotedExtent '"' (.body 0) none (quoteChar c ++ cs)
      = ((Lexeme.quotedExtent '"' (.body 0) none cs).1 + (quoteChar c).length,
        (Lexeme.quotedExtent '"' (.body 0) none cs).2) := by
  unfold quoteChar
  -- six characters are escaped; any other stands for itself inside of a string
  split
  iterate 6
    simp [Lexeme.quotedExtent, Lexeme.quotedStep, Lexeme.afterText, Lexeme.isSimpleEscape]
  rename_i hslash hquote _ _ _ _
  have hafter : Lexeme.afterText '"' c = .body 0 := by
    rw [Lexeme.afterText, if_neg hquote, if_neg hslash]
  simp [Lexeme.quotedExtent, Lexeme.quotedStep, hafter]

theorem isQuotedChars_quote (s : String) : isQuotedChars (quote s).toList = true := by
  have key : ∀ cs : List Char,
      Lexeme.quotedExtent '"' (.body 0) none (cs.flatMap quoteChar ++ ['"'])
        = ((cs.flatMap quoteChar).length + 1, none) := by
    intro cs
    induction cs with
    | nil => simp [Lexeme.quotedExtent, Lexeme.quotedStep, Lexeme.afterText]
    | cons c cs ih =>
      rw [List.flatMap_cons, List.append_assoc, quotedExtent_quoteChar, ih, List.length_append]
      simp
      omega
  simp [quote, isQuotedChars, key]

/-- A value is written as one token, which stands for what is written. -/
theorem lexes_escape (v : String) :
    ∃ kind : Token.Kind, kind.value? = some (escape v) ∧ Lexes (escape v).toList [kind] := by
  rw [escape]
  split_ifs with h
  · simp only [Bool.or_eq_true] at h
    -- a value that looks like a token is written as it is
    rcases h with (h | h) | h
    · exact ⟨.string v, rfl, by simpa using lexes_quoted h⟩
    · exact ⟨.number v, rfl, by simpa using lexes_numeral h⟩
    · simp only [isPlainWord, Bool.and_eq_true, Bool.or_eq_true] at h
      refine ⟨Lexeme.wordKind v, ?_, by simpa using lexes_word h.1⟩
      unfold Lexeme.wordKind Token.keyword?
      split_ifs with hb
      · rfl
      · rcases h.2 with hb' | hnone
        · exact absurd hb' hb
        · simp only [Token.keyword?, hb] at hnone
          simp only [Bool.false_eq_true, if_false, Option.isNone_iff_eq_none] at hnone
          rw [hnone]
          rfl
  · exact ⟨.string (quote v), rfl, by simpa using lexes_quoted (isQuotedChars_quote v)⟩

/-! ### Names -/

/-- Whether a text is a word that can name something: no reserved word and no truth value. -/
def isName (s : String) : Bool :=
  isWord s.toList && (Token.keyword? s).isNone

theorem wordKind_of_isName {s : String} (h : isName s = true) :
    Lexeme.wordKind s = .identifier s := by
  simp only [isName, Bool.and_eq_true, Option.isNone_iff_eq_none] at h
  rw [Lexeme.wordKind, h.2]
  rfl

theorem isWord_of_isName {s : String} (h : isName s = true) : isWord s.toList = true := by
  simp only [isName, Bool.and_eq_true] at h
  exact h.1

theorem lexes_name {s : String} (h : isName s = true) : Lexes s.toList [.identifier s] := by
  have := lexes_word (isWord_of_isName h)
  rwa [String.ofList_toList, wordKind_of_isName h] at this

end Literal

/-! ### The tokens of a text -/

/-- Whether the text that a token carries has the shape of its kind. -/
def Token.Kind.isGenuine : Token.Kind → Bool
  | .string raw => Literal.isQuoted raw
  | .number raw => Literal.isNumeral raw.toList
  | .boolean raw => Literal.isWord raw.toList && Token.isBoolean raw
  | .identifier name => Literal.isName name
  | _ => true

theorem Lexeme.wordKind_isGenuine {w : String} (hw : Literal.isWord w.toList = true) :
    (wordKind w).isGenuine = true := by
  rw [wordKind]
  cases hk : Token.keyword? w with
  | none => simp [Token.Kind.isGenuine, Literal.isName, hw, hk]
  | some kind =>
    rw [Token.keyword?] at hk
    split_ifs at hk with hb
    · cases hk
      simp [Token.Kind.isGenuine, hw, hb]
    · have hmem := List.mem_of_find?_eq_some hk
      simp only [Token.reserved, List.mem_cons, List.not_mem_nil, or_false] at hmem
      rcases hmem with rfl | rfl | rfl | rfl | rfl | rfl | rfl | rfl | rfl | rfl <;> rfl

/-- The text that a lexeme carries has the shape of its kind. -/
theorem Lexeme.read_isGenuine (c : Char) (cs : List Char) : (read c cs).1.isGenuine = true := by
  have hnum : (cs.take (numeralExtent cs)).length = numeralExtent cs :=
    List.length_take_of_le (numeralExtent_le cs)
  -- numbers and words go by classes of characters, the rest by single ones
  by_cases hdigit : c.isDigit = true
  · rw [read_digit hdigit]
    have hminus : c ≠ '-' := by
      rintro rfl
      exact absurd hdigit (by decide)
    simp [Token.Kind.isGenuine, Literal.isNumeral_cons hminus, hdigit, numeralExtent_cons hdigit,
      numeralExtent_take (le_refl _), numeralExtent_le]
  by_cases hstart : isWordStart c = true
  · rw [read_word hstart]
    refine wordKind_isGenuine ?_
    simp only [String.toList_ofList, Literal.isWord, hstart, Bool.true_and]
    have htake : cs.take (wordExtent cs) = cs.takeWhile isWordPart :=
      (List.prefix_iff_eq_take.mp (List.takeWhile_prefix _)).symm
    rw [htake]
    exact List.all_takeWhile
  unfold read
  split <;> try rfl
  · split_ifs <;> rfl
  · split_ifs <;> rfl
  · split_ifs with hhead
    · have hpos := Nat.ne_of_gt (one_le_numeralExtent hhead)
      simp [Token.Kind.isGenuine, Literal.isNumeral_eq, Literal.behindMinus,
        numeralExtent_take (le_refl _), numeralExtent_le, hhead, hpos, List.head?_take]
    · rfl
  · split_ifs with hq
    · cases hext : quotedExtent c (.body 0) none cs with
      | mk n fault =>
        cases fault with
        | some fault => rfl
        | none =>
          have hn := quotedExtent_le c (.body 0) none cs
          rw [hext] at hn
          have hcq : c = '"' ∨ c = '\'' := by simpa using hq
          simp [Token.Kind.isGenuine, Literal.isQuoted, Literal.isQuotedChars, hcq,
            quotedExtent_take cs (by rw [hext]), hext, hn]
    · rfl

/-- Every token of a text carries a text that has the shape of its kind. -/
theorem isGenuine_of_mem_kinds {cs : List Char} : ∀ kind ∈ kinds cs, kind.isGenuine = true := by
  induction cs using pieces.induct with
  | case1 => simp
  | case2 c cs n h ih =>
    rw [kinds_of_trivia h]
    exact ih
  | case3 c cs h kind n hread ih =>
    rw [kinds_of_lexeme h, List.forall_mem_cons]
    refine ⟨Lexeme.read_isGenuine c cs, ?_⟩
    rw [hread]
    exact ih

/-- The value for which a token stands is written as it is. -/
theorem Literal.escape_of_isGenuine {kind : Token.Kind} {v : String}
    (hkind : kind.isGenuine = true) (hv : kind.value? = some v) : escape v = v := by
  rw [escape]
  refine if_pos ?_
  cases kind <;> simp only [Token.Kind.value?, Option.some.injEq, reduceCtorEq] at hv <;>
    subst hv <;> simp_all [Token.Kind.isGenuine, isPlainWord, isName]

namespace Literal

theorem escape_of_isName {s : String} (h : isName s = true) : escape s = s :=
  @escape_of_isGenuine (.identifier s) s h rfl

/-- What is written for a value is written for itself. -/
theorem escape_escape (v : String) : escape (escape v) = escape v := by
  obtain ⟨kind, hvalue, hlex⟩ := lexes_escape v
  have hmem : kind ∈ kinds (escape v).toList := by
    rw [hlex.kinds_eq]
    exact List.mem_singleton_self kind
  exact escape_of_isGenuine (isGenuine_of_mem_kinds kind hmem) hvalue

end Literal

end NodeQuery
