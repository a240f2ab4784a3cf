/-
Where a text stops.

A text may stop inside a string or a comment, and what is written behind it is then no longer
read as it was meant. The characters of a text are run through one at a time here, and what
matters is what the next one is read as.

* `Scan.Mode`, `Scan.after`: what the next character is read as behind a text.
* `Scan.after_take_extent`, `Scan.after_read`: trivia and lexemes.
* `Scan.after_eq_code_iff`: a text without errors stops between two lexemes just when it
  leaves no comment open.
* `Scan.error_not_mem_of_append`: a text that stops between two lexemes has no errors if it
  has none with something behind it.
* `kinds_append_of_open`: nothing is read behind a comment that is left open.
-/
import NodeQuery.Proofs.Literal

namespace NodeQuery

namespace Scan

open Lexeme (QuotedMode quotedStep quotedExtent)

/-- What the next character of a text is read as. Nothing leads on from `stuck`, behind a
character that is an error wherever it stands. -/
inductive Mode where
  | code
  | slash
  | line
  | block
  | star
  | quoted (quote : Char) (mode : QuotedMode)
  | stuck
  deriving DecidableEq, Repr

/-- What is read behind `c`. -/
def step : Mode → Char → Mode
  | .code, c =>
    if c = '/' then .slash
    else if c = '"' ∨ c = '\'' then .quoted c (.body 0)
    else if c = '\\' then .stuck
    else .code
  | .slash, c => if c = '/' then .line else if c = '*' then .block else .stuck
  | .line, c => if c = '\n' then .code else .line
  | .block, c => if c = '*' then .star else .block
  | .star, c => if c = '/' then .code else if c = '*' then .star else .block
  | .quoted quote mode, c =>
    match quotedStep quote mode c with
    | (_, some _) => .stuck
    | (.closed, none) => .code
    | (mode, none) => .quoted quote mode
  | .stuck, _ => .stuck

/-- What is read behind a text. -/
def after (mode : Mode) (cs : List Char) : Mode :=
  cs.foldl step mode

@[simp] theorem after_nil (mode : Mode) : after mode [] = mode := rfl

@[simp] theorem after_cons (mode : Mode) (c : Char) (cs : List Char) :
    after mode (c :: cs) = after (step mode c) cs := rfl

@[simp] theorem after_append (mode : Mode) (as bs : List Char) :
    after mode (as ++ bs) = after (after mode as) bs :=
  List.foldl_append

@[simp] theorem after_stuck (cs : List Char) : after .stuck cs = .stuck := by
  induction cs with
  | nil => rfl
  | cons c cs ih => exact ih

/-- What stands in front of a place between two lexemes is of no account. -/
theorem after_code_cons {c : Char} {cs : List Char} {n : Nat}
    (h : after .code (c :: cs.take n) = .code) :
    after .code (c :: cs) = after .code (cs.drop n) := by
  have := after_append .code (c :: cs.take n) (cs.drop n)
  rwa [List.cons_append, List.take_append_drop, h] at this

/-! ### Trivia -/

/-- What is read behind trivia, by the way in which trivia is read. -/
def ofTrivia : Trivia.Mode → Mode
  | .code => .code
  | .lineComment => .line
  | .blockComment => .block

/-- A star in a comment is of account only in front of a slash. -/
theorem after_star {cs : List Char} (h : cs.head? ≠ some '/') (hne : cs ≠ []) :
    after .star cs = after .block cs := by
  cases cs with
  | nil => exact absurd rfl hne
  | cons c cs =>
    have hc : c ≠ '/' := by simpa using h
    simp [step, hc]

theorem step_code_of_isBlank {c : Char} (h : Text.isBlank c = true) : step .code c = .code := by
  have h₁ : c ≠ '/' := by
    rintro rfl
    exact absurd h (by decide)
  have h₂ : c ≠ '"' := by
    rintro rfl
    exact absurd h (by decide)
  have h₃ : c ≠ '\'' := by
    rintro rfl
    exact absurd h (by decide)
  have h₄ : c ≠ '\\' := by
    rintro rfl
    exact absurd h (by decide)
  simp [step, h₁, h₂, h₃, h₄]

/-- Trivia stops outside of comments just when it leaves none open. -/
theorem after_take_extent (mode : Trivia.Mode) (cs : List Char) :
    after (ofTrivia mode) (cs.take (Trivia.extent mode cs)) = .code
      ↔ Trivia.modeAfter mode (cs.take (Trivia.extent mode cs)) = .code := by
  have hcut : ∀ {n : Nat} {cs ds : List Char}, cs.take n = '/' :: ds → ∃ es, cs = '/' :: es := by
    intro n cs ds h
    exact ⟨ds ++ cs.drop n, by rw [← List.cons_append, ← h, List.take_append_drop]⟩
  -- a comment is opened and closed by two characters, of which the cut never takes one only
  fun_induction Trivia.extent mode cs with
  | case1 cs ih => simpa [ofTrivia, step, Trivia.modeAfter] using ih
  | case2 cs ih => simpa [ofTrivia, step, Trivia.modeAfter] using ih
  | case3 c cs h1 h2 hc ih =>
    rw [List.take_succ_cons, after_cons, Trivia.modeAfter]
    · rw [ofTrivia, step_code_of_isBlank hc]
      exact ih
    · rintro ds rfl
      exact absurd hc (by decide)
    · rintro ds rfl
      exact absurd hc (by decide)
  | case4 c cs h1 h2 hc => simp [ofTrivia, Trivia.modeAfter]
  | case5 cs ih => simpa [ofTrivia, step, Trivia.modeAfter] using ih
  | case6 c cs hc ih =>
    have : c ≠ '\n' := hc
    rw [List.take_succ_cons, after_cons, Trivia.modeAfter]
    · simpa [ofTrivia, step, this] using ih
    · exact hc
  | case7 cs ih => simpa [ofTrivia, step, Trivia.modeAfter] using ih
  | case8 c cs hc ih =>
    rw [List.take_succ_cons, after_cons, Trivia.modeAfter]
    · refine Iff.trans ?_ ih
      by_cases hstar : c = '*'
      · subst hstar
        simp only [ofTrivia, step, if_pos]
        by_cases hne : cs.take (Trivia.extent .blockComment cs) = []
        · simp [hne]
        · rw [after_star _ hne]
          intro hhead
          obtain ⟨ds, hds⟩ := List.head?_eq_some_iff.mp hhead
          obtain ⟨es, rfl⟩ := hcut hds
          exact hc es rfl rfl
      · simp [ofTrivia, step, hstar]
    · intro ds hstar hds
      obtain ⟨es, rfl⟩ := hcut hds
      exact hc es hstar rfl
  | case9 mode => cases mode <;> simp [ofTrivia, Trivia.modeAfter]

/-- Trivia that stops inside a text leaves no comment open. -/
theorem modeAfter_take_of_lt {mode : Trivia.Mode} {cs : List Char}
    (h : Trivia.extent mode cs < cs.length) :
    Trivia.modeAfter mode (cs.take (Trivia.extent mode cs)) = .code := by
  -- only a comment that is never closed reaches to the end of its text
  fun_induction Trivia.extent mode cs with
  | case1 cs ih => simpa [Trivia.modeAfter] using ih (by simpa using h)
  | case2 cs ih => simpa [Trivia.modeAfter] using ih (by simpa using h)
  | case3 c cs h1 h2 hc ih =>
    rw [List.take_succ_cons, Trivia.modeAfter]
    · exact ih (by simpa using h)
    · rintro ds rfl
      exact absurd hc (by decide)
    · rintro ds rfl
      exact absurd hc (by decide)
  | case4 c cs h1 h2 hc => rfl
  | case5 cs ih => simpa [Trivia.modeAfter] using ih (by simpa using h)
  | case6 c cs hc ih =>
    rw [List.take_succ_cons, Trivia.modeAfter]
    · exact ih (by simpa using h)
    · exact hc
  | case7 cs ih => simpa [Trivia.modeAfter] using ih (by simpa using h)
  | case8 c cs hc ih =>
    rw [List.take_succ_cons, Trivia.modeAfter]
    · exact ih (by simpa using h)
    · intro ds hstar hds
      refine hc (ds ++ cs.drop (Trivia.extent .blockComment cs)) hstar ?_
      rw [← List.cons_append, ← hds, List.take_append_drop]
  | case9 mode => simp at h

/-! ### Lexemes -/

/-- Whether a character is of no account to strings and comments, and is written as it is. -/
def isMild (c : Char) : Bool :=
  !(['/', '*', '"', '\'', '\\', '\n', '\t', '\r'].contains c)

theorem isMild_iff {c : Char} : isMild c = true
    ↔ c ≠ '/' ∧ c ≠ '*' ∧ c ≠ '"' ∧ c ≠ '\'' ∧ c ≠ '\\' ∧ c ≠ '\n' ∧ c ≠ '\t' ∧ c ≠ '\r' := by
  simp [isMild]

theorem isMild_of_isWordPart {c : Char} (h : Lexeme.isWordPart c = true) : isMild c = true := by
  rw [isMild_iff]
  refine ⟨?_, ?_, ?_, ?_, ?_, ?_, ?_, ?_⟩ <;>
  · rintro rfl
    exact absurd h (by decide)

theorem isMild_of_isDigit {c : Char} (h : c.isDigit = true) : isMild c = true :=
  isMild_of_isWordPart (Lexeme.isWordPart_of_isDigit h)

theorem step_code_of_isMild {c : Char} (h : isMild c = true) : step .code c = .code := by
  obtain ⟨h₁, -, h₃, h₄, h₅, -⟩ := isMild_iff.mp h
  simp [step, h₁, h₃, h₄, h₅]

theorem after_code_of_isMild {cs : List Char} (h : ∀ c ∈ cs, isMild c = true) :
    after .code cs = .code := by
  induction cs with
  | nil => rfl
  | cons c cs ih =>
    rw [List.forall_mem_cons] at h
    rw [after_cons, step_code_of_isMild h.1, ih h.2]

/-- A fault is not forgotten in the rest of the string. -/
theorem quotedExtent_some (quote : Char) (mode : QuotedMode) (fault : Lexeme.Fault)
    (cs : List Char) : (quotedExtent quote mode (some fault) cs).2 ≠ none := by
  induction cs generalizing mode with
  | nil => unfold quotedExtent; split <;> simp
  | cons c cs ih =>
    by_cases hclosed : mode = .closed
    · simp [quotedExtent, hclosed]
    · rw [Lexeme.quotedExtent_cons hclosed]
      exact ih _

theorem step_code_of_quote {c : Char} (h : c = '"' ∨ c = '\'') :
    step .code c = .quoted c (.body 0) := by
  rcases h with rfl | rfl <;> rfl

/-- A string is left behind if it is closed and has no faults, and never otherwise. -/
theorem after_quoted (quote : Char) (cs : List Char) {mode : QuotedMode} (hmode : mode ≠ .closed) :
    ((quotedExtent quote mode none cs).2 = none →
        after (.quoted quote mode) (cs.take (quotedExtent quote mode none cs).1) = .code)
      ∧ ((quotedExtent quote mode none cs).2 ≠ none →
        after (.quoted quote mode) cs ≠ .code) := by
  -- the string is left behind with the first character after which it is closed
  induction cs generalizing mode with
  | nil => simp [quotedExtent, hmode]
  | cons c cs ih =>
    rw [Lexeme.quotedExtent_cons hmode, after_cons, step]
    simp only [List.take_succ_cons, after_cons, step]
    rcases hstep : quotedStep quote mode c with ⟨next, fault⟩
    cases fault with
    | some fault => simp [quotedExtent_some]
    | none =>
      by_cases hnext : next = .closed
      · subst hnext
        cases cs <;> simp [quotedExtent]
      · have := ih hnext
        cases next <;> simp_all

theorem isMild_of_mem_take_length {p : Char → Bool} (hp : ∀ c, p c = true → isMild c = true)
    (cs : List Char) : ∀ c ∈ cs.take (cs.takeWhile p).length, isMild c = true := by
  intro c hc
  rw [← List.prefix_iff_eq_take.mp (List.takeWhile_prefix p)] at hc
  exact hp c (List.mem_takeWhile_imp hc)

theorem isMild_take_fraction (cs : List Char) :
    ∀ c ∈ cs.take (Lexeme.fractionExtent cs), isMild c = true := by
  unfold Lexeme.fractionExtent
  split
  · rename_i cs
    split
    · simp
    · rename_i n hn
      rw [List.take_succ_cons, List.forall_mem_cons]
      refine ⟨rfl, ?_⟩
      rw [show n + 1 = Lexeme.digitsExtent cs from hn.symm]
      exact isMild_of_mem_take_length (fun c => isMild_of_isDigit) cs
  · simp

theorem isMild_take_exponent (cs : List Char) :
    ∀ c ∈ cs.take (Lexeme.exponentExtent cs), isMild c = true := by
  -- the mark, a sign if there is one, and the digits
  have key : ∀ (mark : Char) (cs : List Char) (signed n : Nat), isMild mark = true →
      (∀ c ∈ cs.take signed, isMild c = true) → Lexeme.digitsExtent (cs.drop signed) = n + 1 →
      ∀ c ∈ (mark :: cs).take (n + signed + 2), isMild c = true := by
    intro mark cs signed n hmark hsigned hn
    rw [show n + signed + 2 = signed + (n + 1) + 1 by omega, List.take_succ_cons, List.take_add,
      ← hn, List.forall_mem_cons, List.forall_mem_append]
    exact ⟨hmark, hsigned, isMild_of_mem_take_length (fun c => isMild_of_isDigit) _⟩
  cases cs with
  | nil => simp
  | cons mark cs =>
    unfold Lexeme.exponentExtent
    simp only
    split_ifs with hmark
    · have hinert : isMild mark = true := by
        simp only [Bool.or_eq_true, decide_eq_true_eq] at hmark
        rcases hmark with rfl | rfl <;> rfl
      split
      · simp
      · rename_i n hn
        refine key mark cs _ n hinert ?_ hn
        split
        · rw [List.take_succ_cons, List.take_zero, List.forall_mem_singleton]
          rfl
        · rw [List.take_succ_cons, List.take_zero, List.forall_mem_singleton]
          rfl
        · simp
    · simp

theorem isMild_take_numeral (cs : List Char) :
    ∀ c ∈ cs.take (Lexeme.numeralExtent cs), isMild c = true := by
  rw [Lexeme.numeralExtent]
  simp only [List.take_add, List.forall_mem_append]
  refine ⟨⟨?_, isMild_take_fraction _⟩, isMild_take_exponent _⟩
  exact isMild_of_mem_take_length (fun c => isMild_of_isDigit) cs

/-- A lexeme that is no error stops outside of strings and comments. -/
theorem after_read {c : Char} {cs : List Char}
    (h : ∀ message, (Lexeme.read c cs).1 ≠ .error message) :
    after .code (c :: cs.take (Lexeme.read c cs).2) = .code := by
  have hdigits := after_code_of_isMild (isMild_take_numeral cs)
  -- by the first character; only a string is led through another mode
  unfold Lexeme.read at h ⊢
  split at h <;> simp only at h ⊢
  iterate 5 rfl
  · split_ifs at h ⊢ with heq
    · obtain ⟨ds, rfl⟩ := List.head?_eq_some_iff.mp heq
      rfl
    · exact absurd rfl (h _)
  · split_ifs at h ⊢ with heq
    · obtain ⟨ds, rfl⟩ := List.head?_eq_some_iff.mp heq
      rfl
    · exact absurd rfl (h _)
  · split_ifs at h ⊢ with heq
    · exact hdigits
    · exact absurd rfl (h _)
  · split_ifs at h ⊢ with hq hdig hw
    · simp only [Bool.or_eq_true, decide_eq_true_eq] at hq
      cases he : quotedExtent c (.body 0) none cs with
      | mk n fault =>
        cases fault with
        | some fault => simp [he] at h
        | none =>
          have hclosed := (@after_quoted c cs (.body 0) (by simp)).1
          rw [he] at hclosed
          rw [after_cons, step_code_of_quote hq]
          exact hclosed rfl
    · rw [after_cons, step_code_of_isMild (isMild_of_isDigit hdig)]
      exact hdigits
    · have hmild := isMild_of_isWordPart (Lexeme.isWordPart_of_isWordStart hw)
      rw [after_cons, step_code_of_isMild hmild]
      exact after_code_of_isMild (isMild_of_mem_take_length (fun c => isMild_of_isWordPart) cs)
    · exact absurd rfl (h _)

/-- An error that is no string is one with a delimiter behind it as well. -/
theorem read_error_append {rest : List Char} (hrest : Delimited rest) {c : Char}
    {cs : List Char} {message : String} (hquote : ¬(c = '"' ∨ c = '\''))
    (h : (Lexeme.read c cs).1 = .error message) :
    (Lexeme.read c (cs ++ rest)).1 = .error message := by
  -- numbers and words are never errors, so neither a digit nor a letter comes first
  have hdigit : c.isDigit = false := by
    by_contra hc
    rw [Lexeme.read_digit (by simpa using hc)] at h
    cases h
  have hstart : Lexeme.isWordStart c = false := by
    by_contra hc
    rw [Lexeme.read_word (by simpa using hc)] at h
    exact Lexeme.wordKind_ne rfl (by simp [Token.reserved]) h
  have hhead : ((cs ++ rest).head? = some '=' ↔ cs.head? = some '=')
      ∧ (cs ++ rest).head?.any Char.isDigit = cs.head?.any Char.isDigit := by
    cases cs with
    | cons d cs => exact ⟨Iff.rfl, rfl⟩
    | nil =>
      cases rest with
      | nil => exact ⟨Iff.rfl, rfl⟩
      | cons d rest => rcases hrest d rfl with rfl | rfl | rfl <;> exact ⟨by simp, rfl⟩
  unfold Lexeme.read at h ⊢
  split at h <;> simp only at h ⊢
  iterate 5 cases h
  · simp only [hhead.1]
    split_ifs at h ⊢
    exact h
  · simp only [hhead.1]
    split_ifs at h ⊢
    exact h
  · simp only [hhead.2]
    split_ifs at h ⊢
    exact h
  · simpa [hquote, hdigit, hstart] using h

/-! ### Texts -/

/-- A text without errors stops between two lexemes just when it leaves no comment open. -/
theorem after_eq_code_iff {cs : List Char} (herr : ∀ message, .error message ∉ kinds cs) :
    after .code cs = .code ↔ hasOpenComment cs = false := by
  induction cs using pieces.induct with
  | case1 => simp [hasOpenComment, pieces]
  | case2 c cs n h ih =>
    have htake := after_take_extent .code (c :: cs)
    rw [h, List.take_succ_cons, ofTrivia] at htake
    rw [kinds_of_trivia h] at herr
    rw [hasOpenComment, pieces, h]
    simp only [List.any_cons, Bool.or_eq_false_iff, Piece.isOpenComment, decide_eq_false_iff_not,
      not_not]
    -- trivia in front of a lexeme has closed its comments; only the last one may not have
    by_cases hn : n < cs.length
    · have hlt : Trivia.extent .code (c :: cs) < (c :: cs).length := by simpa [h] using hn
      have hmode := modeAfter_take_of_lt hlt
      rw [h, List.take_succ_cons] at hmode
      rw [after_code_cons (htake.mpr hmode)]
      exact (ih herr).trans (and_iff_right hmode).symm
    · rw [List.take_of_length_le (not_lt.mp hn)] at htake ⊢
      rw [List.drop_of_length_le (not_lt.mp hn)]
      simpa [pieces] using htake
  | case3 c cs h kind n hread ih =>
    rw [kinds_of_lexeme h] at herr
    simp only [hread, List.mem_cons, not_or] at herr
    have hkind : ∀ message, (Lexeme.read c cs).1 ≠ .error message := by
      rw [hread]
      exact fun message => Ne.symm (herr message).1
    have hmode := after_read hkind
    rw [hread] at hmode
    rw [hasOpenComment, pieces, h]
    simp only [hread, List.any_cons, Piece.isOpenComment, Bool.false_or]
    rw [after_code_cons hmode]
    exact ih fun message => (herr message).2

/-- What stands behind a text that stops between two lexemes takes none of its errors away. -/
theorem error_not_mem_of_append {cs rest : List Char} (hrest : Delimited rest)
    (hcode : after .code cs = .code) (herr : ∀ message, .error message ∉ kinds (cs ++ rest)) :
    ∀ message, .error message ∉ kinds cs := by
  induction cs using pieces.induct with
  | case1 => simp
  | case2 c cs n h ih =>
    rw [kinds_of_trivia h]
    by_cases hn : n < cs.length
    · -- no trivia in front of the lexeme with `rest` behind it either
      have hlt : Trivia.extent .code (c :: cs) < (c :: cs).length := by simpa [h] using hn
      have hext := Trivia.extent_append_of_lt hrest hlt
      rw [h, List.cons_append] at hext
      rw [List.cons_append, kinds_of_trivia hext, List.drop_append_of_le_length hn.le] at herr
      have hmode := (after_take_extent _ _).mpr (modeAfter_take_of_lt hlt)
      rw [h, List.take_succ_cons, ofTrivia] at hmode
      rw [after_code_cons hmode] at hcode
      exact ih hcode herr
    · rw [List.drop_of_length_le (not_lt.mp hn)]
      simp
  | case3 c cs h kind n hread ih =>
    have hlt : Trivia.extent .code (c :: cs) < (c :: cs).length := by simp [h]
    have hext := Trivia.extent_append_of_lt hrest hlt
    rw [h, List.cons_append] at hext
    rw [kinds_of_lexeme h, hread]
    rw [List.cons_append, kinds_of_lexeme hext] at herr
    simp only [List.mem_cons, not_or] at herr ⊢
    have hkind : ∀ message, (Lexeme.read c cs).1 ≠ .error message := by
      intro message hmessage
      by_cases hquote : c = '"' ∨ c = '\''
      · -- a string that is an error is not closed, or has a fault in it
        refine (@after_quoted c cs (.body 0) (by simp)).2 ?_
          (by rwa [after_cons, step_code_of_quote hquote] at hcode)
        intro hnone
        rw [Lexeme.read_quote hquote (Prod.ext rfl hnone)] at hmessage
        cases hmessage
      · exact (herr message).1 (read_error_append hrest hquote hmessage).symm
    have hmode := after_read hkind
    rw [Lexeme.read_append hrest.apart hkind, hread] at herr
    rw [hread] at hkind hmode
    have hn : n ≤ cs.length := by
      have := Lexeme.read_le c cs
      rwa [hread] at this
    rw [List.drop_append_of_le_length hn] at herr
    rw [after_code_cons hmode] at hcode
    exact fun message => ⟨(hkind message).symm, ih hcode (fun message => (herr message).2) message⟩

end Scan

/-! ### Comments that are left open -/

theorem Trivia.extent_of_not_mem {mode : Mode} (hmode : mode ≠ .code) {cs : List Char}
    (hline : '\n' ∉ cs) (hslash : '/' ∉ cs) : extent mode cs = cs.length := by
  -- neither sort of comment is closed without one of the two characters
  induction cs with
  | nil => cases mode <;> rfl
  | cons c cs ih =>
    simp only [List.mem_cons, not_or] at hline hslash
    have hhead : cs.head? ≠ some '/' := fun h => hslash.2 (List.mem_of_mem_head? h)
    cases mode with
    | code => exact absurd rfl hmode
    | lineComment => rw [extent_line_cons (Ne.symm hline.1), ih hline.2 hslash.2, List.length_cons]
    | blockComment => rw [extent_block_cons fun _ => hhead, ih hline.2 hslash.2, List.length_cons]

/-- Trivia that ends with an open comment goes on through a text that closes no comment. -/
theorem Trivia.extent_append_of_open {rest : List Char} (hline : '\n' ∉ rest) (hslash : '/' ∉ rest)
    {mode : Mode} {cs : List Char} (h : extent mode cs = cs.length)
    (hmode : modeAfter mode cs ≠ .code) :
    extent mode (cs ++ rest) = (cs ++ rest).length := by
  have hhead : rest.head? ≠ some '/' := fun hrest => hslash (List.mem_of_mem_head? hrest)
  rw [extent_append_of_eq h (.inr hhead), extent_of_not_mem hmode hline hslash,
    List.length_append]

/-- Nothing is read behind an open comment. -/
theorem kinds_append_of_open {rest cs : List Char} (hrest : Delimited rest)
    (hline : '\n' ∉ rest) (hslash : '/' ∉ rest) (herr : ∀ message, .error message ∉ kinds cs)
    (hopen : hasOpenComment cs = true) : kinds (cs ++ rest) = kinds cs := by
  induction cs using pieces.induct with
  | case1 => simp [hasOpenComment, pieces] at hopen
  | case2 c cs n h ih =>
    rw [hasOpenComment, pieces, h] at hopen
    simp only [List.any_cons, Bool.or_eq_true, Piece.isOpenComment, decide_eq_true_eq] at hopen
    rw [kinds_of_trivia h] at herr ⊢
    -- the comment that is open is in the last piece
    by_cases hn : n < cs.length
    · have hlt : Trivia.extent .code (c :: cs) < (c :: cs).length := by simpa [h] using hn
      have hext := Trivia.extent_append_of_lt hrest hlt
      have hmode := Scan.modeAfter_take_of_lt hlt
      rw [h, List.take_succ_cons] at hmode
      rw [h, List.cons_append] at hext
      rw [List.cons_append, kinds_of_trivia hext, List.drop_append_of_le_length hn.le]
      exact ih herr (hopen.resolve_left (not_not.mpr hmode))
    · -- the comment reaches to the end of the text, and on
      have hdrop : cs.drop n = [] := List.drop_of_length_le (not_lt.mp hn)
      rw [hdrop, List.take_of_length_le (not_lt.mp hn)] at hopen
      have hmode : Trivia.modeAfter .code (c :: cs) ≠ .code := by simpa [pieces] using hopen
      have hle := Trivia.extent_le .code (c :: cs)
      have hext := Trivia.extent_append_of_open hline hslash
        (le_antisymm hle (by rw [h, List.length_cons]; omega)) hmode
      rw [← kinds_drop_extent, hext, List.drop_length, hdrop]
  | case3 c cs h kind n hread ih =>
    have hlt : Trivia.extent .code (c :: cs) < (c :: cs).length := by simp [h]
    have hext := Trivia.extent_append_of_lt hrest hlt
    rw [h, List.cons_append] at hext
    rw [hasOpenComment, pieces, h] at hopen
    simp only [hread, List.any_cons, Piece.isOpenComment, Bool.false_or] at hopen
    rw [kinds_of_lexeme h] at herr ⊢
    have hkind : ∀ message, (Lexeme.read c cs).1 ≠ .error message :=
      fun message hm => herr message (by rw [hm]; exact List.mem_cons_self ..)
    have hn := Lexeme.read_le c cs
    rw [List.cons_append, kinds_of_lexeme hext, Lexeme.read_append hrest.apart hkind,
      List.drop_append_of_le_length hn]
    rw [hread] at herr ⊢
    rw [ih (fun message hm => herr message (List.mem_cons_of_mem _ hm)) hopen]

end NodeQuery
