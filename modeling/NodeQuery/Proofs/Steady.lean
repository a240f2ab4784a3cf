/-
Readers that are out of step.

Where a text is cut inside a string or a comment, a reader is out of step with the text
behind the cut. If that text is written in the way in which queries are, with every string in
it closed and no comments outside of strings, then the reader never gets in step again: what
closes a string for one of the two opens one for the other.

* `Scan.Astray`: what is read by a reader that is out of step.
* `Scan.Steady`: texts that leave a reader out of step.
* `Scan.Apart`: how such a reader can stand to one that is inside a string.
* `Scan.steady_of_isQuotedChars`, `Scan.steady_render`: strings and conditions are such texts.
* `Scan.stops_of_steady`: what stands in front of such a text is cut nowhere, unless the whole
  has errors in it or leaves a comment open.
-/
import NodeQuery.Proofs.Scanning
import NodeQuery.Proofs.Writing

namespace NodeQuery

namespace Scan

open Lexeme (QuotedMode quotedStep quotedExtent)

/-! ### Readers out of step -/

/-- Whether a character begins and ends strings. -/
def isQuote (c : Char) : Bool :=
  c = '"' || c = '\''

/-- What is read between two parts of a text by a reader that is out of step. -/
inductive Astray : Mode → Prop where
  | line : Astray .line
  | block : Astray .block
  | stuck : Astray .stuck
  | quoted {quote : Char} (hquote : isQuote quote = true) : Astray (.quoted quote (.body 0))

/-- A reader that is out of step in front of the text is so behind it as well. -/
def Steady (cs : List Char) : Prop :=
  ∀ mode, Astray mode → Astray (after mode cs)

theorem Astray.ne_code {mode : Mode} (h : Astray mode) : mode ≠ .code := by
  rintro rfl
  cases h

theorem Steady.append {as bs : List Char} (ha : Steady as) (hb : Steady bs) :
    Steady (as ++ bs) := by
  intro mode h
  rw [after_append]
  exact hb _ (ha mode h)

theorem Astray.step_of_isMild {mode : Mode} (h : Astray mode) {c : Char} (hc : isMild c = true) :
    step mode c = mode := by
  obtain ⟨-, h₂, h₃, h₄, h₅, h₆, -⟩ := isMild_iff.mp hc
  -- a mild character begins, ends and escapes nothing
  cases h with
  | line => simp [step, h₆]
  | block => simp [step, h₂]
  | stuck => rfl
  | quoted hquote =>
    rename_i quote
    have hne : c ≠ quote := by
      rintro rfl
      simp [isQuote, h₃, h₄] at hquote
    simp [step, Lexeme.quotedStep, Lexeme.afterText, hne, h₅]

theorem steady_of_isMild {cs : List Char} (h : ∀ c ∈ cs, isMild c = true) : Steady cs := by
  intro mode hmode
  induction cs with
  | nil => exact hmode
  | cons c cs ih =>
    rw [List.forall_mem_cons] at h
    rw [after_cons, hmode.step_of_isMild h.1]
    exact ih h.2

theorem steady_of_all {cs : List Char} (h : cs.all isMild = true) : Steady cs :=
  steady_of_isMild (List.all_eq_true.mp h)

theorem steady_space : Steady [' '] :=
  steady_of_all (by decide)

theorem Steady.spaced {as bs : List Char} (ha : Steady as) (hb : Steady bs) :
    Steady (as ++ ' ' :: bs) := by
  rw [← List.singleton_append]
  exact ha.append (steady_space.append hb)

/-- `Apart quote inside mode`: how a reader that is out of step can stand to one that is
`inside` a string. -/
inductive Apart (quote : Char) : QuotedMode → Mode → Prop where
  | code : Apart quote (.body 0) .code
  | slash : Apart quote (.body 0) .slash
  | star : Apart quote (.body 0) .star
  | line {inside : QuotedMode} (h : inside ≠ .closed) : Apart quote inside .line
  | block {inside : QuotedMode} (h : inside ≠ .closed) : Apart quote inside .block
  | stuck {inside : QuotedMode} (h : inside ≠ .closed) : Apart quote inside .stuck
  | quoted {inside : QuotedMode} {other : Char} (h : inside ≠ .closed)
      (hother : isQuote other = true) (hne : other ≠ quote) :
      Apart quote inside (.quoted other inside)
  | closed {mode : Mode} (h : Astray mode) : Apart quote .closed mode

/-- What is read behind a backslash does not depend on the quotes, and ends no comment. -/
theorem quotedStep_of_escaped {quote : Char} {inside next : QuotedMode} {c : Char}
    (hbody : inside ≠ .body 0) (hclosed : inside ≠ .closed)
    (hstep : quotedStep quote inside c = (next, none)) :
    next ≠ .closed ∧ c ≠ '\n' ∧ c ≠ '*' ∧ ∀ other, quotedStep other inside c = (next, none) := by
  -- either the character behind a backslash, or one of the digits that follow it
  match inside with
  | .escape =>
    simp only [quotedStep] at hstep ⊢
    refine ⟨?_, ?_, ?_, fun _ => hstep⟩
    · rintro rfl
      split_ifs at hstep <;> simp at hstep
    · rintro rfl
      exact absurd hstep (by simp [Lexeme.isSimpleEscape])
    · rintro rfl
      exact absurd hstep (by simp [Lexeme.isSimpleEscape])
  | .body (owed + 1) =>
    have hhex : Lexeme.isHexDigit c = true := by
      by_contra hc
      simp [quotedStep, hc] at hstep
    simp only [quotedStep, if_pos hhex] at hstep ⊢
    cases hstep
    refine ⟨by simp, ?_, ?_, fun _ => rfl⟩
    · rintro rfl
      exact absurd hhex (by decide)
    · rintro rfl
      exact absurd hhex (by decide)

theorem apart_step_of_escaped {quote : Char} {inside next : QuotedMode} {c : Char}
    (hbody : inside ≠ .body 0) (hclosed : inside ≠ .closed)
    (hstep : quotedStep quote inside c = (next, none)) {mode : Mode}
    (h : Apart quote inside mode) : Apart quote next (step mode c) := by
  obtain ⟨hnext, hline, hstar, hsame⟩ := quotedStep_of_escaped hbody hclosed hstep
  cases h with
  | line h => simpa [step, hline] using Apart.line hnext
  | block h => simpa [step, hstar] using Apart.block hnext
  | stuck h => exact .stuck hnext
  | quoted h hother hne =>
    rename_i other
    have hmode : step (.quoted other inside) c = .quoted other next := by
      rw [step, hsame]
      cases next with
      | closed => exact absurd rfl hnext
      | _ => rfl
    rw [hmode]
    exact .quoted hnext hother hne
  | closed h => exact absurd rfl hclosed
  | _ => exact absurd rfl hbody

theorem isQuote_iff {c : Char} : isQuote c = true ↔ c = '"' ∨ c = '\'' := by
  simp [isQuote]

/-- A string that is closed leaves a reader that is out of step where it is, or lets it begin
a string of its own. -/
theorem astray_step_of_isQuote {quote : Char} (hquote : isQuote quote = true) {mode : Mode}
    (h : Apart quote (.body 0) mode) : Astray (step mode quote) := by
  have hslash : quote ≠ '/' ∧ quote ≠ '*' ∧ quote ≠ '\n' ∧ quote ≠ '\\' := by
    rcases isQuote_iff.mp hquote with rfl | rfl <;> decide
  obtain ⟨h₁, h₂, h₃, h₄⟩ := hslash
  cases h with
  | code =>
    rw [step_code_of_quote (isQuote_iff.mp hquote)]
    exact .quoted hquote
  | slash => simpa [step, h₁, h₂] using Astray.stuck
  | star => simpa [step, h₁, h₂] using Astray.block
  | line h => simpa [step, h₃] using Astray.line
  | block h => simpa [step, h₂] using Astray.block
  | stuck h => exact .stuck
  | quoted h hother hne =>
    simpa [step, quotedStep, Lexeme.afterText, hne.symm, h₄] using Astray.quoted hother

theorem apart_step_of_text {quote : Char} (hquote : isQuote quote = true) {c : Char} {mode : Mode}
    (h : Apart quote (.body 0) mode) :
    Apart quote (Lexeme.afterText quote c) (step mode c) := by
  -- the string ends, escapes a character, or goes on
  by_cases hc : c = quote
  · subst hc
    simpa [Lexeme.afterText] using Apart.closed (astray_step_of_isQuote hquote h)
  by_cases hbackslash : c = '\\'
  · subst hbackslash
    rw [Lexeme.afterText, if_neg hc, if_pos rfl]
    cases h with
    | code => exact .stuck (by simp)
    | slash => exact .stuck (by simp)
    | star => exact .block (by simp)
    | line h => exact .line (by simp)
    | block h => exact .block (by simp)
    | stuck h => exact .stuck (by simp)
    | quoted h hother hne =>
      rename_i other
      have hstep : step (.quoted other (.body 0)) '\\' = .quoted other .escape := by
        rcases isQuote_iff.mp hother with rfl | rfl <;> rfl
      rw [hstep]
      exact .quoted (by simp) hother hne
  · rw [Lexeme.afterText, if_neg hc, if_neg hbackslash]
    -- a comment or a string that begins here for the other reader does not hide the end of this one
    cases h with
    | code =>
      simp only [step, if_neg hbackslash]
      split_ifs with hslash hother
      · exact .slash
      · exact .quoted (by simp) (isQuote_iff.mpr hother) hc
      · exact .code
    | slash =>
      simp only [step]
      split_ifs
      · exact .line (by simp)
      · exact .block (by simp)
      · exact .stuck (by simp)
    | star =>
      simp only [step]
      split_ifs
      · exact .code
      · exact .star
      · exact .block (by simp)
    | line h =>
      simp only [step]
      split_ifs
      · exact .code
      · exact .line (by simp)
    | block h =>
      simp only [step]
      split_ifs
      · exact .star
      · exact .block (by simp)
    | stuck h => exact .stuck (by simp)
    | quoted h hother hne =>
      rename_i other
      by_cases hend : c = other
      · simpa [step, quotedStep, Lexeme.afterText, hend] using Apart.code
      · simpa [step, quotedStep, Lexeme.afterText, hend, hbackslash] using
          Apart.quoted h hother hne

theorem apart_step {quote : Char} (hquote : isQuote quote = true) {inside next : QuotedMode}
    {c : Char} (hclosed : inside ≠ .closed) (hstep : quotedStep quote inside c = (next, none))
    {mode : Mode} (h : Apart quote inside mode) : Apart quote next (step mode c) := by
  by_cases hinside : inside = .body 0
  · subst hinside
    cases hstep
    exact apart_step_of_text hquote h
  · exact apart_step_of_escaped hinside hclosed hstep h

theorem astray_after_of_apart {quote : Char} (hquote : isQuote quote = true) {cs : List Char}
    {inside : QuotedMode} {mode : Mode} (h : Apart quote inside mode)
    (hext : quotedExtent quote inside none cs = (cs.length, none)) : Astray (after mode cs) := by
  -- `Apart` is kept from one character to the next until the string is closed
  induction cs generalizing inside mode with
  | nil =>
    by_cases hclosed : inside = .closed
    · subst hclosed
      cases h with
      | closed h => exact h
      | _ => contradiction
    · simp [quotedExtent, hclosed] at hext
  | cons c cs ih =>
    by_cases hclosed : inside = .closed
    · simp [quotedExtent, hclosed] at hext
    · rw [Lexeme.quotedExtent_cons hclosed] at hext
      rcases hstep : quotedStep quote inside c with ⟨next, fault⟩
      rw [hstep] at hext
      cases fault with
      | some fault =>
        simp [quotedExtent_some] at hext
      | none =>
        refine ih (apart_step hquote hclosed hstep h) ?_
        simpa [Prod.ext_iff] using hext

/-- A reader that is out of step in front of a string is so behind it as well. -/
theorem steady_of_isQuotedChars {lit : List Char} (h : Literal.isQuotedChars lit = true) :
    Steady lit := by
  cases lit with
  | nil => cases h
  | cons quote cs =>
    simp only [Literal.isQuotedChars, Bool.and_eq_true, decide_eq_true_eq] at h
    intro mode hmode
    rw [after_cons]
    refine astray_after_of_apart h.1 ?_ h.2
    have hquote : isQuote quote = true := h.1
    -- the quote closes the string of a reader that is inside one with the same quotes
    cases hmode with
    | line =>
      have hne : quote ≠ '\n' := by
        rintro rfl
        exact absurd hquote (by decide)
      simpa [step, hne] using Apart.line (by simp)
    | block =>
      have hne : quote ≠ '*' := by
        rintro rfl
        exact absurd hquote (by decide)
      simpa [step, hne] using Apart.block (by simp)
    | stuck => exact .stuck (by simp)
    | quoted hother =>
      rename_i other
      by_cases hne : other = quote
      · subst hne
        simpa [step, quotedStep, Lexeme.afterText] using Apart.code
      · have hbackslash : quote ≠ '\\' := by
          rintro rfl
          exact absurd hquote (by decide)
        simpa [step, quotedStep, Lexeme.afterText, Ne.symm hne, hbackslash] using
          Apart.quoted (by simp) hother hne

/-! ### Texts that are written -/

theorem isMild_of_isWord {cs : List Char} (h : Literal.isWord cs = true) :
    ∀ c ∈ cs, isMild c = true := by
  cases cs with
  | nil => cases h
  | cons c cs =>
    simp only [Literal.isWord, Bool.and_eq_true, List.all_eq_true] at h
    rw [List.forall_mem_cons]
    exact ⟨isMild_of_isWordPart (Lexeme.isWordPart_of_isWordStart h.1),
      fun d hd => isMild_of_isWordPart (h.2 d hd)⟩

theorem isMild_of_isNumeral {cs : List Char} (h : Literal.isNumeral cs = true) :
    ∀ c ∈ cs, isMild c = true := by
  have key : ∀ ds : List Char, Lexeme.numeralExtent ds = ds.length → ∀ c ∈ ds, isMild c = true := by
    intro ds hds
    have := isMild_take_numeral ds
    rwa [hds, List.take_length] at this
  rw [Literal.isNumeral_eq, Bool.and_eq_true, decide_eq_true_eq] at h
  have hbehind := key _ h.2
  unfold Literal.behindMinus at hbehind
  split at hbehind
  · rw [List.forall_mem_cons]
    exact ⟨rfl, hbehind⟩
  · exact hbehind

theorem isMild_of_isName {s : String} (h : Literal.isName s = true) :
    ∀ c ∈ s.toList, isMild c = true :=
  isMild_of_isWord (Literal.isWord_of_isName h)

theorem isMild_path {a : Attribute} (h : a.isPlain = true) :
    ∀ c ∈ a.path.toList, isMild c = true := by
  simp only [Attribute.isPlain, Bool.and_eq_true, List.all_eq_true] at h
  rw [toList_path, List.forall_mem_append]
  refine ⟨isMild_of_isName h.1, fun c hc => ?_⟩
  obtain ⟨p, hp, hc⟩ := List.mem_flatMap.mp hc
  rcases List.mem_cons.mp hc with rfl | hc
  · rfl
  · exact isMild_of_isName (h.2 p hp) c hc

theorem steady_escape (v : String) : Steady (Literal.escape v).toList := by
  rw [Literal.escape]
  split_ifs with h
  · simp only [Bool.or_eq_true] at h
    rcases h with (h | h) | h
    · exact steady_of_isQuotedChars h
    · exact steady_of_isMild (isMild_of_isNumeral h)
    · simp only [Literal.isPlainWord, Bool.and_eq_true] at h
      exact steady_of_isMild (isMild_of_isWord h.1)
  · exact steady_of_isQuotedChars (Literal.isQuotedChars_quote v)

theorem steady_valueOp (op : ValueOp) : Steady op.spelling.toList := by
  refine steady_of_all ?_
  cases op <;> decide

theorem steady_relOp (op : RelOp) : Steady op.spelling.toList := by
  refine steady_of_all ?_
  cases op <;> decide

theorem steady_entity {e : Entity} (h : e.isPlain = true) : Steady e.render.toList := by
  obtain ⟨nodeType, alias?⟩ := e
  simp only [Entity.isPlain, Bool.and_eq_true] at h
  have htype := steady_of_isMild (isMild_of_isName h.1)
  cases alias? with
  | none => exact htype
  | some name =>
    have := htype.spaced (steady_of_isMild (isMild_of_isName h.2))
    simpa [Entity.render] using this

theorem steady_value (op : ValueOp) (v : String) :
    Steady (op.spelling ++ " " ++ Literal.escape v).toList := by
  simpa using (steady_valueOp op).spaced (steady_escape v)

theorem steady_renderNested {e : Entity} {c : Condition} (he : e.isPlain = true)
    (hc : Steady c.render.toList) : Steady (e.renderNested c c.render).toList := by
  have hend : Steady " ;".toList := steady_of_all (by decide)
  have hwhere : Steady "where".toList := steady_of_all (by decide)
  rw [Entity.renderNested]
  split_ifs
  · simpa using (steady_entity he).append hend
  · have := (steady_entity he).spaced (hwhere.spaced (hc.append hend))
    simpa using this

theorem steady_intercalate {texts : List String} (h : ∀ text ∈ texts, Steady text.toList) :
    Steady (", ".intercalate texts).toList := by
  have hcomma : Steady ", ".toList := steady_of_all (by decide)
  induction texts with
  | nil => exact fun mode hmode => hmode
  | cons text texts ih =>
    rw [List.forall_mem_cons] at h
    cases texts with
    | nil => simpa using h.1
    | cons next texts =>
      rw [String.intercalate_cons_cons]
      simpa using h.1.append (hcomma.append (ih h.2))

/-- What is written for a condition made of names. -/
theorem steady_render {c : Condition} (h : c.IsPlain) : Steady c.render.toList := by
  have hnot : Steady "not(".toList := steady_of_all (by decide)
  have hclosing : Steady ")".toList := steady_of_all (by decide)
  -- along the text that is written; values are strings or mild
  induction c with
  | value m =>
    have := (steady_of_isMild (isMild_path h)).spaced (steady_value m.operator m.value)
    simpa [Condition.render, ValueMatch.render] using this
  | relation a op e c spans ih =>
    obtain ⟨ha, he, hc⟩ := h
    have := (steady_of_isMild (isMild_path ha)).spaced
      ((steady_relOp op).spaced (steady_renderNested he (ih hc)))
    simpa [Condition.render] using this
  | negation c ih =>
    simpa [Condition.render] using hnot.append ((ih h).append hclosing)
  | group k cs ih =>
    have hcs := Condition.allWellFormed_iff.mp h.2
    have hall : Steady (", ".intercalate (Condition.renderAll cs)).toList := by
      rw [Condition.renderAll_eq_map]
      refine steady_intercalate fun text htext => ?_
      obtain ⟨c, hc, rfl⟩ := List.mem_map.mp htext
      exact ih c hc (hcs c hc)
    have hword : Steady (k.spelling ++ "(").toList := by
      refine steady_of_all ?_
      cases k <;> decide
    simpa [Condition.render] using hword.append (hall.append hclosing)

/-! ### Texts that are cut nowhere -/

theorem isQuote_of_step {mode : Mode} {c quote : Char} {inside : QuotedMode}
    (h : ∀ other before, mode = .quoted other before → isQuote other = true)
    (hstep : step mode c = .quoted quote inside) : isQuote quote = true ∧ inside ≠ .closed := by
  cases mode with
  | code =>
    simp only [step] at hstep
    split_ifs at hstep with hslash hquote
    cases hstep
    exact ⟨isQuote_iff.mpr hquote, by simp⟩
  | quoted other before =>
    rw [step] at hstep
    split at hstep
    · cases hstep
    · cases hstep
    · rename_i hnext hq
      cases hstep
      exact ⟨h _ _ rfl, hnext⟩
  | stuck => cases hstep
  | _ =>
    simp only [step] at hstep
    split_ifs at hstep

/-- Only quotes begin strings. -/
theorem isQuote_of_after {cs : List Char} {quote : Char} {inside : QuotedMode}
    (h : after .code cs = .quoted quote inside) : isQuote quote = true ∧ inside ≠ .closed := by
  have key : ∀ other before, after .code cs = .quoted other before →
      isQuote other = true ∧ before ≠ .closed := by
    -- a string that was begun is carried on by every step but those that leave it
    refine List.foldlRecOn (motive := fun mode : Mode => ∀ other before,
      mode = .quoted other before → isQuote other = true ∧ before ≠ .closed) cs step ?_ ?_
    · intro other before h
      cases h
    · intro mode hmode c _ other before hstep
      exact isQuote_of_step (fun o b h => (hmode o b h).1) hstep
  exact key quote inside h

theorem astray_after_space {cs : List Char} (h : after .code cs ≠ .code) :
    Astray (after .code (cs ++ [' '])) := by
  rw [after_append, after_cons, after_nil]
  -- a slash, a star or a backslash that waits for its second character is done with
  cases hmode : after .code cs with
  | code => exact absurd hmode h
  | slash => exact .stuck
  | line => exact .line
  | block => exact .block
  | star => exact .block
  | stuck => exact .stuck
  | quoted quote inside =>
    obtain ⟨hquote, hclosed⟩ := isQuote_of_after hmode
    have hne : quote ≠ ' ' := by
      rintro rfl
      cases hquote
    match inside with
    | .escape => exact .stuck
    | .body 0 =>
      simpa [step, quotedStep, Lexeme.afterText, hne.symm] using Astray.quoted hquote
    | .body (owed + 1) => exact .stuck

/-- A text in front of a steady one stops between two lexemes if the whole does. -/
theorem after_eq_code_of_steady {as bs : List Char} (hb : Steady bs)
    (h : after .code (as ++ ' ' :: bs) = .code) : after .code as = .code := by
  by_contra ha
  have := hb _ (astray_after_space ha)
  rw [← after_append, List.append_assoc, List.singleton_append] at this
  exact this.ne_code h

theorem lexes_of_after {cs : List Char} (hcode : after .code cs = .code)
    (herr : ∀ message, .error message ∉ kinds cs) : Lexes cs (kinds cs) :=
  lexes_kinds herr ((after_eq_code_iff herr).mp hcode)

/-- A text in front of a steady one is cut nowhere, if the whole has no errors and leaves no
comment open. -/
theorem stops_of_steady {as bs : List Char} (hb : Steady bs)
    (herr : ∀ message, .error message ∉ kinds (as ++ ' ' :: bs))
    (hopen : hasOpenComment (as ++ ' ' :: bs) = false) :
    after .code as = .code ∧ ∀ message, .error message ∉ kinds as := by
  have hcode := after_eq_code_of_steady hb ((after_eq_code_iff herr).mpr hopen)
  exact ⟨hcode, error_not_mem_of_append (delimited_space bs) hcode herr⟩

end Scan

end NodeQuery
