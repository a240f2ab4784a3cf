/-
The lexemes of texts that are put together.

A query is written by putting texts together, and what stands in one of them may reach into
the next: a word may go on, a comment may hide what follows. A text without errors and
without a comment left open does not reach behind a delimiter.

* `kinds`: the kinds of the lexemes of a text.
* `hasOpenComment`: whether a text leaves a comment open.
* `Lexes`: the texts whose lexemes are the same whatever stands behind them.
* `lexes_kinds`: texts without errors and open comments are of this sort.
-/
import NodeQuery.Proofs.Lexeme
import NodeQuery.Token.Lexer

namespace NodeQuery

/-! ### Trivia in front of a delimiter -/

namespace Trivia

/-- What the characters behind a text of trivia are read as. -/
def modeAfter : Mode → List Char → Mode
  | .code, '/' :: '/' :: cs => modeAfter .lineComment cs
  | .code, '/' :: '*' :: cs => modeAfter .blockComment cs
  | .code, _ :: cs => modeAfter .code cs
  | .lineComment, '\n' :: cs => modeAfter .code cs
  | .lineComment, _ :: cs => modeAfter .lineComment cs
  | .blockComment, '*' :: '/' :: cs => modeAfter .code cs
  | .blockComment, _ :: cs => modeAfter .blockComment cs
  | mode, [] => mode

theorem extent_code_cons {c : Char} {cs : List Char}
    (h : c = '/' → cs.head? ≠ some '/' ∧ cs.head? ≠ some '*') :
    extent .code (c :: cs) = if Text.isBlank c then extent .code cs + 1 else 0 := by
  rw [extent]
  · rintro ds rfl rfl
    exact (h rfl).1 rfl
  · rintro ds rfl rfl
    exact (h rfl).2 rfl

theorem extent_line_cons {c : Char} {cs : List Char} (h : c ≠ '\n') :
    extent .lineComment (c :: cs) = extent .lineComment cs + 1 := by
  rw [extent]
  exact h

theorem extent_block_cons {c : Char} {cs : List Char} (h : c = '*' → cs.head? ≠ some '/') :
    extent .blockComment (c :: cs) = extent .blockComment cs + 1 := by
  rw [extent]
  rintro ds rfl rfl
  exact h rfl rfl

theorem extent_le (mode : Mode) (cs : List Char) : extent mode cs ≤ cs.length := by
  fun_induction extent mode cs <;> simp <;> omega

/-- Trivia that stops inside a text is not changed by a delimiter behind the text. -/
theorem extent_append_of_lt {rest : List Char} (hrest : Delimited rest) {mode : Mode}
    {cs : List Char} (h : extent mode cs < cs.length) :
    extent mode (cs ++ rest) = extent mode cs := by
  have hhead : ∀ {cs : List Char} {d : Char}, (d = '/' ∨ d = '*') →
      (cs ++ rest).head? = some d → cs.head? = some d := by
    intro cs d hd hcs
    cases cs with
    | nil => rcases hrest d hcs with rfl | rfl | rfl <;> simp at hd
    | cons c cs => exact hcs
  -- along the trivia: a delimiter neither begins a comment nor ends one
  fun_induction extent mode cs with
  | case1 cs ih =>
    simp only [List.cons_append, extent, List.length_cons] at h ⊢
    rw [ih (by omega)]
  | case2 cs ih =>
    simp only [List.cons_append, extent, List.length_cons] at h ⊢
    rw [ih (by omega)]
  | case3 c cs h1 h2 hc ih =>
    rw [List.cons_append, extent_code_cons, if_pos hc, ih (by simpa using h)]
    rintro rfl
    exact absurd hc (by decide)
  | case4 c cs h1 h2 hc =>
    rw [List.cons_append, extent_code_cons, if_neg hc]
    rintro rfl
    constructor
    · intro hcs
      obtain ⟨ds, rfl⟩ := List.head?_eq_some_iff.mp (hhead (.inl rfl) hcs)
      exact h1 ds rfl rfl
    · intro hcs
      obtain ⟨ds, rfl⟩ := List.head?_eq_some_iff.mp (hhead (.inr rfl) hcs)
      exact h2 ds rfl rfl
  | case5 cs ih =>
    simp only [List.cons_append, extent, List.length_cons] at h ⊢
    rw [ih (by omega)]
  | case6 c cs hc ih =>
    rw [List.cons_append, extent_line_cons hc, ih (by simpa using h)]
  | case7 cs ih =>
    simp only [List.cons_append, extent, List.length_cons] at h ⊢
    rw [ih (by omega)]
  | case8 c cs hc ih =>
    rw [List.cons_append, extent_block_cons, ih (by simpa using h)]
    rintro rfl hcs
    obtain ⟨ds, rfl⟩ := List.head?_eq_some_iff.mp (hhead (.inl rfl) hcs)
    exact hc ds rfl rfl
  | case9 mode => simp at h

/-- Trivia that fills its text goes on behind it, as long as no comment is closed by the last
character of the text together with the one behind it. -/
theorem extent_append_of_eq {rest : List Char} {mode : Mode} {cs : List Char}
    (h : extent mode cs = cs.length)
    (hrest : modeAfter mode cs = .code ∨ rest.head? ≠ some '/') :
    extent mode (cs ++ rest) = cs.length + extent (modeAfter mode cs) rest := by
  -- the trivia fills its text, so every case goes on until the text is used up
  fun_induction extent mode cs with
  | case1 cs ih =>
    simp only [List.cons_append, extent, modeAfter, List.length_cons] at h hrest ⊢
    rw [ih (by omega) hrest]
    omega
  | case2 cs ih =>
    simp only [List.cons_append, extent, modeAfter, List.length_cons] at h hrest ⊢
    rw [ih (by omega) hrest]
    omega
  | case3 c cs h1 h2 hc ih =>
    have hmode : modeAfter .code (c :: cs) = modeAfter .code cs := by
      rw [modeAfter]
      · exact h1
      · exact h2
    rw [hmode] at hrest ⊢
    rw [List.cons_append, extent_code_cons, if_pos hc, ih (by simpa using h) hrest,
      List.length_cons]
    · omega
    · rintro rfl
      exact absurd hc (by decide)
  | case4 c cs h1 h2 hc => simp at h
  | case5 cs ih =>
    simp only [List.cons_append, extent, modeAfter, List.length_cons] at h hrest ⊢
    rw [ih (by omega) hrest]
    omega
  | case6 c cs hc ih =>
    have hmode : modeAfter .lineComment (c :: cs) = modeAfter .lineComment cs := by
      rw [modeAfter]
      exact hc
    rw [hmode] at hrest ⊢
    rw [List.cons_append, extent_line_cons hc, ih (by simpa using h) hrest, List.length_cons]
    omega
  | case7 cs ih =>
    simp only [List.cons_append, extent, modeAfter, List.length_cons] at h hrest ⊢
    rw [ih (by omega) hrest]
    omega
  | case8 c cs hc ih =>
    have hmode : modeAfter .blockComment (c :: cs) = modeAfter .blockComment cs := by
      rw [modeAfter]
      exact hc
    rw [hmode] at hrest ⊢
    rw [List.cons_append, extent_block_cons, ih (by simpa using h) hrest, List.length_cons]
    · omega
    · rintro rfl hhead
      cases cs with
      | nil =>
        -- a star at the end, which only a slash in `rest` would make the end of the comment
        rcases hrest with hmode | hslash
        · cases hmode
        · exact hslash hhead
      | cons d ds =>
        rw [List.cons_append, List.head?_cons, Option.some.injEq] at hhead
        subst hhead
        exact hc ds rfl rfl
  | case9 mode => simp [modeAfter]

end Trivia

/-! ### The kinds of the lexemes of a text -/

/-- The kind of the lexeme that a piece is, if it is one. -/
def Piece.kind? : Piece → Option Token.Kind
  | trivia _ => none
  | lexeme kind _ => some kind

/-- Whether a piece ends with a comment that is not closed. -/
def Piece.isOpenComment : Piece → Bool
  | trivia text => Trivia.modeAfter .code text ≠ .code
  | lexeme _ _ => false

/-- The kinds of the lexemes of a text, from left to right. -/
def kinds (cs : List Char) : List Token.Kind :=
  (pieces cs).filterMap Piece.kind?

/-- Whether a text has a comment that is not closed in it. -/
def hasOpenComment (cs : List Char) : Bool :=
  (pieces cs).any Piece.isOpenComment

@[simp] theorem kinds_nil : kinds [] = [] := by
  simp [kinds, pieces]

theorem kinds_of_trivia {c : Char} {cs : List Char} {n : Nat}
    (h : Trivia.extent .code (c :: cs) = n + 1) : kinds (c :: cs) = kinds (cs.drop n) := by
  rw [kinds, pieces, h]
  rfl

theorem kinds_of_lexeme {c : Char} {cs : List Char} (h : Trivia.extent .code (c :: cs) = 0) :
    kinds (c :: cs) = (Lexeme.read c cs).1 :: kinds (cs.drop (Lexeme.read c cs).2) := by
  rw [kinds, pieces, h]
  rfl

/-- Trivia in front of a text has no lexeme. -/
theorem kinds_drop_extent (cs : List Char) :
    kinds (cs.drop (Trivia.extent .code cs)) = kinds cs := by
  cases cs with
  | nil => rfl
  | cons c cs =>
    cases h : Trivia.extent .code (c :: cs) with
    | zero => rfl
    | succ n => rw [List.drop_succ_cons, kinds_of_trivia h]

/-- A text of which the lexemes are `ks`, whatever comes behind it after a delimiter. -/
def Lexes (cs : List Char) (ks : List Token.Kind) : Prop :=
  ∀ rest, Delimited rest → kinds (cs ++ rest) = ks ++ kinds rest

/-- A text without errors and open comments does not get mixed up with what follows it. -/
theorem lexes_kinds {cs : List Char} (herr : ∀ message, .error message ∉ kinds cs)
    (hopen : hasOpenComment cs = false) : Lexes cs (kinds cs) := by
  intro rest hrest
  -- piece by piece: only the last piece touches what stands behind the text
  induction cs using pieces.induct with
  | case1 => simp
  | case2 c cs n h ih =>
    have hn : n ≤ cs.length := by
      have := Trivia.extent_le .code (c :: cs)
      rw [h, List.length_cons] at this
      omega
    rw [hasOpenComment, pieces, h] at hopen
    simp only [List.any_cons, Bool.or_eq_false_iff] at hopen
    rw [kinds_of_trivia h] at herr ⊢
    rcases Nat.lt_or_eq_of_le hn with hlt | rfl
    · -- the trivia stops inside the text
      have hext : Trivia.extent .code (c :: (cs ++ rest)) = n + 1 := by
        rw [← List.cons_append, Trivia.extent_append_of_lt hrest _, h]
        rw [h, List.length_cons]
        omega
      rw [List.cons_append, kinds_of_trivia hext, List.drop_append_of_le_length hn]
      exact ih herr hopen.2
    · -- the text is nothing but trivia, and goes on in that of `rest`
      have hmode : Trivia.modeAfter .code (c :: cs) = .code := by
        have := hopen.1
        simpa [Piece.isOpenComment] using this
      have hext : Trivia.extent .code (c :: cs ++ rest)
          = (c :: cs).length + Trivia.extent .code rest := by
        rw [Trivia.extent_append_of_eq (by rw [h, List.length_cons]) (.inl hmode), hmode]
      have hdrop : (c :: cs ++ rest).drop ((c :: cs).length + Trivia.extent .code rest)
          = rest.drop (Trivia.extent .code rest) := by
        rw [← List.drop_drop, List.drop_left]
      rw [← kinds_drop_extent (c :: cs ++ rest), hext, hdrop, kinds_drop_extent, List.drop_length]
      simp
  | case3 c cs h kind n hread ih =>
    -- a lexeme that is no error is not changed by a delimiter
    have hext : Trivia.extent .code (c :: (cs ++ rest)) = 0 := by
      rw [← List.cons_append, Trivia.extent_append_of_lt hrest _, h]
      rw [h, List.length_cons]
      omega
    have hn : n ≤ cs.length := by
      have := Lexeme.read_le c cs
      rwa [hread] at this
    rw [hasOpenComment, pieces, h] at hopen
    simp only [hread, List.any_cons, Bool.or_eq_false_iff] at hopen
    rw [kinds_of_lexeme h] at herr ⊢
    simp only [hread] at herr ⊢
    have hkind : ∀ message, (Lexeme.read c cs).1 ≠ .error message := by
      intro message hm
      rw [hread] at hm
      exact herr message (by simp [← hm])
    rw [List.cons_append, kinds_of_lexeme hext, Lexeme.read_append hrest.apart hkind, hread]
    simp only [List.drop_append_of_le_length hn, List.cons_append]
    rw [ih (fun message hm => herr message (List.mem_cons_of_mem _ hm)) hopen.2]

/-! ### Putting texts together -/

theorem Lexes.kinds_eq {cs : List Char} {ks : List Token.Kind} (h : Lexes cs ks) :
    kinds cs = ks := by
  have := h [] (by simp [Delimited])
  simpa using this

@[simp] theorem kinds_space (cs : List Char) : kinds (' ' :: cs) = kinds cs := by
  have h : Trivia.extent .code (' ' :: cs) = Trivia.extent .code cs + 1 := by
    rw [Trivia.extent_code_cons (by simp)]
    rfl
  rw [kinds_of_trivia h, kinds_drop_extent]

/-- The first lexeme of a text that begins with neither a blank nor a slash. -/
theorem kinds_cons {c : Char} {cs : List Char} (hblank : Text.isBlank c = false)
    (hslash : c ≠ '/') :
    kinds (c :: cs) = (Lexeme.read c cs).1 :: kinds (cs.drop (Lexeme.read c cs).2) := by
  refine kinds_of_lexeme ?_
  rw [Trivia.extent_code_cons fun h => absurd h hslash, hblank]
  rfl

@[simp] theorem kinds_opening (cs : List Char) : kinds ('(' :: cs) = .opening :: kinds cs := by
  rw [kinds_cons (by decide) (by decide)]
  rfl

@[simp] theorem kinds_closing (cs : List Char) : kinds (')' :: cs) = .closing :: kinds cs := by
  rw [kinds_cons (by decide) (by decide)]
  rfl

@[simp] theorem kinds_comma (cs : List Char) : kinds (',' :: cs) = .comma :: kinds cs := by
  rw [kinds_cons (by decide) (by decide)]
  rfl

@[simp] theorem kinds_dot (cs : List Char) : kinds ('.' :: cs) = .dot :: kinds cs := by
  rw [kinds_cons (by decide) (by decide)]
  rfl

@[simp] theorem kinds_semicolon (cs : List Char) :
    kinds (';' :: cs) = .semicolon :: kinds cs := by
  rw [kinds_cons (by decide) (by decide)]
  rfl

theorem delimited_space (cs : List Char) : Delimited (' ' :: cs) := by
  simp [Delimited]

theorem delimited_comma (cs : List Char) : Delimited (',' :: cs) := by
  simp [Delimited]

theorem delimited_closing (cs : List Char) : Delimited (')' :: cs) := by
  simp [Delimited]

/-- A text that is one lexeme, and no error. -/
theorem Lexes.of_read {c : Char} {cs : List Char} {kind : Token.Kind}
    (hblank : Text.isBlank c = false) (hslash : c ≠ '/')
    (hread : Lexeme.read c cs = (kind, cs.length)) (hkind : ∀ message, kind ≠ .error message) :
    Lexes (c :: cs) [kind] := by
  intro rest hrest
  rw [List.cons_append, kinds_cons hblank hslash,
    Lexeme.read_append hrest.apart (by rw [hread]; exact hkind), hread, List.drop_left]
  rfl

namespace Lexes

variable {as bs : List Char} {ks ls : List Token.Kind}

/-- Two texts with a blank between them. -/
theorem spaced (ha : Lexes as ks) (hb : Lexes bs ls) : Lexes (as ++ ' ' :: bs) (ks ++ ls) := by
  intro rest hrest
  rw [List.append_assoc, List.cons_append, ha _ (delimited_space _), kinds_space, hb rest hrest,
    List.append_assoc]

/-- Two texts with a comma and a blank between them. -/
theorem listed (ha : Lexes as ks) (hb : Lexes bs ls) :
    Lexes (as ++ ',' :: ' ' :: bs) (ks ++ .comma :: ls) := by
  intro rest hrest
  rw [List.append_assoc, List.cons_append, List.cons_append, ha _ (delimited_comma _),
    kinds_comma, kinds_space, hb rest hrest, List.append_assoc, List.cons_append]

/-- A text with a semicolon behind it. -/
theorem ended (ha : Lexes as ks) : Lexes (as ++ [' ', ';']) (ks ++ [.semicolon]) := by
  intro rest _
  rw [List.append_assoc, List.cons_append, List.cons_append, List.nil_append,
    ha _ (delimited_space _), kinds_space, kinds_semicolon, List.append_assoc]
  rfl

end Lexes

/-- The end of the input is no lexeme of a text. -/
theorem endOfInput_not_mem_kinds (cs : List Char) : .endOfInput ∉ kinds cs := by
  induction cs using pieces.induct with
  | case1 => simp
  | case2 c cs n h ih =>
    rw [kinds_of_trivia h]
    exact ih
  | case3 c cs h kind n hread ih =>
    rw [kinds_of_lexeme h, List.mem_cons, not_or]
    refine ⟨(Lexeme.read_ne_endOfInput c cs).symm, ?_⟩
    rw [hread]
    exact ih

end NodeQuery
