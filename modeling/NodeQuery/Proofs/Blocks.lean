/-
The blocks of a text that is a list of items.

A text without headers and blank lines is cut into blocks at its items. Of a field that occurs twice
in a block only the first text counts, so a block that goes on into the next constraint loses it. A
new block is begun just where an item names the type or the path again. The lines stay as they are
and stay in order, and all of them are in some block.

* `blankLines`, `firstMatch?_blankLine_eq_none_iff`: blank lines between blocks.
* `itemStarts`, `isItemStart_iff`: items; `IsItem.fieldOn?_eq`: the fields that they name.
* `Repeats`: items that name a field again.
* `IsCutAtRepeats`: lines that are cut just at these.
* `isCutAtRepeats_itemBlocks`: the loop over the lines, with a part of a block in hand.
* `blocks_isCutAtRepeats`: the blocks of a text.
-/
import NodeQuery.Proofs.FieldTexts

namespace NodeQuery

/-! ### Blank lines -/

/-- Two line feeds with nothing but blanks between them. -/
def blankLines : Language Char :=
  {['\n']} * (Text.many Text.isBlank * {['\n']})

theorem mem_blankLines {m : List Char} :
    m ∈ blankLines ↔ ∃ g ∈ Text.many Text.isBlank, m = '\n' :: (g ++ ['\n']) := by
  simp only [blankLines, Language.mem_mul]
  constructor
  · rintro ⟨_, rfl, _, ⟨g, hg, _, rfl, rfl⟩, rfl⟩
    exact ⟨g, hg, rfl⟩
  · rintro ⟨g, hg, rfl⟩
    exact ⟨['\n'], rfl, g ++ ['\n'], ⟨g, hg, ['\n'], rfl, rfl⟩, rfl⟩

theorem blankLine_eq_none_iff {cs : List Char} :
    blankLine cs = none ↔ ∀ m ∈ blankLines, ¬ m <+: cs := by
  have hbreak (cs : List Char) :
      blankLine ('\n' :: cs) = none ↔ '\n' ∉ cs.takeWhile Text.isBlank := by
    simp [blankLine]
  constructor
  · rintro hnone m hm ⟨rest, rfl⟩
    obtain ⟨g, hg, rfl⟩ := mem_blankLines.mp hm
    have hall : ∀ c ∈ g ++ ['\n'], Text.isBlank c = true :=
      List.forall_mem_append.mpr ⟨hg, List.forall_mem_singleton.mpr (by decide)⟩
    rw [List.cons_append, hbreak, List.takeWhile_append_of_pos hall] at hnone
    simp at hnone
  · intro hfree
    cases cs with
    | nil => rfl
    | cons c cs =>
      by_cases hc : c = '\n'
      · subst hc
        rw [hbreak]
        intro hmem
        -- the run of blanks goes on to a line feed at least
        obtain ⟨g, g', hrun⟩ := List.append_of_mem hmem
        refine hfree _ (mem_blankLines.mpr ⟨g, fun d hd => ?_, rfl⟩)
          ⟨g' ++ cs.dropWhile Text.isBlank, ?_⟩
        · exact List.mem_takeWhile_imp (show d ∈ cs.takeWhile Text.isBlank by simp [hrun, hd])
        · conv_rhs => rw [← @List.takeWhile_append_dropWhile _ Text.isBlank cs, hrun]
          simp
      · simp [blankLine, hc]

theorem firstMatch?_blankLine_eq_none_iff {cs : List Char} :
    Text.firstMatch? blankLine cs = none ↔ ∀ m ∈ blankLines, ¬ m <:+: cs :=
  Text.firstMatch?_eq_none_iff_infix blankLine_eq_none_iff

/-! ### Items -/

/-- The field that a line names. -/
def fieldOn? (line : List Char) : Option Field :=
  (fieldLine? line).map Prod.fst

/-- Perhaps blanks, a dash, the name of a field and a mark, perhaps with blanks in between. -/
def itemStarts (f : Field) (mark : Char) : Language Char :=
  Text.many Text.isBlank * ({['-']} * (Text.many Text.isBlank
    * (Text.spelled f.words * (Text.many Text.isBlank * {[mark]}))))

/-- The line is an item of a list that has the type or the path, with a mark behind the name. -/
def IsItem (f : Field) (mark : Char) (line : List Char) : Prop :=
  f ∈ [Field.type, .path] ∧ mark ∈ [':', '|', '-'] ∧ ∃ m ∈ itemStarts f mark, m <+: line

theorem mem_itemStarts {f : Field} {mark : Char} {m : List Char} :
    m ∈ itemStarts f mark ↔ ∃ g₁ ∈ Text.many Text.isBlank, ∃ g₂ ∈ Text.many Text.isBlank,
      ∃ name ∈ Text.spelled f.words, ∃ g₃ ∈ Text.many Text.isBlank,
        m = g₁ ++ '-' :: (g₂ ++ (name ++ (g₃ ++ [mark]))) := by
  simp only [itemStarts, Language.mem_mul]
  constructor
  · rintro ⟨g₁, h₁, _, ⟨_, rfl, _, ⟨g₂, h₂, _, ⟨name, hname, _, ⟨g₃, h₃, _, rfl, rfl⟩, rfl⟩,
      rfl⟩, rfl⟩, rfl⟩
    exact ⟨g₁, h₁, g₂, h₂, name, hname, g₃, h₃, rfl⟩
  · rintro ⟨g₁, h₁, g₂, h₂, name, hname, g₃, h₃, rfl⟩
    exact ⟨g₁, h₁, _, ⟨['-'], rfl, _, ⟨g₂, h₂, _, ⟨name, hname, _, ⟨g₃, h₃, [mark], rfl, rfl⟩, rfl⟩,
      rfl⟩, rfl⟩, rfl⟩

namespace Field

variable {f : Field} {fields more : List Field} {cs name rest : List Char}

theorem nameIn?_append (h : nameIn? fields cs = some (name, rest)) :
    nameIn? (fields ++ more) cs = some (name, rest) := by
  rw [nameIn?, Option.map_eq_some_iff] at h ⊢
  obtain ⟨behind, hbehind, hname⟩ := h
  exact ⟨behind, by rw [List.findSome?_append, hbehind, Option.some_or], hname⟩

/-- What is found in front of a text is one of the names, however it is written. -/
theorem exists_spelled_of_nameIn? (h : nameIn? fields cs = some (name, rest)) :
    ∃ f ∈ fields, name ∈ Text.spelled f.words ∧ cs = name ++ rest := by
  rw [nameIn?, Option.map_eq_some_iff] at h
  obtain ⟨behind, hbehind, hname⟩ := h
  obtain ⟨f, hf, hwords⟩ := List.exists_of_findSome?_eq_some hbehind
  obtain ⟨m, hm, rfl⟩ := (Text.recognizes_words f.words_begin cs behind).mp hwords
  simp only [List.length_append, Nat.add_sub_cancel, List.take_left, Prod.mk.injEq] at hname
  obtain ⟨rfl, rfl⟩ := hname
  exact ⟨f, hf, hm, rfl⟩

/-- The name of the type or of the path is found in front of a text, however it is written. -/
theorem nameIn?_of_mem_spelled (hf : f ∈ [type, path]) (h : name ∈ Text.spelled f.words)
    (rest : List Char) : nameIn? [type, path] (name ++ rest) = some (name, rest) := by
  have hwords : Text.words f.words (name ++ rest) = some rest :=
    (Text.recognizes_words f.words_begin).eq_some h rest
  rcases List.mem_pair.mp hf with rfl | rfl
  · simp [nameIn?, hwords]
  · -- no name of the type begins with the first letter of one of the path
    have hother : Text.words type.words (name ++ rest) = none := by
      rw [(Text.recognizes_words type.words_begin).eq_none_iff]
      intro m hm hprefix
      obtain ⟨c, m, rfl, hc, -⟩ := List.map_eq_cons_iff.mp (Text.mem_caseless.mp hm)
      obtain ⟨d, name, rfl, hd, -⟩ := List.map_eq_cons_iff.mp (Text.mem_caseless.mp h)
      obtain ⟨rfl, -⟩ := List.cons_prefix_cons.mp hprefix
      exact absurd (hc.symm.trans hd) (by decide)
    simp [nameIn?, hother, hwords]

/-- The name of the type or of the path is read as such, however it is written. -/
theorem ofName_of_mem_spelled (hf : f ∈ [type, path]) (h : name ∈ Text.spelled f.words) :
    ofName name = f := by
  -- the characters outside ASCII that count as letters are none of these
  have hlower : ∀ w : List Char, 's' ∉ w → 'k' ∉ w → name ∈ Text.caseless w →
      Text.lowerAll name = w := by
    rintro w hs hk rfl
    refine List.map_congr_left fun c hc => ?_
    have hfold := List.mem_map_of_mem (f := Text.foldCase) hc
    rw [Text.foldCase] at hfold ⊢
    split_ifs at hfold ⊢
    · exact absurd hfold hs
    · exact absurd hfold hk
    · rfl
  rcases List.mem_pair.mp hf with rfl | rfl
  · rw [ofName, hlower _ (by decide) (by decide) h]
    decide
  · rw [ofName, hlower _ (by decide) (by decide) h]
    decide

end Field

section Marks

variable {line : List Char} {f : Field} {mark : Char}

/-- What stands in a line behind its dash, and behind the name that follows it. -/
theorem IsItem.exists_eq (h : IsItem f mark line) : ∃ cs name g text,
    line.dropWhile Text.isBlank = '-' :: cs ∧ name ∈ Text.spelled f.words
      ∧ cs.dropWhile Text.isBlank = name ++ (g ++ mark :: text)
      ∧ (g ++ mark :: text).dropWhile Text.isBlank = mark :: text := by
  obtain ⟨hf, hmark, m, hm, rest, rfl⟩ := h
  obtain ⟨g₁, h₁, g₂, h₂, name, hname, g₃, h₃, rfl⟩ := mem_itemStarts.mp hm
  have hbegins : Text.BeginsOutside Text.isBlank (Text.spelled f.words) := by
    rcases List.mem_pair.mp hf with rfl | rfl
    · exact Text.beginsOutside_spelled (by decide)
    · exact Text.beginsOutside_spelled (by decide)
  have hblank : Text.isBlank mark = false := by
    simp only [List.mem_cons, List.not_mem_nil, or_false] at hmark
    rcases hmark with rfl | rfl | rfl <;> decide
  refine ⟨g₂ ++ (name ++ (g₃ ++ mark :: rest)), name, g₃, rest, ?_, hname,
    hbegins.dropWhile_append hname h₂ _, ?_⟩
  · rw [List.append_assoc, List.dropWhile_append_of_pos h₁, List.cons_append,
      List.dropWhile_cons_of_neg (by decide)]
    simp
  · rw [List.dropWhile_append_of_pos h₃, List.dropWhile_cons_of_neg (by simp [hblank])]

/-- With a bar behind the name an item names no field, and so it is a part of the text of the field
in front of it. -/
theorem IsItem.fieldOn?_eq (h : IsItem f mark line) :
    fieldOn? line = if mark = '|' then none else some f := by
  obtain ⟨cs, name, g, text, hdash, hname, hcs, hmark⟩ := h.exists_eq
  have hwithout : withoutDash line = name ++ (g ++ mark :: text) := by
    rw [withoutDash, hdash]
    exact hcs
  have hall : Field.nameIn? Field.all (name ++ (g ++ mark :: text))
      = some (name, g ++ mark :: text) :=
    Field.nameIn?_append (Field.nameIn?_of_mem_spelled h.1 hname _)
  have hofName := Field.ofName_of_mem_spelled h.1 hname
  simp only [fieldOn?, fieldLine?, hwithout, hall, hmark, Option.bind_eq_bind, Option.bind_some,
    Text.oneOf]
  have hmarks := h.2.1
  simp only [List.mem_cons, List.not_mem_nil, or_false] at hmarks
  rcases hmarks with rfl | rfl | rfl
  · simp [hofName]
  · simp
  · simp [hofName]

theorem isItemStart_iff : isItemStart line = true ↔ ∃ f mark, IsItem f mark line := by
  constructor
  · intro h
    unfold isItemStart at h
    split at h
    · rename_i cs hdash
      obtain ⟨text, htext⟩ := Option.isSome_iff_exists.mp h
      obtain ⟨⟨name, rest⟩, hitem, honeOf⟩ := Option.bind_eq_some_iff.mp htext
      obtain ⟨mark, hmark, hrest⟩ := Text.exists_of_oneOf honeOf
      obtain ⟨f, hf, hname, hcs⟩ := Field.exists_spelled_of_nameIn? hitem
      -- each part stands behind the blanks in front of it
      have hcut (cs : List Char) :
          ∃ g ∈ Text.many Text.isBlank, cs = g ++ cs.dropWhile Text.isBlank :=
        ⟨cs.takeWhile Text.isBlank, fun _ => List.mem_takeWhile_imp,
          List.takeWhile_append_dropWhile.symm⟩
      obtain ⟨g₁, h₁, hline⟩ := hcut line
      obtain ⟨g₂, h₂, hname'⟩ := hcut cs
      obtain ⟨g₃, h₃, hmark'⟩ := hcut rest
      refine ⟨f, mark, hf, by simpa [or_assoc] using hmark, _,
        mem_itemStarts.mpr ⟨g₁, h₁, g₂, h₂, name, hname, g₃, h₃, rfl⟩, text, ?_⟩
      rw [hline, hdash, hname', hcs, hmark', hrest]
      simp
    · cases h
  · rintro ⟨f, mark, h⟩
    obtain ⟨cs, name, g, text, hdash, hname, hcs, hmark⟩ := h.exists_eq
    have honeOf : (mark = ':' || mark = '|' || mark = '-') = true := by
      simpa [or_assoc] using h.2.1
    unfold isItemStart
    rw [hdash]
    simp only [hcs, Field.nameIn?_of_mem_spelled h.1 hname, hmark, Option.bind_some, Text.oneOf,
      honeOf, if_true, Option.isSome_some]

end Marks

/-! ### Lines that are cut at items -/

/-- The second of two lines is an item of a list, for the type or the path, and names the field
that the first one names. -/
def Repeats (earlier line : List Char) : Prop :=
  isItemStart line = true ∧ ∃ f, fieldOn? line = some f ∧ fieldOn? earlier = some f

/-- The runs are the lines, cut wherever a line repeats one in the same run and nowhere else. -/
structure IsCutAtRepeats (lines : List (List Char)) (runs : List (List (List Char))) : Prop where
  flatten : runs.flatten = lines
  ne_nil : ∀ run ∈ runs, run ≠ []
  single : ∀ run ∈ runs, run.Pairwise fun earlier line => ¬ Repeats earlier line
  chain : runs.IsChain fun run next => ∃ line ∈ next.head?, ∃ earlier ∈ run, Repeats earlier line

section Items

variable {lines run next : List (List Char)} {runs : List (List (List Char))}

theorem IsCutAtRepeats.cons (h : IsCutAtRepeats lines (next :: runs)) (hne : run ≠ [])
    (hsingle : run.Pairwise fun earlier line => ¬ Repeats earlier line)
    (hrepeats : ∃ line ∈ next.head?, ∃ earlier ∈ run, Repeats earlier line) :
    IsCutAtRepeats (run ++ lines) (run :: next :: runs) where
  flatten := by rw [List.flatten_cons, h.flatten]
  ne_nil := List.forall_mem_cons.mpr ⟨hne, h.ne_nil⟩
  single := List.forall_mem_cons.mpr ⟨hsingle, h.single⟩
  chain := List.isChain_cons_cons.mpr ⟨hrepeats, h.chain⟩

/-- A line is put to the block in hand, unless it is an item that names one of its fields. -/
theorem itemBlocks_cons (seen : List Field) (line : List Char) (rest : List (List Char)) :
    itemBlocks seen (line :: rest)
      = if isItemStart line = true ∧ ∃ f ∈ seen, fieldOn? line = some f then
          let r := itemBlocks (fieldOn? line).toList rest
          ([], (line :: r.1) :: r.2)
        else
          let r := itemBlocks ((fieldOn? line).toList ++ seen) rest
          (line :: r.1, r.2) := by
  rw [itemBlocks]
  cases h : fieldLine? line with
  | none => simp [fieldOn?, h]
  | some x => simp [fieldOn?, h]

/-- What the loop makes of the lines behind those in hand, if it has seen the fields that these
name. -/
theorem isCutAtRepeats_itemBlocks {seen : List Field} {past : List (List Char)}
    (hseen : ∀ f, f ∈ seen ↔ ∃ line ∈ past, fieldOn? line = some f) (hne : past ≠ [])
    (hpast : past.Pairwise fun earlier line => ¬ Repeats earlier line) :
    IsCutAtRepeats (past ++ lines)
      ((past ++ (itemBlocks seen lines).1) :: (itemBlocks seen lines).2) := by
  induction lines generalizing seen past with
  | nil =>
    simp only [itemBlocks, List.append_nil]
    exact ⟨by simp, by simpa using hne, by simpa using hpast, .singleton _⟩
  | cons line rest ih =>
    rw [itemBlocks_cons]
    split_ifs with hcut
    · -- the line begins a block of its own
      obtain ⟨hitem, f, hmem, hf⟩ := hcut
      obtain ⟨earlier, hearlier, hfield⟩ := (hseen f).mp hmem
      have hrest := @ih (fieldOn? line).toList [line] (by simp [eq_comm]) (List.cons_ne_nil _ _)
        (List.pairwise_singleton _ _)
      rw [List.append_nil]
      exact hrest.cons hne hpast ⟨line, rfl, earlier, hearlier, hitem, f, hf, hfield⟩
    · -- the line goes on with the block in hand
      have hgoeson : ∀ earlier ∈ past, ¬ Repeats earlier line := by
        rintro earlier hearlier ⟨hitem, f, hf, hfield⟩
        exact hcut ⟨hitem, f, (hseen f).mpr ⟨earlier, hearlier, hfield⟩, hf⟩
      have hrest := @ih ((fieldOn? line).toList ++ seen) (past ++ [line]) ?_ (by simp) ?_
      · simpa using hrest
      · intro f
        simp [hseen, or_comm, or_and_right, exists_or]
      · exact List.pairwise_append.mpr ⟨hpast, List.pairwise_singleton _ _, by simpa using hgoeson⟩

theorem exists_blocksByItem_eq (text : List Char) : ∃ runs,
    blocksByItem text = runs.map Text.joinLines ∧ IsCutAtRepeats (Text.lines text) runs := by
  cases h : Text.lines text with
  | nil => exact ⟨[], by simp [blocksByItem, h, itemBlocks], rfl, by simp, by simp, .nil⟩
  | cons line rest =>
    -- no field has been seen in front of the first line
    have hfirst := itemBlocks_cons [] line rest
    have hcut := @isCutAtRepeats_itemBlocks rest (fieldOn? line).toList [line] (by simp [eq_comm])
      (List.cons_ne_nil _ _) (List.pairwise_singleton _ _)
    exact ⟨_, by simp [blocksByItem, h, hfirst], hcut⟩

end Items

/-! ### Lines and their texts -/

namespace Text

/-- A line feed ends a line, and is no part of it. -/
theorem not_mem_of_mem_lines {cs line : List Char} (h : line ∈ lines cs) : '\n' ∉ line := by
  have hpieces : ∀ piece ∈ segments '\n' cs, '\n' ∉ piece := fun _ => not_mem_of_mem_segments
  rw [lines] at h
  generalize segments '\n' cs = pieces at h hpieces
  fun_induction linesOfPieces pieces with
  | case1 => cases h
  | case2 last => cases h
  | case3 last =>
    rw [List.mem_singleton.mp h]
    exact hpieces last (List.mem_singleton_self last)
  | case4 piece rest hrest ih =>
    rw [List.forall_mem_cons] at hpieces
    rcases List.mem_cons.mp h with rfl | h
    · rw [dropReturn]
      split_ifs
      · exact fun hmem => hpieces.1 (List.mem_of_mem_dropLast hmem)
      · exact hpieces.1
    · exact ih h hpieces.2

theorem joinLines_cons (line : List Char) {more : List (List Char)} (h : more ≠ []) :
    joinLines (line :: more) = line ++ '\n' :: joinLines more := by
  rw [joinLines, List.intercalate_cons_of_ne_nil h, List.append_assoc]
  rfl

theorem joinLines_append {run more : List (List Char)} (hrun : run ≠ []) (hmore : more ≠ []) :
    joinLines (run ++ more) = joinLines run ++ '\n' :: joinLines more := by
  induction run with
  | nil => exact absurd rfl hrun
  | cons line run ih =>
    by_cases hnil : run = []
    · subst hnil
      rw [List.singleton_append, joinLines_cons line hmore]
      simp [joinLines]
    · rw [List.cons_append, joinLines_cons line (by simp [hnil]), joinLines_cons line hnil, ih hnil,
        List.append_assoc, List.cons_append]

/-- Lines that are joined run by run, and then the runs, are joined. -/
theorem joinLines_map_joinLines {runs : List (List (List Char))} (h : ∀ run ∈ runs, run ≠ []) :
    joinLines (runs.map joinLines) = joinLines runs.flatten := by
  induction runs with
  | nil => rfl
  | cons run runs ih =>
    rw [List.forall_mem_cons] at h
    by_cases hnil : runs = []
    · subst hnil
      simp [joinLines]
    · have hflatten : runs.flatten ≠ [] := by
        obtain ⟨next, more, rfl⟩ := List.exists_cons_of_ne_nil hnil
        simp [h.2 next (List.mem_cons_self ..)]
      rw [List.map_cons, joinLines_cons _ (by simpa using hnil), ih h.2, List.flatten_cons,
        joinLines_append h.1 hflatten]

end Text

/-! ### The blocks of a text -/

/-- A text without headers and blank lines is cut into blocks where an item names the type or the
path again: the lines of its blocks are its lines, in a block no item names a field that a line in
front of it names, and each block but the first begins with an item that names a field which the
block in front of it has. The items are the lines that begin with a dash, the name of the type or
the path, and a mark; such a line names the field, but with a bar for the mark it names none. -/
theorem blocks_isCutAtRepeats {body : List Char} (hheader : ∀ m ∈ headers, ¬ m <:+: body)
    (hblank : ∀ m ∈ blankLines, ¬ m <:+: body) :
    IsCutAtRepeats (Text.lines body) ((blocks body).map (Text.segments '\n'))
      ∧ Text.joinLines (blocks body) = Text.joinLines (Text.lines body)
      ∧ ∀ line ∈ Text.lines body, (isItemStart line = true ↔ ∃ f mark, IsItem f mark line)
        ∧ ∀ f mark, IsItem f mark line →
          fieldOn? line = if mark = '|' then none else some f := by
  have hblocks : blocks body = blocksByItem body := by
    have hheader := recognizes_header.firstMatch?_eq_none_iff.mpr hheader
    have hblank := firstMatch?_blankLine_eq_none_iff.mpr hblank
    simp [blocks, Text.splitAround_of_firstMatch? hheader, Text.splitAround_of_firstMatch? hblank]
  obtain ⟨runs, hruns, hcut⟩ := exists_blocksByItem_eq body
  have hlines : ∀ run ∈ runs, ∀ line ∈ run, '\n' ∉ line := by
    intro run hrun line hline
    refine @Text.not_mem_of_mem_lines body line ?_
    rw [← hcut.flatten]
    exact List.mem_flatten_of_mem hrun hline
  have hsegments : (blocks body).map (Text.segments '\n') = runs := by
    rw [hblocks, hruns, List.map_map]
    refine (List.map_congr_left fun run hrun => ?_).trans (List.map_id runs)
    exact Text.segments_intercalate (hlines run hrun) (hcut.ne_nil run hrun)
  refine ⟨by rwa [hsegments], ?_, fun line _ => ⟨isItemStart_iff, fun f mark => IsItem.fieldOn?_eq⟩⟩
  rw [hblocks, hruns, Text.joinLines_map_joinLines hcut.ne_nil, hcut.flatten]

/-- Names in other letters, a line of a field that is no item, an item with a bar, and a carriage
return. -/
theorem blocks_isCutAtRepeats_bar :
    let body :=
      "- Type: a\r\n- Path - x\n- Type | b\n-tYPE : d\nType: e\n- PATH: y\n- path-z".toList
    (∀ m ∈ headers, ¬ m <:+: body) ∧ (∀ m ∈ blankLines, ¬ m <:+: body)
      ∧ blocks body = ["- Type: a\n- Path - x\n- Type | b".toList,
          "-tYPE : d\nType: e\n- PATH: y".toList, "- path-z".toList]
      ∧ IsCutAtRepeats (Text.lines body) ((blocks body).map (Text.segments '\n'))
      ∧ Text.joinLines (blocks body) = Text.joinLines (Text.lines body)
      ∧ IsItem .type '|' "- Type | b".toList ∧ fieldOn? "- Type | b".toList = none := by
  intro body
  have hheader : ∀ m ∈ headers, ¬ m <:+: body :=
    recognizes_header.firstMatch?_eq_none_iff.mp (by decide +kernel)
  have hblank : ∀ m ∈ blankLines, ¬ m <:+: body :=
    firstMatch?_blankLine_eq_none_iff.mp (by decide +kernel)
  obtain ⟨hcut, hjoin, hitems⟩ := blocks_isCutAtRepeats hheader hblank
  have hitem : IsItem .type '|' "- Type | b".toList := by
    have hspace : [' '] ∈ Text.many Text.isBlank := List.forall_mem_singleton.mpr (by decide)
    refine ⟨by decide, by decide, "- Type |".toList, mem_itemStarts.mpr ?_, by decide⟩
    exact ⟨[], List.forall_mem_nil _, [' '], hspace, "Type".toList,
      Text.mem_caseless.mpr (by decide), [' '], hspace, rfl⟩
  have hline : "- Type | b".toList ∈ Text.lines body := by decide
  exact ⟨hheader, hblank, by decide +kernel, hcut, hjoin, hitem, (hitems _ hline).2 _ _ hitem⟩

end NodeQuery
