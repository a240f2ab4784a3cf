/-
Tokens with which something begins.

If the parser is given tokens up to a semicolon, and behind it an opening bracket, which can not
stand there, then it may come as far as to the bracket. In this case the tokens up to the
semicolon are the beginning of something that follows the grammar: the brackets that are open can
be closed, and a group may be given a further member.

* `Grammar.Begins`: the beginnings of phrases.
* `Parser.Cursor.Nears`: the semicolon and the bracket are ahead; `Parser.LateOnlyIf`: when a
  reader comes as far as to the bracket.
* `Parser.lateOnlyIf_nestedQuery`, …, `Parser.lateOnlyIf_condition`: one statement for each reader
  that may take the semicolon.
* `Parser.beginsQuery_of_wholeQuery`: the same for queries.
-/
import NodeQuery.Proofs.Parsing.Progress

namespace NodeQuery

namespace Grammar

/-! ### Beginnings of phrases -/

/-- The tokens `ks` are the beginning of a phrase among `phrases` and of the semicolons behind it.
Conditions are nested at most `N` deep in the phrase. -/
def Begins (phrases : Set Phrase) (N : Nat) (ks : List Token.Kind) : Prop :=
  ∃ p ∈ phrases, ∃ us ls n t m, n ≤ N ∧ m ≤ t ∧ Reads p n t ls ∧ ks ++ us = ls ++ semicolons m

/-- Conditions. -/
def conditions : Set Phrase :=
  {p | ∃ c, p = .condition c}

/-- The members of groups. -/
def groups : Set Phrase :=
  {p | ∃ c d cs, p = .members (c :: d :: cs)}

/-- Nested queries. -/
def nestings : Set Phrase :=
  {p | ∃ e c, p = .nested e c}

variable {N n t m : Nat} {ks ls : List Token.Kind}

theorem Begins.negation (h : Begins conditions N ks) :
    Begins conditions (N + 1) (.notWord :: .opening :: ks) := by
  obtain ⟨_, ⟨c, rfl⟩, us, ls, n, t, m, hn, hm, hr, heq⟩ := h
  refine ⟨_, ⟨_, rfl⟩, us ++ [.closing], _, n + 1, 0, 0, by omega, le_refl 0,
    .negation hr hm, ?_⟩
  rw [← heq]
  simp [semicolons]

/-- A first member may be followed by a second one. -/
theorem Begins.first (h : Begins conditions N ks) : Begins groups N ks := by
  obtain ⟨_, ⟨c, rfl⟩, us, ls, n, t, m, hn, hm, hr, heq⟩ := h
  have hone := hr.one_le
  refine ⟨_, ⟨_, _, _, rfl⟩, us ++ .comma :: (Attribute.mk "x" []).kinds, _, _, 0, 0,
    ?_, le_refl 0, .more hr hm (.last (.bare ⟨"x", []⟩) (le_refl 0)), ?_⟩
  · omega
  · rw [← heq]
    simp [semicolons]

theorem Begins.more {c : Condition} (hn : n ≤ N) (hm : m ≤ t) (hr : Reads (.condition c) n t ls)
    (h : Begins groups N ks) : Begins groups N (ls ++ semicolons m ++ .comma :: ks) := by
  obtain ⟨_, ⟨d, e, cs, rfl⟩, us, ls', l, t', m', hl, hm', hr', heq⟩ := h
  obtain rfl : t' = 0 := by cases hr'; rfl
  obtain rfl : m' = 0 := by omega
  refine ⟨_, ⟨_, _, _, rfl⟩, us, _, _, 0, 0, ?_, le_refl 0, .more hr hm hr', ?_⟩
  · omega
  · simp [heq, semicolons]

theorem Begins.group (k : Connective) (h : Begins groups N ks) :
    Begins conditions (N + 1) (.connective k :: .opening :: ks) := by
  obtain ⟨_, ⟨c, d, cs, rfl⟩, us, ls, n, t, m, hn, hm, hr, heq⟩ := h
  obtain rfl : t = 0 := by cases hr; rfl
  obtain rfl : m = 0 := by omega
  refine ⟨_, ⟨_, rfl⟩, us ++ [.closing], _, n + 1, 0, 0, by omega, le_refl 0, .group k hr, ?_⟩
  simp [← List.append_assoc, heq, semicolons]

theorem Begins.stated (e : Entity) (h : Begins conditions N ks) :
    Begins nestings (N + 1) (e.kinds ++ .whereWord :: ks) := by
  obtain ⟨_, ⟨c, rfl⟩, us, ls, n, t, m, hn, hm, hr, heq⟩ := h
  refine ⟨_, ⟨_, _, rfl⟩, us, _, n + 1, t + 1, m, by omega, by omega, .stated e hr, ?_⟩
  simp [heq]

theorem Begins.relation (a : Attribute) (op : RelOp) (h : Begins nestings N ks) :
    Begins conditions N (a.kinds ++ .relOp op :: ks) := by
  obtain ⟨_, ⟨e, c, rfl⟩, us, ls, n, t, m, hn, hm, hr, heq⟩ := h
  refine ⟨_, ⟨_, rfl⟩, us, _, n, t, m, hn, hm, .relation a op hr, ?_⟩
  simp [heq]

end Grammar

namespace Parser

open Grammar

/-! ### In front of the semicolon, and behind it -/

variable {α : Type} {c d : Cursor} {f : Failure} {ks us : List Token.Kind} {N : Nat}

/-- The tokens `ks` are ahead, then a semicolon, and then a bracket. -/
def Cursor.Nears (c : Cursor) (ks : List Token.Kind) : Prop :=
  c.ahead = ks ++ [.semicolon, .opening]

namespace Cursor.Nears

theorem one_lt (h : c.Nears ks) : 1 < c.rest.length := by
  have hlen := congrArg List.length h
  simp only [Cursor.ahead, List.length_map, List.length_append, List.length_cons,
    List.length_nil] at hlen
  omega

/-- What is taken without a semicolon is a part of the tokens in front of it. -/
theorem of_append (h : c.Nears ks) (hahead : c.ahead = us ++ d.ahead)
    (hus : .semicolon ∉ us) : ∃ ls, ks = us ++ ls ∧ d.Nears ls := by
  rcases List.append_eq_append_iff.mp (hahead.symm.trans h) with ⟨ls, rfl, hls⟩ | ⟨ls, rfl, hls⟩
  · exact ⟨ls, rfl, hls⟩
  · cases ls with
    | nil => exact ⟨[], by simp, hls.symm⟩
    | cons l ls =>
      obtain ⟨rfl, -⟩ := List.cons.inj hls
      exact absurd (by simp) hus

theorem advance (h : c.Nears ks) {k : Token.Kind} (hk : c.peek? = some k)
    (hne : k ≠ .semicolon) : ∃ ls, ks = k :: ls ∧ c.advance.Nears ls :=
  @of_append c c.advance ks [k] h (ahead_eq_cons hk) (by simpa using hne.symm)

/-- What is read in front of the semicolon, with the semicolons behind it. -/
theorem of_lt (hahead : ks ++ [.semicolon, .opening] = us ++ d.ahead)
    (hlt : 1 < d.rest.length) : ∃ ms, ks = us ++ ms ∧ d.Nears ms := by
  rcases List.append_eq_append_iff.mp hahead.symm with ⟨ms, hks, hms⟩ | ⟨ms, hus, hms⟩
  · exact ⟨ms, hks, hms⟩
  · have hlen := congrArg List.length hms
    rw [List.length_append, Cursor.ahead, List.length_map] at hlen
    obtain rfl : ms = [] := List.length_eq_zero_iff.mp (by simp at hlen; omega)
    exact ⟨[], by simp [hus], hms.symm⟩

end Cursor.Nears

/-! ### Readers that come as far as to the bracket -/

/-- A reader comes as far as to the bracket, to fail there or not, only if `P` holds. -/
def LateOnlyIf (P : Prop) : Except Failure (α × Cursor) → Prop
  | .ok (_, d) => d.rest.length ≤ 1 → P
  | .error f => f.rest.length ≤ 1 → P

namespace LateOnlyIf

variable {β : Type} {P Q : Prop} {x : Except Failure (α × Cursor)}

theorem mono (hx : LateOnlyIf P x) (h : P → Q) : LateOnlyIf Q x := by
  rcases x with f | ⟨a, d⟩
  · exact fun hlate => h (hx hlate)
  · exact fun hlate => h (hx hlate)

theorem of_lt (h : 1 < d.rest.length) (a : α) : LateOnlyIf P (.ok (a, d)) :=
  fun hlate => absurd h (Nat.not_lt.mpr hlate)

theorem of_nears (h : d.Nears ks) (a : α) : LateOnlyIf P (.ok (a, d)) :=
  of_lt h.one_lt a

theorem fail (h : c.Nears ks) (cause : Cause) :
    LateOnlyIf P (.error (c.fail cause) : Except Failure (α × Cursor)) :=
  fun hlate => absurd h.one_lt (Nat.not_lt.mpr hlate)

theorem bind (hx : LateOnlyIf P x) {g : α × Cursor → Except Failure (β × Cursor)}
    (hg : ∀ a d, x = .ok (a, d) → 1 < d.rest.length → LateOnlyIf P (g (a, d))) :
    LateOnlyIf P (x >>= g) := by
  rcases x with f | ⟨a, d⟩
  · exact hx
  · by_cases hlate : d.rest.length ≤ 1
    · have hP : P := hx hlate
      show LateOnlyIf P (g (a, d))
      rcases g (a, d) with f | ⟨b, e⟩
      · exact fun _ => hP
      · exact fun _ => hP
    · exact hg a d rfl (Nat.lt_of_not_le hlate)

theorem bind_take (h : c.Nears ks) {kind : Token.Kind} (hne : kind ≠ .semicolon)
    {what : Expectation} {g : Cursor → Except Failure (β × Cursor)}
    (hg : ∀ ls, ks = kind :: ls → c.advance.Nears ls → LateOnlyIf P (g c.advance)) :
    LateOnlyIf P (take kind what c >>= g) := by
  rw [take]
  split_ifs with hk
  · obtain ⟨ls, hks, hadvance⟩ := h.advance hk hne
    exact hg ls hks hadvance
  · exact fail h _

end LateOnlyIf

theorem lateOnlyIf_identifier (h : c.Nears ks) (what : Expectation) :
    LateOnlyIf False (identifier what c) := by
  rw [identifier]
  split
  · rename_i name hk
    obtain ⟨ls, -, hadvance⟩ := h.advance hk (by simp)
    exact .of_nears hadvance name
  · exact .fail h _

theorem nears_of_identifier (h : c.Nears ks) {what : Expectation} {name : String}
    (hok : identifier what c = .ok (name, d)) : ∃ ls, d.Nears ls := by
  obtain ⟨ls, -, hd⟩ :=
    @Cursor.Nears.of_append c d ks [.identifier name] h (identifier_sound hok) (by simp)
  exact ⟨ls, hd⟩

theorem nears_of_entity (h : c.Nears ks) {e : Entity} (hok : entity c = .ok (e, d)) :
    ∃ ls, ks = e.kinds ++ ls ∧ d.Nears ls := by
  exact h.of_append (entity_sound hok) (e.not_mem_kinds rfl)

theorem nears_of_subject (h : c.Nears ks) {a : Attribute} (hok : subject c = .ok (a, d)) :
    ∃ ls, ks = a.kinds ++ ls ∧ d.Nears ls := by
  exact h.of_append (subject_sound hok) (a.not_mem_kinds rfl)

theorem lateOnlyIf_entity (h : c.Nears ks) : LateOnlyIf False (entity c) := by
  rw [entity]
  refine (lateOnlyIf_identifier h _).bind fun nodeType d hd _ => ?_
  obtain ⟨ls, hd⟩ := nears_of_identifier h hd
  dsimp only
  split
  · rename_i name hk
    obtain ⟨ms, -, hadvance⟩ := hd.advance hk (by simp)
    exact .of_nears hadvance _
  · exact .of_nears hd _

theorem lateOnlyIf_properties (fuel : Nat) (h : c.Nears ks) :
    LateOnlyIf False (properties fuel c) := by
  induction fuel generalizing c ks with
  | zero => exact .of_nears h _
  | succ fuel ih =>
    rw [properties]
    split_ifs with hk
    · obtain ⟨ls, -, hadvance⟩ := h.advance hk (by simp)
      refine (lateOnlyIf_identifier hadvance _).bind fun first d hd _ => ?_
      obtain ⟨ms, hd⟩ := nears_of_identifier hadvance hd
      exact (ih hd).bind fun more e _ hlt => .of_lt hlt _
    · exact .of_nears h _

theorem lateOnlyIf_subject (h : c.Nears ks) : LateOnlyIf False (subject c) := by
  rw [subject]
  refine (lateOnlyIf_identifier h _).bind fun name d hd _ => ?_
  obtain ⟨ls, hd⟩ := nears_of_identifier h hd
  exact (lateOnlyIf_properties _ hd).bind fun behind e _ hlt => .of_lt hlt _

theorem lateOnlyIf_value (h : c.Nears ks) : LateOnlyIf False (value c) := by
  rw [value]
  split
  · rename_i raw hk
    obtain ⟨k, hpeek, hvalue⟩ := Option.bind_eq_some_iff.mp hk
    obtain ⟨ls, -, hadvance⟩ := h.advance hpeek (by
      rintro rfl
      cases hvalue)
    exact .of_nears hadvance _
  · exact .fail h _

/-- The semicolon is taken behind a nested query if it stands there. -/
theorem lateOnlyIf_nestedEnd {P : Prop} (h : c.Nears ks) (hP : ks = [] → P) (q : Query) :
    LateOnlyIf P (.ok (q, nestedEnd c)) := by
  intro hlate
  obtain ⟨l, hl, hahead⟩ := nestedEnd_sound c
  have hlen := congrArg List.length (hahead.symm.trans h)
  simp only [Cursor.ahead, semicolons, List.length_append, List.length_replicate, List.length_map,
    List.length_cons, List.length_nil] at hlen
  exact hP (List.length_eq_zero_iff.mp (by omega))

section Layer

variable {read : Cursor → Except Failure (Condition × Cursor)} (hsound : Sound N read)
  (hread : ∀ {c ks}, c.Nears ks →
    LateOnlyIf (Begins conditions N (ks ++ [.semicolon])) (read c))

include hsound

/-- A condition has been read and the semicolon is still ahead. -/
theorem nears_of_read (h : c.Nears ks) {r : Condition} (hok : read c = .ok (r, d))
    (hlt : 1 < d.rest.length) :
    ∃ n t m ls ms, n ≤ N ∧ m ≤ t ∧ Reads (.condition r.eraseSpans) n t ls
      ∧ ks = ls ++ semicolons m ++ ms ∧ d.Nears ms := by
  obtain ⟨n, t, m, ls, hn, hm, hr, hahead⟩ := hsound hok
  obtain ⟨ms, hks, hd⟩ := Cursor.Nears.of_lt (h.symm.trans hahead) hlt
  exact ⟨n, t, m, ls, ms, hn, hm, hr, hks, hd⟩

/-- The same of the members of a group, of which the first one has been read before. -/
theorem nears_of_furtherMembers (h : c.Nears ks) {fuel : Nat} {first : Condition}
    {more : List Condition} {n t m : Nat} {ls : List Token.Kind} (hn : n ≤ N) (hm : m ≤ t)
    (hfirst : Reads (.condition first) n t ls) (hok : furtherMembers read fuel c = .ok (more, d))
    (hlt : 1 < d.rest.length) : ∃ ms, d.Nears ms := by
  obtain ⟨l, ls', -, hr, heq⟩ := furtherMembers_sound hsound hok hn hm hfirst
  have hahead : ls ++ semicolons m ++ ks ++ [.semicolon, .opening]
      = ls' ++ semicolons 0 ++ d.ahead := by
    rw [List.append_assoc, ← h, heq]
    simp [semicolons]
  obtain ⟨ms, -, hd⟩ := Cursor.Nears.of_lt hahead hlt
  exact ⟨ms, hd⟩

include hread

theorem lateOnlyIf_nestedQuery (h : c.Nears ks) :
    LateOnlyIf (Begins nestings (N + 1) (ks ++ [.semicolon])) (nestedQuery read c) := by
  rw [nestedQuery]
  refine ((lateOnlyIf_entity h).mono False.elim).bind fun e d hd _ => ?_
  obtain ⟨ls, rfl, hd⟩ := nears_of_entity h hd
  dsimp only
  split_ifs with hk
  · obtain ⟨ms, rfl, hadvance⟩ := hd.advance hk (by simp)
    refine ((hread hadvance).mono fun hbegins => ?_).bind fun r f hf hlt => ?_
    · simpa using hbegins.stated e
    · obtain ⟨n, t, m, ls, ls', hn, hm, hr, rfl, hf⟩ := nears_of_read hsound hadvance hf hlt
      refine lateOnlyIf_nestedEnd hf (fun hnil => ?_) _
      refine ⟨_, ⟨_, _, rfl⟩, [], _, n + 1, t + 1, m + 1, by omega, by omega, .stated e hr, ?_⟩
      simp [hnil, semicolons_succ]
  · refine lateOnlyIf_nestedEnd hd (fun hnil => ?_) _
    refine ⟨_, ⟨_, _, rfl⟩, [], _, 1, 1, 1, by omega, le_refl 1, .plain e, ?_⟩
    simp [hnil, semicolons]

theorem lateOnlyIf_leaf (h : c.Nears ks) :
    LateOnlyIf (Begins conditions (N + 1) (ks ++ [.semicolon])) (leaf read c) := by
  rw [leaf]
  refine ((lateOnlyIf_subject h).mono False.elim).bind fun a d hd _ => ?_
  obtain ⟨ls, rfl, hd⟩ := nears_of_subject h hd
  dsimp only
  split
  · rename_i op hk
    obtain ⟨ms, rfl, hadvance⟩ := hd.advance hk (by simp)
    exact ((lateOnlyIf_value hadvance).mono False.elim).bind fun raw e _ hlt => .of_lt hlt _
  · rename_i op hk
    obtain ⟨ms, rfl, hadvance⟩ := hd.advance hk (by simp)
    refine ((lateOnlyIf_nestedQuery hsound hread hadvance).mono fun hbegins => ?_).bind
      fun q e _ hlt => .of_lt hlt _
    simpa using hbegins.relation a op
  · exact .of_nears hd _

/-- Members read behind a first one. -/
theorem lateOnlyIf_furtherMembers (fuel : Nat) (h : c.Nears ks) {first : Condition} {n t m : Nat}
    {ls : List Token.Kind} (hn : n ≤ N) (hm : m ≤ t) (hfirst : Reads (.condition first) n t ls) :
    LateOnlyIf (Begins groups N (ls ++ semicolons m ++ ks ++ [.semicolon]))
      (furtherMembers read fuel c) := by
  induction fuel generalizing c ks first n t m ls with
  | zero => exact .of_nears h _
  | succ fuel ih =>
    rw [furtherMembers]
    split_ifs with hk
    · obtain ⟨ms, rfl, hadvance⟩ := h.advance hk (by simp)
      refine ((hread hadvance).mono fun hbegins => ?_).bind fun r d hd hlt => ?_
      · simpa using hbegins.first.more hn hm hfirst
      · obtain ⟨n', t', m', ls', ms', hn', hm', hr, rfl, hd⟩ :=
          nears_of_read hsound hadvance hd hlt
        refine ((ih hd hn' hm' hr).mono fun hbegins => ?_).bind fun more e _ hlt => .of_lt hlt _
        simpa using hbegins.more hn hm hfirst
    · exact .of_nears h _

theorem lateOnlyIf_conditionLayer (h : c.Nears ks) :
    LateOnlyIf (Begins conditions (N + 1) (ks ++ [.semicolon])) (conditionLayer read c) := by
  rw [conditionLayer]
  split
  · rename_i hk
    obtain ⟨ls, rfl, hadvance⟩ := h.advance hk (by simp)
    refine .bind_take hadvance (by simp) fun ms hms hopen => ?_
    subst hms
    refine ((hread hopen).mono Begins.negation).bind fun inner d hd hlt => ?_
    obtain ⟨n, t, m, ls, ms, -, -, -, rfl, hd⟩ := nears_of_read hsound hopen hd hlt
    exact .bind_take hd (by simp) fun ms _ hclose => .of_nears hclose _
  · rename_i k hk
    obtain ⟨ls, rfl, hadvance⟩ := h.advance hk (by simp)
    refine .bind_take hadvance (by simp) fun ms hms hopen => ?_
    subst hms
    -- one member is enough to begin a group, as others may follow
    have hfirst := (hread hopen).mono fun hbegins => hbegins.first.group k
    refine hfirst.bind fun first d hd hlt => ?_
    obtain ⟨n, t, m, ls, ms, hn, hm, hr, rfl, hd⟩ := nears_of_read hsound hopen hd hlt
    have hmore := lateOnlyIf_furtherMembers hsound hread d.rest.length hd hn hm hr
    refine (hmore.mono (Begins.group k)).bind fun more e he hlt => ?_
    obtain ⟨ms, he⟩ := nears_of_furtherMembers hsound hd hn hm hr he hlt
    refine .bind_take he (by simp) fun ms _ hclose => ?_
    split_ifs
    · exact .fail h _
    · exact .of_nears hclose _
  · exact lateOnlyIf_leaf hsound hread h
  · exact .fail h _

end Layer

theorem lateOnlyIf_condition (N : Nat) (h : c.Nears ks) :
    LateOnlyIf (Begins conditions N (ks ++ [.semicolon])) (condition N c) := by
  induction N generalizing c ks with
  | zero => exact .fail h _
  | succ N ih => exact lateOnlyIf_conditionLayer (condition_sound N) ih h

/-- The tokens are the beginning of a query. -/
def BeginsQuery (ks : List Token.Kind) : Prop :=
  ∃ us e r n t m ls, n ≤ maxNesting ∧ m ≤ t ∧ Reads (.condition r) n t ls
    ∧ ks ++ us = Entity.kinds e ++ .whereWord :: (ls ++ semicolons (m + 1))

theorem lateOnlyIf_rootQuery (h : c.Nears ks) :
    LateOnlyIf (BeginsQuery (ks ++ [.semicolon])) (rootQuery c) := by
  rw [rootQuery]
  refine ((lateOnlyIf_entity h).mono False.elim).bind fun e d hd _ => ?_
  obtain ⟨ls, rfl, hd⟩ := nears_of_entity h hd
  refine .bind_take hd (by simp) fun ms hms hwhere => ?_
  subst hms
  refine ((lateOnlyIf_condition _ hwhere).mono fun hbegins => ?_).bind fun r f hf hlt => ?_
  · obtain ⟨_, ⟨r, rfl⟩, us, ls, n, t, m, hn, hm, hr, heq⟩ := hbegins
    refine ⟨us ++ [.semicolon], e, r, n, t, m, ls, hn, hm, hr, ?_⟩
    rw [semicolons_succ, ← List.append_assoc ls, ← heq]
    simp
  · obtain ⟨n, t, m, ls, ms, hn, hm, hr, rfl, hf⟩ :=
      nears_of_read (condition_sound _) hwhere hf hlt
    dsimp only [take]
    split_ifs with hk
    · intro hlate
      have hlen := congrArg List.length ((Cursor.ahead_eq_cons hk).symm.trans hf)
      simp only [Cursor.ahead, List.length_cons, List.length_append, List.length_map,
        List.length_nil] at hlen
      obtain rfl : ms = [] := List.length_eq_zero_iff.mp (by omega)
      refine ⟨[], e, _, n, t, m, ls, hn, hm, hr, ?_⟩
      simp [semicolons_succ]
    · exact .fail hf _

/-- If reading a query fails at the bracket, then the tokens up to the semicolon are the beginning
of a query. -/
theorem beginsQuery_of_wholeQuery (h : c.Nears ks) (hf : wholeQuery c = .error f)
    (hlate : f.rest.length ≤ 1) : BeginsQuery (ks ++ [.semicolon]) := by
  have hroot := lateOnlyIf_rootQuery h
  rw [wholeQuery] at hf
  generalize rootQuery c = x at hroot hf
  rcases x with g | ⟨q, d⟩
  · cases hf
    exact hroot hlate
  · rw [Except.ok_bind] at hf
    dsimp only [inputEnd] at hf
    split_ifs at hf
    · cases hf
    · cases hf
      exact hroot hlate

end Parser

end NodeQuery
