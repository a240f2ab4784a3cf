/-
Two runs of the parser in step.

What the parser does depends on the kinds of the tokens ahead, and on nothing else. So it does the
same on two lists of tokens as long as they are alike, and this is said here for any relation
between the tokens ahead of two runs that the parser can not look through. The first run may leave
the part of the tokens on which the relation holds; nothing is said of the second run then, and
the first does not come back, except to blame a group with a single member on its first token.

* `Parser.Pairing`: such a relation.
* `Parser.Pairing.Agree`: how the results of the two runs compare.
* `Parser.Pairing.agree_entity`, …, `Parser.Pairing.agree_condition`: all readers are in step.
* `Parser.Pairing.wholeQuery_eq_ok`, `Parser.Pairing.wholeQuery_eq_error`: so are two runs on whole
  texts.
-/
import NodeQuery.Proofs.Parsing.Progress

namespace NodeQuery.Parser

/-! ### Tokens that are alike -/

/-- A relation between the tokens ahead of two runs. As long as they are `paired`, the parser sees
the same in both; `parted` is said of the tokens ahead of a first run that has gone beyond, and
`closes` if a bracket may be closed there. -/
structure Pairing where
  paired : List Token → List Token → Prop
  parted : List Token → Prop
  closes : Prop
  head : ∀ {ts ts'}, paired ts ts' → ts.head?.map Token.kind = ts'.head?.map Token.kind
  tail : ∀ {t t' ts ts'}, paired (t :: ts) (t' :: ts') → paired ts ts' ∨ parted ts
  isEmpty : ∀ {t t' ts ts'}, paired (t :: ts) (t' :: ts') → t.kind = .semicolon →
    ts.isEmpty = ts'.isEmpty ∨ ts.isEmpty = false ∧ parted ts
  suffix : ∀ {ts ss}, parted ts → ss <:+ ts → parted ss
  closing : ∀ {t ts}, parted (t :: ts) → t.kind = .closing → closes

namespace Pairing

variable {P : Pairing} {α β γ δ : Type} {c c' d d' : Cursor} {k : Token.Kind}

theorem peek?_eq (h : P.paired c.rest c'.rest) : c.peek? = c'.peek? :=
  P.head h

theorem rest_eq_cons {c : Cursor} (h : c.peek? = some k) :
    ∃ t, c.rest = t :: c.advance.rest ∧ t.kind = k := by
  obtain ⟨t, hk, ht⟩ := Cursor.takes_advance h
  exact ⟨t, ht.rest_eq, hk⟩

theorem length_advance {c : Cursor} (h : c.peek? = some k) :
    c.advance.rest.length + 1 = c.rest.length := by
  obtain ⟨t, ht, -⟩ := rest_eq_cons h
  rw [ht, List.length_cons]

theorem peek?_of_length_le_zero {c : Cursor} (h : c.rest.length ≤ 0) : c.peek? = none := by
  rw [Cursor.peek?, List.length_eq_zero_iff.mp (Nat.le_zero.mp h)]
  rfl

theorem length_le_of_moves {x : Except Failure (α × Cursor)} (hx : Moves c x) {a : α}
    (h : x = .ok (a, d)) : d.rest.length ≤ c.rest.length := by
  subst h
  obtain ⟨us, hus⟩ := hx
  exact hus.suffix.length_le

theorem advance (h : P.paired c.rest c'.rest) (hk : c.peek? = some k) :
    P.paired c.advance.rest c'.advance.rest ∨ P.parted c.advance.rest := by
  obtain ⟨t, ht, -⟩ := rest_eq_cons hk
  obtain ⟨t', ht', -⟩ := rest_eq_cons ((peek?_eq h).symm.trans hk)
  rw [ht, ht'] at h
  exact P.tail h

/-- Whether a semicolon is left to the outermost query is the same in both runs. -/
theorem nestedEnd (h : P.paired c.rest c'.rest) :
    P.paired (nestedEnd c).rest (nestedEnd c').rest ∨ P.parted (nestedEnd c).rest := by
  rw [Parser.nestedEnd, Parser.nestedEnd, ← peek?_eq h]
  by_cases hk : c.peek? = some .semicolon
  · obtain ⟨t, ht, hkind⟩ := rest_eq_cons hk
    obtain ⟨t', ht', -⟩ := rest_eq_cons ((peek?_eq h).symm.trans hk)
    have hpaired := h
    rw [ht, ht'] at hpaired
    rcases P.isEmpty hpaired hkind with heq | ⟨hne, hparted⟩
    · rw [← heq]
      split_ifs
      · exact advance h hk
      · exact .inl h
    · rw [if_pos (by simp [hk, hne])]
      exact .inr hparted
  · rw [if_neg (by simp [hk]), if_neg (by simp [hk])]
    exact .inl h

/-! ### Results that agree -/

/-- What is said of a failure of the first run if it has gone beyond. -/
def Astray (P : Pairing) : Except Failure (α × Cursor) → Prop
  | .ok (_, d) => P.parted d.rest
  | .error f => P.parted f.rest ∨ P.closes ∧ ∃ k, f.cause = .lonelyMember k

/-- The results of two runs are alike, as far as `view` shows, or the first one has gone beyond. -/
inductive Agree (P : Pairing) (view : α → β) :
    Except Failure (α × Cursor) → Except Failure (α × Cursor) → Prop where
  | ok {a a' : α} {d d' : Cursor} (hview : view a = view a') (h : P.paired d.rest d'.rest) :
      Agree P view (.ok (a, d)) (.ok (a', d'))
  | error {f f' : Failure} (hcause : f.cause = f'.cause) (h : P.paired f.rest f'.rest) :
      Agree P view (.error f) (.error f')
  | astray {x x' : Except Failure (α × Cursor)} (h : P.Astray x) : Agree P view x x'

theorem astray_of_moves (h : P.parted c.rest) {x : Except Failure (α × Cursor)} (hx : Moves c x) :
    P.Astray x := by
  rcases x with f | ⟨a, d⟩
  · exact .inl (P.suffix h hx)
  · obtain ⟨us, hus⟩ := hx
    exact P.suffix h hus.suffix

theorem Astray.bind {x : Except Failure (α × Cursor)} (hx : P.Astray x)
    {g : α × Cursor → Except Failure (γ × Cursor)}
    (hg : ∀ a d, P.parted d.rest → P.Astray (g (a, d))) : P.Astray (x >>= g) := by
  rcases x with f | ⟨a, d⟩
  · exact hx
  · exact hg a d hx

theorem Astray.bind_take (h : P.parted c.rest) {kind : Token.Kind} {what : Expectation}
    {g : Cursor → Except Failure (γ × Cursor)}
    (hg : P.parted c.advance.rest → P.Astray (g c.advance)) :
    P.Astray (take kind what c >>= g) := by
  rw [take]
  split_ifs with hk
  · obtain ⟨t, -, ht⟩ := Cursor.takes_advance hk
    exact hg (P.suffix h ht.suffix)
  · exact .inl h

section Bind

variable {view : α → β} {view' : γ → δ}

/-- One reader behind the other. -/
theorem Agree.bind {x x' : Except Failure (α × Cursor)} (hx : P.Agree view x x')
    {g g' : α × Cursor → Except Failure (γ × Cursor)}
    (hastray : ∀ a d, P.parted d.rest → P.Astray (g (a, d)))
    (hg : ∀ a d a' d', x = .ok (a, d) → x' = .ok (a', d') → view a = view a' →
      P.paired d.rest d'.rest → P.Agree view' (g (a, d)) (g' (a', d'))) :
    P.Agree view' (x >>= g) (x' >>= g') := by
  cases hx with
  | ok hview h => exact hg _ _ _ _ rfl rfl hview h
  | error hcause h => exact .error hcause h
  | astray h => exact .astray (h.bind hastray)

theorem Agree.bind_take (h : P.paired c.rest c'.rest) {kind : Token.Kind} {what : Expectation}
    {g g' : Cursor → Except Failure (γ × Cursor)}
    (hastray : P.parted c.advance.rest → P.Astray (g c.advance))
    (hg : P.paired c.advance.rest c'.advance.rest → P.Agree view' (g c.advance) (g' c'.advance)) :
    P.Agree view' (take kind what c >>= g) (take kind what c' >>= g') := by
  rw [take, take, ← peek?_eq h]
  split_ifs with hk
  · rcases advance h hk with h | h
    · exact hg h
    · exact .astray (hastray h)
  · exact .error rfl h

end Bind

/-! ### The readers are in step -/

theorem agree_identifier (what : Expectation) (h : P.paired c.rest c'.rest) :
    P.Agree id (identifier what c) (identifier what c') := by
  rw [identifier, identifier, ← peek?_eq h]
  split
  · rename_i name hk
    rcases advance h hk with h | h
    · exact .ok rfl h
    · exact .astray h
  · exact .error rfl h

theorem agree_entity (h : P.paired c.rest c'.rest) : P.Agree id (entity c) (entity c') := by
  rw [entity, entity]
  refine .bind (agree_identifier .nodeType h) (fun nodeType d hd => ?_) ?_
  · dsimp only
    split
    · rename_i hk
      obtain ⟨t, -, ht⟩ := Cursor.takes_advance hk
      exact P.suffix hd ht.suffix
    · exact hd
  · rintro nodeType d nodeType' d' - - rfl h
    dsimp only [id]
    rw [← peek?_eq h]
    split
    · rename_i name hk
      rcases advance h hk with h | h
      · exact .ok rfl h
      · exact .astray h
    · exact .ok rfl h

/-- The fuel lasts if it is as much as there are tokens ahead. -/
theorem properties_eq {fuel : Nat} {c : Cursor} (h : c.rest.length ≤ fuel) :
    properties fuel c = if c.peek? = some .dot then do
        let (first, d) ← identifier .property c.advance
        let (more, e) ← properties (fuel - 1) d
        .ok (first :: more, e)
      else
        .ok ([], c) := by
  cases fuel with
  | zero => rw [properties, peek?_of_length_le_zero h, if_neg (by simp)]
  | succ fuel => rfl

theorem agree_properties {fuel fuel' : Nat} (hfuel : c.rest.length ≤ fuel)
    (hfuel' : c'.rest.length ≤ fuel') (h : P.paired c.rest c'.rest) :
    P.Agree id (properties fuel c) (properties fuel' c') := by
  induction hn : c.rest.length using Nat.strong_induction_on generalizing c c' fuel fuel' with
  | _ n ih =>
    subst hn
    rw [properties_eq hfuel, properties_eq hfuel', ← peek?_eq h]
    split_ifs with hk
    · have hlength := length_advance hk
      have hlength' := length_advance ((peek?_eq h).symm.trans hk)
      rcases advance h hk with h | h
      · refine .bind (agree_identifier .property h) (fun first d hd => ?_) ?_
        · exact astray_of_moves hd <|
            .bind (.refl d) (moves_properties _ d) fun more e us h => ⟨us, h⟩
        · rintro first d first' d' hd hd' rfl h
          have hle := length_le_of_moves (moves_identifier ..) hd
          have hle' := length_le_of_moves (moves_identifier ..) hd'
          refine .bind (ih _ (by omega) (by omega) (by omega) h rfl) (fun more e he => he) ?_
          rintro more e more' e' - - rfl h
          exact .ok rfl h
      · exact .astray <| astray_of_moves h <|
          .bind (.refl _) (moves_identifier ..) fun first d us h =>
            .bind h (moves_properties _ d) fun more e us h => ⟨us, h⟩
    · exact .ok rfl h

theorem agree_subject (h : P.paired c.rest c'.rest) : P.Agree id (subject c) (subject c') := by
  rw [subject, subject]
  refine .bind (agree_identifier .subject h) (fun name d hd => ?_) ?_
  · exact astray_of_moves hd <|
      .bind (.refl d) (moves_properties _ d) fun behind e us h => ⟨us, h⟩
  · rintro name d name' d' - - rfl h
    refine .bind (agree_properties (le_refl _) (le_refl _) h) (fun behind e he => he) ?_
    rintro behind e behind' e' - - rfl h
    exact .ok rfl h

theorem agree_value (h : P.paired c.rest c'.rest) : P.Agree id (value c) (value c') := by
  rw [value, value, ← peek?_eq h]
  split
  · rename_i raw hk
    obtain ⟨k, hpeek, -⟩ := Option.bind_eq_some_iff.mp hk
    rcases advance h hpeek with h | h
    · exact .ok rfl h
    · exact .astray h
  · exact .error rfl h

/-- The fuel lasts if it is as much as there are tokens ahead. -/
theorem furtherMembers_eq {read : Cursor → Except Failure (Condition × Cursor)} {fuel : Nat}
    {c : Cursor} (h : c.rest.length ≤ fuel) :
    furtherMembers read fuel c = if c.peek? = some .comma then do
        let (member, d) ← read c.advance
        let (more, e) ← furtherMembers read (fuel - 1) d
        .ok (member :: more, e)
      else
        .ok ([], c) := by
  cases fuel with
  | zero => rw [furtherMembers, peek?_of_length_le_zero h, if_neg (by simp)]
  | succ fuel => rfl

theorem isEmpty_eq_of_eraseAllSpans {cs ds : List Condition}
    (h : Condition.eraseAllSpans cs = Condition.eraseAllSpans ds) : cs.isEmpty = ds.isEmpty := by
  cases cs <;> cases ds <;> simp_all [Condition.eraseAllSpans]

/-- What is read of a group behind its members. -/
theorem astray_groupEnd (h : P.parted c.rest) (start : Cursor) (k : Connective)
    (first : Condition) (more : List Condition) :
    P.Astray (do
      let d ← take .closing (.groupClosing k) c
      if more.isEmpty then
        .error (start.fail (.lonelyMember k))
      else
        .ok (Condition.group k (first :: more), d)) := by
  rw [take]
  by_cases hk : c.peek? = some .closing
  · obtain ⟨t, ht, hkind⟩ := rest_eq_cons hk
    rw [ht] at h
    have hsuffix : P.parted c.advance.rest := P.suffix h (List.suffix_cons ..)
    rw [if_pos hk, Except.ok_bind]
    split_ifs
    · exact .inr ⟨P.closing h hkind, k, rfl⟩
    · exact hsuffix
  · rw [if_neg hk]
    exact .inl h

section Layer

variable {read : Cursor → Except Failure (Condition × Cursor)}
  (hmoves : ∀ c, Moves c (read c))
  (hread : ∀ {c c'}, P.paired c.rest c'.rest → P.Agree Condition.eraseSpans (read c) (read c'))

include hmoves hread

theorem agree_nestedQuery (h : P.paired c.rest c'.rest) :
    P.Agree Query.eraseSpans (nestedQuery read c) (nestedQuery read c') := by
  have hend : ∀ {q q' : Query} {d d' : Cursor}, q.eraseSpans = q'.eraseSpans →
      P.paired d.rest d'.rest →
      P.Agree Query.eraseSpans (.ok (q, Parser.nestedEnd d)) (.ok (q', Parser.nestedEnd d')) := by
    intro q q' d d' hq h
    rcases nestedEnd h with h | h
    · exact .ok hq h
    · exact .astray h
  rw [nestedQuery, nestedQuery]
  refine .bind (agree_entity h)
    (fun e d hd => astray_of_moves hd (moves_nestedBody hmoves _ _ d)) ?_
  rintro e d e' d' - - rfl h
  dsimp only [id]
  rw [← peek?_eq h]
  split_ifs with hk
  · rcases advance h hk with h | h
    · refine .bind (hread h) (fun inner f hf => ?_) ?_
      · obtain ⟨us, hus⟩ := takes_nestedEnd f
        exact P.suffix hf hus.suffix
      · rintro inner f inner' f' - - hinner h
        exact hend (by rw [Query.eraseSpans, Query.eraseSpans, hinner]) h
    · refine .astray <| astray_of_moves h <| .bind (.refl _) (hmoves _) fun inner f us h => ?_
      obtain ⟨vs, hvs⟩ := takes_nestedEnd f
      exact ⟨_, h.trans hvs⟩
  · exact hend rfl h

theorem agree_leaf (h : P.paired c.rest c'.rest) :
    P.Agree Condition.eraseSpans (leaf read c) (leaf read c') := by
  rw [leaf, leaf]
  refine .bind (agree_subject h)
    (fun a d hd => astray_of_moves hd (moves_leafBody hmoves _ d)) ?_
  rintro a d a' d' - - rfl h
  dsimp only [id]
  rw [← peek?_eq h]
  split
  · rename_i op hk
    rcases advance h hk with h | h
    · refine .bind (agree_value h) (fun raw e he => he) ?_
      rintro raw e raw' e' - - rfl h
      exact .ok rfl h
    · exact .astray <| astray_of_moves h <|
        .bind (.refl _) (moves_value _) fun raw e us h => ⟨us, h⟩
  · rename_i op hk
    rcases advance h hk with h | h
    · refine .bind (agree_nestedQuery hmoves hread h) (fun q e he => he) ?_
      rintro q e q' e' - - hq h
      obtain ⟨hentity, hcondition, -⟩ := Query.mk.inj hq
      refine .ok ?_ h
      rw [Condition.relate, Condition.relate, Condition.eraseSpans, Condition.eraseSpans, hentity,
        hcondition]
    · exact .astray <| astray_of_moves h <|
        .bind (.refl _) (moves_nestedQuery hmoves _) fun q e us h => ⟨us, h⟩
  · exact .ok rfl h

theorem agree_furtherMembers {fuel fuel' : Nat} (hfuel : c.rest.length ≤ fuel)
    (hfuel' : c'.rest.length ≤ fuel') (h : P.paired c.rest c'.rest) :
    P.Agree Condition.eraseAllSpans (furtherMembers read fuel c)
      (furtherMembers read fuel' c') := by
  induction hn : c.rest.length using Nat.strong_induction_on generalizing c c' fuel fuel' with
  | _ n ih =>
    subst hn
    rw [furtherMembers_eq hfuel, furtherMembers_eq hfuel', ← peek?_eq h]
    split_ifs with hk
    · have hlength := length_advance hk
      have hlength' := length_advance ((peek?_eq h).symm.trans hk)
      rcases advance h hk with h | h
      · refine .bind (hread h) (fun member d hd => ?_) ?_
        · exact astray_of_moves hd <|
            .bind (.refl d) (moves_furtherMembers hmoves _ d) fun more e us h => ⟨us, h⟩
        · rintro member d member' d' hd hd' hmember h
          have hle := length_le_of_moves (hmoves _) hd
          have hle' := length_le_of_moves (hmoves _) hd'
          refine .bind (ih _ (by omega) (by omega) (by omega) h rfl) (fun more e he => he) ?_
          rintro more e more' e' - - hmore h
          refine .ok ?_ h
          rw [Condition.eraseAllSpans, Condition.eraseAllSpans, hmember, hmore]
      · exact .astray <| astray_of_moves h <|
          .bind (.refl _) (hmoves _) fun member d us h =>
            .bind h (moves_furtherMembers hmoves _ d) fun more e us h => ⟨us, h⟩
    · exact .ok rfl h

omit hread in
/-- What is read of a group behind its first member. -/
theorem astray_groupRest (h : P.parted c.rest) (start : Cursor) (k : Connective)
    (first : Condition) (fuel : Nat) :
    P.Astray (do
      let (more, d) ← furtherMembers read fuel c
      let e ← take .closing (.groupClosing k) d
      if more.isEmpty then
        .error (start.fail (.lonelyMember k))
      else
        .ok (Condition.group k (first :: more), e)) :=
  (astray_of_moves h (moves_furtherMembers hmoves _ c)).bind fun more _ h =>
    astray_groupEnd h start k first more

theorem agree_conditionLayer (h : P.paired c.rest c'.rest) :
    P.Agree Condition.eraseSpans (conditionLayer read c) (conditionLayer read c') := by
  have hstart := h
  rw [conditionLayer, conditionLayer, ← peek?_eq h]
  split
  · rename_i hk
    rcases advance h hk with h | h
    · refine .bind_take h (fun h => ?_) fun h => ?_
      · exact (astray_of_moves h (hmoves _)).bind fun inner d hd =>
          astray_of_moves hd (.bind_take (.refl d) fun e us h => ⟨us, h⟩)
      refine .bind (hread h) (fun inner d hd => ?_) ?_
      · exact astray_of_moves hd (.bind_take (.refl d) fun e us h => ⟨us, h⟩)
      rintro inner d inner' d' - - hinner h
      refine .bind_take h id fun h => ?_
      exact .ok (by rw [Condition.eraseSpans, Condition.eraseSpans, hinner]) h
    · refine .astray <| astray_of_moves h <| .bind_take (.refl _) fun d us h => ?_
      exact .bind h (hmoves d) fun inner e vs h => .bind_take h fun e ws h => ⟨ws, h⟩
  · rename_i k hk
    rcases advance h hk with h | h
    · refine .bind_take h (fun h => ?_) fun h => ?_
      · exact (astray_of_moves h (hmoves _)).bind fun first d hd =>
          astray_groupRest hmoves hd c k first _
      refine .bind (hread h) (fun first d hd => astray_groupRest hmoves hd c k first _) ?_
      rintro first d first' d' - - hfirst h
      refine .bind (agree_furtherMembers hmoves hread (le_refl _) (le_refl _) h)
        (fun more e he => astray_groupEnd he c k first more) ?_
      rintro more e more' e' - - hmore h
      dsimp only
      rw [take, take, ← peek?_eq h, ← isEmpty_eq_of_eraseAllSpans hmore]
      by_cases hclosing : e.peek? = some .closing
      · rw [if_pos hclosing, if_pos hclosing, Except.ok_bind, Except.ok_bind]
        -- a single member is reported in both runs, whatever follows the bracket
        split_ifs
        · exact .error rfl hstart
        rcases advance h hclosing with h | h
        · refine .ok ?_ h
          rw [Condition.eraseSpans, Condition.eraseSpans, Condition.eraseAllSpans,
            Condition.eraseAllSpans, hfirst, hmore]
        · exact .astray h
      · rw [if_neg hclosing, if_neg hclosing]
        exact .error rfl h
    · refine .astray <| .bind_take h fun h => ?_
      exact (astray_of_moves h (hmoves _)).bind fun first d hd =>
        astray_groupRest hmoves hd c k first _
  · exact agree_leaf hmoves hread h
  · exact .error rfl h

end Layer

theorem agree_condition (N : Nat) (h : P.paired c.rest c'.rest) :
    P.Agree Condition.eraseSpans (condition N c) (condition N c') := by
  induction N generalizing c c' with
  | zero => exact .error rfl h
  | succ N ih => exact agree_conditionLayer (moves_condition N) ih h

theorem agree_rootQuery (h : P.paired c.rest c'.rest) :
    P.Agree Query.eraseSpans (rootQuery c) (rootQuery c') := by
  rw [rootQuery, rootQuery]
  refine .bind (agree_entity h) (fun e d hd => ?_) ?_
  · refine .bind_take hd fun h => ?_
    exact (astray_of_moves h (moves_condition _ _)).bind fun inner f hf =>
      .bind_take hf id
  rintro e d e' d' - - rfl h
  refine .bind_take h (fun h => ?_) fun h => ?_
  · exact (astray_of_moves h (moves_condition _ _)).bind fun inner f hf =>
      .bind_take hf id
  refine .bind (agree_condition _ h) (fun inner f hf => .bind_take hf id) ?_
  rintro inner f inner' f' - - hinner h
  refine .bind_take h id fun h => ?_
  exact .ok (by rw [Query.eraseSpans, Query.eraseSpans, hinner]; rfl) h

/-! ### Tokens as a whole -/

theorem isEmpty_eq (h : P.paired c.rest c'.rest) : c.rest.isEmpty = c'.rest.isEmpty := by
  have hhead := P.head h
  revert hhead
  cases c.rest <;> cases c'.rest <;> simp

/-- If the first run reads its tokens, then so does the second one, or the first has gone beyond. -/
theorem wholeQuery_eq_ok (h : P.paired c.rest c'.rest) {q : Query} (hq : wholeQuery c = .ok q) :
    (∃ q', wholeQuery c' = .ok q' ∧ q.eraseSpans = q'.eraseSpans) ∨ ∃ ts, P.parted ts := by
  have hroot := agree_rootQuery h
  rw [wholeQuery] at hq ⊢
  generalize rootQuery c = x, rootQuery c' = x' at hroot hq ⊢
  cases hroot with
  | @ok q₁ q₂ d d' hview h =>
    simp only [Except.ok_bind, inputEnd, ← isEmpty_eq h] at hq ⊢
    split_ifs at hq ⊢
    · cases hq
      exact .inl ⟨q₂, rfl, hview⟩
    · cases hq
  | error hcause h => cases hq
  | astray hastray =>
    obtain ⟨⟨q₁, d⟩, rfl, -⟩ := Except.bind_eq_ok.mp hq
    exact .inr ⟨d.rest, hastray⟩

/-- If the first run fails, then the second one fails for the same reason on a token that is alike,
or the first has gone beyond. -/
theorem wholeQuery_eq_error (h : P.paired c.rest c'.rest) {f : Failure}
    (hf : wholeQuery c = .error f) :
    (∃ f', wholeQuery c' = .error f' ∧ f.cause = f'.cause ∧ P.paired f.rest f'.rest)
      ∨ P.parted f.rest ∨ P.closes ∧ ∃ k, f.cause = .lonelyMember k := by
  have hroot := agree_rootQuery h
  rw [wholeQuery] at hf ⊢
  generalize rootQuery c = x, rootQuery c' = x' at hroot hf ⊢
  cases hroot with
  | @ok q₁ q₂ d d' hview h =>
    simp only [Except.ok_bind, inputEnd, ← isEmpty_eq h] at hf ⊢
    split_ifs at hf ⊢
    · cases hf
    · cases hf
      exact .inl ⟨d'.fail .trailing, rfl, rfl, h⟩
  | @error f₁ f₂ hcause h =>
    cases hf
    exact .inl ⟨f₂, rfl, hcause, h⟩
  | astray hastray =>
    rcases x with g | ⟨q, d⟩
    · cases hf
      exact .inr hastray
    · simp only [Except.ok_bind, inputEnd] at hf
      split_ifs at hf
      · cases hf
      · cases hf
        exact .inr (.inl hastray)

end Pairing

end NodeQuery.Parser
