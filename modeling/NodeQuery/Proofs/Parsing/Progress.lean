/-
What readers take.

A reader takes tokens from the front of its cursor and stops in front of another one, where it
succeeds or fails. So the tokens that it has read are a part of those that it was given, and a
failure is blamed on a token among them.

* `Parser.Cursor.Takes`: the tokens between two cursors.
* `Parser.Moves`: where a reader may stop; `Parser.moves_entity`, …, `Parser.moves_condition`: all
  readers do.
* `Parser.suffix_of_wholeQuery`, …: the token to blame if a text as a whole is not read.
-/
import NodeQuery.Proofs.Parsing.Soundness

namespace NodeQuery.Parser

/-! ### The tokens between two cursors -/

/-- `c.Takes us d`: the tokens `us` stand between the cursors `c` and `d`. -/
structure Cursor.Takes (c : Cursor) (us : List Token) (d : Cursor) : Prop where
  rest_eq : c.rest = us ++ d.rest
  stop_eq : d.stop = (us.getLast?.map Token.stop).getD c.stop

namespace Cursor

variable {c d e : Cursor} {us vs : List Token}

theorem Takes.refl (c : Cursor) : c.Takes [] c :=
  ⟨rfl, rfl⟩

theorem Takes.trans (h : c.Takes us d) (h' : d.Takes vs e) : c.Takes (us ++ vs) e := by
  refine ⟨by rw [h.rest_eq, h'.rest_eq, List.append_assoc], ?_⟩
  rw [h'.stop_eq, h.stop_eq, List.getLast?_append]
  cases vs.getLast? <;> rfl

/-- The token at which a cursor stands is between it and the next cursor. -/
theorem takes_advance {k : Token.Kind} (h : c.peek? = some k) :
    ∃ t, t.kind = k ∧ c.Takes [t] c.advance := by
  obtain ⟨rest, stop⟩ := c
  cases rest with
  | nil => cases h
  | cons t rest => exact ⟨t, Option.some.inj h, rfl, rfl⟩

theorem Takes.ahead_eq (h : c.Takes us d) : c.ahead = us.map Token.kind ++ d.ahead := by
  rw [ahead, h.rest_eq, List.map_append, ahead]

theorem Takes.suffix (h : c.Takes us d) : d.rest <:+ c.rest :=
  ⟨us, h.rest_eq.symm⟩

/-- The kinds of the tokens between two cursors. -/
theorem Takes.map_kind (h : c.Takes us d) {ks : List Token.Kind} (hks : c.ahead = ks ++ d.ahead) :
    us.map Token.kind = ks :=
  List.append_cancel_right (h.ahead_eq.symm.trans hks)

end Cursor

/-! ### Where readers stop -/

section Moves

variable {α β : Type} {c d : Cursor} {us : List Token}

/-- A reader that starts at `c` stops behind tokens ahead of `c`, and blames one of them or the
end of the input if it fails. -/
def Moves (c : Cursor) : Except Failure (α × Cursor) → Prop
  | .ok (_, d) => ∃ us, c.Takes us d
  | .error f => f.rest <:+ c.rest

theorem Moves.of_takes (h : c.Takes us d) {x : Except Failure (α × Cursor)} (hx : Moves d x) :
    Moves c x := by
  rcases x with f | ⟨a, e⟩
  · exact List.IsSuffix.trans hx h.suffix
  · obtain ⟨vs, hvs⟩ := hx
    exact ⟨_, h.trans hvs⟩

/-- One reader behind the other. What follows may still blame the token at `c`. -/
theorem Moves.bind (h : c.Takes us d) {x : Except Failure (α × Cursor)} (hx : Moves d x)
    {g : α × Cursor → Except Failure (β × Cursor)}
    (hg : ∀ a e vs, c.Takes vs e → Moves c (g (a, e))) : Moves c (x >>= g) := by
  rcases x with f | ⟨a, e⟩
  · exact List.IsSuffix.trans hx h.suffix
  · obtain ⟨vs, hvs⟩ := hx
    exact hg a e _ (h.trans hvs)

theorem Moves.bind_take (h : c.Takes us d) {kind : Token.Kind} {what : Expectation}
    {g : Cursor → Except Failure (β × Cursor)} (hg : ∀ e vs, c.Takes vs e → Moves c (g e)) :
    Moves c (take kind what d >>= g) := by
  rw [take]
  split_ifs with hk
  · obtain ⟨t, -, ht⟩ := Cursor.takes_advance hk
    exact hg _ _ (h.trans ht)
  · exact h.suffix

theorem moves_identifier (what : Expectation) (c : Cursor) : Moves c (identifier what c) := by
  rw [identifier]
  split
  · rename_i hk
    obtain ⟨t, -, ht⟩ := Cursor.takes_advance hk
    exact ⟨_, ht⟩
  · exact List.suffix_refl _

theorem moves_entity (c : Cursor) : Moves c (entity c) := by
  rw [entity]
  refine .bind (.refl c) (moves_identifier ..) fun nodeType d us h => ?_
  dsimp only
  split
  · rename_i hk
    obtain ⟨t, -, ht⟩ := Cursor.takes_advance hk
    exact ⟨_, h.trans ht⟩
  · exact ⟨_, h⟩

theorem moves_properties (fuel : Nat) (c : Cursor) : Moves c (properties fuel c) := by
  induction fuel generalizing c with
  | zero => exact ⟨_, .refl c⟩
  | succ fuel ih =>
    rw [properties]
    split_ifs with hk
    · obtain ⟨t, -, ht⟩ := Cursor.takes_advance hk
      refine .bind ht (moves_identifier ..) fun first d us h => ?_
      exact .bind h (ih d) fun more e vs h => ⟨_, h⟩
    · exact ⟨_, .refl c⟩

theorem moves_subject (c : Cursor) : Moves c (subject c) := by
  rw [subject]
  refine .bind (.refl c) (moves_identifier ..) fun name d us h => ?_
  exact .bind h (moves_properties ..) fun behind e vs h => ⟨_, h⟩

theorem moves_value (c : Cursor) : Moves c (value c) := by
  rw [value]
  split
  · rename_i hk
    obtain ⟨k, hpeek, -⟩ := Option.bind_eq_some_iff.mp hk
    obtain ⟨t, -, ht⟩ := Cursor.takes_advance hpeek
    exact ⟨_, ht⟩
  · exact List.suffix_refl _

theorem takes_nestedEnd (c : Cursor) : ∃ us, c.Takes us (nestedEnd c) := by
  rw [nestedEnd]
  split_ifs with hk
  · rw [Bool.and_eq_true, decide_eq_true_eq] at hk
    obtain ⟨t, -, ht⟩ := Cursor.takes_advance hk.1
    exact ⟨_, ht⟩
  · exact ⟨_, .refl c⟩

section Layer

variable {read : Cursor → Except Failure (Condition × Cursor)}

/-- What is read of a nested query behind its declaration. -/
theorem moves_nestedBody (hread : ∀ c, Moves c (read c)) (declared : Entity) (place : Span)
    (c : Cursor) : Moves c (if c.peek? = some .whereWord then do
        let (inner, d) ← read c.advance
        .ok (Query.mk declared inner ⟨some place, some c.span, some (c.advance.spanTo d)⟩,
          nestedEnd d)
      else
        .ok (⟨declared, Condition.placeholder declared, ⟨some place, none, none⟩⟩,
          nestedEnd c)) := by
  split_ifs with hk
  · obtain ⟨t, -, ht⟩ := Cursor.takes_advance hk
    refine .bind ht (hread _) fun inner d us h => ?_
    obtain ⟨vs, hend⟩ := takes_nestedEnd d
    exact ⟨_, h.trans hend⟩
  · exact takes_nestedEnd c

theorem moves_nestedQuery (hread : ∀ c, Moves c (read c)) (c : Cursor) :
    Moves c (nestedQuery read c) :=
  .bind (.refl c) (moves_entity c) fun _ _ _ h => .of_takes h (moves_nestedBody hread _ _ _)

/-- What is read of a leaf behind its attribute. -/
theorem moves_leafBody (hread : ∀ c, Moves c (read c)) (a : Attribute) (c : Cursor) :
    Moves c (match c.peek? with
      | some (.valueOp op) => do
        let (raw, d) ← value c.advance
        .ok (Condition.value ⟨a, op, raw⟩, d)
      | some (.relOp op) => do
        let (query, d) ← nestedQuery read c.advance
        .ok (Condition.relate a op query, d)
      | _ => .ok (.value ⟨a, .equal, "true"⟩, c)) := by
  split
  · rename_i hk
    obtain ⟨t, -, ht⟩ := Cursor.takes_advance hk
    exact .bind ht (moves_value _) fun raw d us h => ⟨_, h⟩
  · rename_i hk
    obtain ⟨t, -, ht⟩ := Cursor.takes_advance hk
    exact .bind ht (moves_nestedQuery hread _) fun query d us h => ⟨_, h⟩
  · exact ⟨_, .refl c⟩

theorem moves_leaf (hread : ∀ c, Moves c (read c)) (c : Cursor) : Moves c (leaf read c) :=
  .bind (.refl c) (moves_subject c) fun _ _ _ h => .of_takes h (moves_leafBody hread _ _)

theorem moves_furtherMembers (hread : ∀ c, Moves c (read c)) (fuel : Nat) (c : Cursor) :
    Moves c (furtherMembers read fuel c) := by
  induction fuel generalizing c with
  | zero => exact ⟨_, .refl c⟩
  | succ fuel ih =>
    rw [furtherMembers]
    split_ifs with hk
    · obtain ⟨t, -, ht⟩ := Cursor.takes_advance hk
      refine .bind ht (hread _) fun member d us h => ?_
      exact .bind h (ih d) fun more e vs h => ⟨_, h⟩
    · exact ⟨_, .refl c⟩

theorem moves_conditionLayer (hread : ∀ c, Moves c (read c)) (c : Cursor) :
    Moves c (conditionLayer read c) := by
  rw [conditionLayer]
  split
  · rename_i hk
    obtain ⟨t, -, ht⟩ := Cursor.takes_advance hk
    refine .bind_take ht fun d us h => ?_
    refine .bind h (hread d) fun inner e vs h => ?_
    exact .bind_take h fun e ws h => ⟨_, h⟩
  · rename_i hk
    obtain ⟨t, -, ht⟩ := Cursor.takes_advance hk
    refine .bind_take ht fun d us h => ?_
    refine .bind h (hread d) fun member e vs h => ?_
    refine .bind h (moves_furtherMembers hread _ e) fun more e ws h => ?_
    refine .bind_take h fun e ws h => ?_
    -- a group with one member is blamed on its first token
    split_ifs
    · exact List.suffix_refl _
    · exact ⟨_, h⟩
  · exact moves_leaf hread c
  · exact List.suffix_refl _

end Layer

theorem moves_condition (N : Nat) (c : Cursor) : Moves c (condition N c) := by
  induction N generalizing c with
  | zero => exact List.suffix_refl _
  | succ N ih => exact moves_conditionLayer ih c

theorem moves_rootQuery (c : Cursor) : Moves c (rootQuery c) := by
  rw [rootQuery]
  refine .bind (.refl c) (moves_entity c) fun declared d us h => ?_
  refine .bind_take h fun e vs h => ?_
  refine .bind h (moves_condition _ e) fun inner e ws h => ?_
  exact .bind_take h fun e ws h => ⟨_, h⟩

end Moves

/-! ### The token to blame -/

section Suffix

variable {c : Cursor} {f : Failure}

theorem suffix_of_inputEnd (h : inputEnd c = .error f) : f.rest = c.rest := by
  rw [inputEnd] at h
  split_ifs at h
  cases h
  rfl

theorem suffix_skipSemicolon (c : Cursor) : (skipSemicolon c).rest <:+ c.rest := by
  rw [skipSemicolon]
  split_ifs with hk
  · obtain ⟨t, -, ht⟩ := Cursor.takes_advance hk
    exact ht.suffix
  · exact List.suffix_refl _

/-- If a text as a whole is not read, a token of it is to blame. -/
theorem suffix_of_whole {α : Type} {x : Except Failure (α × Cursor)} {behind : Cursor → Cursor}
    (hx : Moves c x) (hbehind : ∀ d, (behind d).rest <:+ d.rest)
    (h : (do
      let (a, d) ← x
      inputEnd (behind d)
      .ok a) = .error f) : f.rest <:+ c.rest := by
  rcases x with g | ⟨a, d⟩
  · cases h
    exact hx
  · obtain ⟨us, hus⟩ := hx
    rw [Except.ok_bind] at h
    dsimp only at h
    rcases hend : inputEnd (behind d) with g | ⟨⟩
    · rw [hend] at h
      cases h
      rw [suffix_of_inputEnd hend]
      exact (hbehind d).trans hus.suffix
    · rw [hend] at h
      cases h

theorem suffix_of_wholeQuery (h : wholeQuery c = .error f) : f.rest <:+ c.rest :=
  @suffix_of_whole c f _ _ id (moves_rootQuery c) (fun _ => List.suffix_refl _) h

theorem suffix_of_wholeCondition (h : wholeCondition c = .error f) : f.rest <:+ c.rest :=
  suffix_of_whole (moves_condition _ c) suffix_skipSemicolon h

theorem suffix_of_wholeNested (h : wholeNested c = .error f) : f.rest <:+ c.rest :=
  suffix_of_whole (moves_nestedQuery (moves_condition _) c) suffix_skipSemicolon h

end Suffix

end NodeQuery.Parser
