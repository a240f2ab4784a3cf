/-
Facts about results, lists and texts that have nothing to do with queries.

* `Except.bind_eq_ok`: a sequence of steps succeeds just if each of them does.
* `Except.failure?`: why there is no result.
* `List.length_takeWhile_append`, `List.length_takeWhile_take`: runs at the front of a list of which
  the rest is changed or cut off.
* `List.append_cons_eq_append_cons`: two ways to cut a list at an element.
* `List.pairwise_idxOf_eraseDups`: without repetitions, a list is in the order of first occurrences.
* `String.append_word_inj`: a text is cut at its last blank in one way.
-/
import Mathlib.Data.List.Induction
import Mathlib.Data.List.TakeWhile
import Mathlib.Data.String.Basic
import Mathlib.Tactic.Common

/-! ### Results -/

namespace Except

variable {ε α β : Type} {x : Except ε α} {f : α → Except ε β}

theorem isOk_iff : x.isOk = true ↔ ∃ a, x = .ok a := by
  cases x <;> simp [isOk, Except.toBool]

theorem mem_toOption {a : α} : a ∈ x.toOption ↔ x = .ok a := by
  cases x <;> simp [Except.toOption]

theorem bind_eq_ok {b : β} : x >>= f = .ok b ↔ ∃ a, x = .ok a ∧ f a = .ok b := by
  cases x with
  | error e => simp [Bind.bind, Except.bind]
  | ok a => simp [Bind.bind, Except.bind]

theorem ok_bind {a : α} : (Except.ok a >>= f) = f a := rfl

theorem error_bind {e : ε} : (Except.error e >>= f) = .error e := rfl

/-- Why there is no result. -/
def failure? : Except ε α → Option ε
  | .error e => some e
  | .ok _ => none

theorem failure?_eq_some {e : ε} : x.failure? = some e ↔ x = .error e := by
  cases x <;> simp [failure?]

end Except

/-! ### Lists -/

namespace List

variable {α β : Type}

theorem mem_of_lookup [BEq α] [LawfulBEq α] {l : List (α × β)} {k : α} {b : β}
    (h : l.lookup k = some b) : (k, b) ∈ l := by
  obtain ⟨front, back, rfl, -⟩ := lookup_eq_some_iff.mp h
  simp

/-- A run does not go on beyond a list if it does not go on with what stands behind that. -/
theorem length_takeWhile_append {p : α → Bool} {rest : List α}
    (h : ∀ a ∈ rest.head?, p a = false) (l : List α) :
    ((l ++ rest).takeWhile p).length = (l.takeWhile p).length := by
  induction l with
  | nil =>
    -- the run has reached the end of its list, and `rest` does not go on with it
    cases rest with
    | nil => rfl
    | cons a rest => simp [h a (by simp)]
  | cons a l ih =>
    by_cases ha : p a
    · simp [ha, ih]
    · simp [ha]

/-- A run stays as it is if the list is cut off behind it. -/
theorem length_takeWhile_take {p : α → Bool} {l : List α} {n : Nat}
    (h : (l.takeWhile p).length ≤ n) :
    ((l.take n).takeWhile p).length = (l.takeWhile p).length := by
  induction l generalizing n with
  | nil => simp
  | cons a l ih =>
    cases n with
    | zero =>
      rw [Nat.le_zero.mp h]
      rfl
    | succ n =>
      by_cases ha : p a
      · simp only [takeWhile_cons, ha, if_true, length_cons, Nat.add_le_add_iff_right,
          take_succ_cons] at h ⊢
        rw [ih h]
      · simp [ha]

/-- Where two ways to cut a list at an element stand to each other, if the second element is
not in front of the first. -/
theorem append_cons_eq_append_cons {as bs as' bs' : List α} {a b : α}
    (h : as ++ a :: as' = bs ++ b :: bs') (hb : b ∉ as) :
    (bs = as ∧ a = b) ∨ ∃ ls, bs = as ++ a :: ls ∧ as' = ls ++ b :: bs' := by
  rcases append_eq_append_iff.mp h with ⟨ls, rfl, hls⟩ | ⟨ls, rfl, hls⟩
  · cases ls with
    | nil =>
      simp only [nil_append, cons.injEq] at hls
      exact .inl ⟨by simp, hls.1⟩
    | cons l ls =>
      simp only [cons_append, cons.injEq] at hls
      exact .inr ⟨ls, by rw [hls.1], hls.2⟩
  · cases ls with
    | nil =>
      simp only [nil_append, cons.injEq] at hls
      exact .inl ⟨by simp, hls.1.symm⟩
    | cons l ls =>
      simp only [cons_append, cons.injEq] at hls
      exact absurd (by simp [hls.1]) hb

/-- What is left of a list without repetitions is in the order of first occurrences. -/
theorem pairwise_idxOf_eraseDups [DecidableEq α] (l : List α) :
    l.eraseDups.Pairwise fun a b => l.idxOf a < l.idxOf b := by
  induction l using reverseRecOn with
  | nil => exact Pairwise.nil
  | append_singleton l z ih =>
    have hidx : ∀ a ∈ l, (l ++ [z]).idxOf a = l.idxOf a := fun a ha => idxOf_append_of_mem ha
    have hfront : l.eraseDups.Pairwise fun a b => (l ++ [z]).idxOf a < (l ++ [z]).idxOf b := by
      refine ih.imp_of_mem fun ha hb hlt => ?_
      rwa [hidx _ (mem_eraseDups.mp ha), hidx _ (mem_eraseDups.mp hb)]
    rw [eraseDups_append]
    by_cases hz : z ∈ l
    · have hnothing : [z].removeAll l = [] := by simp [removeAll, hz]
      rw [hnothing, eraseDups_nil, append_nil]
      exact hfront
    · have hlast : [z].removeAll l = [z] := by simp [removeAll, hz]
      rw [hlast, pairwise_append]
      refine ⟨hfront, by simp [eraseDups_cons], fun a ha b hb => ?_⟩
      obtain rfl : b = z := mem_singleton.mp (mem_eraseDups.mp hb)
      have ha := mem_eraseDups.mp ha
      rw [hidx a ha, idxOf_append_of_notMem hz]
      exact Nat.lt_add_right _ (idxOf_lt_length_of_mem ha)

end List

/-! ### Characters and texts -/

theorem Char.isAlpha_iff_toNat {c : Char} : c.isAlpha = true
    ↔ (65 ≤ c.toNat ∧ c.toNat ≤ 90) ∨ (97 ≤ c.toNat ∧ c.toNat ≤ 122) := by
  show (decide ('A'.val ≤ c.val ∧ c.val ≤ 'Z'.val)
    || (decide ('a'.val ≤ c.val) && decide (c.val ≤ 'z'.val))) = true ↔ _
  rw [Bool.or_eq_true, Bool.and_eq_true, decide_eq_true_eq, decide_eq_true_eq, decide_eq_true_eq]
  exact Iff.rfl

namespace String

/-- The texts without characters are those without bytes. -/
theorem utf8Len_pos {cs : List Char} (h : cs ≠ []) : 0 < utf8Len cs :=
  Nat.pos_of_ne_zero fun hzero => h (utf8Len_eq_zero.mp hzero)

/-- A text is cut at its last blank in one way. -/
theorem append_word_inj {s t v w : String} (hv : ' ' ∉ v.toList) (hw : ' ' ∉ w.toList)
    (h : s ++ " " ++ v = t ++ " " ++ w) : s = t ∧ v = w := by
  have hreverse : v.toList.reverse ++ ' ' :: s.toList.reverse
      = w.toList.reverse ++ ' ' :: t.toList.reverse := by
    simpa using congrArg (fun text => text.toList.reverse) h
  rcases List.append_cons_eq_append_cons hreverse (by simpa using hv) with
    ⟨hword, -⟩ | ⟨ls, hword, -⟩
  · obtain rfl := toList_injective (List.reverse_injective hword)
    refine ⟨toList_injective (List.reverse_injective ?_), rfl⟩
    exact (List.cons.inj (List.append_cancel_left hreverse)).2
  · have hblank : ' ' ∈ w.toList.reverse := by simp [hword]
    exact absurd (List.mem_reverse.mp hblank) hw

end String
