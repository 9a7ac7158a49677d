import Mathlib.Data.List.TakeWhile

/-!
# The words of a line

The runs of letters between separators, in order, each with the place where it begins.
-/

namespace Onixs

namespace Words

variable {α : Type} [DecidableEq α]

/-- **The words** of a line that begins at place `i`: the longest runs without a separator. -/
def words (sep : α) (i : ℕ) : List α → List (ℕ × List α)
  | [] => []
  | c :: l =>
      if c = sep then
        words sep (i + 1) l
      else
        (i, c :: l.takeWhile (· ≠ sep)) ::
          words sep (i + 1 + (l.takeWhile (· ≠ sep)).length) (l.dropWhile (· ≠ sep))
termination_by l => l.length
decreasing_by
  · exact Nat.lt_succ_self _
  · exact Nat.lt_succ_of_le (List.length_dropWhile_le _ l)

variable {sep c : α} {i : ℕ} {l : List α}

@[simp] theorem words_nil : words sep i [] = [] := by rw [words]

theorem words_sep : words sep i (sep :: l) = words sep (i + 1) l := by rw [words, if_pos rfl]

theorem words_cons (h : c ≠ sep) : words sep i (c :: l) = (i, c :: l.takeWhile (· ≠ sep)) ::
    words sep (i + 1 + (l.takeWhile (· ≠ sep)).length) (l.dropWhile (· ≠ sep)) := by
  rw [words, if_neg h]

/-- Separators in front of a line. -/
theorem words_dropWhile (sep : α) (l : List α) (i : ℕ) :
    words sep i l = words sep (i + (l.takeWhile (· = sep)).length) (l.dropWhile (· = sep)) := by
  induction l generalizing i with
  | nil => rfl
  | cons c l ih =>
    by_cases hc : c = sep
    · rw [hc, words_sep, ih, List.takeWhile_cons_of_pos (by simp), List.dropWhile_cons_of_pos (by simp),
        List.length_cons, Nat.add_assoc, Nat.add_comm 1]
    · rw [List.takeWhile_cons_of_neg (by simpa using hc), List.dropWhile_cons_of_neg (by simpa using hc)]
      rfl

end Words

end Onixs
