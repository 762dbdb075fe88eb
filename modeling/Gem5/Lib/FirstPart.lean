import Mathlib.Data.List.TakeWhile

open List

namespace Lib

variable {A : Type} {p : A → Bool}

/-- In a list where `p` does not come back, its first part is all that satisfies
`p`. -/
theorem dropWhile_eq_filter {l : List A} (h : l.Pairwise fun a b => p b = true → p a = true) :
    l.dropWhile p = l.filter fun a => !p a := by
  induction l with
  | nil => rfl
  | cons a l ih =>
    obtain ⟨ha, hl⟩ := pairwise_cons.mp h
    by_cases hp : p a
    · rw [dropWhile_cons_of_pos hp, ih hl, filter_cons_of_neg (by simpa using hp)]
    have hrest : ∀ b ∈ l, (!p b) = true := by
      intro b hb
      rw [Bool.not_eq_true']
      exact Bool.eq_false_iff.mpr fun hpb => hp (ha b hb hpb)
    rw [dropWhile_cons_of_neg hp, filter_cons_of_pos (by simpa using hp), filter_eq_self.mpr hrest]

theorem not_of_mem_dropWhile {l : List A} (h : l.Pairwise fun a b => p b = true → p a = true)
    (hmem : a ∈ l.dropWhile p) : p a = false := by
  rw [dropWhile_eq_filter h] at hmem
  simpa using (mem_filter.mp hmem).2

/-- The first part ends before elements that do not satisfy `p`. -/
theorem dropWhile_append_of_not {l after : List A} (h : ∀ a ∈ after, p a = false) :
    (l ++ after).dropWhile p = l.dropWhile p ++ after := by
  have hafter : after.dropWhile p = after := by
    cases after with
    | nil => rfl
    | cons a after => exact dropWhile_cons_of_neg (by simp [h a mem_cons_self])
  rw [dropWhile_append, hafter]
  split
  · rename_i hempty
    rw [List.isEmpty_iff.mp hempty, nil_append]
  · rfl

theorem takeWhile_append_of_not {l after : List A} (h : ∀ a ∈ after, p a = false) :
    (l ++ after).takeWhile p = l.takeWhile p := by
  have hsplit : (l ++ after).takeWhile p ++ (l.dropWhile p ++ after) = l.takeWhile p ++ (l.dropWhile p ++ after) := by
    rw [← dropWhile_append_of_not h, takeWhile_append_dropWhile, dropWhile_append_of_not h, ← append_assoc,
      takeWhile_append_dropWhile]
  exact append_cancel_right hsplit

end Lib
