import Gem5.Lib.Result

open List

/-! Lists kept in the order of use: the operations that rotate an element to one
end, and the order they maintain. -/

namespace Lib.Recency

variable {A : Type}

section Rotate

variable [DecidableEq A]

/-- `do { swap(list[i], next); ++i; } while (next != a)`, with the end of the list
checked. -/
def rotate (a next : A) : List A → Result (List A)
  | [] => .error .assertion
  | b :: bs => if b = a then .ok (next :: bs) else (rotate a b bs).map (next :: ·)

/-- Writes `a` to the head and moves the elements before it up by one. -/
def moveToHead (a : A) (order : List A) : Result (List A) :=
  if order.head? = some a then .ok order else rotate a a order

/-- Writes `a` to the tail and moves the elements after it down by one. -/
def moveToTail (a : A) (order : List A) : Result (List A) :=
  if order.getLast? = some a then .ok order else (rotate a a order.reverse).map reverse

theorem rotate_of_mem {next : A} {order : List A} (h : a ∈ order) :
    rotate a next order = .ok (next :: order.erase a) := by
  induction order generalizing next with
  | nil => cases h
  | cons b bs ih =>
    by_cases hb : b = a
    · simp [rotate, hb]
    · have hmem : a ∈ bs := (mem_cons.mp h).resolve_left fun heq => hb heq.symm
      rw [rotate, if_neg hb, ih hmem, erase_cons_tail (by simpa using hb)]
      rfl

theorem moveToHead_of_mem {order : List A} (h : a ∈ order) : moveToHead a order = .ok (a :: order.erase a) := by
  unfold moveToHead
  split
  · rename_i hhead
    obtain ⟨rest, rfl⟩ := head?_eq_some_iff.mp hhead
    rw [erase_cons_head]
  · exact rotate_of_mem h

theorem moveToTail_of_mem {order : List A} (h : a ∈ order) (hnodup : order.Nodup) :
    moveToTail a order = .ok (order.erase a ++ [a]) := by
  unfold moveToTail
  split
  · rename_i hlast
    obtain ⟨before, rfl⟩ := getLast?_eq_some_iff.mp hlast
    have hnot : a ∉ before := fun hmem =>
      (nodup_append.mp hnodup).2.2 a hmem a (mem_singleton_self a) rfl
    rw [erase_append_right _ hnot, erase_cons_head, append_nil]
  · rw [rotate_of_mem (mem_reverse.mpr h)]
    obtain ⟨before, after, rfl⟩ := append_of_mem h
    have hbefore : a ∉ before := fun hmem =>
      (nodup_append.mp hnodup).2.2 a hmem a mem_cons_self rfl
    have hafter : a ∉ after := (nodup_cons.mp (nodup_append.mp hnodup).2.1).1
    rw [erase_append_right _ hbefore, erase_cons_head, reverse_append, reverse_cons,
      append_assoc, erase_append_right _ (by simpa using hafter)]
    simp [Except.map]

end Rotate

/-- The valid elements come before the others, and the more recently used ones of
them before the less recently used. -/
def Ordered (valid : A → Prop) (used : A → Nat) (order : List A) : Prop :=
  order.Pairwise fun a b => valid b → valid a ∧ used b < used a

variable {valid valid' : A → Prop} {used used' : A → Nat} {order : List A} {a : A}

theorem Ordered.congr (h : Ordered valid used order) (hvalid : ∀ b ∈ order, valid' b ↔ valid b)
    (hused : ∀ b ∈ order, used' b = used b) : Ordered valid' used' order := by
  refine h.imp_of_mem fun {b c} hb hc hbefore hvalidc => ?_
  obtain ⟨hvalidb, hlt⟩ := hbefore ((hvalid c hc).mp hvalidc)
  rw [hused b hb, hused c hc]
  exact ⟨(hvalid b hb).mpr hvalidb, hlt⟩

section Moves

variable [DecidableEq A] (h : Ordered valid used order) (hnodup : order.Nodup)
  (hvalid : ∀ b, b ≠ a → (valid' b ↔ valid b)) (hused : ∀ b, b ≠ a → used' b = used b)
include h hnodup hvalid hused

/-- The elements other than the one that moves stay in order. -/
theorem Ordered.erase : Ordered valid' used' (order.erase a) := by
  have hne : ∀ b ∈ order.erase a, b ≠ a := fun b hb => (hnodup.mem_erase_iff.mp hb).1
  have hsub : Ordered valid used (order.erase a) := List.Pairwise.sublist erase_sublist h
  exact hsub.congr (fun b hb => hvalid b (hne b hb)) fun b hb => hused b (hne b hb)

/-- A use moves the element to the head. -/
theorem Ordered.moveToHead (ha : valid' a)
    (hlast : ∀ b, b ≠ a → used b < used' a) : Ordered valid' used' (a :: order.erase a) := by
  refine List.Pairwise.cons (fun b hb _ => ?_) (h.erase hnodup hvalid hused)
  have hne : b ≠ a := (hnodup.mem_erase_iff.mp hb).1
  rw [hused b hne]
  exact ⟨ha, hlast b hne⟩

/-- An element that is no longer valid moves to the tail. -/
theorem Ordered.moveToTail (ha : ¬ valid' a) : Ordered valid' used' (order.erase a ++ [a]) := by
  refine pairwise_append.mpr ⟨h.erase hnodup hvalid hused, pairwise_singleton _ _, ?_⟩
  intro b _ c hc hvalidc
  rw [mem_singleton.mp hc] at hvalidc
  exact absurd hvalidc ha

end Moves

/-- The last element that satisfies `p` is not valid if there is such an element,
and otherwise the least recently used one. -/
theorem Ordered.victim (h : Ordered valid used order) {p : A → Bool} (hfind : order.reverse.find? p = some a) :
    ∀ b ∈ order, p b = true → b ≠ a → valid a → valid b ∧ used a < used b := by
  obtain ⟨-, after, before, hsplit, hafter⟩ := find?_eq_some_iff_append.mp hfind
  have horder : order = before.reverse ++ a :: after.reverse := by
    rw [← reverse_reverse order, hsplit, reverse_append, reverse_cons, append_assoc, singleton_append]
  rw [horder] at h ⊢
  intro b hb hp hne hvalid
  rcases mem_append.mp hb with hb | hb
  · exact (pairwise_append.mp h).2.2 b hb a mem_cons_self hvalid
  rcases mem_cons.mp hb with heq | hb
  · exact absurd heq hne
  · have hnot := hafter b (mem_reverse.mp hb)
    rw [hp] at hnot
    cases hnot

end Lib.Recency
