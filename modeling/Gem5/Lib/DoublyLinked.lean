import Mathlib.Data.List.Perm.Basic

/-! Doubly linked lists, as a pair of functions `next` and `prev` on the nodes. -/

namespace Lib.DoublyLinked

variable {A : Type}

/-- The nodes of `order` are linked in this order. -/
def Links (next prev : A → Option A) (order : List A) : Prop :=
  ∀ k a, order[k]? = some a → next a = order[k + 1]? ∧ prev a = if k = 0 then none else order[k - 1]?

/-- The order after the node at position `pos` has been moved to the head. -/
def toHead (a : A) (pos : Nat) (order : List A) : List A := a :: order.eraseIdx pos

variable {order : List A} {a : A} {pos : Nat}

theorem getElem?_toHead_zero : (toHead a pos order)[0]? = some a := rfl

theorem getElem?_toHead_succ (k : Nat) :
    (toHead a pos order)[k + 1]? = if k < pos then order[k]? else order[k + 1]? := by
  rw [toHead, List.getElem?_cons_succ, List.getElem?_eraseIdx]

theorem toHead_perm (h : order[pos]? = some a) : (toHead a pos order).Perm order := by
  obtain ⟨hlt, rfl⟩ := List.getElem?_eq_some_iff.mp h
  exact List.getElem_cons_eraseIdx_perm hlt

/-- A position of the new order other than the head is one of the old order. -/
theorem exists_of_toHead (hk : (toHead a pos order)[k + 1]? = some b) :
    ∃ m, order[m]? = some b ∧ (m = k ∧ k < pos ∨ m = k + 1 ∧ pos ≤ k) := by
  rw [getElem?_toHead_succ] at hk
  by_cases hlt : k < pos
  · rw [if_pos hlt] at hk
    exact ⟨k, hk, .inl ⟨rfl, hlt⟩⟩
  · rw [if_neg hlt] at hk
    exact ⟨k + 1, hk, .inr ⟨rfl, Nat.not_lt.mp hlt⟩⟩

theorem pos_inj (hnodup : order.Nodup) {i j : Nat} {b : A} (hi : order[i]? = some b) (hj : order[j]? = some b) :
    i = j :=
  (List.getElem?_inj (List.getElem?_eq_some_iff.mp hi).1 hnodup).mp (hi.trans hj.symm)

/-- Unlinking a node that is not the head and linking it before the head. The
hypotheses say which links change: those of the node, that of its predecessor to
its successor and back, and that of the old head to the node. -/
theorem Links.toHead {next prev next' prev' : A → Option A} (h : Links next prev order) (hnodup : order.Nodup)
    (ha : order[pos]? = some a) (hpos : 0 < pos) {head : A} (hhead : order[0]? = some head)
    (hnext_self : next' a = some head) (hprev_self : prev' a = none)
    (hnext_pred : ∀ b, prev a = some b → next' b = next a) (hnext : ∀ b, b ≠ a → prev a ≠ some b → next' b = next b)
    (hprev_head : prev' head = some a) (hprev_succ : ∀ b, next a = some b → prev' b = prev a)
    (hprev : ∀ b, b ≠ a → b ≠ head → next a ≠ some b → prev' b = prev b) : Links next' prev' (toHead a pos order) := by
  obtain ⟨hnexta, hpreva⟩ := h pos a ha
  rw [if_neg (by omega)] at hpreva
  intro k b hk
  cases k with
  | zero =>
    cases hk
    refine ⟨?_, hprev_self⟩
    rw [hnext_self, getElem?_toHead_succ, if_pos hpos, hhead]
  | succ k =>
    obtain ⟨m, hm, hcases⟩ := exists_of_toHead hk
    obtain ⟨hnextb, hprevb⟩ := h m b hm
    have hne : b ≠ a := by
      rintro rfl
      have := pos_inj hnodup hm ha
      omega
    constructor
    · rw [getElem?_toHead_succ]
      by_cases hpred : m + 1 = pos
      · have hprevab : prev a = some b := by
          rw [hpreva, ← hpred, Nat.add_sub_cancel, hm]
        rw [hnext_pred b hprevab, hnexta, if_neg (by omega)]
        congr 1
        omega
      · have hnot : prev a ≠ some b := by
          intro hab
          have := pos_inj hnodup hm (hpreva.symm.trans hab)
          omega
        rw [hnext b hne hnot, hnextb]
        rcases hcases with ⟨rfl, hlt⟩ | ⟨rfl, hle⟩
        · rw [if_pos (by omega)]
        · rw [if_neg (by omega)]
    · rw [if_neg (Nat.succ_ne_zero k), Nat.add_sub_cancel]
      by_cases hb : b = head
      · have hzero : m = 0 := pos_inj hnodup hm (hb ▸ hhead)
        rw [hb, hprev_head]
        rcases hcases with ⟨rfl, hlt⟩ | ⟨rfl, hle⟩
        · rw [hzero, getElem?_toHead_zero]
        · omega
      · have hmpos : m ≠ 0 := by
          rintro rfl
          exact hb (Option.some.inj (hm.symm.trans hhead))
        by_cases hsucc : m = pos + 1
        · have hnextab : next a = some b := by rw [hnexta, ← hsucc, hm]
          rw [hprev_succ b hnextab, hpreva]
          obtain ⟨k, rfl⟩ : ∃ k', k = k' + 1 := ⟨k - 1, by omega⟩
          rw [getElem?_toHead_succ, if_pos (by omega)]
          congr 1
          omega
        · have hnot : next a ≠ some b := by
            intro hab
            exact hsucc (pos_inj hnodup hm (hnexta.symm.trans hab))
          rw [hprev b hne hb hnot, hprevb, if_neg hmpos]
          obtain ⟨k, rfl⟩ : ∃ k', k = k' + 1 := ⟨k - 1, by omega⟩
          rw [getElem?_toHead_succ]
          rcases hcases with ⟨rfl, hlt⟩ | ⟨rfl, hle⟩
          · rw [if_pos (by omega), Nat.add_sub_cancel]
          · rw [if_neg (by omega), Nat.add_sub_cancel]

end Lib.DoublyLinked
