import Mathlib.Data.List.FinRange

open Function List

namespace Lib

namespace Circular

variable {A : Type} {n : Nat}

/-- The next slot of a circular buffer of `n + 1` slots. -/
def succ (i : Fin (n + 1)) : Fin (n + 1) := if i.val + 1 ≥ n + 1 then 0 else Fin.ofNat (n + 1) (i.val + 1)

/-- The slot before. -/
def pred (i : Fin (n + 1)) : Fin (n + 1) := if i.val = 0 then Fin.last n else Fin.ofNat (n + 1) (i.val - 1)

/-- The slot `k` places after `i`. -/
def advance (i : Fin (n + 1)) (k : Nat) : Fin (n + 1) := Fin.ofNat (n + 1) (i.val + k)

/-- The number of places from `head` to `i`. -/
def dist (head i : Fin (n + 1)) : Nat := (i.val + (n + 1) - head.val) % (n + 1)

theorem val_advance {i : Fin (n + 1)} (h : k ≤ n) :
    (advance i k).val = if i.val + k ≤ n then i.val + k else i.val + k - (n + 1) := by
  have hi := i.isLt
  simp only [advance, Fin.val_ofNat]
  split
  · exact Nat.mod_eq_of_lt (by omega)
  · rw [Nat.mod_eq_sub_mod (by omega), Nat.mod_eq_of_lt (by omega)]

theorem dist_eq (head i : Fin (n + 1)) :
    dist head i = if head.val ≤ i.val then i.val - head.val else i.val + (n + 1) - head.val := by
  have hi := i.isLt
  have hhead := head.isLt
  rw [dist]
  split
  · rw [Nat.mod_eq_sub_mod (by omega), Nat.mod_eq_of_lt (by omega)]
    omega
  · exact Nat.mod_eq_of_lt (by omega)

theorem natCast_dist (head i : Fin (n + 1)) : (dist head i : Int) = ((i.val : Int) - head.val) % ((n : Int) + 1) := by
  have hi := i.isLt
  have hhead := head.isLt
  rw [dist_eq]
  split
  · rw [Int.emod_eq_of_lt (by omega) (by omega)]
    omega
  · rw [← Int.add_emod_right, Int.emod_eq_of_lt (by omega) (by omega)]
    omega

theorem dist_le (head i : Fin (n + 1)) : dist head i ≤ n := by
  have hi := i.isLt
  rw [dist_eq]
  split <;> omega

@[simp]
theorem advance_zero (i : Fin (n + 1)) : advance i 0 = i := by
  apply Fin.ext
  simp [val_advance (Nat.zero_le n), Nat.le_of_lt_succ i.isLt]

@[simp]
theorem dist_self (i : Fin (n + 1)) : dist i i = 0 := by simp [dist_eq]

theorem dist_advance (head : Fin (n + 1)) (h : k ≤ n) : dist head (advance head k) = k := by
  have hhead := head.isLt
  rw [dist_eq, val_advance h]
  split <;> split <;> omega

theorem advance_dist (head i : Fin (n + 1)) : advance head (dist head i) = i := by
  have hi := i.isLt
  have hhead := head.isLt
  apply Fin.ext
  rw [val_advance (dist_le head i), dist_eq]
  split <;> split <;> omega

theorem advance_inj {i : Fin (n + 1)} {j k : Nat} (hj : j ≤ n) (hk : k ≤ n) : advance i j = advance i k ↔ j = k := by
  refine ⟨fun h => ?_, fun h => h ▸ rfl⟩
  rw [← dist_advance i hj, h, dist_advance i hk]

theorem advance_advance (i : Fin (n + 1)) (j k : Nat) : advance (advance i j) k = advance i (j + k) := by
  apply Fin.ext
  simp only [advance, Fin.val_ofNat]
  rw [Nat.mod_add_mod, Nat.add_assoc]

theorem succ_eq_advance (i : Fin (n + 1)) : succ i = advance i 1 := by
  have hi := i.isLt
  unfold succ
  split
  · obtain h : i.val + 1 = n + 1 := by omega
    apply Fin.ext
    simp [advance, h]
  · rfl

@[simp]
theorem succ_advance (i : Fin (n + 1)) (k : Nat) : succ (advance i k) = advance i (k + 1) := by
  rw [succ_eq_advance, advance_advance]

theorem advance_succ (i : Fin (n + 1)) (k : Nat) : advance (succ i) k = advance i (k + 1) := by
  rw [succ_eq_advance, advance_advance, Nat.add_comm 1 k]

theorem pred_succ (i : Fin (n + 1)) : pred (succ i) = i := by
  have hi := i.isLt
  apply Fin.ext
  unfold succ
  split
  · simp only [pred, Fin.val_zero, if_true, Fin.val_last]
    omega
  rename_i h
  have hval : (Fin.ofNat (n + 1) (i.val + 1)).val = i.val + 1 := Nat.mod_eq_of_lt (by omega)
  simp only [pred, hval]
  rw [if_neg (by omega), Fin.val_ofNat, Nat.add_sub_cancel, Nat.mod_eq_of_lt hi]

@[simp]
theorem pred_advance_succ (i : Fin (n + 1)) (k : Nat) : pred (advance i (k + 1)) = advance i k := by
  rw [← succ_advance, pred_succ]

/-- Seen from the next slot, the head is the last one. -/
theorem dist_succ_self (head : Fin (n + 1)) : dist (succ head) head = n := by
  have hhead := head.isLt
  cases n with
  | zero =>
    rw [dist_eq]
    split <;> omega
  | succ n =>
    rw [succ_eq_advance, dist_eq, val_advance (by omega)]
    split <;> split <;> omega

/-- Seen from the next slot, every other slot is one place nearer. -/
theorem dist_succ {head i : Fin (n + 1)} (h : i ≠ head) : dist (succ head) i + 1 = dist head i := by
  have hi := i.isLt
  have hhead := head.isLt
  have hne : i.val ≠ head.val := fun heq => h (Fin.ext heq)
  rw [succ_eq_advance, dist_eq, dist_eq, val_advance (by omega)]
  split <;> split <;> split <;> omega

/-- The buffer holds the items in the slots from `head` on. One slot is left free,
so that a full buffer differs from an empty one. -/
structure Holds (buffer : Fin (n + 1) → A) (head : Fin (n + 1)) (items : List A) : Prop where
  length_le : items.length ≤ n
  slot : ∀ k a, items[k]? = some a → buffer (advance head k) = a

namespace Holds

variable {buffer : Fin (n + 1) → A} {head : Fin (n + 1)} {items : List A}

theorem nil (buffer : Fin (n + 1) → A) (head : Fin (n + 1)) : Holds buffer head [] :=
  ⟨Nat.zero_le n, fun k a h => by simp at h⟩

theorem middle (h : Holds buffer head (pre ++ a :: post)) : buffer (advance head pre.length) = a := by
  apply h.slot
  simp

theorem of_append (h : Holds buffer head (items ++ more)) : Holds buffer head items := by
  refine ⟨Nat.le_trans (by simp) h.length_le, fun k a hk => h.slot k a ?_⟩
  obtain ⟨hlt, -⟩ := List.getElem?_eq_some_iff.mp hk
  rw [getElem?_append_left hlt, hk]

theorem popFront (h : Holds buffer head (a :: items)) : Holds buffer (succ head) items := by
  refine ⟨Nat.le_of_succ_le h.length_le, fun k b hk => ?_⟩
  rw [advance_succ]
  exact h.slot (k + 1) b (by simpa using hk)

/-- A write to a free slot is not seen. -/
theorem update_of_le (h : Holds buffer head items) (hi : items.length ≤ dist head i) (a : A) :
    Holds (update buffer i a) head items := by
  refine ⟨h.length_le, fun k b hk => ?_⟩
  obtain ⟨hlt, -⟩ := List.getElem?_eq_some_iff.mp hk
  have hne : advance head k ≠ i := by
    rintro rfl
    rw [dist_advance head (Nat.le_trans (Nat.le_of_lt hlt) h.length_le)] at hi
    exact absurd hlt (Nat.not_lt.mpr hi)
  rw [update_of_ne hne]
  exact h.slot k b hk

theorem set {pre post : List A} {a : A} (h : Holds buffer head (pre ++ a :: post)) (b : A) :
    Holds (update buffer (advance head pre.length) b) head (pre ++ b :: post) := by
  have hlength : (pre ++ b :: post).length = (pre ++ a :: post).length := by simp
  refine ⟨hlength ▸ h.length_le, fun k c hk => ?_⟩
  obtain ⟨hlt, -⟩ := List.getElem?_eq_some_iff.mp hk
  have hbound := h.length_le
  by_cases heq : k = pre.length
  · subst heq
    rw [update_self]
    simpa using hk
  have hne : advance head k ≠ advance head pre.length := by
    rw [Ne, advance_inj (by omega) (by simp at hbound; omega)]
    exact heq
  rw [update_of_ne hne]
  refine h.slot k c ?_
  rw [← hk, getElem?_append, getElem?_append]
  split
  · rfl
  · obtain ⟨j, hj⟩ : ∃ j, k - pre.length = j + 1 := ⟨k - pre.length - 1, by omega⟩
    rw [hj, getElem?_cons_succ, getElem?_cons_succ]

section

variable (h : Holds buffer head items)
include h

theorem push (hroom : items.length < n) (a : A) :
    Holds (update buffer (advance head items.length) a) head (items ++ [a]) := by
  have hfree : Holds (update buffer (advance head items.length) a) head items :=
    h.update_of_le (Nat.le_of_eq (dist_advance head h.length_le).symm) a
  refine ⟨by simpa [Nat.succ_le_iff] using hroom, fun k b hk => ?_⟩
  by_cases hlt : k < items.length
  · rw [getElem?_append_left hlt] at hk
    exact hfree.slot k b hk
  obtain ⟨hbound, -⟩ := List.getElem?_eq_some_iff.mp hk
  obtain rfl : k = items.length := by
    rw [length_append, length_singleton] at hbound
    omega
  rw [update_self]
  simpa using hk

/-- The item in a slot that lies between the head and the tail. -/
theorem get (hi : dist head i < items.length) : items[dist head i]? = some (buffer i) := by
  rw [getElem?_eq_getElem hi, Option.some_inj]
  have hslot := h.slot (dist head i) _ (getElem?_eq_getElem hi)
  rw [advance_dist] at hslot
  exact hslot.symm

/-- A slot between the head and the tail splits the items. -/
theorem split (hi : dist head i < items.length) :
    ∃ pre post, items = pre ++ buffer i :: post ∧ i = advance head pre.length := by
  refine ⟨items.take (dist head i), items.drop (dist head i + 1), ?_, ?_⟩
  · have hget := h.get hi
    rw [getElem?_eq_getElem hi, Option.some_inj] at hget
    rw [← hget, getElem_cons_drop, take_append_drop]
  · rw [length_take, Nat.min_eq_left (Nat.le_of_lt hi), advance_dist]

end

/-- The slots of the items in the order of the buffer. -/
theorem slots_perm (head : Fin (n + 1)) {size : Nat} (hsize : size ≤ n + 1) :
    ((finRange (n + 1)).filter fun i => dist head i < size).Perm ((range size).map (advance head)) := by
  refine (perm_ext_iff_of_nodup ((nodup_finRange _).filter _) ?_).mpr fun i => ?_
  · refine (nodup_map_iff_inj_on nodup_range).mpr fun j hj k hk heq => ?_
    rw [mem_range] at hj hk
    exact (advance_inj (by omega) (by omega)).mp heq
  · simp only [mem_filter, mem_finRange, true_and, decide_eq_true_eq, mem_map, mem_range]
    constructor
    · intro hi
      exact ⟨dist head i, hi, advance_dist head i⟩
    · rintro ⟨k, hk, rfl⟩
      rwa [dist_advance head (by omega)]

/-- Counting over the slots is counting over the items. -/
theorem length_filter (h : Holds buffer head items) (p : A → Bool) :
    ((finRange (n + 1)).filter fun i => dist head i < items.length && p (buffer i)).length = items.countP p := by
  have hitems : items = ((range items.length).map (advance head)).map buffer := by
    apply ext_getElem?
    intro k
    by_cases hk : k < items.length
    · rw [getElem?_eq_getElem hk, map_map, getElem?_map, getElem?_range hk, Option.map_some,
        comp_apply, h.slot k _ (getElem?_eq_getElem hk)]
    · simp [hk]
  have hfilter : ((finRange (n + 1)).filter fun i => dist head i < items.length && p (buffer i)) =
      ((finRange (n + 1)).filter fun i => dist head i < items.length).filter fun i => p (buffer i) := by
    rw [filter_filter]
    congr 1
    funext i
    exact Bool.and_comm _ _
  rw [hfilter, ← countP_eq_length_filter,
    (slots_perm head (Nat.le_succ_of_le h.length_le)).countP_eq fun i => p (buffer i)]
  conv_rhs => rw [hitems, countP_map]
  rfl

end Holds

/-- The slot `i` was the free one when the item with the number `k` came: the items
before it have smaller numbers, and those from it on have larger ones. -/
def Marks (number : A → Nat) (head : Fin (n + 1)) (items : List A) (i : Fin (n + 1)) (k : Nat) : Prop :=
  ∃ older younger, items = older ++ younger ∧ i = advance head older.length ∧ (∀ a ∈ older, number a < k) ∧
    ∀ a ∈ younger, k < number a

namespace Marks

variable {number : A → Nat} {head i : Fin (n + 1)} {items : List A} {k : Nat}

theorem atTail (h : ∀ a ∈ items, number a < k) : Marks number head items (advance head items.length) k :=
  ⟨items, [], (append_nil items).symm, rfl, h, fun a ha => by cases ha⟩

theorem push (h : Marks number head items i k) (ha : k < number a) : Marks number head (items ++ [a]) i k := by
  obtain ⟨older, younger, rfl, hi, holder, hyounger⟩ := h
  refine ⟨older, younger ++ [a], append_assoc _ _ _, hi, holder, ?_⟩
  exact forall_mem_append.mpr ⟨hyounger, forall_mem_singleton.mpr ha⟩

/-- Older items leave at the head. -/
theorem popFront (h : Marks number head (done ++ rest) i k) (hdone : ∀ a ∈ done, number a < k) :
    Marks number (advance head done.length) rest i k := by
  obtain ⟨older, younger, hsplit, hi, holder, hyounger⟩ := h
  rcases append_eq_append_iff.mp hsplit with ⟨mid, rfl, hrest⟩ | ⟨mid, rfl, hyounger'⟩
  · refine ⟨mid, younger, hrest, ?_, fun a ha => holder a (mem_append_right _ ha), hyounger⟩
    rw [hi, advance_advance, length_append]
  -- What is left of the items that leave would be both older and younger.
  have hmid : mid = [] := by
    cases mid with
    | nil => rfl
    | cons a mid =>
      have hlt := hdone a (mem_append_right _ mem_cons_self)
      have hgt := hyounger a (hyounger' ▸ mem_append_left _ mem_cons_self)
      omega
  subst hmid
  refine ⟨[], rest, rfl, ?_, fun a ha => (by cases ha), fun a ha => hyounger a (hyounger' ▸ ha)⟩
  rw [hi, append_nil, length_nil, advance_zero]

/-- Younger items leave at the tail. -/
theorem popBack (h : Marks number head (rest ++ gone) i k) (hgone : ∀ a ∈ gone, k < number a) :
    Marks number head rest i k := by
  obtain ⟨older, younger, hsplit, hi, holder, hyounger⟩ := h
  rcases append_eq_append_iff.mp hsplit with ⟨mid, rfl, hgone'⟩ | ⟨mid, rfl, hyounger'⟩
  · have hmid : mid = [] := by
      cases mid with
      | nil => rfl
      | cons a mid =>
        have hlt := holder a (mem_append_right _ mem_cons_self)
        have hgt := hgone a (hgone' ▸ mem_append_left _ mem_cons_self)
        omega
    subst hmid
    rw [append_nil] at hi holder
    exact ⟨rest, [], (append_nil _).symm, hi, holder, fun a ha => by cases ha⟩
  · exact ⟨older, mid, rfl, hi, holder, fun a ha => hyounger a (hyounger' ▸ mem_append_left _ ha)⟩

/-- A change of the items that keeps their numbers. -/
theorem of_map_eq (h : Marks number head items i k) (heq : items'.map number = items.map number) :
    Marks number head items' i k := by
  obtain ⟨older, younger, rfl, hi, holder, hyounger⟩ := h
  rw [map_append] at heq
  obtain ⟨older', younger', rfl, holder', hyounger'⟩ := map_eq_append_iff.mp heq
  have hlength : older'.length = older.length := by simpa using congrArg length holder'
  refine ⟨older', younger', rfl, hlength ▸ hi, fun a ha => ?_, fun a ha => ?_⟩
  · obtain ⟨b, hb, heq⟩ := mem_map.mp (holder' ▸ mem_map_of_mem ha)
    exact heq ▸ holder b hb
  · obtain ⟨b, hb, heq⟩ := mem_map.mp (hyounger' ▸ mem_map_of_mem ha)
    exact heq ▸ hyounger b hb

end Marks

end Circular

end Lib
