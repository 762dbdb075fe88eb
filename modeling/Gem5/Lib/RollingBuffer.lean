import Gem5.Lib.Result

namespace Lib

namespace Table

variable {A : Type} {size : Nat}

/-- Copies `count` entries from `source` on to `target` on, in ascending order,
with the accesses checked. -/
def copy (table : Vector A size) (source target : Nat) : Nat → Result (Vector A size)
  | 0 => .ok table
  | count + 1 => do
    let table ← copy table source target count
    let value ← read table (source + count)
    write table (target + count) value

/-- Entries copied upwards onto others are copied unchanged. -/
theorem copy_of_le (table : Vector A size) (hdisjoint : source + count ≤ target) (hsize : target + count ≤ size) :
    ∃ after, copy table source target count = .ok after ∧
      ∀ k, after[k]? = if target ≤ k ∧ k < target + count then table[k - target + source]? else table[k]? := by
  induction count with
  | zero =>
    refine ⟨table, rfl, ?_⟩
    intro k
    rw [if_neg (by omega)]
  | succ count ih =>
    obtain ⟨after, hcopy, hafter⟩ := ih (by omega) (by omega)
    have hread : read after (source + count) = .ok after[source + count] := read_of_lt after (by omega)
    have hwrite := write_of_lt after (show target + count < size by omega) after[source + count]
    refine ⟨_, (Result.bind_of_ok hcopy _).trans ((Result.bind_of_ok hread _).trans hwrite), ?_⟩
    intro k
    by_cases hk : k = target + count
    · subst hk
      rw [Vector.getElem?_set_self, if_pos (by omega), ← Vector.getElem?_eq_getElem, hafter, if_neg (by omega)]
      congr 1
      omega
    rw [Vector.getElem?_set_ne _ (Ne.symm hk), hafter]
    by_cases hin : target ≤ k ∧ k < target + count
    · rw [if_pos hin, if_pos (by omega)]
    · rw [if_neg hin, if_neg (by omega)]

end Table

namespace RollingBuffer

variable {A : Type} {size : Nat}

/-- The entries from `start` on. -/
def window (tab : Vector A size) (start length : Nat) : List A := (tab.toList.drop start).take length

/-- The position before `pt`, in a buffer whose positions roll over after
`period` steps. -/
def next (period pt : Nat) : Nat := (if pt = 0 then period else pt) - 1

/-- The buffer after an entry was put before position `pt`. When there is no
position left, the newest `keep` entries move to the end first. -/
def push (keep : Nat) (tab : Vector A size) (pt : Nat) (value : A) : Vector A size :=
  .ofFn fun k =>
    if k.val = next (size - keep) pt then value
    else if pt = 0 ∧ size - keep ≤ k.val then tab[k.val - (size - keep)] else tab.get k

/-- The position has `distance` newer ones before it, up to `pt`. -/
structure Behind (period pt distance position : Nat) : Prop where
  lt : position < period
  wraps : pt + distance = position ∨ pt + distance = position + period

theorem getElem?_window (tab : Vector A size) (start length j : Nat) :
    (window tab start length)[j]? = if j < length then tab[start + j]? else none := by
  rw [window, List.getElem?_take, List.getElem?_drop, Vector.getElem?_toList]

theorem length_window (tab : Vector A size) (h : start + length ≤ size) :
    (window tab start length).length = length := by
  rw [window, List.length_take, List.length_drop, Vector.length_toList]
  omega

/-- Windows with the same entries are the same. -/
theorem window_congr (h : ∀ j < length, tab[start + j]? = tab'[start' + j]?) :
    window tab start length = window tab' start' length := by
  apply List.ext_getElem?
  intro j
  rw [getElem?_window, getElem?_window]
  split
  · rename_i hj
    exact h j hj
  · rfl

theorem window_succ (tab : Vector A size) (h : tab[start]? = some value) (length : Nat) :
    window tab start (length + 1) = value :: window tab (start + 1) length := by
  apply List.ext_getElem?
  intro j
  rw [getElem?_window]
  cases j with
  | zero => rw [if_pos (Nat.succ_pos length), Nat.add_zero, h, List.getElem?_cons_zero]
  | succ j =>
    rw [List.getElem?_cons_succ, getElem?_window, Nat.add_assoc, Nat.add_comm 1 j]
    simp only [Nat.add_lt_add_iff_right]

theorem take_window (tab : Vector A size) (start : Nat) (h : count ≤ length) :
    (window tab start length).take count = window tab start count := by
  rw [window, List.take_take, Nat.min_eq_left h, window]

theorem getElem?_push (keep : Nat) (tab : Vector A size) (pt : Nat) (value : A) (hk : k < size) :
    (push keep tab pt value)[k]? = if k = next (size - keep) pt then some value
      else if pt = 0 ∧ size - keep ≤ k then tab[k - (size - keep)]? else tab[k]? := by
  rw [Vector.getElem?_eq_getElem hk, push, Vector.getElem_ofFn]
  split
  · rfl
  split
  · rw [Vector.getElem?_eq_getElem]
  · rw [Vector.getElem?_eq_getElem hk]
    rfl

section

variable {keep pt distance position : Nat}

theorem next_lt (hpt : pt < size - keep) : next (size - keep) pt < size - keep := by
  rw [next]
  split <;> omega

theorem Behind.next (h : Behind period pt distance position) (hdistance : distance + 1 < period) :
    Behind period (next period pt) (distance + 1) position := by
  obtain ⟨hlt, hwraps⟩ := h
  refine ⟨hlt, ?_⟩
  rw [RollingBuffer.next]
  split <;> omega

/-- A position that is behind another one is that far less behind it. -/
theorem Behind.sub (h : Behind period pt distance position) (h' : Behind period pt distance' position')
    (hle : distance' ≤ distance) (hdistance : distance < period) :
    Behind period position' (distance - distance') position := by
  obtain ⟨hlt, hwraps⟩ := h
  obtain ⟨hlt', hwraps'⟩ := h'
  refine ⟨hlt, ?_⟩
  omega

theorem Behind.zero (hpt : pt < period) : Behind period pt 0 pt := ⟨hpt, .inl rfl⟩

theorem Behind.eq_of_zero (h : Behind period pt 0 position) (hpt : pt < period) : position = pt := by
  obtain ⟨hlt, hwraps⟩ := h
  omega

variable (tab : Vector A size) (value : A)

/-- The entries that were there are the ones behind a new entry. -/
theorem window_push_tail (hkeep : 2 * keep < size) (hpt : pt < size - keep) :
    window (push keep tab pt value) (next (size - keep) pt + 1) keep = window tab pt keep := by
  have hlt := next_lt hpt
  apply window_congr
  intro j hj
  rw [getElem?_push keep tab pt value (by omega), if_neg (by omega), next]
  split
  · rename_i hzero
    rw [if_pos (by omega)]
    congr 1
    omega
  · rw [if_neg (by omega)]
    congr 1
    omega

theorem window_push (hkeep : 2 * keep < size) (hpt : pt < size - keep) :
    window (push keep tab pt value) (next (size - keep) pt) (keep + 1) = value :: window tab pt keep := by
  have hlt := next_lt hpt
  have hhead : (push keep tab pt value)[next (size - keep) pt]? = some value := by
    rw [getElem?_push keep tab pt value (by omega), if_pos rfl]
  rw [window_succ _ hhead, window_push_tail tab value hkeep hpt]

/-- A push leaves the entries behind a position alone, as long as the position
does not fall too far behind. -/
theorem window_push_of_behind (hbehind : Behind (size - keep) pt distance position)
    (hdistance : distance + 1 + keep < size - keep) :
    window (push keep tab pt value) (position + 1) keep = window tab (position + 1) keep := by
  obtain ⟨hlt, hwraps⟩ := hbehind
  apply window_congr
  intro j hj
  have hne : position + 1 + j ≠ next (size - keep) pt := by
    rw [next]
    split <;> omega
  rw [getElem?_push keep tab pt value (by omega), if_neg hne, if_neg (by omega)]

theorem window_set_of_behind (hbehind : Behind (size - keep) pt distance position) (hpos : 0 < distance)
    (hdistance : distance + keep < size - keep) (hpt : pt < size) :
    window (tab.set pt value) (position + 1) keep = window tab (position + 1) keep := by
  obtain ⟨hlt, hwraps⟩ := hbehind
  apply window_congr
  intro j hj
  rw [Vector.getElem?_set_ne _ (by omega)]

/-- The entries behind one that is replaced stay. -/
theorem window_set_tail (hpt : pt < size) (length : Nat) :
    window (tab.set pt value) (pt + 1) length = window tab (pt + 1) length := by
  apply window_congr
  intro j _
  rw [Vector.getElem?_set_ne _ (by omega)]

theorem window_set (hpt : pt < size) (length : Nat) :
    window (tab.set pt value) pt (length + 1) = value :: window tab (pt + 1) length := by
  rw [window_succ _ (Vector.getElem?_set_self ..), window_set_tail tab value hpt]

end

/-- Entries put in front of a list leave its beginning unchanged exactly when the
list repeats them. -/
theorem take_append_eq_iff (hfront : front ≠ []) : (front ++ entries).take entries.length = entries ↔
      ∀ j < entries.length, entries[j]? = front[j % front.length]? := by
  have hpos : 0 < front.length := List.length_pos_of_ne_nil hfront
  have hentry : ∀ j < entries.length, ((front ++ entries).take entries.length)[j]? =
      if j < front.length then front[j]? else entries[j - front.length]? := by
    intro j hj
    rw [List.getElem?_take, if_pos hj, List.getElem?_append]
  constructor
  · intro h j
    induction j using Nat.strongRecOn with
    | ind j ih =>
      intro hj
      have hsame := hentry j hj
      rw [h] at hsame
      rw [hsame]
      split
      · rename_i hlt
        rw [Nat.mod_eq_of_lt hlt]
      · rename_i hge
        rw [ih (j - front.length) (by omega) (by omega), ← Nat.mod_eq_sub_mod (Nat.le_of_not_lt hge)]
  · intro h
    apply List.ext_getElem?
    intro j
    by_cases hj : j < entries.length
    · rw [hentry j hj, h j hj]
      split
      · rename_i hlt
        rw [Nat.mod_eq_of_lt hlt]
      · rename_i hge
        rw [h (j - front.length) (by omega), ← Nat.mod_eq_sub_mod (Nat.le_of_not_lt hge)]
    · rw [List.getElem?_take, if_neg hj, List.getElem?_eq_none (Nat.le_of_not_lt hj)]

end RollingBuffer

end Lib
