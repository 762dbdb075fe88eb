import Mathlib.Data.List.TakeWhile

open List

namespace Lib

/-- A map whose entries are kept in the order of their keys. Iterators are
positions in the list of entries, and the position after the last is the end. -/
structure OrderedMap (K V : Type) (lt : K → K → Bool) where
  entries : List (K × V)
  sorted : entries.Pairwise fun p q => lt p.1 q.1 = true

namespace OrderedMap

variable {K V : Type} {lt : K → K → Bool}

def empty : OrderedMap K V lt := ⟨[], .nil⟩

variable (m : OrderedMap K V lt)

def size : Nat := m.entries.length

/-- The entries whose keys do not come after `key`. -/
def upTo (key : K) : List (K × V) := m.entries.takeWhile fun p => !lt key p.1

/-- The entries whose keys come after `key`. -/
def past (key : K) : List (K × V) := m.entries.dropWhile fun p => !lt key p.1

/-- The first position whose key comes after `key`. -/
def upperBound (key : K) : Nat := (m.upTo key).length

theorem upTo_append_past (key : K) : m.upTo key ++ m.past key = m.entries :=
  takeWhile_append_dropWhile

theorem sorted_split (key : K) :
    (m.upTo key).Pairwise (fun p q => lt p.1 q.1 = true) ∧ (m.past key).Pairwise (fun p q => lt p.1 q.1 = true) ∧
      ∀ p ∈ m.upTo key, ∀ q ∈ m.past key, lt p.1 q.1 = true := by
  have hsorted := m.sorted
  rwa [← m.upTo_append_past key, pairwise_append] at hsorted

theorem lt_of_getElem? {m : OrderedMap K V lt} {i j : Nat} {p q : K × V} (hlt : i < j)
    (hp : m.entries[i]? = some p) (hq : m.entries[j]? = some q) : lt p.1 q.1 = true := by
  obtain ⟨hi, rfl⟩ := List.getElem?_eq_some_iff.mp hp
  obtain ⟨hj, rfl⟩ := List.getElem?_eq_some_iff.mp hq
  exact pairwise_iff_getElem.mp m.sorted i j hi hj hlt

theorem not_lt_of_mem_upTo {m : OrderedMap K V lt} {p : K × V} (h : p ∈ m.upTo key) : lt key p.1 = false := by
  simpa using mem_takeWhile_imp h

section

variable [IsTrans K fun a b => lt a b = true]

theorem lt_of_mem_past {m : OrderedMap K V lt} {q : K × V} (h : q ∈ m.past key) : lt key q.1 = true := by
  obtain ⟨-, hpast, -⟩ := m.sorted_split key
  cases hlist : m.past key with
  | nil =>
    rw [hlist] at h
    cases h
  | cons first rest =>
    have hfirst : lt key first.1 = true := by
      have hne : m.past key ≠ [] := by simp [hlist]
      have hhead := head_dropWhile_not (fun p : K × V => !lt key p.1) hne
      have heq : (m.past key).head hne = first := by simp [hlist]
      simpa [past, ← heq] using hhead
    rw [hlist] at h hpast
    rcases mem_cons.mp h with rfl | hrest
    · exact hfirst
    · exact IsTrans.trans (r := fun a b => lt a b = true) _ _ _ hfirst ((pairwise_cons.mp hpast).1 q hrest)

/-- The positions before the upper bound are those whose keys do not come after. -/
theorem lt_upperBound_iff {m : OrderedMap K V lt} {entry : K × V} (h : m.entries[i]? = some entry) :
    i < m.upperBound key ↔ lt key entry.1 = false := by
  rw [← m.upTo_append_past key] at h
  constructor
  · intro hi
    rw [getElem?_append_left hi] at h
    exact not_lt_of_mem_upTo (mem_of_getElem? h)
  · intro hnot
    by_contra hi
    rw [getElem?_append_right (Nat.not_lt.mp hi)] at h
    rw [lt_of_mem_past (mem_of_getElem? h)] at hnot
    cases hnot

/-- The new key goes between the keys that do not come after it, of which none
may be equivalent to it, and the others. -/
theorem sorted_insert (m : OrderedMap K V lt) (h : ∀ p ∈ (m.upTo key).getLast?, lt p.1 key = true) :
    (m.upTo key ++ (key, value) :: m.past key).Pairwise fun p q => lt p.1 q.1 = true := by
  obtain ⟨hupTo, hpast, hcross⟩ := m.sorted_split key
  have hbefore : ∀ p ∈ m.upTo key, lt p.1 key = true := by
    intro p hp
    have hne := ne_nil_of_mem hp
    have hlast := h _ (getLast?_eq_some_getLast hne)
    by_cases heq : p = (m.upTo key).getLast hne
    · rw [heq]
      exact hlast
    rw [← dropLast_concat_getLast hne] at hp hupTo
    have hinit : p ∈ (m.upTo key).dropLast := by
      rcases mem_append.mp hp with hinit | hself
      · exact hinit
      · exact absurd (mem_singleton.mp hself) heq
    have hlt := (pairwise_append.mp hupTo).2.2 p hinit _ mem_cons_self
    exact IsTrans.trans (r := fun a b => lt a b = true) _ _ _ hlt hlast
  refine pairwise_append.mpr ⟨hupTo, pairwise_cons.mpr ⟨fun q hq => lt_of_mem_past hq, hpast⟩, ?_⟩
  exact fun p hp => forall_mem_cons.mpr ⟨hbefore p hp, hcross p hp⟩

/-- Inserts an entry, unless there is one with an equivalent key, and returns the
position of the entry that has the key. -/
def insert (m : OrderedMap K V lt) (key : K) (value : V) : Nat × OrderedMap K V lt :=
  if h : ∀ p ∈ (m.upTo key).getLast?, lt p.1 key = true then
    (m.upperBound key, ⟨m.upTo key ++ (key, value) :: m.past key, m.sorted_insert h⟩)
  else (m.upperBound key - 1, m)

end

theorem take_append_drop_sublist (i j : Nat) : (m.entries.take i ++ m.entries.drop (max i j)).Sublist m.entries := by
  conv => rhs; rw [← take_append_drop i m.entries]
  exact (List.Sublist.refl _).append (drop_sublist_drop_left _ (Nat.le_max_left i j))

/-- Erases the entries from position `i` up to position `j`. -/
def eraseRange (i j : Nat) : OrderedMap K V lt :=
  ⟨m.entries.take i ++ m.entries.drop (max i j), m.sorted.sublist (m.take_append_drop_sublist i j)⟩

theorem eraseRange_sublist (i j : Nat) : (m.eraseRange i j).entries.Sublist m.entries :=
  m.take_append_drop_sublist i j

end OrderedMap

end Lib
