import Mathlib.Logic.Function.Basic

open Function List

namespace Lib

/-- A change of one entry of a table, as an undo log keeps it. -/
structure Change (K V : Type) where
  key : K
  new : V
  old : V

namespace UndoLog

variable {K V : Type} [DecidableEq K]

/-- The log, newest change first, leads back from the table: every change is
there to be undone once the later ones are. -/
def Unwinds (table : K → V) : List (Change K V) → Prop
  | [] => True
  | change :: older => table change.key = change.new ∧ Unwinds (update table change.key change.old) older

/-- The table before the changes of the log. -/
def rewind (table : K → V) : List (Change K V) → K → V
  | [] => table
  | change :: older => rewind (update table change.key change.old) older

theorem rewind_push (table : K → V) (log : List (Change K V)) (key : K) (new : V) :
    rewind (update table key new) (⟨key, new, table key⟩ :: log) = rewind table log := by
  rw [rewind, update_idem, update_eq_self]

theorem rewind_append (table : K → V) (newer older : List (Change K V)) :
    rewind table (newer ++ older) = rewind (rewind table newer) older := by
  induction newer generalizing table with
  | nil => rfl
  | cons change newer ih => exact ih _

section

variable {table : K → V} {log : List (Change K V)}

theorem Unwinds.push (h : Unwinds table log) (key : K) (new : V) :
    Unwinds (update table key new) (⟨key, new, table key⟩ :: log) := by
  refine ⟨update_self .., ?_⟩
  rw [update_idem, update_eq_self]
  exact h

/-- The oldest changes can be forgotten. -/
theorem Unwinds.of_append (h : Unwinds table (newer ++ older)) : Unwinds table newer := by
  induction newer generalizing table with
  | nil => trivial
  | cons change newer ih => exact ⟨h.1, ih h.2⟩

end

theorem map_update_perm {keys : List K} (hkeys : keys.Nodup) (hkey : key ∈ keys) (table : K → V) (value : V) :
    (table key :: keys.map (update table key value)).Perm (value :: keys.map table) := by
  induction keys with
  | nil => cases hkey
  | cons first keys ih =>
    obtain ⟨hfirst, hkeys⟩ := nodup_cons.mp hkeys
    rw [map_cons, map_cons]
    by_cases heq : first = key
    · subst heq
      have hsame : keys.map (update table first value) = keys.map table := by
        apply map_congr_left
        intro other hmem
        exact update_of_ne (ne_of_mem_of_not_mem hmem hfirst) ..
      rw [update_self, hsame]
      exact Perm.swap ..
    · have hrest := ih hkeys ((mem_cons.mp hkey).resolve_left (Ne.symm heq))
      rw [update_of_ne heq]
      exact (Perm.swap ..).trans ((hrest.cons _).trans (Perm.swap ..))

/-- What the entries `keys` of the table hold, and what the log would give back
to them. -/
def holdings (keys : List K) (table : K → V) (log : List (Change K V)) : List V :=
  keys.map table ++ (log.filter fun change => change.key ∈ keys).map Change.old

section

variable {keys : List K} {table : K → V} {log : List (Change K V)} {key : K}

/-- An entry gets a new value. -/
theorem holdings_push (hkeys : keys.Nodup) (hkey : key ∈ keys) (new : V) :
    (holdings keys (update table key new) (⟨key, new, table key⟩ :: log)).Perm (new :: holdings keys table log) := by
  rw [holdings, filter_cons_of_pos (by simpa using hkey), map_cons]
  refine perm_middle.trans ?_
  exact (map_update_perm hkeys hkey table new).append_right _

/-- An entry gets its old value back. -/
theorem holdings_pop (hkeys : keys.Nodup) {change : Change K V} (hkey : change.key ∈ keys)
    (hchange : table change.key = change.new) : (holdings keys table (change :: log)).Perm
      (change.new :: holdings keys (update table change.key change.old) log) := by
  rw [holdings, filter_cons_of_pos (by simpa using hkey), map_cons]
  refine perm_middle.trans ?_
  rw [← hchange]
  exact (map_update_perm hkeys hkey table change.old).symm.append_right _

/-- The oldest change is forgotten. -/
theorem holdings_concat (hkey : change.key ∈ keys) :
    (holdings keys table (log ++ [change])).Perm (change.old :: holdings keys table log) := by
  rw [holdings, filter_append, filter_cons_of_pos (by simpa using hkey), filter_nil, map_append, ← append_assoc]
  exact perm_append_singleton ..

theorem holdings_cons_of_not_mem (hkey : change.key ∉ keys) :
    holdings keys table (change :: log) = holdings keys table log := by
  rw [holdings, filter_cons_of_neg (by simpa using hkey), holdings]

theorem holdings_concat_of_not_mem (hkey : change.key ∉ keys) :
    holdings keys table (log ++ [change]) = holdings keys table log := by
  rw [holdings, filter_append, filter_cons_of_neg (by simpa using hkey), filter_nil, append_nil, holdings]

theorem holdings_update_of_not_mem (hkey : key ∉ keys) (value : V) :
    holdings keys (update table key value) log = holdings keys table log := by
  have hsame : keys.map (update table key value) = keys.map table := by
    apply map_congr_left
    intro other hmem
    exact update_of_ne (ne_of_mem_of_not_mem hmem hkey) ..
  rw [holdings, hsame, holdings]

end

end UndoLog

end Lib
