import Mathlib.Logic.Function.Basic

open List

namespace Lib.LinkedList

variable {P : Type}

/-- Following `next` from a pointer visits the nodes `nodes` in order and arrives at
the pointer `last`. -/
def Segment (next : P → Option P) : Option P → List P → Option P → Prop
  | start, [], last => start = last
  | start, node :: nodes, last => start = some node ∧ Segment next (next node) nodes last

variable {next : P → Option P} {start last : Option P} {node : P} {nodes : List P}

theorem segment_append_iff : Segment next start (nodes₁ ++ nodes₂) last ↔
      ∃ middle, Segment next start nodes₁ middle ∧ Segment next middle nodes₂ last := by
  induction nodes₁ generalizing start with
  | nil => simp [Segment]
  | cons node nodes₁ ih => simp [Segment, ih, and_assoc]

theorem segment_concat_iff :
    Segment next start (nodes ++ [node]) last ↔ Segment next start nodes (some node) ∧ next node = last := by
  rw [segment_append_iff]
  constructor
  · rintro ⟨middle, hfirst, rfl, hlast⟩
    exact ⟨hfirst, hlast⟩
  · rintro ⟨hfirst, hlast⟩
    exact ⟨some node, hfirst, rfl, hlast⟩

/-- A segment that arrives at the null pointer is found at its first node. -/
theorem Segment.start_eq (h : Segment next start nodes none) : start = nodes.head? := by
  cases nodes with
  | nil => exact h
  | cons node nodes => exact h.1

/-- A segment depends only on the nodes it visits. -/
theorem Segment.congr {next' : P → Option P} (h : Segment next start nodes last)
    (hsame : ∀ node ∈ nodes, next' node = next node) : Segment next' start nodes last := by
  induction nodes generalizing start with
  | nil => exact h
  | cons node nodes ih =>
    refine ⟨h.1, ?_⟩
    rw [hsame node mem_cons_self]
    exact ih h.2 fun other hmem => hsame other (mem_cons_of_mem node hmem)

/-- The last node of a list of at least one. -/
theorem exists_concat_getLastD (node : P) (nodes : List P) : ∃ init, node :: nodes = init ++ [nodes.getLastD node] := by
  refine ⟨(node :: nodes).dropLast, ?_⟩
  rw [← getLast_eq_getLastD (cons_ne_nil node nodes), dropLast_concat_getLast]

theorem getLastD_mem (node : P) (nodes : List P) : nodes.getLastD node ∈ node :: nodes := by
  obtain ⟨init, hinit⟩ := exists_concat_getLastD node nodes
  rw [hinit]
  exact mem_append_right init mem_cons_self

section

variable [DecidableEq P]

theorem Segment.update (h : Segment next start nodes last) (hmem : node ∉ nodes) (target : Option P) :
    Segment (Function.update next node target) start nodes last := by
  apply h.congr
  intro other hother
  exact Function.update_of_ne (ne_of_mem_of_not_mem hother hmem) ..

/-- A node that is made to point to a segment goes in front of it. -/
theorem Segment.push (h : Segment next start nodes last) (hmem : node ∉ nodes) :
    Segment (Function.update next node start) (some node) (node :: nodes) last := by
  refine ⟨rfl, ?_⟩
  rw [Function.update_self]
  exact h.update hmem start

/-- Redirecting the last node redirects the segment. -/
theorem Segment.redirect (h : Segment next start (nodes ++ [node]) last) (hmem : node ∉ nodes)
    (target : Option P) : Segment (Function.update next node target) start (nodes ++ [node]) target := by
  rw [segment_concat_iff] at h ⊢
  exact ⟨h.1.update hmem target, Function.update_self ..⟩

/-- Linking the last node of a segment to another one puts that behind it. -/
theorem Segment.relink {next' : P → Option P} (h : Segment next start (node :: nodes) last)
    (hnodup : (node :: nodes).Nodup) (hsame : ∀ other ∈ node :: nodes, next' other = next other)
    (hrest : Segment next' middle rest last') (hapart : ∀ other ∈ node :: nodes, other ∉ rest) :
    Segment (Function.update next' (nodes.getLastD node) middle) start (node :: nodes ++ rest) last' := by
  have hlast := hapart _ (getLastD_mem node nodes)
  obtain ⟨init, hinit⟩ := exists_concat_getLastD node nodes
  rw [hinit] at h hnodup hsame ⊢
  have hnot : nodes.getLastD node ∉ init := fun hmem => (nodup_append.mp hnodup).2.2 _ hmem _ mem_cons_self rfl
  exact segment_append_iff.mpr ⟨middle, (h.congr hsame).redirect hnot middle, hrest.update hlast middle⟩

end

end Lib.LinkedList
