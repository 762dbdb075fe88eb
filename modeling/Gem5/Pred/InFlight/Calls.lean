import Gem5.Pred.InFlight

open Lib List

namespace Gem5.InFlight

variable {S H : Type}

/-- The branches in flight hold live history objects of a heap, under different
names. -/
structure Held (m : State S H) (c : Calls.State S H) (names : List Nat) : Prop where
  predictor : c.predictor = m.predictor
  nodup : names.Nodup
  allocated : ∀ name ∈ names, name < c.histories.next
  objects : names.map c.histories.cell = m.inflight.map fun b => some b.history

variable {m : State S H} {c : Calls.State S H} {names : List Nat}

section

variable (h : Held m c names)
include h

/-- A new branch holds the object that is allocated for it. -/
theorem Held.push (s : S) (b : Branch S H) :
    Held ⟨s, b :: m.inflight, m.retired⟩ ⟨s, c.histories.alloc b.history⟩ (c.histories.next :: names) := by
  refine ⟨rfl, ?_, ?_, ?_⟩
  · rw [nodup_cons]
    exact ⟨fun hmem => Nat.lt_irrefl _ (h.allocated _ hmem), h.nodup⟩
  · exact forall_mem_cons.mpr ⟨Nat.lt_succ_self _, fun name hold => Nat.lt_succ_of_lt (h.allocated name hold)⟩
  · rw [map_cons, map_cons, c.histories.cell_alloc_self, c.histories.map_cell_alloc b.history h.allocated, h.objects]

/-- A branch in flight holds a live object, which is freed when the branch is squashed
or commits. -/
theorem Held.release (younger : List (Branch S H)) (hinflight : m.inflight = younger ++ b :: older) :
    ∃ name names', c.histories.get name = .ok b.history ∧
      ∀ s retired, Held ⟨s, younger ++ older, retired⟩ ⟨s, c.histories.free name⟩ names' := by
  obtain ⟨-, hnodup, hallocated, hobjects⟩ := h
  rw [hinflight, map_append, map_eq_append_iff] at hobjects
  obtain ⟨names₁, rest, rfl, hyounger, hrest⟩ := hobjects
  rw [map_cons, map_eq_cons_iff] at hrest
  obtain ⟨name, names₂, rfl, hname, holder⟩ := hrest
  rw [nodup_middle, nodup_cons] at hnodup
  refine ⟨name, names₁ ++ names₂, Heap.get_eq_ok_iff.mpr hname, fun s retired => ⟨rfl, hnodup.2, ?_, ?_⟩⟩
  · intro other hmem
    exact hallocated other (perm_middle.mem_iff.mpr (mem_cons_of_mem _ hmem))
  · rw [c.histories.map_cell_free hnodup.1, map_append, map_append, hyounger, holder]

/-- What a branch in flight records besides its history object does not matter
to the heap. -/
theorem Held.redirect (hinflight : m.inflight = b :: rest) (s : S) (direction : Bool) :
    Held ⟨s, { b with direction } :: rest, m.retired⟩ ⟨s, c.histories⟩ names := by
  refine ⟨rfl, h.nodup, h.allocated, ?_⟩
  have hobjects := h.objects
  rw [hinflight] at hobjects
  exact hobjects

/-- Every step of one thread is a call, with the same answer. -/
theorem Held.step (hstep : (machine d tid).step m e = .ok (o, m')) :
    ∃ call c' names', (Calls.machine d).step c call = .ok (o, c') ∧ Held m' c' names' := by
  have hpredictor := h.predictor
  cases step_iff.mp hstep with
  | @lookup pc taken history s hcall =>
    rw [← hpredictor] at hcall
    exact ⟨.lookup tid pc, _, _, Calls.step_iff.mpr (.lookup hcall), h.push s ⟨pc, true, m.predictor, history, taken⟩⟩
  | @uncondBranch pc history s hcall =>
    rw [← hpredictor] at hcall
    exact ⟨.uncondBranch tid pc, _, _, Calls.step_iff.mpr (.uncondBranch hcall),
      h.push s ⟨pc, false, m.predictor, history, true⟩⟩
  | @btbUpdate b _ s hinflight hcall =>
    obtain ⟨name, -, hget, -⟩ := h.release [] hinflight
    rw [← hpredictor] at hcall
    exact ⟨.btbUpdate tid b.pc name, _, _, Calls.step_iff.mpr (.btbUpdate hget hcall), h.redirect hinflight s false⟩
  | @correct taken b _ s hinflight hcall =>
    obtain ⟨name, -, hget, -⟩ := h.release [] hinflight
    rw [← hpredictor] at hcall
    exact ⟨.update tid b.pc taken name true, _, _, Calls.step_iff.mpr (.update hget hcall),
      h.redirect hinflight s taken⟩
  | @squash b _ s hinflight hcall =>
    obtain ⟨name, names', hget, hheld⟩ := h.release [] hinflight
    rw [← hpredictor] at hcall
    exact ⟨.squash tid name, _, names', Calls.step_iff.mpr (.squash hget hcall), hheld s _⟩
  | @commit taken _ b s hinflight hcall =>
    obtain ⟨name, names', hget, hheld⟩ := h.release _ hinflight
    rw [← hpredictor] at hcall
    refine ⟨.update tid b.pc taken name false, _, names', Calls.step_iff.mpr (.update hget hcall), ?_⟩
    simpa using hheld s (b.direction :: m.retired)

end

/-- The runs of one thread are among the sequences of calls: whatever holds in
every state that any calls lead to holds here too. -/
theorem reaches_calls (hreach : (machine d tid).Reaches (start s) m) :
    ∃ c names, (Calls.machine d).Reaches (Calls.start s) c ∧ Held m c names := by
  refine hreach.invariant (I := fun m => ∃ c names, (Calls.machine d).Reaches (Calls.start s) c ∧
    Held m c names) ?_ ?_
  · exact ⟨Calls.start s, [], .start, rfl, nodup_nil, nofun, rfl⟩
  · rintro m e o m' ⟨c, names, hcalls, hheld⟩ hstep
    obtain ⟨call, c', names', hcall, hheld'⟩ := hheld.step hstep
    exact ⟨c', names', hcalls.step hcall, hheld'⟩

end Gem5.InFlight
