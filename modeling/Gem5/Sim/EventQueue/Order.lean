import Gem5.Sim.EventQueue.Bins

open Lib Result Lib.Bins Function List

namespace Gem5.EventQueue

variable {n : Nat}

/-- The events that are queued after an operation, newest first, given those queued
before it and the event that was serviced. -/
def remaining (queued : List (Fin n)) : Op n × Option (Fin n) → List (Fin n)
  | (.insert event _, _) => event :: queued
  | (.remove event, _) => queued.erase event
  | (.serviceOne, answer) => answer.elim queued queued.erase

/-- The events that were inserted and have not been removed or serviced since, the
most recently inserted first. -/
def outstanding (ops : List (Op n)) (answers : List (Option (Fin n))) : List (Fin n) :=
  (ops.zip answers).foldl remaining []

/-- The queue holds the events `queued`, in bins. -/
structure Holds (q : EventQueue n) (queued : List (Fin n)) : Prop where
  bins : ∃ bins, Linked q bins ∧ Binned q.key queued bins
  nodup : queued.Nodup
  scheduled : ∀ event, q.scheduled event = true ↔ event ∈ queued

variable {q q' : EventQueue n} {queued : List (Fin n)} {event : Fin n}

namespace Holds

theorem construct (priority : Fin n → Int) : Holds (construct priority) [] where
  bins := by
    refine ⟨[], ⟨rfl, ?_⟩, ⟨.nil, ?_, ?_⟩⟩
    · intro b hb
      cases hb
    · intro b hb
      cases hb
    · intro event hevent
      cases hevent
  nodup := .nil
  scheduled event := by simp [EventQueue.construct]

/-- Setting the time of an event that is not queued changes nothing. -/
theorem setWhen (h : q.Holds queued) (hevent : event ∉ queued) (when : Tick) :
    ∃ bins, Linked { q with when := update q.when event when } bins ∧
      Binned { q with when := update q.when event when }.key queued bins := by
  obtain ⟨bins, hlinked, hbinned⟩ := h.bins
  refine ⟨bins, ⟨hlinked.chain, hlinked.inBin⟩, hbinned.congr ?_⟩
  intro other hother
  simp only [EventQueue.key]
  rw [update_of_ne (ne_of_mem_of_not_mem hother hevent)]

theorem insert (h : q.Holds queued) (hevent : event ∉ queued) (when : Tick) :
    ∃ q', { q with when := update q.when event when }.insert event = .ok q' ∧
      Holds { q' with scheduled := update q'.scheduled event true } (event :: queued) := by
  obtain ⟨bins, hlinked, hbinned⟩ := h.setWhen hevent when
  obtain ⟨before, after, rfl, hbefore, hafter⟩ := exists_split hbinned.sorted
    ({ q with when := update q.when event when }.key event)
  have hnew : ∀ b ∈ before ++ after, event ∉ b.1 :: b.2 := fun b hb hmem => hevent ((hbinned.mem_iff hb).mp hmem).1
  obtain ⟨q', hinsert, hlinked', hsame⟩ := insert_spec hlinked hbinned.fst_nodup hbefore hafter hnew
  refine ⟨q', hinsert, ⟨⟨_, ⟨hlinked'.chain, hlinked'.inBin⟩, ?_⟩, nodup_cons.mpr ⟨hevent, h.nodup⟩, ?_⟩⟩
  · exact (hbinned.push hbefore hafter).congr fun other _ => congrFun hsame.key other
  · intro other
    rw [mem_cons]
    by_cases hother : other = event
    · simp [hother]
    · simp only [update_of_ne hother, hsame.scheduled, h.scheduled, hother, false_or]

/-- The bins around the one that an event is in. -/
theorem exists_bin (h : q.Holds queued) (hevent : event ∈ queued) :
    ∃ before b after, Linked q (before ++ b :: after) ∧ Binned q.key queued (before ++ b :: after) ∧
      (∀ c ∈ before, q.key c.1 < q.key event) ∧ q.key b.1 = q.key event ∧ (∀ c ∈ after, q.key event < q.key c.1) ∧
      event ∈ b.1 :: b.2 := by
  obtain ⟨bins, hlinked, hbinned⟩ := h.bins
  obtain ⟨b, hb, hkey⟩ := hbinned.cover event hevent
  obtain ⟨before, after, rfl⟩ := append_of_mem hb
  obtain ⟨-, hsorted, hcross⟩ := pairwise_append.mp hbinned.sorted
  refine ⟨before, b, after, hlinked, hbinned, ?_, hkey.symm, ?_, (hbinned.mem_iff hb).mpr ⟨hevent, hkey⟩⟩
  · intro c hc
    rw [hkey]
    exact hcross c hc b mem_cons_self
  · intro c hc
    rw [hkey]
    exact (pairwise_cons.mp hsorted).1 c hc

/-- Bins with different keys have no event in common. -/
theorem not_mem_of_key_ne {bins : List (Fin n × List (Fin n))} (hbinned : Binned q.key queued bins)
    {b c : Fin n × List (Fin n)} (hb : b ∈ bins) (hc : c ∈ bins) (hne : q.key b.1 ≠ q.key c.1) :
    ∀ node ∈ b.1 :: b.2, node ∉ c.1 :: c.2 := by
  intro node hnode hnode'
  exact hne (((hbinned.mem_iff hb).mp hnode).2.symm.trans ((hbinned.mem_iff hc).mp hnode').2)

theorem remove (h : q.Holds queued) (hevent : event ∈ queued) : ∃ q', q.remove event = .ok q' ∧
      Holds { q' with scheduled := update q'.scheduled event false } (queued.erase event) := by
  obtain ⟨before, b, after, hlinked, hbinned, hbefore, hkey, hafter, hmem⟩ := h.exists_bin hevent
  have hb : b ∈ before ++ b :: after := by simp
  have hnodup : (b.1 :: b.2).Nodup := by
    rw [hbinned.stack b hb]
    exact h.nodup.filter _
  have hapart : ∀ c ∈ before ++ after, ∀ node ∈ b.1 :: b.2, node ∉ c.1 :: c.2 := by
    intro c hc
    rcases mem_append.mp hc with hc | hc
    · refine not_mem_of_key_ne hbinned hb (mem_append_left _ hc) ?_
      rw [hkey]
      exact ne_of_gt (hbefore c hc)
    · refine not_mem_of_key_ne hbinned hb (mem_append_right _ (mem_cons_of_mem b hc)) ?_
      rw [hkey]
      exact ne_of_lt (hafter c hc)
  obtain ⟨q', hremove, hlinked', hsame⟩ :=
    remove_spec hlinked hbinned.fst_nodup hbefore hkey hafter hnodup hapart hmem
  refine ⟨q', hremove, ⟨⟨_, ⟨hlinked'.chain, hlinked'.inBin⟩, ?_⟩, h.nodup.erase event, ?_⟩⟩
  · exact (hbinned.erase h.nodup hkey.symm).congr fun other _ => congrFun hsame.key other
  · intro other
    rw [h.nodup.mem_erase_iff]
    by_cases hother : other = event
    · simp [hother]
    · simp only [update_of_ne hother, hsame.scheduled, h.scheduled, ne_eq, hother, not_false_eq_true, true_and]

/-- The head is the newest of the events with the least key, and is serviced. -/
theorem serviceOne (h : q.Holds queued) (hne : queued ≠ []) :
    ∃ event q', q.serviceOne = .ok (event, q') ∧ q'.Holds (queued.erase event) ∧ event ∈ queued ∧
      (∀ other ∈ queued, q.key event ≤ q.key other) ∧
      (queued.filter fun other => q.key other = q.key event).head? = some event := by
  obtain ⟨bins, hlinked, hbinned⟩ := h.bins
  obtain ⟨other, hother⟩ := exists_mem_of_ne_nil queued hne
  obtain ⟨bin, hbin, -⟩ := hbinned.cover other hother
  cases bins with
  | nil => cases hbin
  | cons b after =>
    have hmem := hbinned.fst_mem mem_cons_self
    obtain ⟨q', hremove, hholds⟩ := h.remove hmem
    exact ⟨b.1, _, serviceOne_of_remove hlinked.chain.1 hremove, hholds, hmem, hbinned.first⟩

/-- An empty queue has no head to service. -/
theorem serviceOne_nil (h : q.Holds []) : q.serviceOne = .error .dangling := by
  obtain ⟨bins, hlinked, hbinned⟩ := h.bins
  cases bins with
  | nil =>
    have hhead : q.head = none := hlinked.chain
    simp [EventQueue.serviceOne, hhead]
  | cons b after => cases hbinned.fst_mem mem_cons_self

variable (h : q.Holds queued)
include h

theorem step (hstep : (machine n).step q op = .ok (answer, q')) : q'.Holds (remaining queued (op, answer)) := by
  cases op with
  | insert event when =>
    obtain ⟨u, q₁, hcheck, hinsert, hdone⟩ := bind_ok₂ hstep
    have hevent : event ∉ queued := by
      rw [← h.scheduled]
      simpa using require_eq_ok_iff.mp hcheck
    obtain ⟨q₂, hinsert', hholds⟩ := h.insert hevent when
    obtain rfl : q₁ = q₂ := Except.ok.inj (hinsert.symm.trans hinsert')
    cases hdone
    exact hholds
  | remove event =>
    obtain ⟨u, q₁, hcheck, hremove, hdone⟩ := bind_ok₂ hstep
    obtain ⟨q₂, hremove', hholds⟩ := h.remove ((h.scheduled event).mp (require_eq_ok_iff.mp hcheck))
    obtain rfl : q₁ = q₂ := Except.ok.inj (hremove.symm.trans hremove')
    cases hdone
    exact hholds
  | serviceOne =>
    obtain ⟨⟨event, q₁⟩, hservice, hdone⟩ := bind_ok hstep
    cases hdone
    by_cases hne : queued = []
    · subst hne
      rw [h.serviceOne_nil] at hservice
      cases hservice
    obtain ⟨event', q₂, hservice', hholds, -⟩ := h.serviceOne hne
    rw [hservice] at hservice'
    cases hservice'
    exact hholds

theorem run (hrun : (machine n).run q ops = .ok (answers, q')) :
    q'.Holds ((ops.zip answers).foldl remaining queued) := by
  induction ops generalizing q queued answers with
  | nil =>
    obtain ⟨rfl, rfl⟩ := Machine.run_nil_eq_ok_iff.mp hrun
    exact h
  | cons op ops ih =>
    obtain ⟨answer, next, rest, hstep, hrest, rfl⟩ := Machine.run_cons_eq_ok_iff.mp hrun
    exact ih (h.step hstep) hrest

/-- The events of the bins are the queued events, each once. -/
theorem flatMap_bins {bins : List (Fin n × List (Fin n))} (hbinned : Binned q.key queued bins) :
    (bins.flatMap fun b => b.1 :: b.2).Nodup ∧
      ∀ event, event ∈ (bins.flatMap fun b => b.1 :: b.2) ↔ event ∈ queued := by
  constructor
  · refine nodup_flatMap.mpr ⟨?_, ?_⟩
    · intro b hb
      rw [hbinned.stack b hb]
      exact h.nodup.filter _
    · refine List.Pairwise.imp_of_mem ?_ hbinned.sorted
      intro b c hb hc hlt node hnode hnode'
      exact not_mem_of_key_ne hbinned hb hc (ne_of_lt hlt) node hnode hnode'
  · intro event
    rw [mem_flatMap]
    constructor
    · rintro ⟨b, hb, hmem⟩
      exact ((hbinned.mem_iff hb).mp hmem).1
    · intro hmem
      obtain ⟨b, hb, hkey⟩ := hbinned.cover event hmem
      exact ⟨b, hb, (hbinned.mem_iff hb).mpr ⟨hmem, hkey⟩⟩

end Holds

/-- Whatever is inserted, removed and serviced: the lists hold the outstanding
events, in bins of equal time and priority, in order; events can be removed
and inserted; and the event that is serviced next is the most recently
inserted of those that are first in time and priority. -/
theorem run_ordered {priority : Fin n → Int} {ops : List (Op n)} {answers : List (Option (Fin n))}
    (hrun : (machine n).run (construct priority) ops = .ok (answers, q)) :
    (∃ bins, Linked q bins ∧ (bins.Pairwise fun b c => q.key b.1 < q.key c.1) ∧
      (∀ b ∈ bins, ∀ event ∈ b.1 :: b.2, q.key event = q.key b.1) ∧ (bins.flatMap fun b => b.1 :: b.2).Nodup ∧
      ∀ event, event ∈ (bins.flatMap fun b => b.1 :: b.2) ↔ event ∈ outstanding ops answers) ∧
    (∀ event ∈ outstanding ops answers, ∃ q', q.remove event = .ok q') ∧ (∀ event ∉ outstanding ops answers, ∀ when,
      ∃ q', { q with when := update q.when event when }.insert event = .ok q') ∧
    (outstanding ops answers ≠ [] → ∃ event q', q.serviceOne = .ok (event, q') ∧
      event ∈ outstanding ops answers ∧ (∀ other ∈ outstanding ops answers, q.key event ≤ q.key other) ∧
      ((outstanding ops answers).filter fun other => q.key other = q.key event).head? = some event) := by
  have h : q.Holds (outstanding ops answers) := (Holds.construct priority).run hrun
  refine ⟨?_, ?_, ?_, ?_⟩
  · obtain ⟨bins, hlinked, hbinned⟩ := h.bins
    exact ⟨bins, hlinked, hbinned.sorted, fun b hb event hmem => ((hbinned.mem_iff hb).mp hmem).2,
      h.flatMap_bins hbinned⟩
  · intro event hevent
    obtain ⟨q', hremove, -⟩ := h.remove hevent
    exact ⟨q', hremove⟩
  · intro event hevent when
    obtain ⟨q', hinsert, -⟩ := h.insert hevent when
    exact ⟨q', hinsert⟩
  · intro hne
    obtain ⟨event, q', hservice, -, hmem, hleast, hnewest⟩ := h.serviceOne hne
    exact ⟨event, q', hservice, hmem, hleast, hnewest⟩

/-- Three events of one bin and an earlier one: a removal from the middle of the bin
and a service leave the newest event of the bin to be serviced. -/
def mixedOps : List (Op 4) := [.insert 0 5, .insert 1 5, .insert 2 3, .insert 3 5, .remove 1, .serviceOne]

theorem run_ordered_mixed : ∃ answers q, (machine 4).run (construct fun _ => 0) mixedOps = .ok (answers, q) ∧
      outstanding mixedOps answers = [3, 0] ∧ ∃ event ∈ [3, 0], ∃ q', q.serviceOne = .ok (event, q') := by
  obtain ⟨⟨answers, q⟩, hrun, rfl⟩ := map_ok
    (by decide +kernel : ((machine 4).run (construct fun _ => 0) mixedOps).map Prod.fst =
      .ok [none, none, none, none, none, some 2])
  have hqueued : outstanding mixedOps [none, none, none, none, none, some 2] = [3, 0] := by decide
  obtain ⟨-, -, -, hservice⟩ := run_ordered hrun
  rw [hqueued] at hservice
  obtain ⟨event, q', hresult, hmem, -⟩ := hservice (cons_ne_nil _ _)
  exact ⟨_, q, hrun, hqueued, event, hmem, q', hresult⟩

end Gem5.EventQueue
