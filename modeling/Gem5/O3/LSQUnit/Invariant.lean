import Gem5.O3.LSQUnit.Steps

open Lib Lib.Circular List

namespace Gem5.O3

namespace Queues

variable {l m : Nat} {q q' : Queues l m}

def loadNums (q : Queues l m) : List InstSeqNum := q.loads.map LoadTag.seqNum

def storeNums (q : Queues l m) : List InstSeqNum := q.stores.map StoreTag.seqNum

theorem mem_storeNums (h : tag ∈ q.unsent) : tag.seqNum ∈ q.storeNums :=
  mem_map_of_mem (mem_append_right _ h)

theorem mem_loadNums (h : tag ∈ q.loads) : tag.seqNum ∈ q.loadNums := mem_map_of_mem h

/-- Both queues are in program order. -/
structure Ordered (q : Queues l m) : Prop where
  loads : q.loadNums.Pairwise (· < ·)
  stores : q.storeNums.Pairwise (· < ·)

theorem map_seqNum_commit (tags : List (StoreTag l)) :
    (tags.map StoreTag.commit).map StoreTag.seqNum = tags.map StoreTag.seqNum := by
  rw [map_map]
  rfl

theorem Moves.storeNums (h : Moves q q') : q'.storeNums.Sublist q.storeNums ∧ q'.loads = q.loads := by
  cases h with
  | send hnext hcanWB => simp [Queues.storeNums, Queues.stores, hnext]
  | completeFirst hsent hdone =>
    refine ⟨?_, rfl⟩
    simp only [Queues.storeNums, Queues.stores, hsent, cons_append, append_assoc, map_cons, map_append]
    exact (sublist_append_right _ _).cons _
  | complete hsent hopen => simp [Queues.storeNums, Queues.stores, hsent, StoreTag.complete]

theorem moves_storeNums (h : Relation.ReflTransGen Moves q q') :
    q'.storeNums.Sublist q.storeNums ∧ q'.loads = q.loads := by
  induction h with
  | refl => exact ⟨.refl _, rfl⟩
  | tail _ hmove ih => exact ⟨hmove.storeNums.1.trans ih.1, hmove.storeNums.2.trans ih.2⟩

/-- Apart from the insertions, a call takes instructions out and changes no number. -/
theorem Step.sublist (h : q.Step op q') (hload : ∀ seqNum, op ≠ .insertLoad seqNum)
    (hstore : ∀ seqNum sc pf, op ≠ .insertStore seqNum sc pf) :
    q'.loadNums.Sublist q.loadNums ∧ q'.storeNums.Sublist q.storeNums := by
  have hmoves : Relation.ReflTransGen Moves q q' →
      q'.loadNums.Sublist q.loadNums ∧ q'.storeNums.Sublist q.storeNums := by
    intro hmoves
    obtain ⟨hstores, hloads⟩ := moves_storeNums hmoves
    rw [loadNums, hloads]
    exact ⟨.refl _, hstores⟩
  have hsame : q' = q → q'.loadNums.Sublist q.loadNums ∧ q'.storeNums.Sublist q.storeNums := by
    rintro rfl
    exact ⟨.refl _, .refl _⟩
  cases op with
  | insertLoad seqNum => exact absurd rfl (hload seqNum)
  | insertStore seqNum sc pf => exact absurd rfl (hstore seqNum sc pf)
  | executeStore store_idx acc =>
    rcases h with hq | ⟨pre, tag, post, hunsent, -, -, -, rfl⟩
    · exact hsame hq
    · simp [loadNums, storeNums, stores, hunsent, StoreTag.commit]
  | commitLoads youngest_inst =>
    obtain ⟨done, rest, hloads, -, rfl⟩ := h
    simp [loadNums, storeNums, stores, hloads]
  | commitStores youngest_inst =>
    obtain ⟨done, rest, hunsent, rfl⟩ := h
    simp only [loadNums, storeNums, stores, hunsent, map_append, map_seqNum_commit]
    exact ⟨.refl _, .refl _⟩
  | writebackStores answers => exact hmoves h
  | recvRetry answers => exact hmoves h
  | completeStore store_idx => exact hmoves (.single h.1)
  | squash squashed_num =>
    obtain ⟨loads, unsent, young, squashed, hloads, hunsent, -, -, -, -, rfl⟩ := h
    simp [loadNums, storeNums, stores, hloads, hunsent]
  | _ => exact hsame h

/-- In a list in program order the last number is the largest one. -/
theorem le_of_getLast {A : Type} {f : A → InstSeqNum} {items : List A} (h : (items.map f).Pairwise (· < ·))
    {last : A} (hlast : items.getLast? = some last) : ∀ a ∈ items, f a ≤ f last := by
  obtain ⟨init, rfl⟩ := getLast?_eq_some_iff.mp hlast
  intro a ha
  rw [map_append] at h
  cases mem_append.mp ha with
  | inl ha =>
    exact Nat.le_of_lt ((pairwise_append.mp h).2.2 _ (mem_map_of_mem ha) _ (mem_singleton_self _))
  | inr ha => exact Nat.le_of_eq (congrArg f (mem_singleton.mp ha))

end Queues

namespace LSQUnit

variable {l m : Nat} {p : LSQParams} {s s' : LSQUnit l m} {q : Queues l m}

/-- The slot of a store. -/
theorem Represents.slot (h : s.Represents wb q) (hsplit : q.stores = pre ++ tag :: post) :
    ∃ i inst, i = advance q.storeHead pre.length ∧ dist s.storeHead i = pre.length ∧
      pre.length < dist s.storeHead s.storeTail ∧ (s.storeQueue i).inst = some inst ∧
      tag = ⟨inst.seqNum, inst.lqIdx, inst.isStoreConditional, (s.storeQueue i).canWB, (s.storeQueue i).completed⟩ := by
  have hlength := h.stores.length_le
  change q.stores.length ≤ m at hlength
  have htail : dist s.storeHead s.storeTail = q.stores.length := h.storeHead ▸ h.stores.dist_tail
  rw [hsplit, length_append, length_cons] at hlength htail
  obtain ⟨inst, hinst, htag⟩ := SQEntry.tag_eq_some_iff.mp (h.tag_at hsplit)
  exact ⟨_, inst, rfl, h.storeHead ▸ dist_advance _ (by omega), by omega, hinst, htag⟩

theorem Represents.younger (h : s.Represents wb q) (hyounger : s.Younger seqNum) :
    (∀ n ∈ q.loadNums, n < seqNum) ∧ ∀ n ∈ q.storeNums, n < seqNum := by
  constructor
  · intro n hmem
    obtain ⟨tag, htag, rfl⟩ := mem_map.mp hmem
    obtain ⟨pre, post, hsplit⟩ := append_of_mem htag
    have hloads := h.loads
    rw [hsplit] at hloads
    obtain ⟨load, hload, rfl⟩ := hloads.middle
    exact hyounger.1 _ load hload
  · intro n hmem
    obtain ⟨tag, htag, rfl⟩ := mem_map.mp hmem
    obtain ⟨pre, post, hsplit⟩ := append_of_mem htag
    obtain ⟨i, inst, -, hdist, hlt, hinst, rfl⟩ := h.slot hsplit
    exact hyounger.2 i inst (hdist ▸ hlt) hinst

/-- The unit holds two queues in program order. -/
structure Tracks (p : LSQParams) (s : LSQUnit l m) (q : Queues l m) : Prop where
  represents : s.Represents s.storeWBIdx q
  sending : s.Sending p q
  ordered : q.Ordered

theorem Tracks.construct (p : LSQParams) (l m : Nat) : Tracks p (construct l m) .empty where
  represents := .construct l m
  sending := ⟨fun h => (by cases h), fun h => (by cases h), fun h => (by cases h), fun h => (by cases h)⟩
  ordered := ⟨.nil, .nil⟩

theorem Tracks.step (h : Tracks p s q) (hop : s.Orderly op) (hstep : s.step p op = .ok (answer, s')) :
    ∃ q', q.Step op q' ∧ Tracks p s' q' ∧ (s.Stalls → s.KeepsWaiting op → s'.Stalls) := by
  obtain ⟨q', hq, hrepresents, hsending, hstalls⟩ := step_refines h.represents h.sending hop hstep
  refine ⟨q', hq, ⟨hrepresents, hsending, ?_⟩, hstalls⟩
  cases op with
  | insertLoad seqNum =>
    cases hq
    refine ⟨?_, h.ordered.stores⟩
    rw [Queues.loadNums, Queues.insertLoad, map_append]
    refine pairwise_append.mpr ⟨h.ordered.loads, pairwise_singleton _ _, ?_⟩
    intro n hmem n' hmem'
    rw [map_singleton, mem_singleton] at hmem'
    exact hmem' ▸ (h.represents.younger hop.2).1 n hmem
  | insertStore seqNum sc pf =>
    cases hq
    refine ⟨h.ordered.loads, ?_⟩
    rw [Queues.storeNums, Queues.stores, Queues.insertStore, ← append_assoc, map_append]
    refine pairwise_append.mpr ⟨h.ordered.stores, pairwise_singleton _ _, ?_⟩
    intro n hmem n' hmem'
    rw [map_singleton, mem_singleton] at hmem'
    exact hmem' ▸ (h.represents.younger hop.2).2 n hmem
  | _ =>
    obtain ⟨hloads, hstores⟩ := hq.sublist (fun _ => by simp) (fun _ _ _ => by simp)
    exact ⟨h.ordered.loads.sublist hloads, h.ordered.stores.sublist hstores⟩

/-- What every call can rely on. Slots are compared by their distance from the
head: `i` lies in `[head, tail)` when it is nearer than the tail. -/
structure WellFormed (s : LSQUnit l m) : Prop where
  loads : s.loads = ((s.loadTail.val : Int) - s.loadHead.val) % ((l : Int) + 1)
  stores : s.stores = ((s.storeTail.val : Int) - s.storeHead.val) % ((m : Int) + 1)
  load_slots : ∀ i, (s.loadQueue i).isSome ↔ dist s.loadHead i < dist s.loadHead s.loadTail
  store_slots : ∀ i, dist s.storeHead i < dist s.storeHead s.storeTail → (s.storeQueue i).inst.isSome
  loads_increasing : ∀ i j older younger, s.loadQueue i = some older → s.loadQueue j = some younger →
    dist s.loadHead i < dist s.loadHead j → older.tag.seqNum < younger.tag.seqNum
  stores_increasing : ∀ i j older younger, (s.storeQueue i).inst = some older → (s.storeQueue j).inst = some younger →
    dist s.storeHead i < dist s.storeHead j → dist s.storeHead j < dist s.storeHead s.storeTail →
    older.seqNum < younger.seqNum
  storeWBIdx : dist s.storeHead s.storeWBIdx ≤ dist s.storeHead s.storeTail
  storesToWB : s.storesToWB = ((finRange (m + 1)).filter fun i =>
    dist s.storeHead i < dist s.storeHead s.storeTail && ((s.storeQueue i).canWB && !(s.storeQueue i).completed)).length

theorem lt_of_getElem? {A : Type} {f : A → InstSeqNum} {items : List A} (h : (items.map f).Pairwise (· < ·)) {i j : Nat}
    {a b : A} (ha : items[i]? = some a) (hb : items[j]? = some b) (hij : i < j) : f a < f b := by
  obtain ⟨hi, rfl⟩ := List.getElem?_eq_some_iff.mp ha
  obtain ⟨hj, rfl⟩ := List.getElem?_eq_some_iff.mp hb
  have hpair := pairwise_iff_getElem.mp h i j (by simpa using hi) (by simpa using hj) hij
  rwa [getElem_map, getElem_map] at hpair

theorem StoresHold.length_awaitsWB {storeQueue : Fin (m + 1) → SQEntry l} {stores storesToWB : Int}
    {storeHead storeWBIdx storeTail : Fin (m + 1)} {sent unsent : List (StoreTag l)}
    (h : StoresHold storeQueue stores storesToWB storeHead storeWBIdx storeTail sent unsent) :
    storesToWB = ((finRange (m + 1)).filter fun i =>
      dist storeHead i < dist storeHead storeTail && ((storeQueue i).canWB && !(storeQueue i).completed)).length := by
  have hcount := h.slots.length_filter fun tag => tag.any StoreTag.awaitsWB
  rw [countP_map, length_map] at hcount
  rw [h.toWB, show (sent ++ unsent).countP StoreTag.awaitsWB = _ from hcount.symm]
  congr 2
  apply filter_congr
  intro i _
  rw [h.dist_tail]
  by_cases hi : dist storeHead i < (sent ++ unsent).length
  · obtain ⟨tag, htag, -⟩ := h.get (h.dist_tail ▸ hi)
    obtain ⟨inst, hinst, rfl⟩ := SQEntry.tag_eq_some_iff.mp htag
    simp [htag, StoreTag.awaitsWB]
  · rw [decide_eq_false hi, Bool.false_and, Bool.false_and]

theorem Tracks.wellFormed (h : Tracks p s q) : s.WellFormed := by
  obtain ⟨⟨hloadHead, hloads, hstoreHead, hstores, -, -⟩, -, hordered⟩ := h
  rw [← hloadHead] at hloads
  rw [← hstoreHead] at hstores
  refine ⟨?_, ?_, hloads.isSome_iff, ?_, ?_, ?_, ?_, hstores.length_awaitsWB⟩
  · rw [hloads.count, ← hloads.dist_tail, natCast_dist]
  · rw [hstores.count, ← hstores.dist_tail, natCast_dist]
  · intro i hi
    obtain ⟨tag, htag, -⟩ := hstores.get hi
    obtain ⟨inst, hinst, -⟩ := SQEntry.tag_eq_some_iff.mp htag
    exact hinst ▸ rfl
  · intro i j older younger holder hyounger hij
    exact lt_of_getElem? hordered.loads (hloads.get holder) (hloads.get hyounger) hij
  · intro i j older younger holder hyounger hij hj
    obtain ⟨tag, htag, hat⟩ := hstores.get (Nat.lt_trans hij hj)
    obtain ⟨tag', htag', hat'⟩ := hstores.get hj
    obtain ⟨inst, hinst, rfl⟩ := SQEntry.tag_eq_some_iff.mp htag
    obtain ⟨inst', hinst', rfl⟩ := SQEntry.tag_eq_some_iff.mp htag'
    rw [holder] at hinst
    rw [hyounger] at hinst'
    cases hinst
    cases hinst'
    exact lt_of_getElem? hordered.stores hat hat' hij
  · rw [hstores.dist_wb, hstores.dist_tail, length_append]
    omega

/-- In every state between the calls the queues are well formed. -/
theorem run_wellFormed {ops : List (Op l m)} {answers : List Answer}
    (hrun : (machine p l m).run (construct l m) ops = .ok (answers, s))
    (hops : (machine p l m).StepsAll Orderly (construct l m) ops) : s.WellFormed := by
  obtain ⟨q, hq⟩ := Machine.run_invariant (I := fun s => ∃ q, Tracks p s q)
    (fun s op answer s' hs hop hstep => by
      obtain ⟨q, hq⟩ := hs
      obtain ⟨q', -, hq', -⟩ := hq.step hop hstep
      exact ⟨q', hq'⟩)
    ⟨.empty, .construct p l m⟩ hops hrun
  exact hq.wellFormed

/-- The default parameters, with cache lines of 64 bytes. -/
def defaultParams : LSQParams := ⟨4, true, 200, false, 0xffffffffffffffc0, false, by decide⟩

/-- An access of eight bytes that is translated at once. -/
def eightBytes (vaddr : Addr) : StoreAcc where
  translation := some ⟨false, vaddr, 0⟩
  delayed := false
  fault := false
  predicate := true
  write := some (⟨vaddr, 8, false, false, false, false, false⟩, fun i => BitVec.ofNat 8 i.val)

theorem Younger.of_all (hloads : ∀ i, ((s.loadQueue i).all fun load => load.tag.seqNum < seqNum) = true)
    (hstores : ∀ i, ((s.storeQueue i).inst.all fun inst => inst.seqNum < seqNum) = true) : s.Younger seqNum := by
  constructor
  · intro i load hload
    simpa [hload] using hloads i
  · intro i inst _ hinst
    simpa [hinst] using hstores i

/-- A store is executed, committed, written back and completed while a younger load
is squashed. -/
theorem run_wellFormed_squash : ∃ answers s, (machine defaultParams 2 2).run (construct 2 2)
    [.insertStore 1 false false, .insertLoad 2, .executeStore 0 (eightBytes 0x1000), .commitStores 1,
      .writebackStores [true], .squash 1, .completeStore 0] = .ok (answers, s) ∧ s.WellFormed := by
  refine ⟨?answers, ?s, ?run, run_wellFormed ?run ?orderly⟩
  case run => rfl
  refine ⟨⟨rfl, .of_all (by decide) (by decide)⟩, fun answer s h => ?_⟩
  cases h
  refine ⟨⟨rfl, .of_all (by decide) (by decide)⟩, fun answer s h => ?_⟩
  cases h
  refine ⟨⟨by decide, fun inst hinst hsc => ?_⟩, fun answer s h => ?_⟩
  · cases hinst
    cases hsc
  cases h
  refine ⟨trivial, fun answer s h => ?_⟩
  cases h
  refine ⟨trivial, fun answer s h => ?_⟩
  cases h
  refine ⟨trivial, fun answer s h => ?_⟩
  cases h
  exact ⟨⟨by decide, rfl⟩, fun _ _ _ => trivial⟩

end LSQUnit

end Gem5.O3
