import Gem5.Base.IntMath
import Gem5.Lib.Run

open Lib Result

namespace Gem5

namespace MemChecker

/-- `TICK_INITIAL`. -/
def tickInitial : Nat := 0

/-- `TICK_FUTURE`, which is `MaxTick`. -/
def tickFuture : Nat := 2 ^ 64 - 1

structure Transaction where
  serial : Nat
  start : Nat
  complete : Nat
  data : BitVec 8
  deriving DecidableEq

/-- `--numIncomplete`, for a counter of type `size_t`. -/
def decrement (n : Nat) : Nat := if n = 0 then 2 ^ 64 - 1 else n - 1

/-- `MemChecker::WriteCluster`. The map of writes is a list here. What is computed by
iterating over it does not depend on the order. -/
structure WriteCluster where
  start : Nat
  complete : Nat
  writes : List Transaction
  completeMax : Nat
  numIncomplete : Nat

namespace WriteCluster

/-- `WriteCluster()`. -/
def construct : WriteCluster := ⟨tickFuture, tickFuture, [], tickInitial, 0⟩

variable (c : WriteCluster)

def isComplete : Bool := c.complete ≠ tickFuture

/-- Inserting a write, unless there is one with its serial. -/
def insertWrite (writes : List Transaction) (write : Transaction) : List Transaction :=
  if writes.any fun w => w.serial = write.serial then writes else writes ++ [write]

/-- Opening a closed cluster again. -/
def reopen (start : Nat) : Result WriteCluster :=
  if c.complete ≠ tickFuture then do
    require (start < c.complete)
    .ok { c with complete := tickFuture }
  else .ok c

def startWrite (serial start : Nat) (data : BitVec 8) : Result WriteCluster := do
  require (!c.isComplete)
  let c := if c.start = tickFuture then { c with start := start } else c
  require (c.start ≤ start)
  let c ← { c with numIncomplete := c.numIncomplete + 1 }.reopen start
  .ok { c with writes := insertWrite c.writes ⟨serial, start, tickFuture, data⟩ }

/-- The completion time of one write is recorded. -/
def recordComplete (serial complete : Nat) (w : Transaction) : Transaction :=
  if w.serial = serial then { w with complete := complete } else w

def completeWrite (serial complete : Nat) : Result WriteCluster :=
  match c.writes.find? fun w => w.serial = serial with
  | none => .ok c
  | some write => do
    require (write.complete = tickFuture)
    let completeMax := if c.completeMax < complete then complete else c.completeMax
    let numIncomplete := decrement c.numIncomplete
    .ok { c with
      writes := c.writes.map (recordComplete serial complete)
      completeMax := completeMax
      numIncomplete := numIncomplete
      complete := if numIncomplete = 0 then completeMax else c.complete }

def abortWrite (serial : Nat) : WriteCluster :=
  if c.writes.any fun w => w.serial = serial then
    let writes := c.writes.filter fun w => w.serial ≠ serial
    let numIncomplete := decrement c.numIncomplete
    { c with
      writes := writes
      numIncomplete := numIncomplete
      complete := if numIncomplete = 0 ∧ writes ≠ [] then c.completeMax else c.complete }
  else c

end WriteCluster

/-- `MemChecker::ByteTracker`. The outstanding reads are in the order of their serials. -/
structure ByteTracker where
  outstandingReads : List Transaction
  readObservations : List Transaction
  writeClusters : List WriteCluster
  lastExpectedData : List (BitVec 8)

section Scan

variable {A : Type}

/-- The loop of `lastCompletedTransaction`: the iterator, what is before it with the
closest first, and what is behind it. -/
def scanBack (complete : A → Nat) (before : Nat) : A → List A → List A → A × List A
  | it, [], behind => (it, behind)
  | it, prev :: front, behind =>
    if complete it ≥ before then scanBack complete before prev front (it :: behind) else (it, behind)

/-- `lastCompletedTransaction`, with what the iterator it returns points to and with the
elements behind it. -/
def lastCompletedTransaction (complete : A → Nat) (l : List A) (before : Nat) : Result (A × List A) :=
  match l.reverse with
  | [] => .error .assertion
  | last :: front => .ok (scanBack complete before last front [])

end Scan

namespace ByteTracker

/-- The transaction that stands for the state before any access. -/
def initialObservation : Transaction := ⟨0, tickInitial, tickInitial, 0⟩

/-- `ByteTracker()`. -/
def construct : ByteTracker := ⟨[], [initialObservation], [], []⟩

/-- `outstandingReads.insert`. -/
def insertRead (read : Transaction) : List Transaction → List Transaction
  | [] => [read]
  | r :: rs =>
    if r.serial < read.serial then r :: insertRead read rs
    else if r.serial = read.serial then r :: rs
    else read :: r :: rs

variable (t : ByteTracker)

def startRead (serial start : Nat) : ByteTracker :=
  { t with outstandingReads := insertRead ⟨serial, start, tickFuture, 0⟩ t.outstandingReads }

/-- What the loops of `inExpectedData` have found: whether some write has the data, whether
all writes so far overlap the read, whether the last observation is still valid, and the
data that would have been right. -/
structure Scan where
  found : Bool
  wc_overlap : Bool
  last_obs_valid : Bool
  expected : List (BitVec 8)

/-- The inner loop of `inExpectedData`. -/
def scanWrites (last_obs : Transaction) (start : Nat) (data : BitVec 8) : List Transaction → Scan → Scan
  | [], s => s
  | write :: writes, s =>
    if write.complete < last_obs.start then scanWrites last_obs start data writes s
    else if write.data = data then { s with found := true }
    else
      let s := { s with expected := s.expected ++ [write.data] }
      if write.complete > start then scanWrites last_obs start data writes s
      else
        scanWrites last_obs start data writes
          { s with
            wc_overlap := false
            last_obs_valid := if last_obs.complete < write.start then false else s.last_obs_valid }

/-- The outer loop of `inExpectedData`, over the clusters from the last one on. -/
def scanClusters (last_obs : Transaction) (start : Nat) (data : BitVec 8) : List WriteCluster → Scan → Scan
  | [], s => s
  | cluster :: clusters, s =>
    if s.found = false ∧ s.wc_overlap = true then
      scanClusters last_obs start data clusters (scanWrites last_obs start data cluster.writes s)
    else s

/-- The end of `inExpectedData`, when nothing has matched. -/
def noMatch (last_obs : Transaction) : Result (Bool × ByteTracker) :=
  if t.lastExpectedData.isEmpty then do
    require (last_obs.complete = tickInitial)
    .ok (true, t)
  else .ok (false, t)

/-- The check that the write clusters overlap the read. -/
def checkOverlap (start complete : Nat) : Result Unit :=
  match t.writeClusters.head?, t.writeClusters.getLast? with
  | some first, some last => require (first.start < complete && last.complete > start)
  | _, _ => .ok ()

/-- What `inExpectedData` concludes from the scan. -/
def conclude (last_obs : Transaction) (start complete : Nat) (data : BitVec 8) (s : Scan) :
    Result (Bool × ByteTracker) :=
  if s.found then .ok (true, { t with lastExpectedData := s.expected })
  else if s.last_obs_valid then do
    require (last_obs.complete ≤ start)
    if last_obs.data = data then .ok (true, { t with lastExpectedData := s.expected })
    else noMatch { t with lastExpectedData := s.expected ++ [last_obs.data] } last_obs
  else if !t.writeClusters.isEmpty && s.wc_overlap then do
    t.checkOverlap start complete
    .ok (true, { t with lastExpectedData := s.expected })
  else noMatch { t with lastExpectedData := s.expected } last_obs

def inExpectedData (start complete : Nat) (data : BitVec 8) : Result (Bool × ByteTracker) := do
  let (last_obs, _) ← lastCompletedTransaction Transaction.complete t.readObservations start
  t.conclude last_obs start complete data
    (scanClusters last_obs start data t.writeClusters.reverse ⟨false, true, last_obs.complete ≠ tickInitial, []⟩)

/-- The tick up to which `pruneTransactions` looks. -/
def pruneBefore (curTick : Nat) : Nat :=
  match t.outstandingReads with
  | [] => curTick
  | read :: _ => read.start

def pruneClusters (clusters : List WriteCluster) (before : Nat) : Result (List WriteCluster) :=
  if clusters.isEmpty then .ok clusters
  else do
    let (it, behind) ← lastCompletedTransaction WriteCluster.complete clusters before
    .ok (it :: behind)

def pruneTransactions (curTick : Nat) : Result ByteTracker := do
  let (it, behind) ← lastCompletedTransaction Transaction.complete t.readObservations (t.pruneBefore curTick)
  let writeClusters ← pruneClusters t.writeClusters (t.pruneBefore curTick)
  .ok { t with readObservations := it :: behind, writeClusters := writeClusters }

def completeRead (serial complete : Nat) (data : BitVec 8) (curTick : Nat) : Result (Bool × ByteTracker) :=
  match t.outstandingReads.find? fun r => r.serial = serial with
  | none => .ok (true, t)
  | some read => do
    let t := { t with outstandingReads := t.outstandingReads.filter fun r => r.serial ≠ serial }
    let (result, t) ← t.inExpectedData read.start complete data
    let observation : Transaction := ⟨serial, read.start, complete, data⟩
    let t := { t with readObservations := t.readObservations ++ [observation] }
    let t ← t.pruneTransactions curTick
    .ok (result, t)

/-- `getIncompleteWriteCluster`, with the clusters before the one it returns. -/
def getIncompleteWriteCluster : List WriteCluster × WriteCluster :=
  match t.writeClusters.getLast? with
  | none => ([], .construct)
  | some last => if last.isComplete then (t.writeClusters, .construct) else (t.writeClusters.dropLast, last)

def startWrite (t : ByteTracker) (serial start : Nat) (data : BitVec 8) : Result ByteTracker := do
  let (front, last) := t.getIncompleteWriteCluster
  let last ← last.startWrite serial start data
  .ok { t with writeClusters := front ++ [last] }

def completeWrite (t : ByteTracker) (serial complete curTick : Nat) : Result ByteTracker := do
  let (front, last) := t.getIncompleteWriteCluster
  let last ← last.completeWrite serial complete
  let t := { t with writeClusters := front ++ [last] }
  t.pruneTransactions curTick

def abortWrite (t : ByteTracker) (serial : Nat) : ByteTracker :=
  let (front, last) := t.getIncompleteWriteCluster
  { t with writeClusters := front ++ [last.abortWrite serial] }

end ByteTracker

end MemChecker

open MemChecker

/-- `MemChecker`. -/
structure MemChecker where
  nextSerial : Nat
  byte_trackers : Addr → Option ByteTracker
  errorMessage : String

namespace MemChecker

/-- `MemChecker()`. -/
def construct : MemChecker := ⟨0, fun _ => none, ""⟩

variable (m : MemChecker)

/-- `getByteTracker`. The tracker is stored when the call that asks for it is over. -/
def getByteTracker (addr : Addr) : ByteTracker := (m.byte_trackers addr).getD .construct

def setByteTracker (addr : Addr) (t : ByteTracker) : MemChecker :=
  { m with byte_trackers := fun a => if a = addr then some t else m.byte_trackers a }

/-- The loop over the bytes of a transaction, from byte `i` on. -/
def forBytes (f : Nat → ByteTracker → Result ByteTracker) (addr : Addr) : Nat → Nat → MemChecker → Result MemChecker
  | _, 0, m => .ok m
  | i, count + 1, m => do
    let t ← f i (m.getByteTracker (addr + BitVec.ofNat 64 i))
    forBytes f addr (i + 1) count (m.setByteTracker (addr + BitVec.ofNat 64 i) t)

def startRead (m : MemChecker) (start : Nat) (addr : Addr) (size : Nat) : Result (Nat × MemChecker) := do
  let m' ← forBytes (fun _ t => .ok (t.startRead m.nextSerial start)) addr 0 size m
  .ok (m.nextSerial, { m' with nextSerial := m.nextSerial + 1 })

def startWrite (m : MemChecker) (start : Nat) (addr : Addr) (data : List (BitVec 8)) : Result (Nat × MemChecker) := do
  let m' ← forBytes (fun i t => t.startWrite m.nextSerial start (data.getD i 0)) addr 0 data.length m
  .ok (m.nextSerial, { m' with nextSerial := m.nextSerial + 1 })

/-- `%#x` and `%#llx`. -/
def hex (n : Nat) : String := if n = 0 then "0" else "0x" ++ String.ofList (Nat.toDigits 16 n)

/-- What `completeRead` says about a byte. -/
def failure (addr : Addr) (data : BitVec 8) (expected : List (BitVec 8)) : String :=
  "  Read transaction for address " ++ hex addr.toNat ++ " failed: received " ++ hex data.toNat ++ ", expected " ++
    String.intercalate "|" (expected.map fun byte => hex byte.toNat)

/-- The loop of `completeRead` over the bytes, from byte `i` on. -/
def completeBytes (serial complete curTick : Nat) (addr : Addr) :
    Nat → List (BitVec 8) → Bool → MemChecker → Result (Bool × MemChecker)
  | _, [], result, m => .ok (result, m)
  | i, byte :: data, result, m => do
    let (ok, t) ← (m.getByteTracker (addr + BitVec.ofNat 64 i)).completeRead serial complete byte curTick
    let m := m.setByteTracker (addr + BitVec.ofNat 64 i) t
    let message := failure (addr + BitVec.ofNat 64 i) byte t.lastExpectedData
    if ok then completeBytes serial complete curTick addr (i + 1) data result m
    else
      completeBytes serial complete curTick addr (i + 1) data false
        { m with errorMessage := if result then message else m.errorMessage ++ "\n" ++ message }

def completeRead (serial complete : Nat) (addr : Addr) (data : List (BitVec 8)) (curTick : Nat) :
    Result (Bool × MemChecker) := completeBytes serial complete curTick addr 0 data true m

def completeWrite (m : MemChecker) (serial complete : Nat) (addr : Addr) (size curTick : Nat) : Result MemChecker :=
  forBytes (fun _ t => t.completeWrite serial complete curTick) addr 0 size m

def abortWrite (m : MemChecker) (serial : Nat) (addr : Addr) (size : Nat) : Result MemChecker :=
  forBytes (fun _ t => .ok (t.abortWrite serial)) addr 0 size m

/-- `reset()`. -/
def resetAll : MemChecker := { m with byte_trackers := fun _ => none }

/-- `reset(addr, size)`. -/
def reset (m : MemChecker) (addr : Addr) : Nat → MemChecker
  | 0 => m
  | size + 1 =>
    let m := m.reset addr size
    { m with byte_trackers := fun a => if a = addr + BitVec.ofNat 64 size then none else m.byte_trackers a }

end MemChecker

end Gem5
