import Nmfs.Journal.RoundTrip
import Nmfs.Lib.Run
import Nmfs.Lib.History
import Mathlib.Data.List.Perm.Basic
import Mathlib.Logic.Function.Basic

/-
  The threads of `journal`: any number of callers of its operations, one commit thread, and a
  checkpoint thread for each queue. A step is one critical section: the two of
  `journal_table::get_entry`, `replace_map`, a mutator, the one of `transaction::commit`, `issue` and
  `dispatch`; and, on its own, what `commit` does after it has let go of the lock, and `checkpoint`.

  A transaction is its position in `heap`, which only grows. The objects of the pool are left out:
  the size that `commit` finds is a part of the action. `events` is the history: no step looks at it.
-/

namespace Nmfs.CommitCycle

open Lib Transaction

def NUM_CP_THREAD : Nat := 8

/-- `(*((uint64_t *)ino.data)) % NUM_CP_THREAD` -/
def queueIndex (ino : Uuid) : Nat := leNat (slice ino.data 0 8) % NUM_CP_THREAD

/-- One call of a journal operation on the directory `ino`; no two calls have the same `id`. -/
structure Op where
  id : Nat
  ino : Uuid
  mutation : Mutation

/-- Where a caller is in the retry loop of its operation. -/
inductive Stage where
  | idle
  | find (op : Op)
  | insert (op : Op)
  | mutate (op : Op) (tx : Nat)
  | leave (op : Op)

abbrev JournalMap := AList (fun _ : Uuid => Nat)

/-- The commit thread: in the loop over the map it has taken, in the middle of `tx->commit`, before
    `q[i].issue(tx)`, or in the loop that stops the checkpoint threads. -/
inductive Committer where
  | cycle (rest : List ((_ : Uuid) × Nat))
  | write (p : (_ : Uuid) × Nat) (rest : List ((_ : Uuid) × Nat))
  | issue (p : (_ : Uuid) × Nat) (rest : List ((_ : Uuid) × Nat))
  | stopping (n : Nat)

inductive Checkpointer where
  | waiting
  | busy (tx : Nat)
  | stopped

inductive Event where
  | called (op : Op)
  | recorded (op : Op) (tx : Nat)
  | returned (op : Op)
  | took (tx : Nat)
  | serialised (tx : Nat) (raw : Bytes)
  | issued (queue tx : Nat)
  | checkpointed (queue tx : Nat)

structure State (T : Type) where
  map : JournalMap
  heap : List Transaction
  calls : Nat
  callers : T → Stage
  committer : Committer
  /-- `none` is the null pointer that stops a checkpoint thread. -/
  queues : Nat → List (Option Nat)
  checkpointers : Nat → Checkpointer
  events : List Event

inductive Action (T : Type) where
  | call (thread : T) (ino : Uuid) (mutation : Mutation)
  | find (thread : T)
  | insert (thread : T)
  | mutate (thread : T)
  | ret (thread : T)
  /-- `order` is the order in which the loop will go over the map. -/
  | replaceMap (order : List ((_ : Uuid) × Nat))
  | setCommitted
  | write (objSize : Nat)
  | issue
  | stop
  | issueNull
  | dispatch (queue : Nat)
  | checkpoint (queue : Nat)

variable {T : Type}

def State.init : State T :=
  ⟨∅, [], 0, fun _ => .idle, .cycle [], fun _ => [], fun _ => .waiting, []⟩

section

variable [DecidableEq T]

def State.setStage (s : State T) (thread : T) (stage : Stage) : State T :=
  { s with callers := Function.update s.callers thread stage }

def State.log (s : State T) (e : Event) : State T := { s with events := s.events ++ [e] }

/-- One step. A mutator that raises, and a `commit` of what is already committed, are no steps. -/
def step (s : State T) : Action T → Option (State T)
  | .call thread ino mutation =>
    match s.callers thread with
    | .idle =>
      let op := ⟨s.calls, ino, mutation⟩
      some (({ s with calls := s.calls + 1 }.setStage thread (.find op)).log (.called op))
    | _ => none
  | .find thread =>
    match s.callers thread with
    | .find op =>
      match s.map.lookup op.ino with
      | some tx => some (s.setStage thread (.mutate op tx))
      | none => some (s.setStage thread (.insert op))
    | _ => none
  | .insert thread =>
    match s.callers thread with
    | .insert op =>
      match s.map.lookup op.ino with
      | some tx => some (s.setStage thread (.mutate op tx))
      | none =>
        let tx := s.heap.length
        some ({ s with map := s.map.insert op.ino tx, heap := s.heap ++ [new op.ino] }.setStage
          thread (.mutate op tx))
    | _ => none
  | .mutate thread =>
    match s.callers thread with
    | .mutate op tx =>
      match s.heap[tx]? with
      | none => none
      | some x =>
        match op.mutation.apply x with
        | (.error _, _) => none
        | (.ok code, x) =>
          if code = 0 then
            some (({ s with heap := s.heap.set tx x }.setStage thread (.leave op)).log
              (.recorded op tx))
          else some (s.setStage thread (.find op))
    | _ => none
  | .ret thread =>
    match s.callers thread with
    | .leave op => some ((s.setStage thread .idle).log (.returned op))
    | _ => none
  | .replaceMap order =>
    match s.committer with
    | .cycle [] =>
      if order.Perm s.map.entries then
        some { s with
          map := ∅
          committer := .cycle order
          events := s.events ++ order.map fun p => .took p.2 }
      else none
    | _ => none
  | .setCommitted =>
    match s.committer with
    | .cycle (p :: rest) =>
      match s.heap[p.2]? with
      | none => none
      | some x =>
        if x.committed then none
        else some { s with
          heap := s.heap.set p.2 { x with committed := true }
          committer := .write p rest }
    | _ => none
  | .write objSize =>
    match s.committer with
    | .write p rest =>
      match s.heap[p.2]? with
      | none => none
      | some x =>
        some ({ s with
          heap := s.heap.set p.2 { x with offset := objSize }
          committer := .issue p rest }.log (.serialised p.2 x.serialize))
    | _ => none
  | .issue =>
    match s.committer with
    | .issue p rest =>
      let i := queueIndex p.1
      some ({ s with
        committer := .cycle rest
        queues := Function.update s.queues i (s.queues i ++ [some p.2]) }.log (.issued i p.2))
    | _ => none
  | .stop =>
    match s.committer with
    | .cycle [] => some { s with committer := .stopping 0 }
    | _ => none
  | .issueNull =>
    match s.committer with
    | .stopping n =>
      if n < NUM_CP_THREAD then
        some { s with
          committer := .stopping (n + 1)
          queues := Function.update s.queues n (s.queues n ++ [none]) }
      else none
    | _ => none
  | .dispatch i =>
    if i < NUM_CP_THREAD then
      match s.checkpointers i, s.queues i with
      | .waiting, some tx :: queue =>
        some { s with
          queues := Function.update s.queues i queue
          checkpointers := Function.update s.checkpointers i (.busy tx) }
      | .waiting, none :: queue =>
        some { s with
          queues := Function.update s.queues i queue
          checkpointers := Function.update s.checkpointers i .stopped }
      | _, _ => none
    else none
  | .checkpoint i =>
    match s.checkpointers i with
    | .busy tx =>
      some ({ s with
        checkpointers := Function.update s.checkpointers i .waiting }.log (.checkpointed i tx))
    | _ => none

end

/-! ## The history -/

/-- The transactions in the order in which the commit thread took them. -/
def taken (es : List Event) : List Nat :=
  es.filterMap fun | .took tx => some tx | _ => none

/-- The transactions in the order in which they were serialised to the journal. -/
def serialised (es : List Event) : List Nat :=
  es.filterMap fun | .serialised tx _ => some tx | _ => none

def issued (es : List Event) : List Nat :=
  es.filterMap fun | .issued _ tx => some tx | _ => none

/-- The transactions in the order in which they were checkpointed. -/
def checkpointed (es : List Event) : List Nat :=
  es.filterMap fun | .checkpointed _ tx => some tx | _ => none

def issuedTo (i : Nat) (es : List Event) : List Nat :=
  es.filterMap fun | .issued j tx => if j = i then some tx else none | _ => none

def checkpointedBy (i : Nat) (es : List Event) : List Nat :=
  es.filterMap fun | .checkpointed j tx => if j = i then some tx else none | _ => none

/-- The operations recorded in a transaction, in order. -/
def recordedIn (tx : Nat) (es : List Event) : List Op :=
  es.filterMap fun | .recorded op t => if t = tx then some op else none | _ => none

/-- The transactions that an operation was recorded in. -/
def recordedOf (op : Op) (es : List Event) : List Nat :=
  es.filterMap fun | .recorded o tx => if o.id = op.id then some tx else none | _ => none

end Nmfs.CommitCycle
