import Nmfs.Meta.Uuid
import Nmfs.Lib.Run
import Mathlib.Logic.Embedding.Basic

/-
  Directory leases. The manager's `lease_table` keeps one entry for each inode number, the due and
  the address of the leader; each client's `lease_table_client` keeps the last answers it got, a
  due and whether the client itself is the leader. `System` puts one manager and any number of
  clients under one clock, with the `lease_client::acquire` calls in flight: an action is one
  critical section, or the delivery of an answer. Entries are never removed.
-/

namespace Nmfs.Lease

open Lib

abbrev Addr := Str

/-- In ticks of `system_clock`, which counts nanoseconds. -/
def milliseconds (n : Nat) : Nat := n * 1000000

def leasePeriodMs : Nat := 200000000

theorem milliseconds_leasePeriodMs_pos : 0 < milliseconds leasePeriodMs := by
  decide

/-! ## The manager -/

/-- `lease_table::lease_entry`. -/
structure LeaseEntry where
  due : Nat
  addr : Addr
  deriving DecidableEq, Repr

/-- `lease_response`; `granted` is `ret() == 0`. -/
structure Answer where
  granted : Bool
  due : Nat
  remoteAddr : Addr
  deriving DecidableEq, Repr

/-- `lease_entry::cas`. The clock is read twice, first `now` and then `now'`. -/
def LeaseEntry.cas (e : LeaseEntry) (now now' : Nat) (remoteAddr : Addr) : Answer × LeaseEntry :=
  if e.due ≤ now then
    let due := now' + milliseconds leasePeriodMs
    (⟨true, due, remoteAddr⟩, ⟨due, remoteAddr⟩)
  else if e.addr = remoteAddr then (⟨true, e.due, remoteAddr⟩, e)
  else (⟨false, e.due, e.addr⟩, e)

/-- `lease_table::map`. -/
abbrev LeaseTable := Uuid → Option LeaseEntry

/-- The second critical section of `lease_table::acquire`. When another call has inserted the entry
    meanwhile, the answer is read from it and `remote_addr` is left as it was. -/
def LeaseTable.insert (map : LeaseTable) (ino : Uuid) (now : Nat) (remoteAddr : Addr) :
    Answer × LeaseTable :=
  match map ino with
  | none =>
    let e : LeaseEntry := ⟨now + milliseconds leasePeriodMs, remoteAddr⟩
    (⟨true, e.due, remoteAddr⟩, Function.update map ino (some e))
  | some e => (⟨e.addr = remoteAddr, e.due, remoteAddr⟩, map)

/-! ## A client -/

/-- `lease_table_client::lease_entry`. -/
structure ClientEntry where
  due : Nat
  leader : Bool
  deriving DecidableEq, Repr

def ClientEntry.setInfo (e : ClientEntry) (newDue : Nat) (mine : Bool) : ClientEntry :=
  if e.due < newDue then ⟨newDue, mine⟩ else e

/-- `lease_table_client::map`. -/
abbrev LeaseTableClient := Uuid → Option ClientEntry

namespace LeaseTableClient

def isValid (map : LeaseTableClient) (ino : Uuid) (now : Nat) : Bool :=
  match map ino with
  | none => false
  | some e => now < e.due

def isMine (map : LeaseTableClient) (ino : Uuid) (now : Nat) : Bool :=
  match map ino with
  | none => false
  | some e => e.leader && now < e.due

/-- Entries stay, so the look-up that comes first changes nothing: one step does it. -/
def update (map : LeaseTableClient) (ino : Uuid) (newDue : Nat) (mine : Bool) :
    LeaseTableClient :=
  Function.update map ino <| some <|
    match map ino with
    | none => ⟨newDue, mine⟩
    | some e => e.setInfo newDue mine

end LeaseTableClient

/-! ## The system -/

/-- Where a call of `lease_client::acquire` is. -/
inductive Stage where
  /-- before the look-up of `lease_table::acquire` -/
  | lookup
  /-- the entry was found -/
  | cas
  /-- the entry was not found -/
  | insert
  | answered (answer : Answer)
  | returned (answer : Answer)
  deriving DecidableEq, Repr

structure Call (C : Type) where
  client : C
  ino : Uuid
  stage : Stage
  deriving DecidableEq

structure System (C : Type) where
  now : Nat
  manager : LeaseTable
  tables : C → LeaseTableClient
  calls : List (Call C)
  /-- history: the answers 0 of the manager, oldest first -/
  grants : List (Uuid × C)

def System.init (C : Type) : System C := ⟨0, fun _ => none, fun _ _ => none, [], []⟩

inductive Action (C : Type) where
  | tick (d : Nat)
  | request (c : C) (ino : Uuid)
  | lookup (k : Nat)
  /-- `d` is what the clock advances between the two reads of `cas` -/
  | cas (k d : Nat)
  | insert (k : Nat)
  | deliver (k : Nat)
  deriving DecidableEq

variable {C : Type}

/-- What the history records for an answer. -/
def Call.grant (call : Call C) (answer : Answer) : List (Uuid × C) :=
  if answer.granted then [(call.ino, call.client)] else []

def System.setStage (s : System C) (k : Nat) (call : Call C) (stage : Stage) : System C :=
  { s with calls := s.calls.set k { call with stage := stage } }

variable [DecidableEq C]

/-- One critical section, with the clients' distinct addresses `remote`. -/
def step (remote : C ↪ Addr) (s : System C) : Action C → Option (System C)
  | .tick d => some { s with now := s.now + d }
  | .request c ino =>
    -- `acquire` asks the manager only when the client's own table does not say "mine"
    if (s.tables c).isMine ino s.now then none
    else some { s with calls := s.calls ++ [⟨c, ino, .lookup⟩] }
  | .lookup k =>
    match s.calls[k]? with
    | some ⟨c, ino, .lookup⟩ =>
      some (s.setStage k ⟨c, ino, .lookup⟩ (if (s.manager ino).isSome then .cas else .insert))
    | _ => none
  | .cas k d =>
    match s.calls[k]? with
    | some ⟨c, ino, .cas⟩ =>
      (s.manager ino).map fun e =>
        let (answer, e') := e.cas s.now (s.now + d) (remote c)
        { s.setStage k ⟨c, ino, .cas⟩ (.answered answer) with
          now := s.now + d
          manager := Function.update s.manager ino (some e')
          grants := s.grants ++ Call.grant ⟨c, ino, .cas⟩ answer }
    | _ => none
  | .insert k =>
    match s.calls[k]? with
    | some ⟨c, ino, .insert⟩ =>
      let (answer, manager) := s.manager.insert ino s.now (remote c)
      some { s.setStage k ⟨c, ino, .insert⟩ (.answered answer) with
        manager := manager
        grants := s.grants ++ Call.grant ⟨c, ino, .insert⟩ answer }
    | _ => none
  | .deliver k =>
    match s.calls[k]? with
    | some ⟨c, ino, .answered answer⟩ =>
      some { s.setStage k ⟨c, ino, .answered answer⟩ (.returned answer) with
        tables := Function.update s.tables c ((s.tables c).update ino answer.due answer.granted) }
    | _ => none

end Nmfs.Lease
