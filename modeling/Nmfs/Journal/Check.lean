import Nmfs.Journal.Record
import Nmfs.Lib.Run

/-
  The JOURNAL object of a directory: `commit` appends a record, `checkpoint` writes the transaction
  to the meta pool and then a zero byte to the journal, `journal::check` goes over the records
  after a crash. The entry of `journal_table` that `check` deletes first is not part of the pool.
-/

namespace Nmfs

open Lib

namespace Transaction

def commit (tx : Transaction) (pool : Pool) : Except Err (Transaction × Pool) :=
  if tx.committed then
    .error (.logicError "transaction::commit() failed (tx has been already committed)")
  else
    let raw := tx.serialize
    let objSize := (RadosIo.stat pool .journal tx.sIno.toStr).2
    .ok ({ tx with committed := true, offset := objSize },
      (RadosIo.write pool .journal tx.sIno.toStr raw objSize).2)

def checkpoint (tx : Transaction) (pool : Pool) : Except Err Unit × Pool :=
  match tx.sync pool with
  | (.error e, pool) => (.error e, pool)
  | (.ok (), pool) => (.ok (), (RadosIo.write pool .journal tx.sIno.toStr [0] tx.offset).2)

end Transaction

namespace Journal

/-- How `check` ends, with the transactions it has replayed, each with the position of its record. -/
structure Checked where
  pool : Pool
  replayed : List (Nat × Transaction)
  result : Except Err Unit

/-- The record at `index`: `tx_size`, and as many bytes of the buffer. -/
def readRecord (value : Bytes) (index : Nat) : Except Err Bytes := do
  let txSize := leNat (← Transaction.getRaw value index 4)
  -- a vector that ends before it begins
  if 2 ^ 31 ≤ txSize then .error .lengthError
  else Transaction.getRaw value index txSize

/-- The loop. A record that can be decoded has 5 bytes at least, so `obj_size` rounds are enough. -/
def checkLoop (selfIno : Uuid) (value : Bytes) (objSize : Nat) : Nat → Nat → Pool → Checked
  | 0, _, pool => ⟨pool, [], .error .undefined⟩
  | fuel + 1, index, pool =>
    if index < objSize then
      match readRecord value index with
      | .error e => ⟨pool, [], .error e⟩
      | .ok raw =>
        match Transaction.deserialize pool selfIno raw with
        | .error e => ⟨pool, [], .error e⟩
        | .ok (code, tx) =>
          if code = 0 then
            match tx.sync pool with
            | (.error e, pool) => ⟨pool, [], .error e⟩
            | (.ok (), pool) =>
              let rest := checkLoop selfIno value objSize fuel (index + raw.length) pool
              { rest with replayed := (index, tx) :: rest.replayed }
          else ⟨pool, [], .error (.runtimeError "journal::check() failed (not implemented yet)")⟩
    else ⟨pool, [], .ok ()⟩

def check (pool : Pool) (selfIno : Uuid) : Checked :=
  match RadosIo.read pool .journal selfIno.toStr RadosIo.objSize 0 with
  | .noSuchObject _ _ => ⟨pool, [], .error .noSuchObject⟩
  | .done bytes sum =>
    checkLoop selfIno (resize 0 bytes RadosIo.objSize) sum (sum + 1) 0 pool

/-! ## Runs -/

/-- A directory's journal at work: the pool, and the transactions that have been committed and not
    checkpointed, in the order of the queue. -/
structure State where
  pool : Pool
  queue : List Transaction

inductive Event where
  | commit (tx : Transaction)
  | checkpoint

def step (s : State) : Event → Option State
  | .commit tx =>
    match tx.commit s.pool with
    | .error _ => none
    | .ok (tx, pool) => some ⟨pool, s.queue ++ [tx]⟩
  | .checkpoint =>
    match s.queue with
    | [] => none
    | tx :: queue =>
      match tx.checkpoint s.pool with
      | (.error _, _) => none
      | (.ok (), pool) => some ⟨pool, queue⟩

/-- The transactions of a run, in commit order. -/
def committed : List Event → List Transaction
  | [] => []
  | .commit tx :: evs => tx :: committed evs
  | .checkpoint :: evs => committed evs

/-- How many of them have been checkpointed. -/
def checkpointed : List Event → Nat
  | [] => 0
  | .commit _ :: evs => checkpointed evs
  | .checkpoint :: evs => checkpointed evs + 1

/-- The transactions with the positions of their records. -/
def records : Nat → List Transaction → List (Nat × Transaction)
  | _, [] => []
  | index, tx :: txs => (index, tx) :: records (index + tx.serialize.length) txs

end Journal

end Nmfs
