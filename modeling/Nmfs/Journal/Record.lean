import Nmfs.Journal.Transaction

/-
  The journal record of a transaction: its size in 4 bytes, the valid byte, the directory's own
  inode or -1, the entries up to a byte -1, and the live inodes up to a size -1. An inode stands
  with its size before it.

  `deserialize` steps over the directory's inode by `sizeof(inode)` and not by the size it has just
  read, and takes the target of a link from the pool. A read outside the record is `undefined`.
-/

namespace Nmfs.Transaction

open Lib

/-! ## serialize -/

def inodeBytes (i : Inode) : Bytes := leBytes 4 i.serialize.length ++ i.serialize

def dentryBytes (e : (_ : Bytes) × (Bool × Uuid)) : Bytes :=
  (if e.2.1 then 1 else 0) :: (leBytes 4 e.1.length ++ (e.1 ++ e.2.2.data))

/-- Deleted files leave no trace in the record. -/
def fInodeBytes (e : (_ : Uuid) × Option Inode) : Bytes :=
  match e.2 with
  | some i => inodeBytes i
  | none => []

/-- Four bytes -1. -/
def minusOne : Bytes := List.replicate 4 255

/-- The record after its size. -/
def body (tx : Transaction) : Bytes :=
  1 :: ((match tx.sInode with
      | some s => inodeBytes s
      | none => minusOne) ++
    (tx.dentries.entries.flatMap dentryBytes ++
      (255 :: (tx.fInodes.entries.flatMap fInodeBytes ++ minusOne))))

def serialize (tx : Transaction) : Bytes := leBytes 4 (4 + tx.body.length) ++ tx.body

/-! ## deserialize -/

/-- `len` bytes of the record from position `index` on. -/
def getRaw (raw : Bytes) (index len : Nat) : Except Err Bytes :=
  if index + len ≤ raw.length then .ok (slice raw index len) else .error .undefined

/-- `index += size`, where `size` is an `int32_t`. -/
def advance (index size : Nat) : Except Err Nat :=
  if size < 2 ^ 31 then .ok (index + size)
  else if 2 ^ 32 ≤ index + size then .ok (index + size - 2 ^ 32)
  else .error .undefined

def duplicated : Err := .logicError "transaction::deserialize() failed (a duplicated key exists)"

/-- The loop over the entries: the position behind it, and the entries. Each round takes 21 bytes at
    least, so `raw.length` rounds are enough. -/
def readDentries (raw : Bytes) : Nat → Nat → AList (fun _ : Bytes => Bool × Uuid) →
    Except Err (Nat × AList (fun _ : Bytes => Bool × Uuid))
  | 0, _, _ => .error .undefined
  | fuel + 1, index, dentries => do
    let entryStat ← getRaw raw index 1
    if entryStat = [255] then return (index + 1, dentries)
    else
      let dentrySize := leNat (← getRaw raw (index + 1) 4)
      if 2 ^ 31 ≤ dentrySize then .error .lengthError
      else
        let name ← getRaw raw (index + 5) dentrySize
        let ino ← getRaw raw (index + 5 + dentrySize) 16
        if name ∈ dentries then .error duplicated
        else
          readDentries raw fuel (index + 5 + dentrySize + 16)
            (dentries.insert name (entryStat ≠ [0], Inode.getUuid ino 0))

/-- The loop over the inodes. A position seen before is a duplicated key, so `raw.length` rounds are
    enough. -/
def readFInodes (pool : Pool) (raw : Bytes) : Nat → Nat → AList (fun _ : Uuid => Option Inode) →
    Except Err (AList (fun _ : Uuid => Option Inode))
  | 0, _, _ => .error .undefined
  | fuel + 1, index, fInodes => do
    let size := leNat (← getRaw raw index 4)
    if size = 2 ^ 32 - 1 then return fInodes
    else
      let value ← getRaw raw (index + 4) Inode.REG_INODE_SIZE
      let i ← Inode.deserialize pool none value
      if i.ino ∈ fInodes then .error duplicated
      else
        let index ← advance (index + 4) size
        readFInodes pool raw fuel index (fInodes.insert i.ino (some i))

/-- The directory's own inode, and where the entries are taken to start. -/
def readSInode (pool : Pool) (raw : Bytes) : Except Err (Nat × Option Inode) := do
  let size := leNat (← getRaw raw 5 4)
  if size = 2 ^ 32 - 1 then return (9, none)
  else
    let value ← getRaw raw 9 Inode.REG_INODE_SIZE
    let s ← Inode.deserialize pool none value
    return (9 + Inode.sizeofInode, some s)

/-- `deserialize` on a fresh transaction: its code, and the transaction. -/
def deserialize (pool : Pool) (selfIno : Uuid) (raw : Bytes) : Except Err (Int × Transaction) := do
  let tx := new selfIno
  let valid ← getRaw raw 4 1
  if valid = [0] then return (-1, tx)
  else
    let (index, sInode) ← readSInode pool raw
    let (index, dentries) ← readDentries raw (raw.length + 1) index ∅
    let fInodes ← readFInodes pool raw (raw.length + 1) index ∅
    return (0, { tx with sInode := sInode, dentries := dentries, fInodes := fInodes })

end Nmfs.Transaction
