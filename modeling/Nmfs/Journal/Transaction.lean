import Nmfs.Meta.Dentry

/-
  `transaction`: what one directory has changed since its last commit. It is an overlay: a name is
  mapped to whether it was added or deleted, a file's inode number to its new inode, or to null
  where the file was deleted.

  A mutator returns its code, or what it throws, together with the transaction it leaves behind: a
  throw in the middle keeps the changes made before it.
-/

namespace Nmfs

open Lib

inductive SelfStatus where
  | S_UNCHANGED
  | S_CREATED
  | S_DELETED
  deriving DecidableEq, Repr

structure Transaction where
  committed : Bool
  offset : Nat
  status : SelfStatus
  sIno : Uuid
  sInode : Option Inode
  dentries : AList (fun _ : Bytes => Bool × Uuid)
  fInodes : AList (fun _ : Uuid => Option Inode)

namespace Transaction

def new (selfIno : Uuid) : Transaction := ⟨false, 0, .S_UNCHANGED, selfIno, none, ∅, ∅⟩

abbrev Result := Except Err Int × Transaction

/-- The guard of every mutator. -/
def unlessCommitted (tx : Transaction) (mutate : Transaction → Result) : Result :=
  if tx.committed then (.ok (-1), tx) else mutate tx

/-- Insert `{alive, ino}`, or turn an entry that says the opposite; an entry that says the same
    already is `none`. -/
def putDentry (tx : Transaction) (alive : Bool) (name : Bytes) (ino : Uuid) : Option Transaction :=
  match tx.dentries.lookup name with
  | none => some { tx with dentries := tx.dentries.insert name (alive, ino) }
  | some (alive', _) =>
    if alive' = alive then none
    else some { tx with dentries := tx.dentries.insert name (alive, ino) }

/-- The directory's own inode: new times, or a copy. -/
def touchSelf (tx : Transaction) (selfInode : Inode) : Transaction :=
  match tx.sInode with
  | some s =>
    { tx with sInode := some { s with core := { s.core with
        iMtime := selfInode.core.iMtime
        iCtime := selfInode.core.iCtime } } }
  | none => { tx with sInode := some selfInode.copy }

def mkself (tx : Transaction) (selfInode : Inode) : Result :=
  tx.unlessCommitted fun tx =>
    (.ok 0, { tx with sInode := some selfInode.copy, status := .S_CREATED })

def rmself (tx : Transaction) : Result :=
  tx.unlessCommitted fun tx => (.ok 0, { tx with status := .S_DELETED })

def chself (tx : Transaction) (selfInode : Inode) : Result :=
  tx.unlessCommitted fun tx => (.ok 0, { tx with sInode := some selfInode.copy })

def mkdir (tx : Transaction) (selfInode : Inode) (dName : Bytes) (dIno : Uuid) : Result :=
  tx.unlessCommitted fun tx =>
    match tx.putDentry true dName dIno with
    | none => (.error (.logicError "transaction::mkdir() failed (directory already exists)"), tx)
    | some tx => (.ok 0, tx.touchSelf selfInode)

def rmdir (tx : Transaction) (selfInode : Inode) (dName : Bytes) (dIno : Uuid) : Result :=
  tx.unlessCommitted fun tx =>
    match tx.putDentry false dName dIno with
    | none => (.error (.logicError "transaction::rmdir() failed (directory doesn't exist)"), tx)
    | some tx => (.ok 0, tx.touchSelf selfInode)

def mkreg (tx : Transaction) (selfInode : Inode) (fName : Bytes) (fInode : Inode) : Result :=
  tx.unlessCommitted fun tx =>
    match tx.putDentry true fName fInode.ino with
    | none => (.error (.logicError "transaction::mkreg() failed (file already exists)"), tx)
    | some tx =>
      let tx := tx.touchSelf selfInode
      match tx.fInodes.lookup fInode.ino with
      | some (some _) =>
        (.error (.logicError "transaction::mkreg() failed (file already exists)"), tx)
      | _ => (.ok 0, { tx with fInodes := tx.fInodes.insert fInode.ino (some fInode.copy) })

def rmreg (tx : Transaction) (selfInode : Inode) (fName : Bytes) (fInode : Inode) : Result :=
  tx.unlessCommitted fun tx =>
    match tx.putDentry false fName fInode.ino with
    | none => (.error (.logicError "transaction::rmreg() failed (file doesn't exist)"), tx)
    | some tx =>
      let tx := tx.touchSelf selfInode
      match tx.fInodes.lookup fInode.ino with
      | some none =>
        (.error (.logicError "transaction::rmreg() failed (file doesn't exist)"), tx)
      | _ => (.ok 0, { tx with fInodes := tx.fInodes.insert fInode.ino none })

def chreg (tx : Transaction) (fInode : Inode) : Result :=
  tx.unlessCommitted fun tx =>
    (.ok 0, { tx with fInodes := tx.fInodes.insert fInode.ino (some fInode.copy) })

/-! ## Applying a transaction to the pool -/

/-- The loop over `dentries`. -/
def applyDentries (entries : List ((_ : Bytes) × (Bool × Uuid))) (d : Dentry) : Dentry :=
  entries.foldl (fun d e => if e.2.1 then d.addChild e.1 e.2.2 else d.deleteChild e.1) d

/-- The loop over `f_inodes`. -/
def syncFInodes (entries : List ((_ : Uuid) × Option Inode)) (pool : Pool) : Pool :=
  entries.foldl (fun pool e => (e.2.map (Inode.sync pool)).getD pool) pool

/-- `sync`: what it throws, and the pool it leaves behind. -/
def sync (tx : Transaction) (pool : Pool) : Except Err Unit × Pool :=
  if tx.status = .S_DELETED then
    (.ok (), RadosIo.remove (RadosIo.remove pool .inode tx.sIno.toStr) .dentry tx.sIno.toStr)
  else
    let pool := (tx.sInode.map (Inode.sync pool)).getD pool
    match Dentry.load pool tx.sIno (tx.status = .S_CREATED) with
    | .error e => (.error e, pool)
    | .ok d =>
      let pool := Dentry.sync pool (applyDentries tx.dentries.entries d)
      (.ok (), syncFInodes tx.fInodes.entries pool)

end Transaction

end Nmfs
