import Nmfs.Fs.FileOps
import Nmfs.InMemory.DentryTable
import Nmfs.Lib.Op

/-
  What the leader of a directory does under the mutex of the directory's table: the operations of
  `fs_ops/local_ops.cpp` on a directory, and the handlers of `rpc/rpc_server.cpp` for them once they
  have the table. The two families differ in little, so what they share stands first.

  What a client brings along, the clock and the generator are in `Env`. Open handles and the replies'
  other fields are left out.
-/

namespace Nmfs

open Lib

def ENOENT : Int := 2
def EACCES : Int := 13
def EEXIST : Int := 17
def EINVAL : Int := 22
def ENOSYS : Int := 38
def ENOTEMPTY : Int := 39

/-- A directory at its leader, with the leader's journal and the data pool. -/
structure Led where
  table : DentryTable
  jtable : JournalTable
  dataPool : Pool

abbrev Section (α : Type) := Op Err Led α

/-- Whose ids a new inode gets, what `alloc_new_ino` gives, and what the clock shows when the inode
    is made and when the parent's times are set. -/
structure Env where
  uid : UInt32
  gid : UInt32
  newIno : Uuid
  born : Timespec
  now : Timespec

namespace Inode

/-- The constructor of a new file or directory. -/
def make (env : Env) (mode : UInt32) : Inode where
  core := {
    iMode := mode
    iUid := env.uid
    iGid := env.gid
    iIno := env.newIno
    iNlink := 1
    iSize := 0
    iAtime := env.born
    iMtime := env.born
    iCtime := env.born
    linkTargetLen := 0 }
  linkTargetName := none

/-- The constructor of a symbolic link, of a C string, and `set_size`. -/
def makeLink (env : Env) (src : Bytes) : Inode :=
  let target := Dentry.cString src
  let i := make env (S_IFLNK ||| 0x1FF)
  { core := { i.core with
      linkTargetLen := UInt32.ofNat target.length
      iSize := UInt64.ofNat target.length }
    linkTargetName := some target }

def setSize (i : Inode) (size : UInt64) : Inode := { i with core := { i.core with iSize := size } }

def setTimes (i : Inode) (ts : Timespec) : Inode :=
  { i with core := { i.core with iMtime := ts, iCtime := ts } }

def setNlink (i : Inode) (nlink : UInt64) : Inode :=
  { i with core := { i.core with iNlink := nlink } }

end Inode

/-! ## Steps of a section -/

namespace Led

def createChildInode (filename : Bytes) (i : MemInode) : Section Int :=
  Op.of fun s => ((s.table.createChildInode filename i).1,
    { s with table := (s.table.createChildInode filename i).2 })

def deleteChildInode (filename : Bytes) : Section Int :=
  Op.of fun s => ((s.table.deleteChildInode filename).1,
    { s with table := (s.table.deleteChildInode filename).2 })

def getChildInode (filename : Bytes) : Section MemInode := fun s =>
  (s.table.getChildInode filename, s)

def checkChildInode (filename : Bytes) : Section Uuid := Op.read fun s =>
  s.table.checkChildInode filename

def parentIno : Section Uuid := Op.read fun s => s.table.thisDirInode.ino

def setParentTimes (ts : Timespec) : Section Unit := Op.change fun s =>
  { s with table := { s.table with thisDirInode := s.table.thisDirInode.setTimes ts } }

def setChildInode (filename : Bytes) (i : Inode) : Section Unit := Op.change fun s =>
  { s with table := s.table.setChildInode filename i }

def journalAt (dir : Uuid) (m : Transaction.Mutation) : Section Unit := fun s =>
  ((s.jtable.record dir m).1, { s with jtable := (s.jtable.record dir m).2 })

/-- A call of the journal with the parent's inode. -/
def journal (m : Inode → Transaction.Mutation) : Section Unit := fun s =>
  journalAt s.table.thisDirInode.ino (m s.table.thisDirInode) s

def removeData (ino : Uuid) : Section Unit := Op.change fun s =>
  { s with dataPool := RadosIo.remove s.dataPool .data ino.toStr }

end Led

/-! ## What the two families share -/

namespace DirectoryOps

open Led

/-- What a request is answered. -/
structure Reply where
  ret : Int
  newIno : Option Uuid
  deriving DecidableEq

def createChild (env : Env) (newChildName : Bytes) (mode : UInt32) : Section Reply := do
  let i := Inode.make env (mode ||| Inode.S_IFREG)
  let parent ← parentIno
  let _ ← createChildInode newChildName ⟨i, parent⟩
  setParentTimes env.now
  journal fun parent => .mkreg parent newChildName i
  return ⟨0, some i.ino⟩

def symlinkChild (env : Env) (src symlinkName : Bytes) : Section Reply := do
  let there ← checkChildInode symlinkName
  if there ≠ Uuid.nil then return ⟨-EEXIST, none⟩
  let i := Inode.makeLink env src
  let parent ← parentIno
  let _ ← createChildInode symlinkName ⟨i, parent⟩
  journal fun parent => .mkreg parent symlinkName i
  return ⟨0, none⟩

def unlinkChild (ts : Timespec) (childName : Bytes) : Section Reply := do
  let target ← getChildInode childName
  let nlink := target.inode.core.iNlink - 1
  if nlink = 0 then
    removeData target.inode.ino
    let _ ← deleteChildInode childName
    setParentTimes ts
    journal fun parent => .rmreg parent childName target.inode
  else
    setChildInode childName (target.inode.setNlink nlink)
    journalAt target.pIno (.chreg (target.inode.setNlink nlink))
  return ⟨0, none⟩

/-- The new name is made free, if it was taken. -/
def removeDst (checkDstIno : Uuid) (newName : Bytes) : Section Unit := do
  if checkDstIno ≠ Uuid.nil then
    let checkDstInode ← getChildInode newName
    let _ ← deleteChildInode newName
    journal fun parent => .rmreg parent newName checkDstInode.inode

def removeSrc (oldName : Bytes) (target : MemInode) : Section Unit := do
  let _ ← deleteChildInode oldName
  journal fun parent => .rmreg parent oldName target.inode

def insertTarget (newName : Bytes) (target : MemInode) : Section Unit := do
  let _ ← createChildInode newName target
  journal fun parent => .mkreg parent newName target.inode

/-- The part of both renames within a directory that moves the entry. -/
def moveEntry (checkDstIno : Uuid) (oldName newName : Bytes) (target : MemInode) :
    Section Reply := do
  removeDst checkDstIno newName
  removeSrc oldName target
  insertTarget newName target
  return ⟨0, none⟩

def rmdirTop (targetIno : Uuid) : Section Reply := do
  let childNum ← Op.read fun s => s.table.getChildNum
  if childNum > 0 then return ⟨-ENOTEMPTY, none⟩
  journalAt targetIno .rmself
  return ⟨0, none⟩

def rmdirDown (ts : Timespec) (targetIno : Uuid) (targetName : Bytes) : Section Reply := do
  let _ ← deleteChildInode targetName
  setParentTimes ts
  journal fun parent => .rmdir parent targetName targetIno
  return ⟨0, none⟩

end DirectoryOps

namespace LocalOps

open Led DirectoryOps

def localCreate : Env → Bytes → UInt32 → Section Reply := createChild
def localSymlink : Env → Bytes → Bytes → Section Reply := symlinkChild
def localUnlink : Timespec → Bytes → Section Reply := unlinkChild

/-- The new directory gets its size and its own transaction here. -/
def localMkdir (env : Env) (newChildName : Bytes) (mode : UInt32) : Section Reply := do
  let i := Inode.make env (mode ||| Inode.S_IFDIR)
  let parent ← parentIno
  let _ ← createChildInode newChildName ⟨i, parent⟩
  setParentTimes env.now
  journal fun parent => .mkdir parent newChildName i.ino
  let i := i.setSize (UInt64.ofNat Inode.DIR_INODE_SIZE)
  setChildInode newChildName i
  journalAt i.ino (.mkself i)
  return ⟨0, some i.ino⟩

/-- The table is deleted afterwards. -/
def localRmdirTop : Uuid → Section Reply := rmdirTop
def localRmdirDown : Timespec → Uuid → Bytes → Section Reply := rmdirDown

/-- The times of the directory are set before the flags are looked at. -/
def localRenameSameParent (ts : Timespec) (oldName newName : Bytes) (flags : UInt32) :
    Section Reply := do
  let target ← getChildInode oldName
  let checkDstIno ← checkChildInode newName
  setParentTimes ts
  if flags = 0 then moveEntry checkDstIno oldName newName target
  else return ⟨-ENOSYS, none⟩

def localRenameNotSameParentSrc (oldName : Bytes) (flags : UInt32) : Section MemInode := do
  let target ← getChildInode oldName
  if flags = 0 then
    removeSrc oldName target
    return target
  else Op.raise (.runtimeError "NOT IMPLEMENTED")

def localRenameNotSameParentDst (target : Inode) (checkDstIno : Uuid) (newName : Bytes)
    (flags : UInt32) : Section Reply := do
  let parent ← parentIno
  if flags = 0 then
    removeDst checkDstIno newName
    insertTarget newName ⟨target, parent⟩
    return ⟨0, none⟩
  else Op.raise (.runtimeError "NOT IMPLEMENTED")

end LocalOps

structure InodeRequest where
  filename : Bytes := []
  mask : UInt32 := 0
  targetIsParent : Bool := false

namespace RpcServer

open Led DirectoryOps

/-- Which inode a request is about. -/
def targetInode (targetIsParent : Bool) (filename : Bytes) : Section Inode :=
  if targetIsParent then Op.read fun s => s.table.thisDirInode
  else do
    let c ← getChildInode filename
    return c.inode

def getModeHandler (request : InodeRequest) : Section UInt32 := do
  let c ← getChildInode request.filename
  return c.inode.core.iMode

/-- The ids are those of the client that serves the request. -/
def permissionCheckHandler (thisClient : Ids) (request : InodeRequest) : Section Int := do
  let i ← targetInode request.targetIsParent request.filename
  match i.permissionCheck thisClient request.mask with
  | .error _ => return -EACCES
  | .ok _ => return 0

def createHandler : Env → Bytes → UInt32 → Section Reply := createChild
def symlinkHandler : Env → Bytes → Bytes → Section Reply := symlinkChild
def unlinkHandler : Timespec → Bytes → Section Reply := unlinkChild

/-- What the leader leaves to the client is the new directory's own transaction. -/
def mkdirHandler (env : Env) (newDirName : Bytes) (mode : UInt32) : Section Reply := do
  let i := Inode.make env (mode ||| Inode.S_IFDIR)
  let parent ← parentIno
  let _ ← createChildInode newDirName ⟨i, parent⟩
  let i := i.setSize (UInt64.ofNat Inode.DIR_INODE_SIZE)
  setChildInode newDirName i
  setParentTimes env.now
  journal fun parent => .mkdir parent newDirName i.ino
  return ⟨0, some i.ino⟩

def rmdirTopHandler : Uuid → Section Reply := rmdirTop
def rmdirDownHandler : Timespec → Uuid → Bytes → Section Reply := rmdirDown

def renameSameParentHandler (oldName newName : Bytes) (flags : UInt32) : Section Reply := do
  let target ← getChildInode oldName
  let checkDstIno ← checkChildInode newName
  if flags = 0 then moveEntry checkDstIno oldName newName target
  else return ⟨-ENOSYS, none⟩

/-- Either the return code or the inode for the reply. -/
def renameNotSameParentSrcHandler (oldName : Bytes) (flags : UInt32) :
    Section (Int × Option Inode) := do
  let target ← getChildInode oldName
  if flags = 0 then
    removeSrc oldName target
    return (0, some target.inode)
  else return (-ENOSYS, none)

def renameNotSameParentDstHandler (target : Inode) (checkDstIno : Uuid) (newName : Bytes)
    (flags : UInt32) : Section Reply := do
  let parent ← parentIno
  if flags = 0 then
    removeDst checkDstIno newName
    insertTarget newName ⟨target, parent⟩
    return ⟨0, none⟩
  else return ⟨-ENOSYS, none⟩

end RpcServer

/-! ## What a section comes to -/

namespace Led

variable {s : Led}

theorem parentIno_apply : parentIno s = (.ok s.table.thisDirInode.ino, s) := rfl

theorem checkChildInode_apply {filename : Bytes} :
    checkChildInode filename s = (.ok (s.table.checkChildInode filename), s) := rfl

theorem getChildInode_present {filename : Bytes} {c : MemInode}
    (h : s.table.child filename = some c) : getChildInode filename s = (.ok c, s) := by
  unfold getChildInode
  rw [DentryTable.get_present h]

theorem getChildInode_absent {filename : Bytes} (h : s.table.child filename = none) :
    getChildInode filename s = (.error .noEntry, s) := by
  unfold getChildInode
  rw [DentryTable.get_absent h]

theorem journal_error {m : Inode → Transaction.Mutation} {e : Err}
    (h : (journal m s).1 = .error e) : ∃ what, e = .logicError what :=
  JournalTable.record_error _ _ _ h

/-- The transaction that the directory's changes go to. -/
def tx (s : Led) : Transaction := s.jtable.getEntry s.table.thisDirInode.ino

def withTx (s : Led) (tx : Transaction) : Led :=
  { s with jtable := s.jtable.insert s.table.thisDirInode.ino tx }

def withTimes (s : Led) (ts : Timespec) : Led :=
  { s with table := { s.table with thisDirInode := s.table.thisDirInode.setTimes ts } }

def created (s : Led) (filename : Bytes) (i : MemInode) : Led :=
  { s with table := (s.table.createChildInode filename i).2 }

def deleted (s : Led) (filename : Bytes) : Led :=
  { s with table := (s.table.deleteChildInode filename).2 }

def withChild (s : Led) (filename : Bytes) (i : Inode) : Led :=
  { s with table := s.table.setChildInode filename i }

def withoutData (s : Led) (ino : Uuid) : Led :=
  { s with dataPool := RadosIo.remove s.dataPool .data ino.toStr }

/-- A child is created, and `mkreg`. -/
def inserted (s : Led) (name : Bytes) (i : MemInode) : Led :=
  (s.created name i).withTx ((s.tx.withEntry s.table.thisDirInode name true i.inode.ino).withFile
    i.inode.ino (some i.inode.copy))

/-- A child is deleted, and `rmreg`. -/
def removed (s : Led) (name : Bytes) (ino : Uuid) : Led :=
  (s.deleted name).withTx ((s.tx.withEntry s.table.thisDirInode name false ino).withFile ino none)

/-- A child is created, and `mkdir`. -/
def insertedDir (s : Led) (name : Bytes) (i : MemInode) : Led :=
  (s.created name i).withTx (s.tx.withEntry s.table.thisDirInode name true i.inode.ino)

/-- A child is deleted, and `rmdir`. -/
def removedDir (s : Led) (name : Bytes) (ino : Uuid) : Led :=
  (s.deleted name).withTx (s.tx.withEntry s.table.thisDirInode name false ino)

theorem createChildInode_apply {filename : Bytes} {i : MemInode} :
    createChildInode filename i s =
      (.ok (s.table.createChildInode filename i).1, s.created filename i) := rfl

theorem deleteChildInode_apply {filename : Bytes} :
    deleteChildInode filename s =
      (.ok (s.table.deleteChildInode filename).1, s.deleted filename) := rfl

theorem setChildInode_apply {filename : Bytes} {i : Inode} :
    setChildInode filename i s = (.ok (), s.withChild filename i) := rfl

theorem removeData_apply {ino : Uuid} : removeData ino s = (.ok (), s.withoutData ino) := rfl

theorem setParentTimes_apply {ts : Timespec} : setParentTimes ts s = (.ok (), s.withTimes ts) := rfl

theorem journal_ok {m : Inode → Transaction.Mutation} {code : Int} {tx : Transaction}
    (h : (m s.table.thisDirInode).apply s.tx = (.ok code, tx)) :
    journal m s = (.ok (), s.withTx tx) := by
  unfold journal journalAt
  rw [JournalTable.record_of_ok h]
  rfl

@[simp] theorem table_withTx {tx : Transaction} : (s.withTx tx).table = s.table := rfl

@[simp] theorem tx_withTx {tx : Transaction} : (s.withTx tx).tx = tx :=
  JournalTable.getEntry_insert _ _

@[simp] theorem tx_withTimes {ts : Timespec} : (s.withTimes ts).tx = s.tx := rfl

variable {name : Bytes} {i : MemInode} {ino : Uuid}

@[simp] theorem tx_created : (s.created name i).tx = s.tx := by
  unfold tx created
  rw [DentryTable.thisDirInode_create]

@[simp] theorem tx_deleted : (s.deleted name).tx = s.tx := by
  unfold tx deleted
  rw [DentryTable.thisDirInode_delete]

@[simp] theorem thisDirInode_created :
    (s.created name i).table.thisDirInode = s.table.thisDirInode :=
  DentryTable.thisDirInode_create

@[simp] theorem thisDirInode_deleted :
    (s.deleted name).table.thisDirInode = s.table.thisDirInode :=
  DentryTable.thisDirInode_delete

@[simp] theorem thisDirInode_withChild {f : Inode} :
    (s.withChild name f).table.thisDirInode = s.table.thisDirInode := by
  unfold withChild DentryTable.setChildInode
  split
  · rfl
  · split <;> rfl

@[simp] theorem tx_withChild {f : Inode} : (s.withChild name f).tx = s.tx := by
  unfold tx
  rw [thisDirInode_withChild]
  rfl

theorem withChild_withTimes {f : Inode} {ts : Timespec} :
    (s.withChild name f).withTimes ts = (s.withTimes ts).withChild name f := by
  unfold withChild withTimes DentryTable.setChildInode
  dsimp only
  split
  · rfl
  · split <;> rfl

theorem withChild_withTx {f : Inode} {tx : Transaction} :
    (s.withChild name f).withTx tx = (s.withTx tx).withChild name f := by
  have hself : (s.withChild name f).table.thisDirInode = s.table.thisDirInode :=
    thisDirInode_withChild
  unfold withTx
  rw [hself]
  rfl

theorem fInodes_removed : (s.removed name ino).tx.fInodes = s.tx.fInodes.insert ino none := by
  unfold removed
  rw [tx_withTx]
  unfold Transaction.withFile
  rw [Transaction.withEntry_fInodes]

/-- `mkself`, which a committed transaction alone would not take. -/
def started (s : Led) (i : Inode) : Led :=
  { s with jtable := (s.jtable.record i.ino (.mkself i)).2 }

/-- `chreg`. -/
def changed (s : Led) (dir : Uuid) (i : Inode) : Led :=
  { s with jtable := (s.jtable.record dir (.chreg i)).2 }

theorem mkself_started {f : Inode} : journalAt f.ino (.mkself f) s = (.ok (), s.started f) := by
  unfold journalAt
  rw [JournalTable.record_mkself]
  rfl

theorem chreg_changed {dir : Uuid} {f : Inode} :
    journalAt dir (.chreg f) s = (.ok (), s.changed dir f) := by
  unfold journalAt
  rw [JournalTable.record_chreg]
  rfl

theorem created_withTimes {ts : Timespec} :
    (s.created name i).withTimes ts = (s.withTimes ts).created name i := by
  unfold created withTimes DentryTable.createChildInode
  dsimp only
  split <;> rfl

theorem deleted_withTimes {ts : Timespec} :
    (s.deleted name).withTimes ts = (s.withTimes ts).deleted name := by
  unfold deleted withTimes DentryTable.deleteChildInode
  dsimp only
  split <;> rfl

theorem mkreg_created (h : s.tx.TakesNew name i.inode.ino) :
    journal (fun parent => .mkreg parent name i.inode) (s.created name i) =
      (.ok (), s.inserted name i) := by
  have happly := @Transaction.mkreg_eq s.tx s.table.thisDirInode i.inode name h
  apply journal_ok
  rw [tx_created, thisDirInode_created]
  exact happly

theorem rmreg_deleted {f : Inode} (h : s.tx.TakesRemoval name f.ino) :
    journal (fun parent => .rmreg parent name f) (s.deleted name) =
      (.ok (), s.removed name f.ino) := by
  have happly := @Transaction.rmreg_eq s.tx s.table.thisDirInode f name h
  apply journal_ok
  rw [tx_deleted, thisDirInode_deleted]
  exact happly

theorem mkdir_created (h : s.tx.committed = false) (ht : s.tx.Turns name true) :
    journal (fun parent => .mkdir parent name i.inode.ino) (s.created name i) =
      (.ok (), s.insertedDir name i) := by
  have happly := @Transaction.mkdir_eq s.tx s.table.thisDirInode name i.inode.ino h ht
  apply journal_ok
  rw [tx_created, thisDirInode_created]
  exact happly

theorem rmdir_deleted (h : s.tx.committed = false) (ht : s.tx.Turns name false) :
    journal (fun parent => .rmdir parent name ino) (s.deleted name) =
      (.ok (), s.removedDir name ino) := by
  have happly := @Transaction.rmdir_eq s.tx s.table.thisDirInode name ino h ht
  apply journal_ok
  rw [tx_deleted, thisDirInode_deleted]
  exact happly

end Led

namespace RpcServer

variable {s : Led} {filename : Bytes}

theorem targetInode_absent (h : s.table.child filename = none) :
    targetInode false filename s = (.error .noEntry, s) :=
  Op.bind_error (Led.getChildInode_absent h)

theorem targetInode_child {c : MemInode} (h : s.table.child filename = some c) :
    targetInode false filename s = (.ok c.inode, s) :=
  Op.bind_ok (Led.getChildInode_present h)

theorem targetInode_self :
    targetInode true filename s = (.ok s.table.thisDirInode, s) := rfl

end RpcServer

namespace DirectoryOps

open Led

variable {s : Led} {env : Env} {name : Bytes} {mode : UInt32}

/-- The new inode of `createChild`, where the directory has it. -/
def newFile (s : Led) (env : Env) (mode : UInt32) : MemInode :=
  ⟨Inode.make env (mode ||| Inode.S_IFREG), s.table.thisDirInode.ino⟩

def newLink (s : Led) (env : Env) (src : Bytes) : MemInode :=
  ⟨Inode.makeLink env src, s.table.thisDirInode.ino⟩

def newDir (s : Led) (env : Env) (mode : UInt32) : MemInode :=
  ⟨Inode.make env (mode ||| Inode.S_IFDIR), s.table.thisDirInode.ino⟩

theorem createChild_new (h : s.tx.TakesNew name env.newIno) :
    createChild env name mode s =
      (.ok ⟨0, some env.newIno⟩, (s.withTimes env.now).inserted name (newFile s env mode)) := by
  have hj := mkreg_created (s := s.withTimes env.now) (i := newFile s env mode) h
  unfold createChild
  rw [Op.bind_ok parentIno_apply, Op.bind_ok createChildInode_apply,
    Op.bind_ok setParentTimes_apply, created_withTimes]
  exact Op.bind_ok hj

theorem symlinkChild_new {src : Bytes} (hnew : s.table.checkChildInode name = Uuid.nil)
    (h : s.tx.TakesNew name env.newIno) :
    symlinkChild env src name s = (.ok ⟨0, none⟩, s.inserted name (newLink s env src)) := by
  have hj := mkreg_created (s := s) (i := newLink s env src) h
  unfold symlinkChild
  rw [Op.bind_ok checkChildInode_apply, if_neg (by rw [hnew]; simp), Op.bind_ok parentIno_apply,
    Op.bind_ok createChildInode_apply]
  exact Op.bind_ok hj

theorem symlinkChild_taken {src : Bytes} (h : s.table.checkChildInode name ≠ Uuid.nil) :
    symlinkChild env src name s = (.ok ⟨-EEXIST, none⟩, s) := by
  unfold symlinkChild
  rw [Op.bind_ok checkChildInode_apply, if_pos h]
  rfl

/-- The inode of a new directory in the end. -/
def sizedDir (env : Env) (mode : UInt32) : Inode :=
  (Inode.make env (mode ||| Inode.S_IFDIR)).setSize (UInt64.ofNat Inode.DIR_INODE_SIZE)

theorem localMkdir_new (ho : s.tx.committed = false) (ht : s.tx.Turns name true) :
    LocalOps.localMkdir env name mode s =
      (.ok ⟨0, some env.newIno⟩,
        (((s.withTimes env.now).insertedDir name (newDir s env mode)).withChild name
          (sizedDir env mode)).started (sizedDir env mode)) := by
  have hj := mkdir_created (s := s.withTimes env.now) (i := newDir s env mode) ho ht
  unfold LocalOps.localMkdir
  rw [Op.bind_ok parentIno_apply, Op.bind_ok createChildInode_apply,
    Op.bind_ok setParentTimes_apply, created_withTimes]
  refine (Op.bind_ok hj).trans ?_
  rw [Op.bind_ok setChildInode_apply]
  exact Op.bind_ok mkself_started

theorem mkdirHandler_new (ho : s.tx.committed = false) (ht : s.tx.Turns name true) :
    RpcServer.mkdirHandler env name mode s =
      (.ok ⟨0, some env.newIno⟩, ((s.withTimes env.now).insertedDir name (newDir s env mode)).withChild
        name (sizedDir env mode)) := by
  have hj : journal (fun parent => .mkdir parent name env.newIno)
      (((s.withTimes env.now).created name (newDir s env mode)).withChild name
        (sizedDir env mode)) =
      (.ok (), ((s.withTimes env.now).insertedDir name (newDir s env mode)).withChild name
        (sizedDir env mode)) := by
    have happly := @Transaction.mkdir_eq s.tx (s.table.thisDirInode.setTimes env.now) name
      env.newIno ho ht
    rw [insertedDir, ← withChild_withTx]
    apply journal_ok
    rw [tx_withChild, tx_created, thisDirInode_withChild, thisDirInode_created]
    exact happly
  unfold RpcServer.mkdirHandler
  rw [Op.bind_ok parentIno_apply, Op.bind_ok createChildInode_apply,
    Op.bind_ok setChildInode_apply, Op.bind_ok setParentTimes_apply, withChild_withTimes,
    created_withTimes]
  exact Op.bind_ok hj

theorem unlinkChild_last {ts : Timespec} {c : MemInode} (hc : s.table.child name = some c)
    (hlast : c.inode.core.iNlink - 1 = 0) (h : s.tx.TakesRemoval name c.inode.ino) :
    unlinkChild ts name s =
      (.ok ⟨0, none⟩,
        ((s.withoutData c.inode.ino).withTimes ts).removed name c.inode.ino) := by
  have hj := rmreg_deleted (s := (s.withoutData c.inode.ino).withTimes ts) h
  unfold unlinkChild
  rw [Op.bind_ok (getChildInode_present hc), if_pos hlast, Op.bind_ok removeData_apply,
    Op.bind_ok deleteChildInode_apply, Op.bind_ok setParentTimes_apply, deleted_withTimes,
    Op.bind_ok hj]
  rfl

theorem unlinkChild_linked {ts : Timespec} {c : MemInode} (hc : s.table.child name = some c)
    (hlast : c.inode.core.iNlink - 1 ≠ 0) :
    unlinkChild ts name s =
      (.ok ⟨0, none⟩, (s.withChild name (c.inode.setNlink (c.inode.core.iNlink - 1))).changed c.pIno
        (c.inode.setNlink (c.inode.core.iNlink - 1))) := by
  unfold unlinkChild
  rw [Op.bind_ok (getChildInode_present hc), if_neg hlast, Op.bind_ok setChildInode_apply,
    Op.bind_ok chreg_changed]
  rfl

theorem unlinkChild_absent {ts : Timespec} (hc : s.table.child name = none) :
    unlinkChild ts name s = (.error .noEntry, s) := by
  unfold unlinkChild
  rw [Op.bind_error (getChildInode_absent hc)]

theorem removeDst_absent {ino : Uuid} (h : ino = Uuid.nil) : removeDst ino name s = (.ok (), s) := by
  unfold removeDst
  rw [if_neg (by rw [h]; simp)]
  rfl

theorem removeDst_present {ino : Uuid} {c : MemInode} (h : ino ≠ Uuid.nil)
    (hc : s.table.child name = some c) (ht : s.tx.TakesRemoval name c.inode.ino) :
    removeDst ino name s = (.ok (), s.removed name c.inode.ino) := by
  unfold removeDst
  rw [if_pos h, Op.bind_ok (getChildInode_present hc), Op.bind_ok deleteChildInode_apply]
  exact rmreg_deleted ht

theorem removeSrc_ok {c : MemInode} (ht : s.tx.TakesRemoval name c.inode.ino) :
    removeSrc name c s = (.ok (), s.removed name c.inode.ino) := by
  unfold removeSrc
  rw [Op.bind_ok deleteChildInode_apply]
  exact rmreg_deleted ht

theorem insertTarget_ok {c : MemInode} (ht : s.tx.TakesNew name c.inode.ino) :
    insertTarget name c s = (.ok (), s.inserted name c) := by
  unfold insertTarget
  rw [Op.bind_ok createChildInode_apply]
  exact mkreg_created ht

theorem insertTarget_pending {c : MemInode} (hu : s.tx.committed = false)
    (ht : s.tx.Turns name true) {g : Inode}
    (hg : s.tx.fInodes.lookup c.inode.ino = some (some g)) : (insertTarget name c s).1 =
      .error (.logicError "transaction::mkreg() failed (file already exists)") := by
  have happly := @Transaction.mkreg_late s.tx s.table.thisDirInode c.inode name hu ht g hg
  have hj : (journal (fun parent => .mkreg parent name c.inode) (s.created name c)).1 =
      .error (.logicError "transaction::mkreg() failed (file already exists)") := by
    show Except.map _ ((s.created name c).tx.mkreg (s.created name c).table.thisDirInode name
      c.inode).1 = _
    rw [tx_created, thisDirInode_created, happly]
    rfl
  unfold insertTarget
  rw [Op.bind_ok createChildInode_apply]
  exact hj

theorem takesNew_of_insert {c : MemInode} (hu : s.tx.committed = false)
    (h : (insertTarget name c s).1 = .ok ()) : s.tx.TakesNew name c.inode.ino := by
  have hj : Except.map (fun _ => ()) ((s.created name c).tx.mkreg
      (s.created name c).table.thisDirInode name c.inode).1 = .ok () := by
    unfold insertTarget at h
    rw [Op.bind_ok createChildInode_apply] at h
    exact h
  rw [tx_created] at hj
  cases hm : (s.tx.mkreg (s.created name c).table.thisDirInode name c.inode).1 with
  | ok code => exact Transaction.takesNew_of_mkreg hu hm
  | error e =>
      rw [hm] at hj
      cases hj

theorem rmreg_deleted_fst {f : Inode} (hu : s.tx.committed = false)
    (h : (journal (fun parent => .rmreg parent name f) (s.deleted name)).1 = .ok ()) :
    s.tx.TakesRemoval name f.ino := by
  have hj : Except.map (fun _ => ()) ((s.deleted name).tx.rmreg
      (s.deleted name).table.thisDirInode name f).1 = .ok () := h
  rw [tx_deleted] at hj
  cases hm : (s.tx.rmreg (s.deleted name).table.thisDirInode name f).1 with
  | ok code => exact Transaction.takesRemoval_of_rmreg hu hm
  | error e =>
      rw [hm] at hj
      cases hj

theorem takesRemoval_of_removeSrc {c : MemInode} (hu : s.tx.committed = false)
    (h : (removeSrc name c s).1 = .ok ()) : s.tx.TakesRemoval name c.inode.ino := by
  unfold removeSrc at h
  rw [Op.bind_ok deleteChildInode_apply] at h
  exact rmreg_deleted_fst hu h

theorem takesRemoval_of_removeDst {ino : Uuid} {c : MemInode} (hi : ino ≠ Uuid.nil)
    (hc : s.table.child name = some c) (hu : s.tx.committed = false)
    (h : (removeDst ino name s).1 = .ok ()) : s.tx.TakesRemoval name c.inode.ino := by
  unfold removeDst at h
  rw [if_pos hi, Op.bind_ok (getChildInode_present hc), Op.bind_ok deleteChildInode_apply] at h
  exact rmreg_deleted_fst hu h

theorem rmdirDown_ok {ts : Timespec} {ino : Uuid} (ho : s.tx.committed = false)
    (ht : s.tx.Turns name false) :
    rmdirDown ts ino name s = (.ok ⟨0, none⟩, (s.withTimes ts).removedDir name ino) := by
  have hj : journal (fun parent => .rmdir parent name ino) ((s.withTimes ts).deleted name) =
      (.ok (), (s.withTimes ts).removedDir name ino) := rmdir_deleted ho ht
  unfold rmdirDown
  rw [Op.bind_ok deleteChildInode_apply, Op.bind_ok setParentTimes_apply, deleted_withTimes,
    Op.bind_ok hj]
  rfl

end DirectoryOps

end Nmfs
