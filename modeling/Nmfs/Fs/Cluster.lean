import Nmfs.Fs.DirectoryOps
import Nmfs.Rpc.RenameMessage
import Nmfs.Util.Path

/-
  All directories, each at its leader, and the operations of `fs_ops/fuse_ops.cpp` that go over
  several of them. To the client that leads a directory it is LOCAL, to any other it is REMOTE, and
  the same operation takes another branch. Every leader answers, so `-ENOTLEADER` and its loop do
  not occur, and the names in the requests are valid UTF-8, so they arrive.

  The meta pool is not part of a cluster. A number without a table is taken for one without an INODE
  object, which `get_dentry_table` throws `no_entry` for. Of a file whose INODE object is stored it
  would acquire the lease and throw "Dentry Corrupted" instead.
-/

namespace Nmfs

open Lib

structure Cluster (C : Type) where
  ids : C → Ids
  leader : Uuid → C
  /-- the table of a directory at its leader -/
  tables : Uuid → Option DentryTable
  jtables : C → JournalTable
  dataPool : Pool

abbrev ClientOp (C α : Type) := Op Err (Cluster C) α

namespace Cluster

variable {C : Type} [DecidableEq C]

omit [DecidableEq C] in
def led (s : Cluster C) (dir : Uuid) : Option Led :=
  (s.tables dir).map fun table => ⟨table, s.jtables (s.leader dir), s.dataPool⟩

def put (s : Cluster C) (dir : Uuid) (led : Led) : Cluster C :=
  { s with
    tables := Function.update s.tables dir (some led.table)
    jtables := Function.update s.jtables (s.leader dir) led.jtable
    dataPool := led.dataPool }

omit [DecidableEq C] in
/-- The pending transaction of a directory. -/
def tx (s : Cluster C) (dir : Uuid) : Transaction := (s.jtables (s.leader dir)).getEntry dir

omit [DecidableEq C] in
/-- What a directory has under a name. -/
def entries (s : Cluster C) (dir : Uuid) (name : Bytes) : Option Uuid :=
  (s.tables dir).bind fun table => table.listed name

omit [DecidableEq C] in
/-- The inode that a directory's table has under a name. -/
def child (s : Cluster C) (dir : Uuid) (name : Bytes) : Option MemInode :=
  (s.tables dir).bind fun table => table.child name

variable {s : Cluster C} {dir : Uuid} {led : Led}

omit [DecidableEq C] in
theorem child_of_led (h : s.led dir = some led) : s.child dir = led.table.child := by
  obtain ⟨table, ht, rfl⟩ := Option.map_eq_some_iff.mp h
  unfold child
  rw [ht]
  rfl

omit [DecidableEq C] in
theorem led_of_child {name : Bytes} {m : MemInode} (h : s.child dir name = some m) :
    ∃ led, s.led dir = some led ∧ led.table.child name = some m := by
  obtain ⟨table, ht, hm⟩ := Option.bind_eq_some_iff.mp h
  exact ⟨_, Option.map_eq_some_iff.mpr ⟨table, ht, rfl⟩, hm⟩

/-- What the tables have under the names, of one directory from another table. -/
theorem bind_put {β : Type} (f : DentryTable → Bytes → Option β) :
    (fun dir' name => ((s.put dir led).tables dir').bind fun table => f table name) =
      Function.update (fun dir' name => (s.tables dir').bind fun table => f table name) dir
        (f led.table) := by
  funext dir' name
  show (Function.update s.tables dir (some led.table) dir').bind _ = _
  by_cases hd : dir' = dir
  · subst hd
    rw [Function.update_self, Function.update_self]
    rfl
  · rw [Function.update_of_ne hd, Function.update_of_ne hd]

theorem entries_put : (s.put dir led).entries = Function.update s.entries dir led.table.listed :=
  bind_put DentryTable.listed

theorem child_put : (s.put dir led).child = Function.update s.child dir led.table.child :=
  bind_put DentryTable.child

end Cluster

namespace FuseOps

open DirectoryOps

variable {C α : Type} [DecidableEq C]

/-- A directory that is not there has no INODE object. -/
def getDentryTable (dir : Uuid) : ClientOp C Unit := fun s =>
  match s.tables dir with
  | none => (.error .noEntry, s)
  | some _ => (.ok (), s)

/-- A section under the mutex of the directory's table. -/
def onDir (dir : Uuid) (m : Section α) : ClientOp C α := fun s =>
  match s.led dir with
  | none => (.error .noEntry, s)
  | some led => ((m led).1, s.put dir (m led).2)

/-- What the handler raises is a status that is not OK to the client. -/
def remotely (what : String) (m : ClientOp C α) : ClientOp C α :=
  m.mapError fun _ => .runtimeError what

omit [DecidableEq C] in
theorem remotely_ok {what : String} {m : ClientOp C α} {s s' : Cluster C} {a : α}
    (h : m s = (.ok a, s')) : remotely what m s = (.ok a, s') := by
  unfold remotely Op.mapError
  rw [h]
  rfl

omit [DecidableEq C] in
theorem remotely_error {what : String} {m : ClientOp C α} {s s' : Cluster C} {e : Err}
    (h : m s = (.error e, s')) : remotely what m s = (.error (.runtimeError what), s') := by
  unfold remotely Op.mapError
  rw [h]
  rfl

def needRecovery : String := "Need Recovery of remote dentry_table"

theorem onDir_led {s : Cluster C} {dir : Uuid} {led : Led} {m : Section α}
    (h : s.led dir = some led) : onDir dir m s = ((m led).1, s.put dir (m led).2) := by
  unfold onDir
  rw [h]

/-- The LOCAL branch and the REMOTE one. -/
def whereLed (me : C) (dir : Uuid) (here there : ClientOp C α) : ClientOp C α := fun s =>
  if s.leader dir = me then here s else there s

/-! ## Paths -/

def checkChildInode (me : C) (dir : Uuid) (name : Bytes) : ClientOp C Uuid :=
  whereLed me dir (onDir dir (Led.checkChildInode name))
    (remotely "rpc_client::check_child_inode() failed" (onDir dir (Led.checkChildInode name)))

/-- `get_child_inode` and `get_mode` of what it gives. -/
def getMode (me : C) (dir : Uuid) (name : Bytes) : ClientOp C UInt32 := do
  let child ← whereLed me dir (onDir dir (Led.getChildInode name))
    (remotely "rpc_client::get_mode() failed" (onDir dir (Led.getChildInode name)))
  return child.inode.core.iMode

/-- `permission_check` of the directory's own inode. The request to a leader has no ids, so it is
    the leader's that are compared. -/
def permissionCheck (me : C) (dir : Uuid) (mask : UInt32) : ClientOp C Unit := fun s =>
  whereLed me dir
    (onDir dir do
      let i ← RpcServer.targetInode true []
      Op.lift (i.permissionCheck (s.ids me) mask))
    (do
      let ret ← remotely "rpc_client::permission_check() failed" (onDir dir
        (RpcServer.permissionCheckHandler (s.ids (s.leader dir)) { mask, targetIsParent := true }))
      if ret = -EACCES then Op.raise .permissionDenied) s

/-- The loop of `path_traversal`. A directory that is entered has to let itself be searched. Where a
    name is not a directory's, the next one is looked up in the same directory. -/
def traverse (me : C) : List Bytes → Uuid → Uuid → ClientOp C Uuid
  | [], _, target => pure target
  | name :: names, parent, _ => do
    let ino ← checkChildInode me parent name
    if ino = Uuid.nil then Op.raise .noEntry
    let mode ← getMode me parent name
    if Inode.isDir mode then
      getDentryTable ino
      permissionCheck me ino Inode.X_OK
      traverse me names ino ino
    else traverse me names parent ino

def pathTraversal (me : C) (path : Bytes) : ClientOp C Uuid := do
  getDentryTable Uuid.rootIno
  traverse me (Path.names path) Uuid.rootIno Uuid.rootIno

/-! ## rename -/

/-- The check of `local_rename_same_parent`; `at` raises behind the end. -/
def paradoxCheck (oldPath newPath : Bytes) : Except Err Bool :=
  if oldPath <+: newPath then
    match newPath[oldPath.length]? with
    | none => .error (.logicError "basic_string::at")
    | some b => .ok (b = Path.delimiter)
  else .ok false

def renameSameParent (me : C) (parent : Uuid) (oldPath newPath : Bytes) (flags : UInt32)
    (ts : Timespec) : ClientOp C Int :=
  whereLed me parent
    (do
      let paradox ← Op.lift (paradoxCheck oldPath newPath)
      if paradox then return -EINVAL
      let oldName ← Op.lift (Path.getFilenameFromPath oldPath)
      let newName ← Op.lift (Path.getFilenameFromPath newPath)
      let reply ← onDir parent (LocalOps.localRenameSameParent ts oldName newName flags)
      return reply.ret)
    (remotely needRecovery do
      let oldName ← Op.lift (Path.getFilenameFromPath oldPath)
      let newName ← Op.lift (Path.getFilenameFromPath newPath)
      let reply ← onDir parent (RpcServer.renameSameParentHandler oldName newName flags)
      return reply.ret)

def renameNotSameParentSrc (me : C) (dir : Uuid) (oldPath : Bytes) (flags : UInt32) :
    ClientOp C Inode :=
  whereLed me dir
    (do
      let oldName ← Op.lift (Path.getFilenameFromPath oldPath)
      let target ← onDir dir (LocalOps.localRenameNotSameParentSrc oldName flags)
      return target.inode)
    (do
      let (_, target) ← remotely needRecovery do
        let oldName ← Op.lift (Path.getFilenameFromPath oldPath)
        onDir dir (RpcServer.renameNotSameParentSrcHandler oldName flags)
      match target with
      | some i => return Inode.renameSrcResponseToInode i.inodeToRenameSrcResponse
      | none => Op.raise (.runtimeError
          "Flag specific behaviors of rename operation are not implemented"))

def renameNotSameParentDst (me : C) (dir : Uuid) (target : Inode) (checkDstIno : Uuid)
    (newPath : Bytes) (flags : UInt32) : ClientOp C Int :=
  whereLed me dir
    (do
      let newName ← Op.lift (Path.getFilenameFromPath newPath)
      let reply ← onDir dir
        (LocalOps.localRenameNotSameParentDst target checkDstIno newName flags)
      return reply.ret)
    (remotely needRecovery do
      let newName ← Op.lift (Path.getFilenameFromPath newPath)
      let reply ← onDir dir (RpcServer.renameNotSameParentDstHandler
        (Inode.renameDstRequestToInode target.inodeToRenameDstRequest)
        (Uuid.splicePrefixAndPostfix checkDstIno.getPrefixFromUuid checkDstIno.getPostfixFromUuid)
        newName flags)
      return reply.ret)

/-- The `try` block. -/
def renameBlock (me : C) (oldPath newPath : Bytes) (flags : UInt32) (ts : Timespec) :
    ClientOp C Int := do
  let srcParentPath ← Op.lift (Path.getParentDirPath oldPath)
  let dstParentPath ← Op.lift (Path.getParentDirPath newPath)
  if srcParentPath = dstParentPath then
    let parent ← pathTraversal me srcParentPath
    getDentryTable parent
    renameSameParent me parent oldPath newPath flags ts
  else
    let src ← pathTraversal me srcParentPath
    getDentryTable src
    let dst ← pathTraversal me dstParentPath
    getDentryTable dst
    let newName ← Op.lift (Path.getFilenameFromPath newPath)
    let checkDstIno ← checkChildInode me dst newName
    let target ← renameNotSameParentSrc me src oldPath flags
    renameNotSameParentDst me dst target checkDstIno newPath flags

/-- What the `catch` clauses of `rename` return. -/
def renameCatch : Err → Option Int
  | .noEntry => some (-ENOENT)
  | .permissionDenied => some (-EACCES)
  | .runtimeError _ => some (-ENOSYS)
  | _ => none

def rename (me : C) (oldPath newPath : Bytes) (flags : UInt32) (ts : Timespec) :
    ClientOp C Int :=
  if oldPath = newPath then return -EEXIST
  else (renameBlock me oldPath newPath flags ts).handle renameCatch

/-! ## rmdir and mkdir -/

def deleteDentryTable (dir : Uuid) : ClientOp C Unit := Op.change fun s =>
  { s with tables := Function.update s.tables dir none }

def rmdirTop (me : C) (dir : Uuid) : ClientOp C Int := do
  let reply ← whereLed me dir (onDir dir (LocalOps.localRmdirTop dir))
    (remotely needRecovery (onDir dir (RpcServer.rmdirTopHandler dir)))
  if reply.ret = 0 then deleteDentryTable dir
  return reply.ret

/-- What `local_rmdir_down` returns is not looked at. -/
def rmdirDown (me : C) (parent dir : Uuid) (targetName : Bytes) (ts : Timespec) :
    ClientOp C Int :=
  whereLed me parent
    (do
      let _ ← onDir parent (LocalOps.localRmdirDown ts dir targetName)
      return 0)
    (remotely needRecovery do
      let reply ← onDir parent (RpcServer.rmdirDownHandler ts dir targetName)
      return reply.ret)

def rmdirBlock (me : C) (path : Bytes) (ts : Timespec) : ClientOp C Int := do
  let targetName ← Op.lift (Path.getFilenameFromPath path)
  let parentPath ← Op.lift (Path.getParentDirPath path)
  let parent ← pathTraversal me parentPath
  getDentryTable parent
  let targetIno ← checkChildInode me parent targetName
  let mode ← getMode me parent targetName
  if ¬ Inode.isDir mode then return -LocalOps.ENOTDIR
  getDentryTable targetIno
  let ret ← rmdirTop me targetIno
  if ret = 0 then rmdirDown me parent targetIno targetName ts
  else return ret

/-- What the `catch` clauses of the other operations return. -/
def catchClauses : Err → Option Int
  | .noEntry => some (-ENOENT)
  | .permissionDenied => some (-EACCES)
  | _ => none

def rmdir (me : C) (path : Bytes) (ts : Timespec) : ClientOp C Int :=
  (rmdirBlock me path ts).handle catchClauses

def mkself (me : C) (i : Inode) : ClientOp C Unit := Op.change fun s =>
  { s with jtables := Function.update s.jtables me ((s.jtables me).record i.ino (.mkself i)).2 }

/-- The client that made the directory leads it. -/
def leaseDentryTableMkdir (me : C) (i : Inode) : ClientOp C Unit := Op.change fun s =>
  { s with
    leader := Function.update s.leader i.ino me
    tables := Function.update s.tables i.ino (some (.ofNew i)) }

/-- A new directory's inode at the client; `born` is its clock. -/
def newDirInode (env : Env) (mode : UInt32) (born : Timespec) : Inode :=
  (Inode.make { env with born } (mode ||| Inode.S_IFDIR)).setSize
    (UInt64.ofNat Inode.DIR_INODE_SIZE)

def mkdirBlock (me : C) (env : Env) (path : Bytes) (mode : UInt32) (born : Timespec) :
    ClientOp C Int := do
  let targetName ← Op.lift (Path.getFilenameFromPath path)
  let parentPath ← Op.lift (Path.getParentDirPath path)
  let parent ← pathTraversal me parentPath
  getDentryTable parent
  let i ← whereLed me parent
    (do
      let _ ← onDir parent (LocalOps.localMkdir env targetName mode)
      return newDirInode env mode env.born)
    (do
      let _ ← remotely needRecovery (onDir parent (RpcServer.mkdirHandler env targetName mode))
      mkself me (newDirInode env mode born)
      return newDirInode env mode born)
  leaseDentryTableMkdir me i
  return 0

def mkdir (me : C) (env : Env) (path : Bytes) (mode : UInt32) (born : Timespec) :
    ClientOp C Int :=
  (mkdirBlock me env path mode born).handle catchClauses

/-! ## Calls of clients -/

/-- A call that goes over several directories, with what the client brings along. -/
inductive Call (C : Type) where
  | mkdir (me : C) (env : Env) (path : Bytes) (mode : UInt32) (born : Timespec)
  | rmdir (me : C) (path : Bytes) (ts : Timespec)
  | rename (me : C) (oldPath newPath : Bytes) (flags : UInt32) (ts : Timespec)

def Call.perform : Call C → ClientOp C Int
  | .mkdir me env path mode born => FuseOps.mkdir me env path mode born
  | .rmdir me path ts => FuseOps.rmdir me path ts
  | .rename me oldPath newPath flags ts => FuseOps.rename me oldPath newPath flags ts

end FuseOps

end Nmfs
