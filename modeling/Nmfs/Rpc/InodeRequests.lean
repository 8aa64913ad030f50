import Nmfs.Fs.RemoteHandle
import Nmfs.Rpc.Readdir

/-
  The requests about one inode of a directory that another client leads: the message that
  `rpc_client` fills in, the handler of `rpc_server` at the leader, what `rpc_client` makes of the
  answer, and the `catch` clauses of `fuse_ops`. The handlers are given from where they have the
  table, so there is no `-ENOTLEADER`.

  Names and link targets are taken to be valid UTF-8, as the `string` fields of the messages ask.

  The directory's own inode has a `p_ino` that its table does not know. It is a parameter here.
-/

namespace Nmfs

open Lib

/-- The fields of `struct stat` that are set. -/
structure Stat where
  stMode : UInt32
  stUid : UInt32
  stGid : UInt32
  stIno : UInt64
  stNlink : UInt64
  stSize : UInt64
  stAtim : Timespec
  stMtim : Timespec
  stCtim : Timespec
  deriving DecidableEq

namespace Inode

/-- `st_ctim.tv_sec` is set twice, and `st_ctim.tv_nsec` is not. -/
def fillStat (i : Inode) (s : Stat) : Stat where
  stMode := i.core.iMode
  stUid := i.core.iUid
  stGid := i.core.iGid
  stIno := i.core.iIno.getPostfixFromUuid
  stNlink := i.core.iNlink
  stSize := i.core.iSize
  stAtim := i.core.iAtime
  stMtim := i.core.iMtime
  stCtim := { s.stCtim with tvSec := i.core.iCtime.tvNsec }

end Inode

/-! ## The messages -/

structure GetattrRequest where
  filename : Bytes := []
  targetIsParent : Bool := false

structure AccessRequest where
  filename : Bytes := []
  mask : UInt32 := 0
  targetIsParent : Bool := false

structure OpenOpendirRequest where
  filename : Bytes := []
  flags : UInt32 := 0
  targetIsParent : Bool := false

structure ReadlinkRequest where
  filename : Bytes := []
  size : UInt64 := 0

structure ChmodRequest where
  filename : Bytes := []
  mode : UInt32 := 0
  targetIsParent : Bool := false

structure ChownRequest where
  filename : Bytes := []
  uid : UInt32 := 0
  gid : UInt32 := 0
  targetIsParent : Bool := false

structure UtimensRequest where
  filename : Bytes := []
  aSec : UInt64 := 0
  aNsec : UInt64 := 0
  mSec : UInt64 := 0
  mNsec : UInt64 := 0
  targetIsParent : Bool := false

structure TruncateRequest where
  filename : Bytes := []
  offset : UInt64 := 0
  targetIsParent : Bool := false

structure GetattrRespond where
  iMode : UInt32 := 0
  iUid : UInt32 := 0
  iGid : UInt32 := 0
  iInoPrefix : UInt64 := 0
  iInoPostfix : UInt64 := 0
  iNlink : UInt64 := 0
  iSize : UInt64 := 0
  aSec : UInt64 := 0
  aNsec : UInt64 := 0
  mSec : UInt64 := 0
  mNsec : UInt64 := 0
  cSec : UInt64 := 0
  cNsec : UInt64 := 0
  ret : Int := 0

/-! ## One inode of the leader -/

namespace Led

open LocalOps

variable {α : Type}

/-- The child as the leader has it open. -/
def openChild (s : Led) (c : MemInode) : OpenInode := ⟨c.inode, c.pIno, s.dataPool, s.jtable⟩

def openSelf (s : Led) (pIno : Uuid) : OpenInode :=
  ⟨s.table.thisDirInode, pIno, s.dataPool, s.jtable⟩

def closeChild (s : Led) (filename : Bytes) (i : OpenInode) : Led :=
  ⟨s.table.setChildInode filename i.i, i.jtable, i.dataPool⟩

def closeSelf (s : Led) (i : OpenInode) : Led :=
  ⟨{ s.table with thisDirInode := i.i }, i.jtable, i.dataPool⟩

/-- A section under the mutex of `get_child_inode`, or of `get_this_dir_inode`. -/
def onTarget (pIno : Uuid) (targetIsParent : Bool) (filename : Bytes)
    (f : OpenInode → α × OpenInode) : Section α :=
  if targetIsParent then Op.of fun s =>
    ((f (s.openSelf pIno)).1, s.closeSelf (f (s.openSelf pIno)).2)
  else do
    let c ← getChildInode filename
    Op.of fun s => ((f (s.openChild c)).1, s.closeChild filename (f (s.openChild c)).2)

end Led

/-! ## The handlers -/

namespace RpcServer

open Led LocalOps

/-- The one handler that catches `no_entry`. -/
def getattrHandler (request : GetattrRequest) : Section GetattrRespond :=
  Op.handle (do
    let i ← targetInode request.targetIsParent request.filename
    return {
      iMode := i.core.iMode
      iUid := i.core.iUid
      iGid := i.core.iGid
      iInoPrefix := i.core.iIno.getPrefixFromUuid
      iInoPostfix := i.core.iIno.getPostfixFromUuid
      iNlink := i.core.iNlink
      iSize := i.core.iSize
      aSec := i.core.iAtime.tvSec
      aNsec := i.core.iAtime.tvNsec
      mSec := i.core.iMtime.tvSec
      mNsec := i.core.iMtime.tvNsec
      cSec := i.core.iCtime.tvSec
      cNsec := i.core.iCtime.tvNsec })
    fun
    | .noEntry => some { ret := -EACCES }
    | _ => none

def accessHandler (thisClient : Ids) (request : AccessRequest) : Section Int := do
  let i ← targetInode request.targetIsParent request.filename
  match i.permissionCheck thisClient request.mask with
  | .error _ => return -EACCES
  | .ok _ => return 0

def opendirHandler (request : OpenOpendirRequest) : Section Int := do
  let i ← targetInode request.targetIsParent request.filename
  if ¬ Inode.isDir i.core.iMode then return -ENOTDIR
  return 0

/-- A link without a target is a null pointer. -/
def readlinkHandler (request : ReadlinkRequest) : Section (Int × Bytes) := do
  let c ← getChildInode request.filename
  if ¬ Inode.isLnk c.inode.core.iMode then return (-EINVAL, [])
  match c.inode.linkTargetName with
  | none => Op.raise .undefined
  | some name => return (0, Dentry.cString name)

def chmodHandler (pIno : Uuid) (request : ChmodRequest) : Section Int :=
  onTarget pIno request.targetIsParent request.filename fun i =>
    let type := i.i.core.iMode &&& Inode.S_IFMT
    (0, (i.setCore { i.i.core with iMode := request.mode ||| type }).record)

def chownHandler (pIno : Uuid) (request : ChownRequest) : Section Int :=
  onTarget pIno request.targetIsParent request.filename fun i =>
    (0, (i.setCore { i.i.core with
      iUid := if request.uid.toNat < 2 ^ 31 then request.uid else i.i.core.iUid
      iGid := if request.gid.toNat < 2 ^ 31 then request.gid else i.i.core.iGid }).record)

def utimensHandler (pIno : Uuid) (ts : Timespec) (request : UtimensRequest) : Section Int :=
  onTarget pIno request.targetIsParent request.filename fun i =>
    (0, (i.setCore { i.i.core with
      iAtime :=
        if request.aNsec = UTIME_NOW then ts
        else if request.aNsec = UTIME_OMIT then i.i.core.iAtime
        else ⟨request.aSec, request.aNsec⟩
      iMtime :=
        if request.mNsec = UTIME_NOW then ts
        else if request.mNsec = UTIME_OMIT then i.i.core.iMtime
        else ⟨request.mSec, request.mNsec⟩ }).record)

/-- The times stay as they are. -/
def truncateInodeHandler (pIno : Uuid) (request : TruncateRequest) : Section Int :=
  onTarget pIno request.targetIsParent request.filename fun i =>
    if Inode.isDir i.i.core.iMode then (-EISDIR, i) else (0, (i.setSize request.offset).record)

end RpcServer

/-! ## The stubs -/

/-- A `remote_inode`. The directory itself has no file name. -/
structure RemoteTarget extends RemoteInode where
  targetIsParent : Bool

/-- A stub and the leader that it calls. -/
abbrev Stub (α : Type) := Op Err Led α

namespace RpcClient

variable {α : Type}

/-- An exception that escapes the handler is a status that is not OK. The request itself arrives:
    every string in it is valid UTF-8. -/
def call (handler : Section α) : Stub (Option α) := fun s =>
  match handler s with
  | (.ok a, s') => (.ok (some a), s')
  | (.error _, s') => (.ok none, s')

/-- Most stubs give back `ret`. -/
def retOf (handler : Section Int) : Stub Int := do
  match ← call handler with
  | some ret => return ret
  | none => return -ENEEDRECOV

/-- The data pool is the client's too. -/
def onData (f : Pool → Nat × Pool) : Stub Int := Op.of fun s =>
  (((f s.dataPool).1 : Int), { s with dataPool := (f s.dataPool).2 })

def getMode (filename : Bytes) : Stub UInt32 := do
  match ← call (RpcServer.getModeHandler { filename }) with
  | some mode => return mode
  | none => Op.raise (.runtimeError "rpc_client::get_mode() failed")

def permissionCheck (leader : Ids) (i : RemoteTarget) (mask : UInt32) : Stub Unit := do
  match ← call (RpcServer.permissionCheckHandler leader
    { filename := i.fileName, mask, targetIsParent := i.targetIsParent }) with
  | some ret => if ret = -EACCES then Op.raise .permissionDenied
  | none => Op.raise (.runtimeError "rpc_client::permission_check() failed")

/-- `st_ctim` is set as in `fill_stat`. -/
def getattr (i : RemoteTarget) (s : Stat) : Stub (Int × Stat) := do
  match ← call (RpcServer.getattrHandler
    { filename := i.fileName, targetIsParent := i.targetIsParent }) with
  | some output =>
    if output.ret = -EACCES then Op.raise .noEntry
    return (output.ret, {
      stMode := output.iMode
      stUid := output.iUid
      stGid := output.iGid
      stIno := output.iInoPostfix
      stNlink := output.iNlink
      stSize := output.iSize
      stAtim := ⟨output.aSec, output.aNsec⟩
      stMtim := ⟨output.mSec, output.mNsec⟩
      stCtim := { s.stCtim with tvSec := output.cNsec } })
  | none => return (-ENEEDRECOV, s)

def access (leader : Ids) (i : RemoteTarget) (mask : UInt32) : Stub Int := do
  match ← call (RpcServer.accessHandler leader
    { filename := i.fileName, mask, targetIsParent := i.targetIsParent }) with
  | some ret =>
    if ret = -EACCES then Op.raise .permissionDenied
    return ret
  | none => return -ENEEDRECOV

def opendir (i : RemoteTarget) : Stub Int :=
  retOf (RpcServer.opendirHandler { filename := i.fileName, targetIsParent := i.targetIsParent })

/-- What `readlink` puts into the buffer comes with its code. -/
def readlink (i : RemoteTarget) (size : UInt64) : Stub (Int × Bytes) := do
  match ← call (RpcServer.readlinkHandler { filename := i.fileName, size }) with
  | some (ret, filename) =>
    return (ret, if ret = 0 then filename.take (min filename.length (size - 1).toNat) else [])
  | none => return (-ENEEDRECOV, [])

def «open» (i : RemoteTarget) (flags : UInt32) : Stub Int := do
  match ← call (RpcServer.openHandler i.fileName flags) with
  | some reply => return reply.ret
  | none => return -ENEEDRECOV

def unlink (ts : Timespec) (childName : Bytes) : Stub Int := do
  match ← call (RpcServer.unlinkHandler ts childName) with
  | some reply => return reply.ret
  | none => return -ENEEDRECOV

def renameSameParent (oldName newName : Bytes) (flags : UInt32) : Stub Int := do
  match ← call (RpcServer.renameSameParentHandler oldName newName flags) with
  | some reply => return reply.ret
  | none => return -ENEEDRECOV

def write (i : RemoteTarget) (buffer : Bytes) (offset : UInt64) (flags : UInt32) : Stub Int := do
  match ← call (RpcServer.writeHandler i.fileName offset (UInt64.ofNat buffer.length) flags) with
  | some start => onData fun pool => RadosIo.write pool .data i.ino.toStr buffer start.toNat
  | none => return -ENEEDRECOV

/-- `target_is_parent` is not set. -/
def chmod (pIno : Uuid) (i : RemoteTarget) (mode : UInt32) : Stub Int :=
  retOf (RpcServer.chmodHandler pIno { filename := i.fileName, mode })

def chown (pIno : Uuid) (i : RemoteTarget) (uid gid : UInt32) : Stub Int :=
  retOf (RpcServer.chownHandler pIno
    { filename := i.fileName, uid, gid, targetIsParent := i.targetIsParent })

def utimens (pIno : Uuid) (ts : Timespec) (i : RemoteTarget) (atime mtime : Timespec) :
    Stub Int :=
  retOf (RpcServer.utimensHandler pIno ts {
    filename := i.fileName
    aSec := atime.tvSec
    aNsec := atime.tvNsec
    mSec := mtime.tvSec
    mNsec := mtime.tvNsec
    targetIsParent := i.targetIsParent })

def truncate (pIno : Uuid) (i : RemoteTarget) (offset : UInt64) : Stub Int := do
  match ← call (RpcServer.truncateInodeHandler pIno
    { filename := i.fileName, offset, targetIsParent := i.targetIsParent }) with
  | some ret =>
    if ret = 0 then onData fun pool => RadosIo.truncate pool .data i.ino.toStr offset.toNat
    else return ret
  | none => return -ENEEDRECOV

end RpcClient

/-! ## What a call comes to -/

namespace RpcClient

variable {α : Type} {handler : Section α} {s s' : Led}

theorem call_ok {a : α} (h : handler s = (.ok a, s')) : call handler s = (.ok (some a), s') := by
  unfold call
  rw [h]

theorem call_error {e : Err} (h : handler s = (.error e, s')) :
    call handler s = (.ok none, s') := by
  unfold call
  rw [h]

theorem retOf_ok {handler : Section Int} {ret : Int} (h : handler s = (.ok ret, s')) :
    retOf handler s = (.ok ret, s') := by
  unfold retOf
  rw [Op.bind_ok (call_ok h)]
  rfl

theorem retOf_error {handler : Section Int} {e : Err} (h : handler s = (.error e, s')) :
    retOf handler s = (.ok (-ENEEDRECOV), s') := by
  unfold retOf
  rw [Op.bind_ok (call_error h)]
  rfl

end RpcClient

namespace Led

variable {α : Type} {s : Led} {pIno : Uuid} {filename : Bytes}
  {f : LocalOps.OpenInode → α × LocalOps.OpenInode}

theorem onTarget_absent (h : s.table.child filename = none) :
    onTarget pIno false filename f s = (.error .noEntry, s) :=
  Op.bind_error (getChildInode_absent h)

theorem onTarget_child {c : MemInode} (h : s.table.child filename = some c) :
    onTarget pIno false filename f s =
      (.ok (f (s.openChild c)).1, s.closeChild filename (f (s.openChild c)).2) :=
  Op.bind_ok (getChildInode_present h)

theorem onTarget_self :
    onTarget pIno true filename f s =
      (.ok (f (s.openSelf pIno)).1, s.closeSelf (f (s.openSelf pIno)).2) := rfl

end Led

end Nmfs
