import Nmfs.Rpc.InodeRequests

/-
  A name that is gone by the time the leader gets the request. `get_child_inode` throws `no_entry`
  there, which no handler but `rpc_getattr` catches, so the client sees a status that is not OK and
  takes it for a leader that is lost.

  The operations of `fuse_ops` are given from where the path has been resolved, and the queries of
  `path_traversal` with whatever comes after them.
-/

namespace Nmfs

open Lib

namespace FuseOps

/-- The end of the loop around a stub. -/
def finished (m : Stub Int) : Stub Int := do
  let ret ← m
  if ret = -RpcClient.ENEEDRECOV then Op.raise (.runtimeError needRecovery)
  return ret

def clausesOf (rename : Bool) : Err → Option Int :=
  if rename then renameCatch else catchClauses

def getattr (i : RemoteTarget) (stat : Stat) : Stub Int :=
  Op.handle (finished do
    let (ret, _) ← RpcClient.getattr i stat
    return ret) catchClauses

def access (leader : Ids) (i : RemoteTarget) (mask : UInt32) : Stub Int :=
  (finished (RpcClient.access leader i mask)).handle catchClauses

def opendir (i : RemoteTarget) : Stub Int :=
  (finished (RpcClient.opendir i)).handle catchClauses

def readlink (i : RemoteTarget) (size : UInt64) : Stub Int :=
  Op.handle (finished do
    let (ret, _) ← RpcClient.readlink i size
    return ret) catchClauses

def «open» (i : RemoteTarget) (flags : UInt32) : Stub Int :=
  (finished (RpcClient.open i flags)).handle catchClauses

def unlink (ts : Timespec) (childName : Bytes) : Stub Int :=
  (finished (RpcClient.unlink ts childName)).handle catchClauses

def write (i : RemoteTarget) (buffer : Bytes) (offset : UInt64) (flags : UInt32) : Stub Int :=
  (finished (RpcClient.write i buffer offset flags)).handle catchClauses

def chmod (pIno : Uuid) (i : RemoteTarget) (mode : UInt32) : Stub Int :=
  (finished (RpcClient.chmod pIno i mode)).handle catchClauses

/-- `ret` is dropped. -/
def chown (pIno : Uuid) (i : RemoteTarget) (uid gid : UInt32) : Stub Int :=
  Op.handle (do
    let _ ← finished (RpcClient.chown pIno i uid gid)
    return 0) catchClauses

def utimens (pIno : Uuid) (ts : Timespec) (i : RemoteTarget) (atime mtime : Timespec) :
    Stub Int :=
  Op.handle (do
    let _ ← finished (RpcClient.utimens pIno ts i atime mtime)
    return 0) catchClauses

def truncate (pIno : Uuid) (i : RemoteTarget) (offset : UInt64) : Stub Int :=
  (finished (RpcClient.truncate pIno i offset)).handle catchClauses

def renameWithin (oldName newName : Bytes) (flags : UInt32) : Stub Int :=
  (finished (RpcClient.renameSameParent oldName newName flags)).handle renameCatch

/-- `get_mode` in `path_traversal`, and the rest of an operation. -/
def afterMode (rename : Bool) (i : RemoteTarget) (next : UInt32 → Stub Int) : Stub Int :=
  Op.handle (do
    let mode ← RpcClient.getMode i.fileName
    next mode) (clausesOf rename)

/-- `permission_check` in `path_traversal`, and the rest of an operation. -/
def afterPermission (rename : Bool) (leader : Ids) (i : RemoteTarget) (mask : UInt32)
    (next : Stub Int) : Stub Int :=
  Op.handle (do
    RpcClient.permissionCheck leader i mask
    next) (clausesOf rename)

end FuseOps

namespace VanishedName

open FuseOps

/-- An operation on a remote child, or a query about it. -/
inductive NamedRequest where
  | access (mask : UInt32)
  | opendir
  | «open» (flags : UInt32)
  | readlink (size : UInt64)
  | unlink
  | write (buffer : Bytes) (offset : UInt64) (flags : UInt32)
  | chmod (mode : UInt32)
  | chown (uid gid : UInt32)
  | utimens (atime mtime : Timespec)
  | truncate (offset : UInt64)
  | rename (newName : Bytes) (flags : UInt32)
  | getMode (ofRename : Bool) (next : UInt32 → Stub Int)
  | permissionCheck (ofRename : Bool) (mask : UInt32) (next : Stub Int)

/-- The leader has a clock, and runs under ids of its own. -/
def NamedRequest.perform (leader : Ids) (pIno : Uuid) (ts : Timespec) (i : RemoteTarget) :
    NamedRequest → Stub Int
  | access mask => FuseOps.access leader i mask
  | opendir => FuseOps.opendir i
  | «open» flags => FuseOps.open i flags
  | readlink size => FuseOps.readlink i size
  | unlink => FuseOps.unlink ts i.fileName
  | write buffer offset flags => FuseOps.write i buffer offset flags
  | chmod mode => FuseOps.chmod pIno i mode
  | chown uid gid => FuseOps.chown pIno i uid gid
  | utimens atime mtime => FuseOps.utimens pIno ts i atime mtime
  | truncate offset => FuseOps.truncate pIno i offset
  | rename newName flags => renameWithin i.fileName newName flags
  | getMode ofRename next => afterMode ofRename i next
  | permissionCheck ofRename mask next => afterPermission ofRename leader i mask next

/-- The answer that the kernel is to get. -/
def ReportsNoEntry (result : Except Err Int) : Prop := result = .ok (-ENOENT)

/-- What the stub throws, or the loop around it. -/
def NamedRequest.thrown : NamedRequest → String
  | getMode _ _ => "rpc_client::get_mode() failed"
  | permissionCheck _ _ _ => "rpc_client::permission_check() failed"
  | _ => needRecovery

def NamedRequest.ofRename : NamedRequest → Bool
  | rename _ _ => true
  | getMode ofRename _ => ofRename
  | permissionCheck ofRename _ _ => ofRename
  | _ => false

/-- A `runtime_error` that only `rename` catches. -/
def escaped (rename : Bool) (what : String) : Except Err Int :=
  if rename then .ok (-ENOSYS) else .error (.runtimeError what)

/-! ## From the handler to the kernel -/

section

variable {α : Type} {s : Led} {i : RemoteTarget} {handler : Section α} {e : Err}

theorem finished_needsRecovery {m : Stub Int} (h : m s = (.ok (-RpcClient.ENEEDRECOV), s)) :
    finished m s = (.error (.runtimeError needRecovery), s) := by
  unfold finished
  rw [Op.bind_ok h, if_pos rfl]
  rfl

/-- The clauses of `rename` give `-ENOSYS`, the others let it through. -/
theorem handle_runtimeError {m : Stub Int} {what : String} (rename : Bool)
    (h : m s = (.error (.runtimeError what), s)) :
    m.handle (clausesOf rename) s = (escaped rename what, s) := by
  unfold Op.handle escaped
  rw [h]
  cases rename <;> rfl

theorem escapes {m : Stub Int} (h : m s = (.ok (-RpcClient.ENEEDRECOV), s)) :
    (finished m).handle catchClauses s = (escaped false needRecovery, s) :=
  handle_runtimeError false (finished_needsRecovery h)

theorem escapes_dropped {m : Stub Int} (h : m s = (.ok (-RpcClient.ENEEDRECOV), s)) :
    Op.handle (do
      let _ ← finished m
      return 0) catchClauses s = (escaped false needRecovery, s) :=
  handle_runtimeError false (Op.bind_error (finished_needsRecovery h))

/-- A stub that does nothing but give `-ENEEDRECOV` where the status is not OK. -/
theorem stub_absent {k : Option α → Stub Int} (h : handler s = (.error e, s))
    (hk : k none s = (.ok (-RpcClient.ENEEDRECOV), s)) :
    (RpcClient.call handler >>= k) s = (.ok (-RpcClient.ENEEDRECOV), s) := by
  rw [Op.bind_ok (RpcClient.call_error h), hk]

theorem readlink_absent {size : UInt64}
    (h : RpcServer.readlinkHandler { filename := i.fileName, size } s = (.error e, s)) :
    (do
      let (ret, _) ← RpcClient.readlink i size
      return ret) s = (.ok (-RpcClient.ENEEDRECOV), s) := by
  have hstub : RpcClient.readlink i size s = (.ok (-RpcClient.ENEEDRECOV, []), s) := by
    unfold RpcClient.readlink
    rw [Op.bind_ok (RpcClient.call_error h)]
    rfl
  rw [Op.bind_ok hstub]
  rfl

theorem getMode_absent
    (h : RpcServer.getModeHandler { filename := i.fileName } s = (.error e, s)) :
    RpcClient.getMode i.fileName s =
      (.error (.runtimeError "rpc_client::get_mode() failed"), s) := by
  unfold RpcClient.getMode
  rw [Op.bind_ok (RpcClient.call_error h)]
  rfl

theorem permissionCheck_absent {leader : Ids} {mask : UInt32}
    (h : RpcServer.permissionCheckHandler leader
      { filename := i.fileName, mask, targetIsParent := i.targetIsParent } s = (.error e, s)) :
    RpcClient.permissionCheck leader i mask s =
      (.error (.runtimeError "rpc_client::permission_check() failed"), s) := by
  unfold RpcClient.permissionCheck
  rw [Op.bind_ok (RpcClient.call_error h)]
  rfl

/-- Each handler throws where it gets the inode, and nothing on the way to the kernel knows of
    it. -/
theorem perform_absent (leader : Ids) (pIno : Uuid) (ts : Timespec) (r : NamedRequest)
    (hi : i.targetIsParent = false) (h : s.table.child i.fileName = none) :
    r.perform leader pIno ts i s = (escaped r.ofRename r.thrown, s) := by
  have hget := Led.getChildInode_absent h
  have htarget : RpcServer.targetInode i.targetIsParent i.fileName s = (.error .noEntry, s) := by
    rw [hi]
    exact RpcServer.targetInode_absent h
  have hon (f : LocalOps.OpenInode → Int × LocalOps.OpenInode) :
      Led.onTarget pIno i.targetIsParent i.fileName f s = (.error .noEntry, s) := by
    rw [hi]
    exact Led.onTarget_absent h
  cases r with
  | access mask =>
      have hstub : RpcClient.access leader i mask s = (.ok (-RpcClient.ENEEDRECOV), s) :=
        stub_absent (Op.bind_error htarget) rfl
      exact escapes hstub
  | opendir =>
      have hstub : RpcClient.opendir i s = (.ok (-RpcClient.ENEEDRECOV), s) :=
        RpcClient.retOf_error (Op.bind_error htarget)
      exact escapes hstub
  | «open» flags =>
      have hstub : RpcClient.open i flags s = (.ok (-RpcClient.ENEEDRECOV), s) :=
        stub_absent (Op.bind_error hget) rfl
      exact escapes hstub
  | readlink size => exact escapes (readlink_absent (Op.bind_error hget))
  | unlink =>
      have hstub : RpcClient.unlink ts i.fileName s = (.ok (-RpcClient.ENEEDRECOV), s) :=
        stub_absent (Op.bind_error hget) rfl
      exact escapes hstub
  | write buffer offset flags =>
      have hstub : RpcClient.write i buffer offset flags s = (.ok (-RpcClient.ENEEDRECOV), s) :=
        stub_absent (Op.bind_error hget) rfl
      exact escapes hstub
  | chmod mode =>
      have hstub : RpcClient.chmod pIno i mode s = (.ok (-RpcClient.ENEEDRECOV), s) :=
        RpcClient.retOf_error (Led.onTarget_absent h)
      exact escapes hstub
  | chown uid gid =>
      have hstub : RpcClient.chown pIno i uid gid s = (.ok (-RpcClient.ENEEDRECOV), s) :=
        RpcClient.retOf_error (hon _)
      exact escapes_dropped hstub
  | utimens atime mtime =>
      have hstub : RpcClient.utimens pIno ts i atime mtime s =
          (.ok (-RpcClient.ENEEDRECOV), s) := RpcClient.retOf_error (hon _)
      exact escapes_dropped hstub
  | truncate offset =>
      have hstub : RpcClient.truncate pIno i offset s = (.ok (-RpcClient.ENEEDRECOV), s) :=
        stub_absent (hon _) rfl
      exact escapes hstub
  | rename newName flags =>
      have hstub : RpcClient.renameSameParent i.fileName newName flags s =
          (.ok (-RpcClient.ENEEDRECOV), s) := stub_absent (Op.bind_error hget) rfl
      exact handle_runtimeError true (finished_needsRecovery hstub)
  | getMode ofRename next =>
      exact handle_runtimeError ofRename (Op.bind_error (getMode_absent (Op.bind_error hget)))
  | permissionCheck ofRename mask next =>
      exact handle_runtimeError ofRename
        (Op.bind_error (permissionCheck_absent (Op.bind_error htarget)))

theorem not_reports_escaped (rename : Bool) (what : String) :
    ¬ ReportsNoEntry (escaped rename what) := by
  unfold ReportsNoEntry escaped
  cases rename with
  | false => exact fun h => nomatch h
  | true => exact fun h => absurd (Except.ok.inj h) (by decide)

/-- `rpc_getattr` does catch it, and `rpc_client::getattr` knows what its `-EACCES` means. -/
theorem getattr_reports_noEntry (stat : Stat) (hi : i.targetIsParent = false)
    (h : s.table.child i.fileName = none) : ReportsNoEntry (FuseOps.getattr i stat s).1 := by
  have hhandler : RpcServer.getattrHandler
      { filename := i.fileName, targetIsParent := i.targetIsParent } s =
      (.ok { ret := -EACCES }, s) := by
    unfold RpcServer.getattrHandler Op.handle
    rw [hi, Op.bind_error (RpcServer.targetInode_absent h)]
  have hstub : RpcClient.getattr i stat s = (.error .noEntry, s) := by
    unfold RpcClient.getattr
    rw [Op.bind_ok (RpcClient.call_ok hhandler)]
    rfl
  have hfinished : finished (do
      let (ret, _) ← RpcClient.getattr i stat
      return ret) s = (.error .noEntry, s) :=
    Op.bind_error (Op.bind_error hstub)
  unfold ReportsNoEntry FuseOps.getattr Op.handle
  rw [hfinished]
  rfl

/-- So does the LOCAL branch of every operation, which gets the inode the same way. -/
theorem local_reports_noEntry {m : Section Int} (hm : m s = (.error .noEntry, s)) :
    ReportsNoEntry (m.handle catchClauses s).1 := by
  unfold ReportsNoEntry Op.handle
  rw [hm]
  rfl

end

/-! ## A request about the missing name -/

/-- No operation reports the missing name: a `runtime_error` escapes, or `rename` takes it for
    something that is not implemented. -/
theorem vanished_name_not_reported (leader : Ids) (pIno : Uuid) (ts : Timespec) (i : RemoteTarget)
    (r : NamedRequest) (s : Led) (hi : i.targetIsParent = false)
    (h : s.table.child i.fileName = none) :
    ¬ ReportsNoEntry (r.perform leader pIno ts i s).1 ∧
      r.perform leader pIno ts i s = (escaped r.ofRename r.thrown, s) := by
  have hp := perform_absent leader pIno ts r hi h
  refine ⟨?_, hp⟩
  rw [hp]
  exact not_reports_escaped r.ofRename r.thrown

/-- A directory from which the file has been removed. -/
def emptied : Led := ⟨.ofNew Creation.homeInode, ∅, ∅⟩

/-- The file, as the client has resolved it. -/
def removedFile : RemoteTarget :=
  ⟨⟨Creation.homeInode.ino, [97], (Creation.envOf 1).newIno⟩, false⟩

/-- The file is opened. -/
theorem vanished_name_not_reported_open :
    (NamedRequest.open 0).perform ⟨0, 0⟩ Uuid.rootIno ⟨1, 0⟩ removedFile emptied =
      (escaped false needRecovery, emptied) :=
  (vanished_name_not_reported ⟨0, 0⟩ Uuid.rootIno ⟨1, 0⟩ removedFile (.open 0) emptied rfl rfl).2

/-- The file is unlinked a second time. -/
theorem unlink_not_reported :
    ¬ ReportsNoEntry
      (NamedRequest.unlink.perform ⟨0, 0⟩ Uuid.rootIno ⟨1, 0⟩ removedFile emptied).1 :=
  fun h => nomatch (show Except.error (Err.runtimeError needRecovery) =
    Except.ok (-ENOENT) from h)

end VanishedName

end Nmfs
