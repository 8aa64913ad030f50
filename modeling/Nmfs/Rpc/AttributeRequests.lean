import Nmfs.Rpc.InodeRequests

/-
  The attributes of a remote inode, and its size, beside what the leader does to them itself. Both
  sides see the same clock.

  `rpc_client::chmod` leaves `target_is_parent` out of its request, and the handler looks for a child
  without a name. `rpc_truncate` leaves out the times.
-/

namespace Nmfs

open Lib

namespace AttributeRequests

open LocalOps RpcServer

inductive AttributeCall where
  | getattr (stat : Stat)
  | chmod (mode : UInt32)
  | chown (uid gid : UInt32)
  | utimens (atime mtime : Timespec)
  | truncate (offset : UInt64)

/-- The return code, and what `getattr` has filled in. -/
structure Reply where
  ret : Int
  stat : Option Stat := none
  deriving DecidableEq

/-- By the leader. -/
def AttributeCall.here (pIno : Uuid) (ts : Timespec) (i : RemoteTarget) :
    AttributeCall → Section Reply
  | getattr stat => do
    let target ← targetInode i.targetIsParent i.fileName
    return ⟨0, some (target.fillStat stat)⟩
  | chmod mode => Led.onTarget pIno i.targetIsParent i.fileName fun o => (⟨0, none⟩, localChmod o mode)
  | chown uid gid => Led.onTarget pIno i.targetIsParent i.fileName fun o =>
    (⟨0, none⟩, localChown o uid gid)
  | utimens atime mtime => Led.onTarget pIno i.targetIsParent i.fileName fun o =>
    (⟨0, none⟩, localUtimens o ts atime mtime)
  | truncate offset => Led.onTarget pIno i.targetIsParent i.fileName fun o =>
    (⟨(localTruncate o offset ts).1, none⟩, (localTruncate o offset ts).2)

/-- By another client, through `rpc_client` and `rpc_server`. -/
def AttributeCall.remote (pIno : Uuid) (ts : Timespec) (i : RemoteTarget) :
    AttributeCall → Stub Reply
  | getattr stat => do
    let (ret, stat) ← RpcClient.getattr i stat
    return ⟨ret, some stat⟩
  | chmod mode => do
    let ret ← RpcClient.chmod pIno i mode
    return ⟨ret, none⟩
  | chown uid gid => do
    let ret ← RpcClient.chown pIno i uid gid
    return ⟨ret, none⟩
  | utimens atime mtime => do
    let ret ← RpcClient.utimens pIno ts i atime mtime
    return ⟨ret, none⟩
  | truncate offset => do
    let ret ← RpcClient.truncate pIno i offset
    return ⟨ret, none⟩

/-- The inode is the directory's own, which is sent without a name, or a child. -/
def Resolves (i : RemoteTarget) (s : Led) (target : Inode) : Prop :=
  if i.targetIsParent then
    i.fileName = [] ∧ s.table.child [] = none ∧ s.table.thisDirInode = target
  else ∃ c, s.table.child i.fileName = some c ∧ c.inode = target

/-- The same answer and the same leader afterwards, whatever the clock shows. -/
def SameEffect (pIno : Uuid) (i : RemoteTarget) (c : AttributeCall) (s : Led) : Prop :=
  ∀ ts, c.remote pIno ts i s = c.here pIno ts i s

/-- A mode is set on a child, and only directories are truncated, which is refused. -/
def AttributeCall.Carried (i : RemoteTarget) (target : Inode) : AttributeCall → Prop
  | chmod _ => i.targetIsParent = false
  | truncate _ => Inode.isDir target.core.iMode = true
  | _ => True

/-! ## The inode at the leader -/

section

variable {pIno : Uuid} {ts : Timespec} {i : RemoteTarget} {s : Led} {target : Inode}

/-- The inode of a request as the leader has it open: `o`, and `close` puts it back. -/
structure Focus (pIno : Uuid) (i : RemoteTarget) (s : Led) (o : OpenInode)
    (close : OpenInode → Led) : Prop where
  onTarget : ∀ (α : Type) (f : OpenInode → α × OpenInode),
    Led.onTarget pIno i.targetIsParent i.fileName f s = (.ok (f o).1, close (f o).2)
  targetInode : targetInode i.targetIsParent i.fileName s = (.ok o.i, s)
  reads : ∀ o' : OpenInode, o'.i.ino = o.i.ino →
    (RpcServer.targetInode i.targetIsParent i.fileName (close o')).1 = .ok o'.i

theorem focus_of_resolves (h : Resolves i s target) :
    ∃ o close, Focus pIno i s o close ∧ o.i = target := by
  unfold Resolves at h
  cases hi : i.targetIsParent with
  | true =>
      rw [hi, if_pos rfl] at h
      obtain ⟨-, -, rfl⟩ := h
      refine ⟨s.openSelf pIno, s.closeSelf, ⟨?_, ?_, ?_⟩, rfl⟩
      · rw [hi]
        exact fun α f => Led.onTarget_self
      · rw [hi]
        exact targetInode_self
      · rw [hi]
        exact fun o' _ => rfl
  | false =>
      rw [hi] at h
      obtain ⟨c, hc, rfl⟩ := h
      refine ⟨s.openChild c, s.closeChild i.fileName, ⟨?_, ?_, ?_⟩, rfl⟩
      · rw [hi]
        exact fun α f => Led.onTarget_child hc
      · rw [hi]
        exact targetInode_child hc
      · intro o' ho
        have hback : (s.closeChild i.fileName o').table.child i.fileName =
            some { c with inode := o'.i } := by
          show (s.table.setChildInode i.fileName o'.i).child i.fileName = _
          rw [DentryTable.child_setChild, hc, Option.map_some, if_pos ⟨rfl, ho.symm⟩]
        rw [hi, targetInode_child hback]

/-- What a request is about depends on the table alone. -/
theorem targetInode_table {s' : Led} (h : s.table = s'.table) :
    (targetInode i.targetIsParent i.fileName s).1 =
      (targetInode i.targetIsParent i.fileName s').1 := by
  cases i.targetIsParent with
  | true => exact congrArg (fun table => Except.ok table.thisDirInode) h
  | false =>
      cases hc : s.table.child i.fileName with
      | none => rw [targetInode_absent hc, targetInode_absent (h ▸ hc)]
      | some c => rw [targetInode_child hc, targetInode_child (h ▸ hc)]

variable {o : OpenInode} {close : OpenInode → Led}

theorem getattr_same (hf : Focus pIno i s o close) (stat : Stat) :
    (AttributeCall.getattr stat).remote pIno ts i s =
      (AttributeCall.getattr stat).here pIno ts i s := by
  have hhere : (AttributeCall.getattr stat).here pIno ts i s =
      (.ok ⟨0, some (o.i.fillStat stat)⟩, s) := Op.bind_ok hf.targetInode
  have hhandler : (getattrHandler { filename := i.fileName, targetIsParent := i.targetIsParent } s)
      = (.ok _, s) := Op.handle_ok (Op.bind_ok hf.targetInode)
  have hstub : RpcClient.getattr i stat s = (.ok (0, o.i.fillStat stat), s) := by
    unfold RpcClient.getattr
    rw [Op.bind_ok (RpcClient.call_ok hhandler)]
    rfl
  rw [hhere]
  exact Op.bind_ok hstub

/-- A handler that does to the inode what the leader would do, and answers 0. -/
theorem same_of_handler {m : Stub Int} {handler : Section Int} {g : OpenInode → OpenInode}
    (hf : Focus pIno i s o close) (hm : m = RpcClient.retOf handler)
    (hh : handler = Led.onTarget pIno i.targetIsParent i.fileName fun o => (0, g o)) :
    (do
      let ret ← m
      return (⟨ret, none⟩ : Reply)) s =
      Led.onTarget pIno i.targetIsParent i.fileName (fun o => ((⟨0, none⟩ : Reply), g o)) s := by
  have hhandler : handler s = (.ok 0, close (g o)) := by
    rw [hh]
    exact hf.onTarget Int _
  have hhere := hf.onTarget Reply fun o => (⟨0, none⟩, g o)
  rw [hm, Op.bind_ok (RpcClient.retOf_ok hhandler), hhere]
  rfl

/-! ## One call -/

theorem chmod_same_iff (h : Resolves i s target) (mode : UInt32) :
    SameEffect pIno i (.chmod mode) s ↔ i.targetIsParent = false := by
  obtain ⟨o, close, hf, -⟩ := @focus_of_resolves pIno i s target h
  constructor
  · intro hsame
    by_contra hi
    rw [Bool.not_eq_false] at hi
    unfold Resolves at h
    rw [if_pos hi] at h
    obtain ⟨hname, hnone, -⟩ := h
    have hhandler : chmodHandler pIno { filename := i.fileName, mode } s = (.error .noEntry, s) := by
      rw [hname]
      exact Led.onTarget_absent hnone
    have hremote : (AttributeCall.chmod mode).remote pIno ⟨0, 0⟩ i s =
        (.ok ⟨-RpcClient.ENEEDRECOV, none⟩, s) :=
      Op.bind_ok (RpcClient.retOf_error hhandler)
    have hhere : (AttributeCall.chmod mode).here pIno ⟨0, 0⟩ i s =
        (.ok ⟨0, none⟩, close (localChmod o mode)) :=
      hf.onTarget Reply fun o => (⟨0, none⟩, localChmod o mode)
    have heq := hsame ⟨0, 0⟩
    rw [hremote, hhere] at heq
    have hret := congrArg Reply.ret (Except.ok.inj (congrArg Prod.fst heq))
    exact absurd hret (by decide)
  · intro hi ts
    refine same_of_handler (g := fun o => localChmod o mode) hf rfl ?_
    rw [hi]
    rfl

theorem truncate_refused (hf : Focus pIno i s o close) (hd : Inode.isDir o.i.core.iMode = true)
    (offset : UInt64) : (AttributeCall.truncate offset).remote pIno ts i s =
      (AttributeCall.truncate offset).here pIno ts i s := by
  have hlocal : localTruncate o offset ts = (-EISDIR, o) := if_pos hd
  have hhandler : truncateInodeHandler pIno
      { filename := i.fileName, offset, targetIsParent := i.targetIsParent } s =
      (.ok (-EISDIR), close o) := by
    unfold truncateInodeHandler
    rw [hf.onTarget Int, if_pos hd]
  have hstub : RpcClient.truncate pIno i offset s = (.ok (-EISDIR), close o) := by
    unfold RpcClient.truncate
    rw [Op.bind_ok (RpcClient.call_ok hhandler)]
    rfl
  have hhere : (AttributeCall.truncate offset).here pIno ts i s =
      (.ok ⟨-EISDIR, none⟩, close o) := by
    have hon := hf.onTarget Reply fun o =>
      (⟨(localTruncate o offset ts).1, none⟩, (localTruncate o offset ts).2)
    rw [hlocal] at hon
    exact hon
  rw [hhere]
  exact Op.bind_ok hstub

/-- The times are the leader's clock on one side, and what they were on the other. -/
theorem truncate_mtime (hf : Focus pIno i s o close) (hd : ¬ Inode.isDir o.i.core.iMode = true)
    {offset : UInt64} (hsame : (AttributeCall.truncate offset).remote pIno ts i s =
      (AttributeCall.truncate offset).here pIno ts i s) :
    o.i.core.iMtime = ts := by
  have hhandler : truncateInodeHandler pIno
      { filename := i.fileName, offset, targetIsParent := i.targetIsParent } s =
      (.ok 0, close (o.setSize offset).record) := by
    unfold truncateInodeHandler
    rw [hf.onTarget Int, if_neg hd]
  have hstub : RpcClient.truncate pIno i offset s = RpcClient.onData
      (fun pool => RadosIo.truncate pool .data i.ino.toStr offset.toNat)
      (close (o.setSize offset).record) := by
    unfold RpcClient.truncate
    rw [Op.bind_ok (RpcClient.call_ok hhandler)]
    rfl
  have hremote : (targetInode i.targetIsParent i.fileName
      ((AttributeCall.truncate offset).remote pIno ts i s).2).1 = .ok (o.i.setSize offset) := by
    have hback := hf.reads (o.setSize offset).record (by rw [OpenInode.record_i]; rfl)
    rw [OpenInode.record_i] at hback
    have hout : (AttributeCall.truncate offset).remote pIno ts i s = _ := Op.bind_ok hstub
    have htable : ((AttributeCall.truncate offset).remote pIno ts i s).2.table =
        (close (o.setSize offset).record).table := by
      rw [hout]
      rfl
    exact (targetInode_table htable).trans hback
  have hhere : (targetInode i.targetIsParent i.fileName
      ((AttributeCall.truncate offset).here pIno ts i s).2).1 =
      .ok (localTruncate o offset ts).2.i := by
    have hon := hf.onTarget Reply fun o =>
      (⟨(localTruncate o offset ts).1, none⟩, (localTruncate o offset ts).2)
    rw [show (AttributeCall.truncate offset).here pIno ts i s = _ from hon]
    apply hf.reads
    unfold localTruncate
    rw [if_neg hd, OpenInode.record_i]
    rfl
  rw [hsame, hhere] at hremote
  have hmtime := congrArg (fun i => i.core.iMtime) (Except.ok.inj hremote)
  unfold localTruncate at hmtime
  rw [if_neg hd, OpenInode.record_i] at hmtime
  exact hmtime.symm

theorem truncate_same_iff (h : Resolves i s target) (offset : UInt64) :
    SameEffect pIno i (.truncate offset) s ↔ Inode.isDir target.core.iMode = true := by
  obtain ⟨o, close, hf, rfl⟩ := @focus_of_resolves pIno i s target h
  constructor
  · intro hsame
    by_contra hd
    have hnow := truncate_mtime hf hd (hsame ⟨o.i.core.iMtime.tvSec + 1, 0⟩)
    have hsec := congrArg Timespec.tvSec hnow
    have hone : o.i.core.iMtime.tvSec + 1 ≠ o.i.core.iMtime.tvSec := by
      intro heq
      have hnat := congrArg UInt64.toNat heq
      rw [UInt64.toNat_add] at hnat
      have hlt := o.i.core.iMtime.tvSec.toNat_lt
      have hone : (1 : UInt64).toNat = 1 := rfl
      omega
    exact hone hsec.symm
  · exact fun hd ts => truncate_refused hf hd offset

end

/-! ## Both sides of every call -/

/-- The two sides do the same exactly if a mode is set on a child, and only directories are
    truncated. -/
theorem attributes_same_iff (pIno : Uuid) (i : RemoteTarget) (c : AttributeCall) (s : Led)
    (target : Inode) (h : Resolves i s target) :
    SameEffect pIno i c s ↔ c.Carried i target := by
  obtain ⟨o, close, hf, -⟩ := @focus_of_resolves pIno i s target h
  cases c with
  | getattr stat => exact iff_of_true (fun ts => getattr_same hf stat) trivial
  | chmod mode => exact chmod_same_iff h mode
  | chown uid gid =>
      refine iff_of_true (fun ts => ?_) trivial
      exact same_of_handler (g := fun o => localChown o uid gid) hf rfl rfl
  | utimens atime mtime =>
      refine iff_of_true (fun ts => ?_) trivial
      exact same_of_handler (g := fun o => localUtimens o ts atime mtime) hf rfl rfl
  | truncate offset => exact truncate_same_iff h offset

def homeDir : Led := ⟨.ofNew Creation.homeInode, ∅, ∅⟩

/-- The directory itself. -/
def remoteHome : RemoteTarget := ⟨⟨Creation.homeInode.ino, [], Creation.homeInode.ino⟩, true⟩

theorem resolves_home : Resolves remoteHome homeDir Creation.homeInode := ⟨rfl, rfl, rfl⟩

/-- The owner of a remote directory is changed. -/
theorem attributes_same_iff_chown :
    SameEffect Uuid.rootIno remoteHome (.chown 1000 1000) homeDir :=
  (attributes_same_iff Uuid.rootIno remoteHome (.chown 1000 1000) homeDir Creation.homeInode
    resolves_home).mpr trivial

/-- The mode of a remote directory is not. -/
theorem chmod_misses_directory :
    ((AttributeCall.chmod 0x1FF).remote Uuid.rootIno ⟨1, 0⟩ remoteHome homeDir).1 =
      .ok ⟨-RpcClient.ENEEDRECOV, none⟩ ∧
    ¬ SameEffect Uuid.rootIno remoteHome (.chmod 0x1FF) homeDir := by
  refine ⟨rfl, ?_⟩
  rw [chmod_same_iff resolves_home]
  decide

end AttributeRequests

end Nmfs
