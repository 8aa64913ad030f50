import Nmfs.Fs.Refinement

/-
  What every section on a directory keeps, whatever it finds and also where it raises: the table is
  that of the directory, its two halves agree, no pending transaction has been committed, and the
  children are of certain numbers, as long as nothing else is brought in.
-/

namespace Nmfs

open Lib

namespace JournalTable

def Uncommitted (jtable : JournalTable) : Prop := ∀ dir, (jtable.getEntry dir).committed = false

variable {jtable : JournalTable}

theorem Uncommitted.record (h : jtable.Uncommitted) (dir : Uuid) (m : Transaction.Mutation) :
    Uncommitted (jtable.record dir m).2 := by
  intro d
  by_cases hd : d = dir
  · rw [hd, getEntry_record]
    exact (Transaction.apply_frame m _).committed.trans (h dir)
  · rw [getEntry_record_ne _ _ _ hd]
    exact h d

theorem Uncommitted.erase (h : jtable.Uncommitted) (dir : Uuid) :
    Uncommitted (jtable.erase dir) := by
  intro d
  by_cases hd : d = dir
  · rw [hd, getEntry_erase]
    rfl
  · unfold getEntry
    rw [AList.lookup_erase_ne hd]
    exact h d

end JournalTable

/-- A directory whose children all have numbers in `P`. -/
structure Led.Within (P : Uuid → Prop) (dir : Uuid) (s : Led) : Prop where
  self : s.table.thisDirInode.ino = dir
  sound : s.table.Sound
  within : ∀ n c, s.table.child n = some c → P c.inode.ino
  uncommitted : s.jtable.Uncommitted

namespace Sections

open Led DirectoryOps

variable {P : Uuid → Prop} {dir : Uuid} {s : Led} {α : Type}

/-! ## Steps of a section -/

theorem created_within (h : s.Within P dir) (name : Bytes) {i : MemInode} (hi : P i.inode.ino) :
    (s.created name i).Within P dir := by
  refine ⟨(congrArg Inode.ino thisDirInode_created).trans h.self, h.sound.create name i, ?_,
    h.uncommitted⟩
  intro n c hc
  have hc' : (s.table.createChildInode name i).2.child n = some c := hc
  cases hn : s.table.child name with
  | none =>
      rw [DentryTable.child_create hn] at hc'
      rcases update_eq_some hc' with ⟨-, hu⟩ | ⟨-, hold⟩
      · cases hu
        exact hi
      · exact h.within n c hold
  | some c' =>
      rw [DentryTable.create_present hn] at hc'
      exact h.within n c hc'

theorem deleted_within (h : s.Within P dir) (name : Bytes) : (s.deleted name).Within P dir := by
  refine ⟨(congrArg Inode.ino thisDirInode_deleted).trans h.self, h.sound.delete name, ?_,
    h.uncommitted⟩
  intro n c hc
  have hc' : (s.table.deleteChildInode name).2.child n = some c := hc
  rw [DentryTable.child_delete] at hc'
  exact h.within n c (update_none_eq_some hc').2

theorem withChild_within (h : s.Within P dir) (name : Bytes) (i : Inode) :
    (s.withChild name i).Within P dir := by
  refine ⟨(congrArg Inode.ino thisDirInode_withChild).trans h.self, h.sound.setChild name i, ?_,
    h.uncommitted⟩
  intro n c hc
  obtain ⟨c', hc', rfl⟩ := Option.map_eq_some_iff.mp
    ((DentryTable.child_setChild n).symm.trans hc)
  have hp := h.within n c' hc'
  split
  · rename_i hn
    exact hn.2 ▸ hp
  · exact hp

theorem keeps_create (name : Bytes) {i : MemInode} (hi : P i.inode.ino) :
    Op.Keeps (Within P dir) (createChildInode name i) := fun _ h => created_within h name hi

theorem keeps_delete (name : Bytes) : Op.Keeps (Within P dir) (deleteChildInode name) :=
  fun _ h => deleted_within h name

theorem keeps_setChild (name : Bytes) (i : Inode) :
    Op.Keeps (Within P dir) (setChildInode name i) := fun _ h => withChild_within h name i

theorem keeps_setTimes (ts : Timespec) : Op.Keeps (Within P dir) (setParentTimes ts) :=
  fun _ h => ⟨h.self, h.sound, h.within, h.uncommitted⟩

theorem keeps_journalAt (d : Uuid) (m : Transaction.Mutation) :
    Op.Keeps (Within P dir) (journalAt d m) :=
  fun _ h => ⟨h.self, h.sound, h.within, h.uncommitted.record d m⟩

theorem keeps_journal (m : Inode → Transaction.Mutation) :
    Op.Keeps (Within P dir) (journal m) :=
  fun s h => keeps_journalAt s.table.thisDirInode.ino (m s.table.thisDirInode) s h

theorem keeps_removeData (ino : Uuid) : Op.Keeps (Within P dir) (removeData ino) :=
  fun _ h => ⟨h.self, h.sound, h.within, h.uncommitted⟩

theorem keeps_raise (e : Err) : Op.Keeps (Within P dir) (Op.raise e : Section α) := fun _ h => h

/-- What is done with the inode of a name may count on its number. -/
theorem keeps_getChild {name : Bytes} {f : MemInode → Section α}
    (hf : ∀ c, P c.inode.ino → Op.Keeps (Within P dir) (f c)) :
    Op.Keeps (Within P dir) (getChildInode name >>= f) := by
  intro s h
  show Within P dir _
  cases hc : s.table.child name with
  | none =>
      rw [Op.bind_error (getChildInode_absent hc)]
      exact h
  | some c =>
      rw [Op.bind_ok (getChildInode_present hc)]
      exact hf c (h.within name c hc) s h

/-! ## Whole sections -/

theorem keeps_createChild {env : Env} (hi : P env.newIno) (name : Bytes) (mode : UInt32) :
    Op.Keeps (Within P dir) (createChild env name mode) := by
  unfold createChild
  refine Op.Ensures.read_bind fun parent => (keeps_create name hi).bind fun _ => ?_
  refine (keeps_setTimes env.now).bind fun _ => (keeps_journal _).bind fun _ => ?_
  exact Op.Keeps.pure _

theorem keeps_symlinkChild {env : Env} (hi : P env.newIno) (src name : Bytes) :
    Op.Keeps (Within P dir) (symlinkChild env src name) := by
  unfold symlinkChild
  refine Op.Ensures.read_bind fun there => ?_
  split
  · exact Op.Keeps.pure _
  · refine Op.Ensures.read_bind fun parent => (keeps_create name hi).bind fun _ => ?_
    exact (keeps_journal _).bind fun _ => Op.Keeps.pure _

theorem keeps_unlinkChild (ts : Timespec) (name : Bytes) :
    Op.Keeps (Within P dir) (unlinkChild ts name) := by
  unfold unlinkChild
  refine keeps_getChild fun target _ => ?_
  dsimp only
  split
  · refine (keeps_removeData _).bind fun _ => (keeps_delete name).bind fun _ => ?_
    refine (keeps_setTimes ts).bind fun _ => (keeps_journal _).bind fun _ => ?_
    exact Op.Keeps.pure _
  · refine (keeps_setChild name _).bind fun _ => (keeps_journalAt _ _).bind fun _ => ?_
    exact Op.Keeps.pure _

theorem keeps_localMkdir {env : Env} (hi : P env.newIno) (name : Bytes) (mode : UInt32) :
    Op.Keeps (Within P dir) (LocalOps.localMkdir env name mode) := by
  unfold LocalOps.localMkdir
  refine Op.Ensures.read_bind fun parent => (keeps_create name hi).bind fun _ => ?_
  refine (keeps_setTimes env.now).bind fun _ => (keeps_journal _).bind fun _ => ?_
  refine (keeps_setChild name _).bind fun _ => (keeps_journalAt _ _).bind fun _ => ?_
  exact Op.Keeps.pure _

theorem keeps_mkdirHandler {env : Env} (hi : P env.newIno) (name : Bytes) (mode : UInt32) :
    Op.Keeps (Within P dir) (RpcServer.mkdirHandler env name mode) := by
  unfold RpcServer.mkdirHandler
  refine Op.Ensures.read_bind fun parent => (keeps_create name hi).bind fun _ => ?_
  refine (keeps_setChild name _).bind fun _ => (keeps_setTimes env.now).bind fun _ => ?_
  exact (keeps_journal _).bind fun _ => Op.Keeps.pure _

theorem keeps_removeDst (ino : Uuid) (name : Bytes) :
    Op.Keeps (Within P dir) (removeDst ino name) := by
  unfold removeDst
  split
  · refine keeps_getChild fun c _ => (keeps_delete name).bind fun _ => keeps_journal _
  · exact Op.Keeps.pure _

theorem keeps_removeSrc (name : Bytes) (target : MemInode) :
    Op.Keeps (Within P dir) (removeSrc name target) := by
  unfold removeSrc
  exact (keeps_delete name).bind fun _ => keeps_journal _

theorem keeps_insertTarget (name : Bytes) {target : MemInode} (hi : P target.inode.ino) :
    Op.Keeps (Within P dir) (insertTarget name target) := by
  unfold insertTarget
  exact (keeps_create name hi).bind fun _ => keeps_journal _

theorem keeps_moveEntry (ino : Uuid) (oldName newName : Bytes) {target : MemInode}
    (hi : P target.inode.ino) : Op.Keeps (Within P dir) (moveEntry ino oldName newName target) := by
  unfold moveEntry
  refine (keeps_removeDst ino newName).bind fun _ => (keeps_removeSrc oldName target).bind fun _ => ?_
  exact (keeps_insertTarget newName hi).bind fun _ => Op.Keeps.pure _

theorem keeps_localRename (ts : Timespec) (oldName newName : Bytes) (flags : UInt32) :
    Op.Keeps (Within P dir) (LocalOps.localRenameSameParent ts oldName newName flags) := by
  unfold LocalOps.localRenameSameParent
  refine keeps_getChild fun target hi => Op.Ensures.read_bind fun check => ?_
  refine (keeps_setTimes ts).bind fun _ => ?_
  split
  · exact keeps_moveEntry check oldName newName hi
  · exact Op.Keeps.pure _

theorem keeps_renameHandler (oldName newName : Bytes) (flags : UInt32) :
    Op.Keeps (Within P dir) (RpcServer.renameSameParentHandler oldName newName flags) := by
  unfold RpcServer.renameSameParentHandler
  refine keeps_getChild fun target hi => Op.Ensures.read_bind fun check => ?_
  split
  · exact keeps_moveEntry check oldName newName hi
  · exact Op.Keeps.pure _

theorem keeps_localRenameSrc (oldName : Bytes) (flags : UInt32) :
    Op.Keeps (Within P dir) (LocalOps.localRenameNotSameParentSrc oldName flags) := by
  unfold LocalOps.localRenameNotSameParentSrc
  refine keeps_getChild fun target _ => ?_
  split
  · exact (keeps_removeSrc oldName target).bind fun _ => Op.Keeps.pure _
  · exact keeps_raise _

theorem keeps_renameSrcHandler (oldName : Bytes) (flags : UInt32) :
    Op.Keeps (Within P dir) (RpcServer.renameNotSameParentSrcHandler oldName flags) := by
  unfold RpcServer.renameNotSameParentSrcHandler
  refine keeps_getChild fun target _ => ?_
  split
  · exact (keeps_removeSrc oldName target).bind fun _ => Op.Keeps.pure _
  · exact Op.Keeps.pure _

theorem keeps_localRenameDst {target : Inode} (hi : P target.ino) (ino : Uuid) (newName : Bytes)
    (flags : UInt32) :
    Op.Keeps (Within P dir) (LocalOps.localRenameNotSameParentDst target ino newName flags) := by
  unfold LocalOps.localRenameNotSameParentDst
  refine Op.Ensures.read_bind fun parent => ?_
  split
  · refine (keeps_removeDst ino newName).bind fun _ => ?_
    exact (keeps_insertTarget newName hi).bind fun _ => Op.Keeps.pure _
  · exact keeps_raise _

theorem keeps_renameDstHandler {target : Inode} (hi : P target.ino) (ino : Uuid) (newName : Bytes)
    (flags : UInt32) :
    Op.Keeps (Within P dir)
      (RpcServer.renameNotSameParentDstHandler target ino newName flags) := by
  unfold RpcServer.renameNotSameParentDstHandler
  refine Op.Ensures.read_bind fun parent => ?_
  split
  · refine (keeps_removeDst ino newName).bind fun _ => ?_
    exact (keeps_insertTarget newName hi).bind fun _ => Op.Keeps.pure _
  · exact Op.Keeps.pure _

theorem keeps_rmdirDown (ts : Timespec) (ino : Uuid) (name : Bytes) :
    Op.Keeps (Within P dir) (rmdirDown ts ino name) := by
  unfold rmdirDown
  refine (keeps_delete name).bind fun _ => (keeps_setTimes ts).bind fun _ => ?_
  exact (keeps_journal _).bind fun _ => Op.Keeps.pure _

/-! ## Operations -/

/-- Whatever the operation brings into the directory is in `P`. -/
def Brings (P : Uuid → Prop) : Refinement.Operation → Prop
  | .request r => ∀ ino, r.newIno = some ino → P ino
  | .localRenameDst target _ _ | .rpcRenameDst target _ _ => P target.ino
  | _ => True

/-- The end of a change that sets fields of the core other than the number. -/
theorem setCore_record {o : LocalOps.OpenInode} (h : o.jtable.Uncommitted) {core : Inode.Core}
    (hi : core.iIno = o.i.ino) :
    (o.setCore core).record.i.ino = o.i.ino ∧ (o.setCore core).record.jtable.Uncommitted := by
  constructor
  · rw [LocalOps.OpenInode.record_i]
    exact hi
  · unfold LocalOps.OpenInode.record
    split
    · exact h.record (o.setCore core).i.ino (.chself (o.setCore core).i)
    · exact h.record o.pIno (.chreg (o.setCore core).i)

/-- A change of an inode leaves its number. -/
theorem change_keeps (change : Refinement.InodeChange) {o : LocalOps.OpenInode}
    (h : o.jtable.Uncommitted) :
    (change.perform o).i.ino = o.i.ino ∧ (change.perform o).jtable.Uncommitted := by
  cases change with
  | chmod mode => exact setCore_record h rfl
  | chown uid gid => exact setCore_record h rfl
  | utimens ts atime mtime => exact setCore_record h rfl
  | write buffer offset flags =>
      show (LocalOps.localWrite o buffer offset flags).2.i.ino = _ ∧
        (LocalOps.localWrite o buffer offset flags).2.jtable.Uncommitted
      unfold LocalOps.localWrite
      generalize (if flags &&& LocalOps.O_APPEND ≠ 0 then o.i.core.iSize else offset) = start
      dsimp only
      split
      · exact ⟨rfl, h.record o.pIno (.chreg (o.i.setSize (start + UInt64.ofNat buffer.length)))⟩
      · exact ⟨rfl, h⟩
  | truncate offset ts =>
      show (LocalOps.localTruncate o offset ts).2.i.ino = _ ∧
        (LocalOps.localTruncate o offset ts).2.jtable.Uncommitted
      unfold LocalOps.localTruncate
      split
      · exact ⟨rfl, h⟩
      · exact setCore_record (o := { o with
          dataPool := (RadosIo.truncate o.dataPool .data o.i.ino.toStr offset.toNat).2 }) h rfl

theorem onChild_within (h : s.Within P dir) (name : Bytes) (change : Refinement.InodeChange) :
    (Refinement.onChild name change s).Within P dir := by
  unfold Refinement.onChild
  split
  · exact h
  · rename_i c hc
    have hk := change_keeps change (o := ⟨c.inode, c.pIno, s.dataPool, s.jtable⟩) h.uncommitted
    have hw := withChild_within h name (change.perform ⟨c.inode, c.pIno, s.dataPool, s.jtable⟩).i
    exact ⟨hw.self, hw.sound, hw.within, hk.2⟩

theorem onSelf_within (h : s.Within P dir) (pIno : Uuid) (change : Refinement.InodeChange) :
    (Refinement.onSelf pIno change s).Within P dir := by
  have hk := change_keeps change (o := ⟨s.table.thisDirInode, pIno, s.dataPool, s.jtable⟩)
    h.uncommitted
  exact ⟨hk.1.trans h.self, h.sound, h.within, hk.2⟩

theorem request_within (h : s.Within P dir) {r : Creation.Request}
    (hr : ∀ ino, r.newIno = some ino → P ino) : (r.serve s).2.Within P dir := by
  cases r with
  | localCreate env name mode => exact keeps_createChild (hr _ rfl) name mode s h
  | rpcCreate env name mode => exact keeps_createChild (hr _ rfl) name mode s h
  | localMkdir env name mode => exact keeps_localMkdir (hr _ rfl) name mode s h
  | rpcMkdir env name mode => exact keeps_mkdirHandler (hr _ rfl) name mode s h
  | localSymlink env src name => exact keeps_symlinkChild (hr _ rfl) src name s h
  | rpcSymlink env src name => exact keeps_symlinkChild (hr _ rfl) src name s h
  | localUnlink ts name => exact keeps_unlinkChild ts name s h
  | rpcUnlink ts name => exact keeps_unlinkChild ts name s h

theorem operation_within (h : s.Within P dir) {o : Refinement.Operation} (ho : Brings P o) :
    (o.perform s).2.Within P dir := by
  cases o with
  | request r => exact request_within h ho
  | localRename ts oldName newName => exact keeps_localRename ts oldName newName 0 s h
  | rpcRename oldName newName => exact keeps_renameHandler oldName newName 0 s h
  | localRenameSrc oldName =>
      exact (keeps_localRenameSrc oldName 0).bind (fun _ => Op.Keeps.pure _) s h
  | rpcRenameSrc oldName =>
      exact (keeps_renameSrcHandler oldName 0).bind (fun _ => Op.Keeps.pure _) s h
  | localRenameDst target ino newName => exact keeps_localRenameDst ho ino newName 0 s h
  | rpcRenameDst target ino newName => exact keeps_renameDstHandler ho ino newName 0 s h
  | localRmdirDown ts ino name => exact keeps_rmdirDown ts ino name s h
  | rpcRmdirDown ts ino name => exact keeps_rmdirDown ts ino name s h
  | child name change => exact onChild_within h name change
  | self pIno change => exact onSelf_within h pIno change

end Sections

end Nmfs
