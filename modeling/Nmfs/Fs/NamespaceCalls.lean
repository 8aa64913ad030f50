import Nmfs.Fs.Ancestry

/-
  `fuse_ops` on names: create, symlink and unlink next to mkdir, rmdir and rename, by any clients.
  However they come, no inode gets a second name, and a file's data stays until the call that takes
  its name. Open handles are left out, and so is what is written to a file.
-/

namespace Nmfs

open Lib

namespace NamespaceCalls

open FuseOps DirectoryOps

section

variable {C : Type} [DecidableEq C]

def createIn (me : C) (parent : Uuid) (env : Env) (targetName : Bytes) (mode : UInt32) :
    ClientOp C Int :=
  whereLed me parent
    (do
      let _ ← onDir parent (LocalOps.localCreate env targetName mode)
      return 0)
    (remotely needRecovery do
      let reply ← onDir parent (RpcServer.createHandler env targetName mode)
      return reply.ret)

def createBlock (me : C) (env : Env) (path : Bytes) (mode : UInt32) : ClientOp C Int := do
  let targetName ← Op.lift (Path.getFilenameFromPath path)
  let parentPath ← Op.lift (Path.getParentDirPath path)
  let parent ← pathTraversal me parentPath
  getDentryTable parent
  createIn me parent env targetName mode

def create (me : C) (env : Env) (path : Bytes) (mode : UInt32) : ClientOp C Int :=
  if Inode.isDir mode then pure (-LocalOps.EISDIR)
  else (createBlock me env path mode).handle catchClauses

def symlinkIn (me : C) (parent : Uuid) (env : Env) (src dst : Bytes) : ClientOp C Int :=
  whereLed me parent
    (do
      let symlinkName ← Op.lift (Path.getFilenameFromPath dst)
      let reply ← onDir parent (LocalOps.localSymlink env src symlinkName)
      return reply.ret)
    (remotely needRecovery do
      let symlinkName ← Op.lift (Path.getFilenameFromPath dst)
      let reply ← onDir parent (RpcServer.symlinkHandler env src symlinkName)
      return reply.ret)

def symlinkBlock (me : C) (env : Env) (src dst : Bytes) : ClientOp C Int := do
  let parentPath ← Op.lift (Path.getParentDirPath dst)
  let parent ← pathTraversal me parentPath
  getDentryTable parent
  symlinkIn me parent env src dst

def symlink (me : C) (env : Env) (src dst : Bytes) : ClientOp C Int :=
  (symlinkBlock me env src dst).handle catchClauses

def unlinkIn (me : C) (parent : Uuid) (targetName : Bytes) (ts : Timespec) : ClientOp C Int :=
  whereLed me parent
    (do
      let _ ← onDir parent (LocalOps.localUnlink ts targetName)
      return 0)
    (remotely needRecovery do
      let reply ← onDir parent (RpcServer.unlinkHandler ts targetName)
      return reply.ret)

def unlinkBlock (me : C) (path : Bytes) (ts : Timespec) : ClientOp C Int := do
  let targetName ← Op.lift (Path.getFilenameFromPath path)
  let parentPath ← Op.lift (Path.getParentDirPath path)
  let parent ← pathTraversal me parentPath
  getDentryTable parent
  unlinkIn me parent targetName ts

def unlink (me : C) (path : Bytes) (ts : Timespec) : ClientOp C Int :=
  (unlinkBlock me path ts).handle catchClauses

end

end NamespaceCalls

/-! ## Sections and the data pool -/

namespace Sections

open Led DirectoryOps

variable {p : Pool} {α β : Type}

abbrev HasData (p : Pool) (s : Led) : Prop := s.dataPool = p

theorem data_getChild (name : Bytes) : Op.Keeps (HasData p) (getChildInode name) := fun _ h => h

theorem data_create (name : Bytes) (i : MemInode) :
    Op.Keeps (HasData p) (createChildInode name i) := fun _ h => h

theorem data_delete (name : Bytes) : Op.Keeps (HasData p) (deleteChildInode name) := fun _ h => h

theorem data_setChild (name : Bytes) (i : Inode) :
    Op.Keeps (HasData p) (setChildInode name i) := fun _ h => h

theorem data_setTimes (ts : Timespec) : Op.Keeps (HasData p) (setParentTimes ts) := fun _ h => h

theorem data_journalAt (d : Uuid) (m : Transaction.Mutation) :
    Op.Keeps (HasData p) (journalAt d m) := fun _ h => h

theorem data_journal (m : Inode → Transaction.Mutation) : Op.Keeps (HasData p) (journal m) :=
  fun _ h => h

theorem data_raise (e : Err) : Op.Keeps (HasData p) (Op.raise e : Section α) := fun _ h => h

theorem data_createChild (env : Env) (name : Bytes) (mode : UInt32) :
    Op.Keeps (HasData p) (createChild env name mode) := by
  unfold createChild
  refine Op.Ensures.read_bind fun parent => (data_create name _).bind fun _ => ?_
  refine (data_setTimes env.now).bind fun _ => (data_journal _).bind fun _ => ?_
  exact Op.Keeps.pure _

theorem data_symlinkChild (env : Env) (src name : Bytes) :
    Op.Keeps (HasData p) (symlinkChild env src name) := by
  unfold symlinkChild
  refine Op.Ensures.read_bind fun there => ?_
  split
  · exact Op.Keeps.pure _
  · refine Op.Ensures.read_bind fun parent => (data_create name _).bind fun _ => ?_
    exact (data_journal _).bind fun _ => Op.Keeps.pure _

theorem data_localMkdir (env : Env) (name : Bytes) (mode : UInt32) :
    Op.Keeps (HasData p) (LocalOps.localMkdir env name mode) := by
  unfold LocalOps.localMkdir
  refine Op.Ensures.read_bind fun parent => (data_create name _).bind fun _ => ?_
  refine (data_setTimes env.now).bind fun _ => (data_journal _).bind fun _ => ?_
  refine (data_setChild name _).bind fun _ => (data_journalAt _ _).bind fun _ => ?_
  exact Op.Keeps.pure _

theorem data_mkdirHandler (env : Env) (name : Bytes) (mode : UInt32) :
    Op.Keeps (HasData p) (RpcServer.mkdirHandler env name mode) := by
  unfold RpcServer.mkdirHandler
  refine Op.Ensures.read_bind fun parent => (data_create name _).bind fun _ => ?_
  refine (data_setChild name _).bind fun _ => (data_setTimes env.now).bind fun _ => ?_
  exact (data_journal _).bind fun _ => Op.Keeps.pure _

theorem data_removeDst (ino : Uuid) (name : Bytes) :
    Op.Keeps (HasData p) (removeDst ino name) := by
  unfold removeDst
  split
  · exact (data_getChild name).bind fun _ => (data_delete name).bind fun _ => data_journal _
  · exact Op.Keeps.pure _

theorem data_removeSrc (name : Bytes) (target : MemInode) :
    Op.Keeps (HasData p) (removeSrc name target) :=
  (data_delete name).bind fun _ => data_journal _

theorem data_insertTarget (name : Bytes) (target : MemInode) :
    Op.Keeps (HasData p) (insertTarget name target) :=
  (data_create name target).bind fun _ => data_journal _

theorem data_moveEntry (ino : Uuid) (oldName newName : Bytes) (target : MemInode) :
    Op.Keeps (HasData p) (moveEntry ino oldName newName target) := by
  unfold moveEntry
  refine (data_removeDst ino newName).bind fun _ => (data_removeSrc oldName target).bind fun _ => ?_
  exact (data_insertTarget newName target).bind fun _ => Op.Keeps.pure _

theorem data_localRename (ts : Timespec) (oldName newName : Bytes) (flags : UInt32) :
    Op.Keeps (HasData p) (LocalOps.localRenameSameParent ts oldName newName flags) := by
  unfold LocalOps.localRenameSameParent
  refine (data_getChild oldName).bind fun target => Op.Ensures.read_bind fun check => ?_
  refine (data_setTimes ts).bind fun _ => ?_
  split
  · exact data_moveEntry check oldName newName target
  · exact Op.Keeps.pure _

theorem data_renameHandler (oldName newName : Bytes) (flags : UInt32) :
    Op.Keeps (HasData p) (RpcServer.renameSameParentHandler oldName newName flags) := by
  unfold RpcServer.renameSameParentHandler
  refine (data_getChild oldName).bind fun target => Op.Ensures.read_bind fun check => ?_
  split
  · exact data_moveEntry check oldName newName target
  · exact Op.Keeps.pure _

theorem data_localRenameSrc (oldName : Bytes) (flags : UInt32) :
    Op.Keeps (HasData p) (LocalOps.localRenameNotSameParentSrc oldName flags) := by
  unfold LocalOps.localRenameNotSameParentSrc
  refine (data_getChild oldName).bind fun target => ?_
  split
  · exact (data_removeSrc oldName target).bind fun _ => Op.Keeps.pure _
  · exact data_raise _

theorem data_renameSrcHandler (oldName : Bytes) (flags : UInt32) :
    Op.Keeps (HasData p) (RpcServer.renameNotSameParentSrcHandler oldName flags) := by
  unfold RpcServer.renameNotSameParentSrcHandler
  refine (data_getChild oldName).bind fun target => ?_
  split
  · exact (data_removeSrc oldName target).bind fun _ => Op.Keeps.pure _
  · exact Op.Keeps.pure _

theorem data_localRenameDst (target : Inode) (ino : Uuid) (newName : Bytes) (flags : UInt32) :
    Op.Keeps (HasData p) (LocalOps.localRenameNotSameParentDst target ino newName flags) := by
  unfold LocalOps.localRenameNotSameParentDst
  refine Op.Ensures.read_bind fun parent => ?_
  split
  · refine (data_removeDst ino newName).bind fun _ => ?_
    exact (data_insertTarget newName _).bind fun _ => Op.Keeps.pure _
  · exact data_raise _

theorem data_renameDstHandler (target : Inode) (ino : Uuid) (newName : Bytes) (flags : UInt32) :
    Op.Keeps (HasData p) (RpcServer.renameNotSameParentDstHandler target ino newName flags) := by
  unfold RpcServer.renameNotSameParentDstHandler
  refine Op.Ensures.read_bind fun parent => ?_
  split
  · refine (data_removeDst ino newName).bind fun _ => ?_
    exact (data_insertTarget newName _).bind fun _ => Op.Keeps.pure _
  · exact Op.Keeps.pure _

theorem data_rmdirTop (ino : Uuid) : Op.Keeps (HasData p) (rmdirTop ino) := by
  unfold rmdirTop
  refine Op.Ensures.read_bind fun childNum => ?_
  split
  · exact Op.Keeps.pure _
  · exact (data_journalAt _ _).bind fun _ => Op.Keeps.pure _

theorem data_rmdirDown (ts : Timespec) (ino : Uuid) (name : Bytes) :
    Op.Keeps (HasData p) (rmdirDown ts ino name) := by
  unfold rmdirDown
  refine (data_delete name).bind fun _ => (data_setTimes ts).bind fun _ => ?_
  exact (data_journal _).bind fun _ => Op.Keeps.pure _

end Sections

namespace NamespaceCalls

open FuseOps DirectoryOps Sections

variable {C α : Type} [DecidableEq C] {p : Pool} {dir : Uuid}

/-! ## Calls that leave the data pool alone -/

abbrev HasData (p : Pool) (s : Cluster C) : Prop := s.dataPool = p

theorem onDir_data {m : Section α} (hm : Op.Keeps (Sections.HasData p) m) :
    Op.Keeps (HasData p) (onDir dir m : ClientOp C α) := by
  intro s hs
  unfold onDir
  split
  · exact hs
  · rename_i led hl
    obtain ⟨table, -, rfl⟩ := Option.map_eq_some_iff.mp hl
    exact hm _ hs

theorem whereLed_data {me : C} {here there : ClientOp C α} (h : Op.Keeps (HasData p) here)
    (h' : Op.Keeps (HasData p) there) : Op.Keeps (HasData p) (whereLed me dir here there) :=
  whereLed_ensures h h'

omit [DecidableEq C] in
theorem remotely_data {what : String} {m : ClientOp C α} (h : Op.Keeps (HasData p) m) :
    Op.Keeps (HasData p) (remotely what m) := remotely_ensures h fun _ _ h => h

omit [DecidableEq C] in
theorem lift_data (x : Except Err α) : Op.Keeps (HasData p) (Op.lift x : ClientOp C α) :=
  fun _ h => h

omit [DecidableEq C] in
theorem getDentryTable_data (dir : Uuid) :
    Op.Keeps (HasData p) (getDentryTable dir : ClientOp C Unit) := by
  intro s hs
  unfold getDentryTable
  split
  · exact hs
  · exact hs

theorem checkChildInode_data (me : C) (dir : Uuid) (name : Bytes) :
    Op.Keeps (HasData p) (checkChildInode me dir name) :=
  whereLed_data (onDir_data fun _ h => h) (remotely_data (onDir_data fun _ h => h))

theorem getMode_data (me : C) (dir : Uuid) (name : Bytes) :
    Op.Keeps (HasData p) (getMode me dir name) := by
  unfold getMode
  refine Op.Keeps.bind (whereLed_data ?_ (remotely_data ?_)) fun _ => Op.Keeps.pure _
  · exact onDir_data (data_getChild name)
  · exact onDir_data (data_getChild name)

theorem permissionCheck_data (me : C) (dir : Uuid) (mask : UInt32) :
    Op.Keeps (HasData p) (permissionCheck me dir mask) := by
  intro s hs
  rw [permissionCheck_reads.1]
  exact hs

theorem traverse_data (me : C) (names : List Bytes) (parent target : Uuid) :
    Op.Keeps (HasData p) (FuseOps.traverse me names parent target) := by
  induction names generalizing parent target with
  | nil => exact Op.Keeps.pure _
  | cons name names ih =>
      unfold FuseOps.traverse
      refine (checkChildInode_data me parent name).bind fun ino => ?_
      have hrest : Op.Keeps (HasData p) (getMode me parent name >>= fun mode =>
          if Inode.isDir mode then getDentryTable ino >>= fun _ =>
            permissionCheck me ino Inode.X_OK >>= fun _ => FuseOps.traverse me names ino ino
          else FuseOps.traverse me names parent ino) := by
        refine (getMode_data me parent name).bind fun mode => ?_
        split
        · refine (getDentryTable_data ino).bind fun _ => ?_
          exact (permissionCheck_data me ino Inode.X_OK).bind fun _ => ih ino ino
        · exact ih parent ino
      split
      · exact Op.Keeps.bind (fun _ h => h) fun _ => hrest
      · exact hrest

theorem pathTraversal_data (me : C) (path : Bytes) :
    Op.Keeps (HasData p) (pathTraversal me path) :=
  (getDentryTable_data Uuid.rootIno).bind fun _ => traverse_data me _ _ _

omit [DecidableEq C] in
theorem handle_data {m : ClientOp C α} (h : Op.Keeps (HasData p) m) (f : Err → Option α) :
    Op.Keeps (HasData p) (m.handle f) := by
  intro s hs
  rw [Op.handle_snd]
  exact h s hs

theorem renameSameParent_data (me : C) (parent : Uuid) (oldPath newPath : Bytes) (flags : UInt32)
    (ts : Timespec) :
    Op.Keeps (HasData p) (renameSameParent me parent oldPath newPath flags ts) := by
  unfold renameSameParent
  refine whereLed_data ((lift_data _).bind fun paradox => ?_) (remotely_data ?_)
  · split
    · exact Op.Keeps.pure _
    · refine (lift_data _).bind fun _ => (lift_data _).bind fun _ => ?_
      exact (onDir_data (data_localRename ts _ _ flags)).bind fun _ => Op.Keeps.pure _
  · refine (lift_data _).bind fun _ => (lift_data _).bind fun _ => ?_
    exact (onDir_data (data_renameHandler _ _ flags)).bind fun _ => Op.Keeps.pure _

theorem renameNotSameParentSrc_data (me : C) (oldPath : Bytes) (flags : UInt32) :
    Op.Keeps (HasData p) (renameNotSameParentSrc me dir oldPath flags) := by
  unfold renameNotSameParentSrc
  refine whereLed_data ((lift_data _).bind fun _ => ?_) ?_
  · exact (onDir_data (data_localRenameSrc _ flags)).bind fun _ => Op.Keeps.pure _
  · refine (remotely_data ((lift_data _).bind fun _ =>
      onDir_data (data_renameSrcHandler _ flags))).bind fun reply => ?_
    obtain ⟨ret, target⟩ := reply
    cases target with
    | none => exact fun _ h => h
    | some i => exact Op.Keeps.pure _

theorem renameNotSameParentDst_data (me : C) (target : Inode) (checkDstIno : Uuid)
    (newPath : Bytes) (flags : UInt32) :
    Op.Keeps (HasData p) (renameNotSameParentDst me dir target checkDstIno newPath flags) := by
  unfold renameNotSameParentDst
  refine whereLed_data ((lift_data _).bind fun _ => ?_)
    (remotely_data ((lift_data _).bind fun _ => ?_))
  · exact (onDir_data (data_localRenameDst target checkDstIno _ flags)).bind fun _ => Op.Keeps.pure _
  · exact (onDir_data (data_renameDstHandler _ _ _ flags)).bind fun _ => Op.Keeps.pure _

theorem rename_data (me : C) (oldPath newPath : Bytes) (flags : UInt32) (ts : Timespec) :
    Op.Keeps (HasData p) (rename me oldPath newPath flags ts) := by
  unfold rename
  split
  · exact Op.Keeps.pure _
  apply handle_data
  unfold renameBlock
  refine (lift_data _).bind fun _ => (lift_data _).bind fun _ => ?_
  split
  · refine (pathTraversal_data me _).bind fun _ => (getDentryTable_data _).bind fun _ => ?_
    exact renameSameParent_data me _ oldPath newPath flags ts
  · refine (pathTraversal_data me _).bind fun _ => (getDentryTable_data _).bind fun _ => ?_
    refine (pathTraversal_data me _).bind fun _ => (getDentryTable_data _).bind fun _ => ?_
    refine (lift_data _).bind fun _ => (checkChildInode_data me _ _).bind fun _ => ?_
    exact (renameNotSameParentSrc_data me oldPath flags).bind fun _ =>
      renameNotSameParentDst_data me _ _ newPath flags

theorem rmdir_data (me : C) (path : Bytes) (ts : Timespec) :
    Op.Keeps (HasData p) (rmdir me path ts) := by
  have htop : ∀ target, Op.Keeps (HasData p) (rmdirTop me target) := by
    intro target
    unfold FuseOps.rmdirTop
    refine (whereLed_data (onDir_data (data_rmdirTop target))
      (remotely_data (onDir_data (data_rmdirTop target)))).bind fun reply => ?_
    split
    · exact Op.Keeps.bind (fun _ h => h) fun _ => Op.Keeps.pure _
    · exact Op.Keeps.pure _
  have hdown : ∀ parent target name, Op.Keeps (HasData p) (rmdirDown me parent target name ts) := by
    intro parent target name
    have hdir : Op.Keeps (HasData p)
        (onDir parent (DirectoryOps.rmdirDown ts target name) : ClientOp C _) :=
      onDir_data (data_rmdirDown ts target name)
    unfold FuseOps.rmdirDown
    refine whereLed_data (hdir.bind fun _ => Op.Keeps.pure _) (remotely_data ?_)
    exact hdir.bind fun _ => Op.Keeps.pure _
  apply handle_data
  unfold rmdirBlock
  refine (lift_data _).bind fun _ => (lift_data _).bind fun _ => ?_
  refine (pathTraversal_data me _).bind fun _ => (getDentryTable_data _).bind fun _ => ?_
  refine (checkChildInode_data me _ _).bind fun target => (getMode_data me _ _).bind fun mode => ?_
  split
  · exact Op.Keeps.pure _
  refine (getDentryTable_data _).bind fun _ => (htop target).bind fun ret => ?_
  split
  · exact hdown _ target _
  · exact Op.Keeps.pure _

theorem mkdir_data (me : C) (env : Env) (path : Bytes) (mode : UInt32) (born : Timespec) :
    Op.Keeps (HasData p) (mkdir me env path mode born) := by
  apply handle_data
  unfold mkdirBlock
  refine (lift_data _).bind fun _ => (lift_data _).bind fun _ => ?_
  refine (pathTraversal_data me _).bind fun _ => (getDentryTable_data _).bind fun _ => ?_
  refine Op.Keeps.bind (whereLed_data ?_ ?_) fun i => ?_
  · exact (onDir_data (data_localMkdir env _ mode)).bind fun _ => Op.Keeps.pure _
  · refine (remotely_data (onDir_data (data_mkdirHandler env _ mode))).bind fun _ => ?_
    exact Op.Keeps.bind (fun _ h => h) fun _ => Op.Keeps.pure _
  · exact Op.Keeps.bind (fun _ h => h) fun _ => Op.Keeps.pure _

theorem create_data (me : C) (env : Env) (path : Bytes) (mode : UInt32) :
    Op.Keeps (HasData p) (create me env path mode) := by
  unfold create
  split
  · exact Op.Keeps.pure _
  apply handle_data
  unfold createBlock
  refine (lift_data _).bind fun name => (lift_data _).bind fun _ => ?_
  refine (pathTraversal_data me _).bind fun parent => (getDentryTable_data _).bind fun _ => ?_
  have hdir : Op.Keeps (HasData p) (onDir parent (createChild env name mode) : ClientOp C Reply) :=
    onDir_data (data_createChild env name mode)
  refine whereLed_data (hdir.bind fun _ => Op.Keeps.pure _) (remotely_data ?_)
  exact hdir.bind fun _ => Op.Keeps.pure _

theorem symlink_data (me : C) (env : Env) (src dst : Bytes) :
    Op.Keeps (HasData p) (symlink me env src dst) := by
  apply handle_data
  unfold symlinkBlock
  refine (lift_data _).bind fun _ => (pathTraversal_data me _).bind fun parent => ?_
  refine (getDentryTable_data _).bind fun _ => ?_
  have hdir : ∀ name, Op.Keeps (HasData p)
      (onDir parent (symlinkChild env src name) : ClientOp C Reply) :=
    fun name => onDir_data (data_symlinkChild env src name)
  refine whereLed_data ((lift_data _).bind fun _ => (hdir _).bind fun _ => Op.Keeps.pure _)
    (remotely_data ?_)
  exact (lift_data _).bind fun _ => (hdir _).bind fun _ => Op.Keeps.pure _

end NamespaceCalls

namespace Sections

open Led DirectoryOps

variable {P : Uuid → Prop} {dir : Uuid} {names : Bytes → Option Uuid} {name : Bytes} {p : Pool}

theorem adds_createChild {env : Env} (hi : P env.newIno) (mode : UInt32) :
    Op.Ensures (Led.Lists P dir names) (createChild env name mode)
      fun _ => Adds P dir names name env.newIno := by
  unfold createChild
  refine Op.Ensures.read_bind fun parent => (adds_create hi).bind (fun _ => ?_) fun _ _ h => h
  refine (adds_of_lists fun _ => lists_setTimes _).bind fun _ => ?_
  exact (adds_of_lists fun _ => lists_journal _).bind fun _ => Op.Keeps.pure _

theorem adds_symlinkChild {env : Env} (hi : P env.newIno) (src : Bytes) :
    Op.Ensures (Led.Lists P dir names) (symlinkChild env src name)
      fun _ => Adds P dir names name env.newIno := by
  unfold symlinkChild
  refine Op.Ensures.read_bind fun there => ?_
  split
  · exact fun s h => .inl h
  · refine Op.Ensures.read_bind fun parent => (adds_create hi).bind (fun _ => ?_) fun _ _ h => h
    exact (adds_of_lists fun _ => lists_journal _).bind fun _ => Op.Keeps.pure _

/-- The names and the data pool. -/
def Has (P : Uuid → Prop) (dir : Uuid) (names : Bytes → Option Uuid) (p : Pool) (s : Led) : Prop :=
  s.Lists P dir names ∧ s.dataPool = p

theorem has_keeps {α : Type} {m : Section α} (hl : Op.Keeps (Led.Lists P dir names) m)
    (hd : Op.Keeps (HasData p) m) : Op.Keeps (Has P dir names p) m :=
  fun s h => ⟨hl s h.1, hd s h.2⟩

/-- What follows on the removal of a name and of its inode's data. -/
theorem has_removed (ts : Timespec) (m : Inode → Transaction.Mutation) :
    Op.Ensures (Has P dir names p)
      (deleteChildInode name >>= fun _ => setParentTimes ts >>= fun _ => journal m >>= fun _ =>
        (pure ⟨0, none⟩ : Section Reply))
      fun _ => Has P dir (Function.update names name none) p := by
  have hdelete : Op.Ensures (Has P dir names p) (deleteChildInode name)
      fun _ => Has P dir (Function.update names name none) p :=
    fun s h => ⟨(lists_delete name s h.1).2, data_delete name s h.2⟩
  refine hdelete.bind (fun _ => ?_) fun _ _ h => h
  refine (has_keeps (lists_setTimes ts) (data_setTimes ts)).bind fun _ => ?_
  exact (has_keeps (lists_journal m) (data_journal m)).bind fun _ => Op.Keeps.pure _

/-- Either both stay, or the name and the data of its inode are gone. -/
theorem unlinkChild_removes (name : Bytes) (ts : Timespec) :
    Op.Ensures (Has P dir names p) (unlinkChild ts name) fun _ s => Has P dir names p s ∨
      ∃ u, names name = some u ∧ Has P dir (Function.update names name none)
        (RadosIo.remove p .data u.toStr) s := by
  intro s h
  unfold unlinkChild
  cases hc : s.table.child name with
  | none =>
      rw [Op.bind_error (getChildInode_absent hc)]
      exact .inl h
  | some c =>
      rw [Op.bind_ok (getChildInode_present hc)]
      dsimp only
      split
      · refine .inr ⟨c.inode.ino, ?_, ?_⟩
        · rw [← h.1.listed, h.1.within.sound, hc]
          rfl
        · have hdata : Has P dir names (RadosIo.remove p .data c.inode.ino.toStr)
              (removeData c.inode.ino s).2 :=
            ⟨⟨keeps_removeData _ s h.1.within, h.1.listed⟩,
              congrArg (RadosIo.remove · .data c.inode.ino.toStr) h.2⟩
          rw [Op.bind_ok (show removeData c.inode.ino s = (.ok (), _) from rfl)]
          exact has_removed ts _ _ hdata
      · have hrest : Op.Keeps (Has P dir names p)
            (setChildInode name (c.inode.setNlink (c.inode.core.iNlink - 1)) >>= fun _ =>
              journalAt c.pIno (.chreg (c.inode.setNlink (c.inode.core.iNlink - 1))) >>= fun _ =>
                (pure ⟨0, none⟩ : Section Reply)) :=
          (has_keeps (lists_setChild _ _) (data_setChild _ _)).bind fun _ =>
            (has_keeps (lists_journalAt _ _) (data_journalAt _ _)).bind fun _ => Op.Keeps.pure _
        exact .inl (hrest s h)

end Sections

namespace NamespaceCalls

open FuseOps DirectoryOps

variable {C : Type} [DecidableEq C] {P : Uuid → Prop} {f : Uuid → Bytes → Option Uuid} {p : Pool}
  {s : Cluster C} {dir : Uuid} {name : Bytes}

/-- The entries and the data pool are as they were, or an entry and its inode's data are gone. -/
def Freed (P : Uuid → Prop) (f : Uuid → Bytes → Option Uuid) (p : Pool) (s : Cluster C) : Prop :=
  (s.Lists P f ∧ s.dataPool = p) ∨ ∃ d k u, f d k = some u ∧
    s.Lists P (Namespace.set f d k none) ∧ s.dataPool = RadosIo.remove p .data u.toStr

theorem onDir_freed (ts : Timespec) :
    Op.Ensures (fun s : Cluster C => s.Lists P f ∧ s.dataPool = p)
      (onDir dir (unlinkChild ts name)) fun _ => Freed P f p := by
  intro s ⟨h, hp⟩
  cases hl : s.led dir with
  | none =>
      unfold onDir
      rw [hl]
      exact .inl ⟨h, hp⟩
  | some led =>
      have hhas : Sections.Has P dir (f dir) p led := by
        refine ⟨h.of_led hl, ?_⟩
        obtain ⟨table, -, rfl⟩ := Option.map_eq_some_iff.mp hl
        exact hp
      rw [onDir_led hl]
      rcases Sections.unlinkChild_removes name ts led hhas with hsame | ⟨u, hu, hgone⟩
      · refine .inl ⟨?_, hsame.2⟩
        have hput := h.put hsame.1
        rwa [Function.update_eq_self] at hput
      · refine .inr ⟨dir, name, u, hu, ?_, hgone.2⟩
        rw [← update_set]
        exact h.put hgone.1

theorem unlinkIn_freed (me : C) (parent : Uuid) (name : Bytes) (ts : Timespec) :
    Op.Ensures (fun s : Cluster C => s.Lists P f ∧ s.dataPool = p) (unlinkIn me parent name ts)
      fun _ => Freed P f p := by
  have hdir : Op.Ensures (fun s : Cluster C => s.Lists P f ∧ s.dataPool = p)
      (onDir parent (unlinkChild ts name)) fun _ => Freed P f p := onDir_freed ts
  unfold unlinkIn
  apply whereLed_ensures
  · exact hdir.bind (fun _ _ h => h) fun _ _ h => h
  · exact remotely_ensures (hdir.bind (fun _ _ h => h) fun _ _ h => h) fun _ _ h => h

theorem unlink_freed (me : C) (hP : ∀ u, P u → u ≠ Uuid.nil) (h : s.Lists P f) (path : Bytes)
    (ts : Timespec) : Freed P f s.dataPool (unlink me path ts s).2 := by
  have hnothing : Freed P f s.dataPool s := .inl ⟨h, rfl⟩
  unfold unlink
  rw [Op.handle_snd]
  unfold unlinkBlock
  refine Op.Reads.bind (Q := fun _ => Freed P f s.dataPool) .lift (fun _ _ => hnothing)
    fun targetName _ => ?_
  refine Op.Reads.bind (Q := fun _ => Freed P f s.dataPool) .lift (fun _ _ => hnothing)
    fun parentPath _ => ?_
  refine Op.Reads.bind (Q := fun _ => Freed P f s.dataPool) (pathTraversal_reads hP h _)
    (fun _ _ => hnothing) fun parent _ => ?_
  refine Op.Reads.bind (Q := fun _ => Freed P f s.dataPool) getDentryTable_reads
    (fun _ _ => hnothing) fun _ _ => ?_
  exact unlinkIn_freed me parent targetName ts s ⟨h, rfl⟩

theorem createIn_adds (me : C) {parent : Uuid} {env : Env} (hu : P env.newIno)
    (hne : parent ≠ env.newIno) (name : Bytes) (mode : UInt32) :
    Op.Ensures (Cluster.Lists P f) (createIn me parent env name mode)
      (Cluster.Leaves P fun _ => AddsAt f env.newIno) := by
  have hdir : Op.Ensures (Cluster.Lists P f)
      (onDir parent (createChild env name mode) : ClientOp C Reply)
      (Cluster.Leaves P fun _ => AddsAt f env.newIno) :=
    onDir_adds hne (Sections.adds_createChild hu mode)
  unfold createIn
  apply whereLed_ensures
  · exact hdir.bind (fun _ _ h => h) fun _ _ h => h
  · exact remotely_ensures (hdir.bind (fun _ _ h => h) fun _ _ h => h) fun _ _ h => h

theorem symlinkIn_adds (me : C) {parent : Uuid} {env : Env} (hu : P env.newIno)
    (hne : parent ≠ env.newIno) (src dst : Bytes) :
    Op.Ensures (Cluster.Lists P f) (symlinkIn me parent env src dst)
      (Cluster.Leaves P fun _ => AddsAt f env.newIno) := by
  have hdir : ∀ name, Op.Ensures (Cluster.Lists P f)
      ((do
        let reply ← onDir parent (symlinkChild env src name)
        return reply.ret) : ClientOp C Int)
      (Cluster.Leaves P fun _ => AddsAt f env.newIno) :=
    fun name => (onDir_adds hne (Sections.adds_symlinkChild hu src)).bind (fun _ _ h => h)
      fun _ _ h => h
  have hnamed : Op.Ensures (Cluster.Lists P f)
      ((do
        let symlinkName ← Op.lift (Path.getFilenameFromPath dst)
        let reply ← onDir parent (symlinkChild env src symlinkName)
        return reply.ret) : ClientOp C Int)
      (Cluster.Leaves P fun _ => AddsAt f env.newIno) := by
    refine lift_ensures.bind (fun name s h => ?_) fun e s h => ⟨f, h.1, .inl rfl⟩
    exact hdir name s h.1
  unfold symlinkIn
  apply whereLed_ensures
  · exact hnamed
  · exact remotely_ensures hnamed fun _ _ h => h

/-- A call that looks up a directory and then adds an entry in it. -/
theorem adds_below (me : C) (hP : ∀ u, P u → u ≠ Uuid.nil) (h : s.Lists P f) {ino : Uuid}
    (hnew : s.tables ino = none) {m : Uuid → ClientOp C Int} (path : Bytes)
    (hm : ∀ parent, parent ≠ ino → Op.Ensures (Cluster.Lists P f) (m parent)
      (Cluster.Leaves P fun _ => AddsAt f ino)) :
    Cluster.Leaves P (fun _ : Except Err Int => AddsAt f ino)
      ((pathTraversal me path >>= fun parent => getDentryTable parent >>= fun _ => m parent) s).1
      ((pathTraversal me path >>= fun parent => getDentryTable parent >>= fun _ => m parent) s).2 := by
  have hnothing : ∀ r : Except Err Int,
      Cluster.Leaves P (fun _ : Except Err Int => AddsAt f ino) r s := fun _ => ⟨f, h, .inl rfl⟩
  refine Op.Reads.bind (pathTraversal_reads hP h _) (fun e _ => hnothing (.error e)) fun parent _ => ?_
  refine Op.Reads.bind getDentryTable_reads (fun e _ => hnothing (.error e)) fun _ hparent => ?_
  have hne : parent ≠ ino := by
    rintro rfl
    rw [hnew] at hparent
    cases hparent
  exact hm parent hne s h

theorem create_adds (me : C) (hP : ∀ u, P u → u ≠ Uuid.nil) (h : s.Lists P f) {env : Env}
    (hu : P env.newIno) (hnew : s.tables env.newIno = none) (path : Bytes) (mode : UInt32) :
    Cluster.Leaves P (fun _ : Except Err Int => AddsAt f env.newIno)
      (create me env path mode s).1 (create me env path mode s).2 := by
  have hnothing : ∀ r : Except Err Int,
      Cluster.Leaves P (fun _ : Except Err Int => AddsAt f env.newIno) r s :=
    fun _ => ⟨f, h, .inl rfl⟩
  have hblock : Cluster.Leaves P (fun _ : Except Err Int => AddsAt f env.newIno)
      (createBlock me env path mode s).1 (createBlock me env path mode s).2 := by
    unfold createBlock
    refine Op.Reads.bind .lift (fun e _ => hnothing (.error e)) fun name _ => ?_
    refine Op.Reads.bind .lift (fun e _ => hnothing (.error e)) fun parentPath _ => ?_
    exact adds_below me hP h hnew parentPath fun parent hne => createIn_adds me hu hne name mode
  obtain ⟨f', hl, hadds⟩ := hblock
  unfold create
  split
  · exact hnothing _
  · refine ⟨f', ?_, hadds⟩
    rw [Op.handle_snd]
    exact hl

theorem symlink_adds (me : C) (hP : ∀ u, P u → u ≠ Uuid.nil) (h : s.Lists P f) {env : Env}
    (hu : P env.newIno) (hnew : s.tables env.newIno = none) (src dst : Bytes) :
    Cluster.Leaves P (fun _ : Except Err Int => AddsAt f env.newIno)
      (symlink me env src dst s).1 (symlink me env src dst s).2 := by
  have hblock : Cluster.Leaves P (fun _ : Except Err Int => AddsAt f env.newIno)
      (symlinkBlock me env src dst s).1 (symlinkBlock me env src dst s).2 := by
    unfold symlinkBlock
    refine Op.Reads.bind .lift (fun e _ => ⟨f, h, .inl rfl⟩) fun parentPath _ => ?_
    exact adds_below me hP h hnew parentPath fun parent hne => symlinkIn_adds me hu hne src dst
  obtain ⟨f', hl, hadds⟩ := hblock
  refine ⟨f', ?_, hadds⟩
  unfold symlink
  rw [Op.handle_snd]
  exact hl

end NamespaceCalls

/-! ## Runs of requests -/

namespace NamespaceCalls

open FuseOps

variable {C : Type} [DecidableEq C]

/-- A call of a client, with what the client brings along. -/
inductive Request (C : Type) where
  | onDirs (call : Call C)
  | create (me : C) (env : Env) (path : Bytes) (mode : UInt32)
  | symlink (me : C) (env : Env) (src dst : Bytes)
  | unlink (me : C) (path : Bytes) (ts : Timespec)

def Request.perform : Request C → ClientOp C Int
  | .onDirs call => call.perform
  | .create me env path mode => NamespaceCalls.create me env path mode
  | .symlink me env src dst => NamespaceCalls.symlink me env src dst
  | .unlink me path ts => NamespaceCalls.unlink me path ts

def step (s : Cluster C) (r : Request C) : Option (Cluster C) := some (r.perform s).2

/-- The tables are sound, and no inode has two names. -/
structure OneName (s : Cluster C) : Prop where
  lists : s.Lists (· ≠ Uuid.nil) s.entries
  forest : Namespace.Forest s.entries Uuid.rootIno

/-- `alloc_new_ino` gives a number that nothing has. -/
def FreshIno (s : Cluster C) (env : Env) : Prop :=
  env.newIno ≠ Uuid.nil ∧ env.newIno ≠ Uuid.rootIno ∧ s.tables env.newIno = none ∧
    ∀ dir name, s.entries dir name ≠ some env.newIno

def Fresh (s : Cluster C) : Request C → Prop
  | .onDirs (.mkdir _ env _ _ _) | .create _ env _ _ | .symlink _ env _ _ => FreshIno s env
  | _ => True

/-- The DATA objects of an inode. -/
def data (s : Cluster C) (ino : Uuid) : Nat → Option Bytes :=
  RadosIo.blocks s.dataPool .data ino.toStr

/-- The data of an inode stay, unless the request takes its only name. -/
def KeepsData (s : Cluster C) (r : Request C) : Prop :=
  ∀ u, data (r.perform s).2 u = data s u ∨
    (∃! at_ : Uuid × Bytes, s.entries at_.1 at_.2 = some u) ∧
      ∀ dir name, (r.perform s).2.entries dir name ≠ some u

section

variable {s s' : Cluster C} {f' : Uuid → Bytes → Option Uuid}

omit [DecidableEq C] in
theorem OneName.of_lists (hl : s'.Lists (· ≠ Uuid.nil) f')
    (hforest : Namespace.Forest f' Uuid.rootIno) : OneName s' := by
  have he := hl.entries
  subst he
  exact ⟨hl, hforest⟩

omit [DecidableEq C] in
theorem OneName.adds (h : OneName s) {env : Env} (hf : FreshIno s env)
    (hl : s'.Lists (· ≠ Uuid.nil) f') (hadds : AddsAt s.entries env.newIno f') : OneName s' := by
  rcases hadds with rfl | ⟨d, k, -, -, rfl⟩
  · exact .of_lists hl h.forest
  · exact .of_lists hl (h.forest.add hf.2.2.2 hf.2.1)

theorem rename_oneName (h : OneName s) (me : C) (oldPath newPath : Bytes) (flags : UInt32)
    (ts : Timespec) : OneName (rename me oldPath newPath flags ts s).2 := by
  obtain ⟨f', hl, hr⟩ := rename_leaves me (fun _ hu => hu) h.lists oldPath newPath flags ts
  rcases hr with ⟨rfl, -, -⟩ | ⟨-, src, oldName, dst, newName, x, -, -, hx, hm⟩
  · exact .of_lists hl h.forest
  · rcases hm with rfl | ⟨hpart, -⟩
    · exact .of_lists hl h.forest.move
    · refine .of_lists hl (h.forest.subset fun d k u hu => ?_)
      rcases hpart with rfl | rfl | rfl
      · exact Namespace.set_none_subset hu
      · exact Namespace.set_none_subset hu
      · exact Namespace.set_none_subset (Namespace.set_none_subset hu)

theorem unlink_step (h : OneName s) (me : C) (path : Bytes) (ts : Timespec) :
    OneName (unlink me path ts s).2 ∧ KeepsData s (.unlink me path ts) := by
  rcases unlink_freed me (fun _ hu => hu) h.lists path ts with ⟨hl, hd⟩ | ⟨d, k, u, hu, hl, hd⟩
  · refine ⟨.of_lists hl h.forest, fun u => .inl ?_⟩
    show RadosIo.blocks (unlink me path ts s).2.dataPool .data u.toStr = _
    rw [hd]
    rfl
  · refine ⟨.of_lists hl (h.forest.subset fun _ _ _ => Namespace.set_none_subset), fun v => ?_⟩
    by_cases hv : v = u
    · subst hv
      refine .inr ⟨⟨(d, k), hu, fun other ho => ?_⟩, fun d' k' hentry => ?_⟩
      · obtain ⟨hd', hk'⟩ := h.forest.unique _ _ _ _ _ ho hu
        exact Prod.ext hd' hk'
      · have he : (unlink me path ts s).2.entries d' k' = some v := hentry
        rw [hl.entries] at he
        obtain ⟨rfl, rfl⟩ := h.forest.unique _ _ _ _ _ (Namespace.set_none_subset he) hu
        rw [Namespace.set_self] at he
        cases he
    · left
      show RadosIo.blocks (unlink me path ts s).2.dataPool .data v.toStr = _
      rw [hd]
      exact RadosIo.frame_remove.blocks fun heq => hv (Uuid.toStr_inj (Prod.mk.inj heq).2)

theorem keepsData_of_keeps {r : Request C} (h : ∀ p, Op.Keeps (HasData p) r.perform) :
    KeepsData s r := by
  refine fun u => .inl ?_
  unfold data
  rw [h s.dataPool s rfl]

theorem step_oneName (h : OneName s) {r : Request C} (hf : Fresh s r) :
    OneName (r.perform s).2 ∧ KeepsData s r := by
  cases r with
  | onDirs call =>
      cases call with
      | mkdir me env path mode born =>
          obtain ⟨f', hl, hadds⟩ := mkdir_adds me (fun _ hu => hu) h.lists hf.1 hf.2.2.1 path mode born
          exact ⟨h.adds hf hl hadds, keepsData_of_keeps fun _ => mkdir_data me env path mode born⟩
      | rmdir me path ts =>
          obtain ⟨f', hl, hsub⟩ := rmdir_shrinks me (fun _ hu => hu) h.lists path ts
          exact ⟨.of_lists hl (h.forest.subset hsub),
            keepsData_of_keeps fun _ => rmdir_data me path ts⟩
      | rename me oldPath newPath flags ts =>
          exact ⟨rename_oneName h me oldPath newPath flags ts,
            keepsData_of_keeps fun _ => rename_data me oldPath newPath flags ts⟩
  | create me env path mode =>
      obtain ⟨f', hl, hadds⟩ := create_adds me (fun _ hu => hu) h.lists hf.1 hf.2.2.1 path mode
      exact ⟨h.adds hf hl hadds, keepsData_of_keeps fun _ => create_data me env path mode⟩
  | symlink me env src dst =>
      obtain ⟨f', hl, hadds⟩ := symlink_adds me (fun _ hu => hu) h.lists hf.1 hf.2.2.1 src dst
      exact ⟨h.adds hf hl hadds, keepsData_of_keeps fun _ => symlink_data me env src dst⟩
  | unlink me path ts => exact unlink_step h me path ts

/-- However the clients' requests follow each other, no inode ever has two names, and the data of a
    file are there until the request that takes its name. -/
theorem data_kept_while_named {requests : List (Request C)} (h : OneName s)
    (hf : StepsMeet step Fresh s requests) :
    StepsMeet step KeepsData s requests ∧
      ∀ s', run step s requests = some s' → OneName s' := by
  have hstep : ∀ (s : Cluster C) (r : Request C) (s' : Cluster C), OneName s → Fresh s r →
      step s r = some s' → OneName s' := by
    intro s r s' hs hr hstep
    cases hstep
    exact (step_oneName hs hr).1
  refine ⟨?_, fun s' hr => run_invariant_of_stepsMeet hstep h hf hr⟩
  induction requests generalizing s with
  | nil => trivial
  | cons r requests ih =>
      refine ⟨(step_oneName h hf.1).2, fun s' hs' => ?_⟩
      exact ih (hstep s r s' h hf.1 hs') (hf.2 s' hs')

end

/-- One client creates "/a", the other one removes it. -/
def createAndUnlink : List (Request Bool) :=
  [.create false (Placement.envOf 1) (Path.text [[97]]) 0x1A4,
    .unlink true (Path.text [[97]]) Placement.clock]

theorem data_kept_while_named_createAndUnlink :
    StepsMeet step KeepsData Placement.rootOnly createAndUnlink ∧
      ∃ s', run step Placement.rootOnly createAndUnlink = some s' ∧ OneName s' := by
  have htree := Ancestry.rootOnly_isTree
  have hfresh : StepsMeet step Fresh Placement.rootOnly createAndUnlink := by
    refine ⟨⟨by decide, by decide, rfl, fun dir name => ?_⟩, fun _ _ => ⟨trivial, fun _ _ => trivial⟩⟩
    rw [Ancestry.rootOnly_entries]
    exact nofun
  obtain ⟨hkeeps, hone⟩ := data_kept_while_named ⟨htree.lists, htree.forest⟩ hfresh
  have hrun : ∃ s', run step Placement.rootOnly createAndUnlink = some s' := ⟨_, rfl⟩
  obtain ⟨s', hr⟩ := hrun
  exact ⟨hkeeps, s', hr, hone s' hr⟩

end NamespaceCalls

end Nmfs
