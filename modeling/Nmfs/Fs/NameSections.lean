import Nmfs.Fs.JournalCalls
import Nmfs.Fs.Moves
import Nmfs.Fs.Refinement
import Nmfs.Fs.Volume

/-
  The operations at a leader, as far as the names go: the table and the pending transaction keep to
  each other, whatever the transaction is laid over.
-/

namespace Nmfs

open Lib

namespace Names

open DirectoryOps Refinement

variable {s s' : Led} {base : Bytes → Option Uuid} {name oldName newName : Bytes} {env : Env}
  {mode : UInt32} {c : MemInode}

/-- The journal has heard of something else than names. -/
theorem heard (h : Names s base) (ht : s'.table = s.table) (hd : s'.tx.dentries = s.tx.dentries)
    (hopen : s'.tx.committed = false)
    (hlive : ∀ u, s'.tx.fInodes.lookup u = some none → s.tx.fInodes.lookup u = some none) :
    Names s' base := by
  refine ⟨?_, hopen, ?_, ?_, ?_, ?_, ?_, ?_⟩
  · rw [ht]
    exact h.self
  · rw [ht]
    exact h.sound
  · rw [hd, ht]
    exact h.listed
  · rw [ht]
    exact h.distinct
  · intro n u hn hdead
    rw [ht] at hn
    exact h.live n u hn (hlive u hdead)
  · rw [ht]
    exact h.notNil
  · rw [ht]
    exact h.parent

/-- The transaction of the directory has been taken. -/
theorem emptied (h : Names s base) (ht : s'.table = s.table)
    (hx : s'.tx = Transaction.new s.table.thisDirInode.ino) :
    Names s' (overlay s.tx.dentries base) :=
  (Creation.names_commit h).congr ht (hx.trans (JournalTable.getEntry_erase _ _).symm)

theorem recordMkdir (h : Names s base) (hn : NewName s env name) :
    ∃ led, Sections.recordMkdir env name mode s = (.ok (), led) ∧ Names led base := by
  have hj := Led.mkdir_created (s := s.withTimes env.now) (i := newDir s env mode) h.uncommitted
    (h.turns_new hn.absent)
  refine ⟨_, ?_, ((h.withTimes env.now).insertedDir (i := newDir s env mode) hn.absent
    hn.fresh.notNil hn.fresh.unlisted h.self hn.fresh.noDead).withChild name (sizedDir env mode)⟩
  unfold Sections.recordMkdir
  rw [Op.bind_ok Led.parentIno_apply, Op.bind_ok Led.createChildInode_apply,
    Op.bind_ok Led.setParentTimes_apply, Led.created_withTimes]
  exact (Op.bind_ok hj).trans rfl

/-- What is done on the parent, where the name is absent. -/
theorem mkdirSection (h : Names s base) (hn : NewName s env name) (mode : UInt32) (here : Bool) :
    ∃ led, FuseOps.mkdirSection here env name mode s = (.ok (), led) ∧ Names led base := by
  unfold FuseOps.mkdirSection
  split
  · exact h.recordMkdir hn
  · have hs : Creation.Served base name (RpcServer.mkdirHandler env name mode s) :=
      Creation.served_mkdirHandler h hn.fresh hn.absent
    have heq := @mkdirHandler_new s env name mode h.uncommitted (h.turns_new hn.absent)
    refine ⟨_, Op.bind_ok heq, ?_⟩
    rw [heq] at hs
    exact hs.names

theorem rmdirDown (h : Names s base) {ts : Timespec} {ino : Uuid}
    (hl : s.table.listed name = some ino) :
    Names (DirectoryOps.rmdirDown ts ino name s).2 base := by
  rw [rmdirDown_ok h.uncommitted (h.turns_removal hl)]
  exact (h.withTimes ts).removedDir hl

/-- A child is moved to a free name. -/
theorem moved (h : Names s base) (hc : s.table.child oldName = some c)
    (hfree : s.table.listed newName = none) :
    Names ((removeSrc oldName c >>= fun _ => insertTarget newName c >>= fun _ =>
      (pure ⟨0, none⟩ : Section Reply)) s).2 base := by
  have hl := h.listed_of_child hc
  have hrem := h.removed hl
  have hlist : (s.removed oldName c.inode.ino).table.listed =
      Function.update s.table.listed oldName none := DentryTable.listed_delete hc
  have hdir : (s.removed oldName c.inode.ino).table.dirIno = s.table.dirIno :=
    DentryTable.dirIno_delete
  have hfree' : (s.removed oldName c.inode.ino).table.listed newName = none := by
    rw [hlist, Function.update_apply, hfree, ite_self]
  have hdead : (s.removed oldName c.inode.ino).tx.fInodes.lookup c.inode.ino = some none := by
    rw [Led.fInodes_removed]
    exact AList.lookup_insert _
  rw [Op.bind_ok (removeSrc_ok (h.takesRemoval hl)), Op.bind_ok (insertTarget_ok
    (hrem.takesNew hfree' (by rw [hdead]; exact fun g hg => (nomatch hg))))]
  refine hrem.inserted hfree' (h.notNil _ _ hl) ?_ ?_
  · rw [hlist]
    exact h.distinct.lacks_erase hl
  · rw [hdir]
    exact h.parent _ _ hc

/-- The part of a rename that the two kinds share. -/
theorem moveEntry (h : Names s base) (hc : s.table.child oldName = some c)
    (hne : oldName ≠ newName) (hnew : newName ≠ [47]) :
    Names (DirectoryOps.moveEntry (s.table.checkChildInode newName) oldName newName c s).2 base := by
  have hcheck : s.table.checkChildInode newName = (s.table.listed newName).getD Uuid.nil := by
    unfold DentryTable.checkChildInode
    rw [if_neg hnew]
    rfl
  unfold DirectoryOps.moveEntry
  rw [hcheck, Op.bind_ok (FuseOps.removeDst_freed h)]
  refine (FuseOps.freed_names h).moved ?_ ?_
  · unfold Led.freed
    split
    · exact hc
    · refine (congrFun DentryTable.child_delete oldName).trans ?_
      rw [Function.update_of_ne hne]
      exact hc
  · rw [FuseOps.listed_freed h, Function.update_self]

/-- The name is given away, by the leader or to another client. -/
theorem renameSrc (h : Names s base) (hc : s.table.child oldName = some c) :
    LocalOps.localRenameNotSameParentSrc oldName 0 s = (.ok c, s.removed oldName c.inode.ino) ∧
      RpcServer.renameNotSameParentSrcHandler oldName 0 s =
        (.ok (0, some c.inode), s.removed oldName c.inode.ino) ∧
      Names (s.removed oldName c.inode.ino) base := by
  have hl := h.listed_of_child hc
  have heq := removeSrc_ok (h.takesRemoval hl)
  refine ⟨?_, ?_, h.removed hl⟩
  · unfold LocalOps.localRenameNotSameParentSrc
    rw [Op.bind_ok (Led.getChildInode_present hc), if_pos rfl, Op.bind_ok heq]
    rfl
  · unfold RpcServer.renameNotSameParentSrcHandler
    rw [Op.bind_ok (Led.getChildInode_present hc), if_pos rfl, Op.bind_ok heq]
    rfl

/-- The inode of another directory gets the name. -/
theorem dstSection (h : Names s base) {target : Inode} {checkDstIno : Uuid}
    (hv : MovesIn s target checkDstIno newName) :
    Names (FuseOps.dstSection ⟨target, s.table.dirIno⟩ checkDstIno newName s).2 base := by
  rw [hv.lookedUp, FuseOps.dstSection_ok h fun g hg => absurd hg (hv.notLive g)]
  refine (FuseOps.freed_names h).inserted ?_ hv.notNil ?_ ?_
  · rw [FuseOps.listed_freed h, Function.update_self]
  · rw [FuseOps.listed_freed h]
    exact hv.unlisted.erase
  · unfold Led.freed
    split
    · rfl
    · exact DentryTable.dirIno_delete.symm

/-- A change of an inode is told to the journal as a file of the directory or not at all. -/
theorem onChild (h : Names s base) {change : InodeChange} (hc : s.table.child name = some c)
    (hf : Mirror.IsFile c.inode) (hv : change.Valid c.inode) :
    Names (Refinement.onChild name change s) base := by
  have hch := InodeChange.changes (o := ⟨c.inode, c.pIno, s.dataPool, s.jtable⟩) hv (.inr hf)
  unfold Refinement.onChild
  rw [hc]
  dsimp only
  revert hch
  generalize change.perform ⟨c.inode, c.pIno, s.dataPool, s.jtable⟩ = o
  intro hch
  have hdata : Names { s with dataPool := o.dataPool } base := h.congr rfl rfl
  rcases hch.jtable with ⟨hi, hj⟩ | hj
  · rw [hi, hj]
    exact hdata.withChild name c.inode
  · have hfile : Inode.isDir o.i.core.iMode = false := (isDir_of_changes hch).trans hf
    rw [hfile, if_neg (by decide), h.parent name c hc] at hj
    have hset := (hdata.withChild name o.i).changed o.i
    rw [show (Led.withChild { s with dataPool := o.dataPool } name o.i).table.dirIno = s.table.dirIno
      from DentryTable.dirIno_setChild] at hset
    rw [hj]
    exact hset

/-- The directory's own inode is changed, in memory and in the transaction. -/
theorem changedSelf (h : Names s base) {f : Inode} (hf : f.ino = s.table.dirIno) :
    Names ⟨{ s.table with thisDirInode := f }, (s.jtable.record f.ino (.chself f)).2, s.dataPool⟩
      base := by
  have htx : Led.tx ⟨{ s.table with thisDirInode := f },
      (s.jtable.record f.ino (.chself f)).2, s.dataPool⟩ = { s.tx with sInode := some f.copy } := by
    have hchself : s.tx.chself f = _ := Transaction.chself_eq h.uncommitted
    unfold Led.tx at hchself ⊢
    rw [h.self] at hchself ⊢
    rw [hf, JournalTable.getEntry_record]
    show (Transaction.chself _ f).2 = _
    rw [hchself]
  refine ⟨hf, ?_, h.sound, ?_, h.distinct, ?_, h.notNil, h.parent⟩
  · rw [htx]
    exact h.uncommitted
  · rw [htx]
    exact h.listed
  · rw [htx]
    exact h.live

theorem onSelf (h : Names s base) {change : InodeChange} {pIno : Uuid}
    (hself : Inode.isDir s.table.thisDirInode.core.iMode = true)
    (hv : change.Valid s.table.thisDirInode) (hd : change.OfDir) :
    Names (Refinement.onSelf pIno change s) base := by
  have hch := InodeChange.changes (o := ⟨s.table.thisDirInode, pIno, s.dataPool, s.jtable⟩) hv
    (.inl hd)
  unfold Refinement.onSelf
  revert hch
  generalize change.perform ⟨s.table.thisDirInode, pIno, s.dataPool, s.jtable⟩ = o
  intro hch
  dsimp only
  rcases hch.jtable with ⟨hi, hj⟩ | hj
  · rw [hi, hj]
    exact h.congr rfl rfl
  · rw [isDir_of_changes hch, if_pos hself] at hj
    have hdata : Names { s with dataPool := o.dataPool } base := h.congr rfl rfl
    rw [hj]
    exact hdata.changedSelf (hch.ino.trans h.self)

/-- An operation that is of its kind. -/
theorem performed (h : Names s base) (hself : Inode.isDir s.table.thisDirInode.core.iMode = true)
    {o : Operation} (hv : o.Valid s) : Names (o.perform s).2 base := by
  cases o with
  | request r =>
      have hr : ∀ {name : Bytes}, Creation.Served base name (r.serve s) →
          Names (Operation.perform s (.request r)).2 base := fun hs => hs.names
      cases r with
      | localCreate env name mode => exact hr (Creation.served_create h hv.1.fresh hv.1.absent)
      | rpcCreate env name mode => exact hr (Creation.served_create h hv.1.fresh hv.1.absent)
      | localMkdir env name mode => exact hr (Creation.served_localMkdir h hv.1.fresh hv.1.absent)
      | rpcMkdir env name mode => exact hr (Creation.served_mkdirHandler h hv.1.fresh hv.1.absent)
      | localSymlink env src name => exact hr (Creation.served_symlink h hv.1.fresh)
      | rpcSymlink env src name => exact hr (Creation.served_symlink h hv.1.fresh)
      | localUnlink ts name => exact hr (Creation.served_unlink h)
      | rpcUnlink ts name => exact hr (Creation.served_unlink h)
  | localRename ts oldName newName =>
      obtain ⟨t, ht⟩ := Option.isSome_iff_exists.mp hv.present
      show Names (LocalOps.localRenameSameParent ts oldName newName 0 s).2 base
      unfold LocalOps.localRenameSameParent
      rw [Op.bind_ok (Led.getChildInode_present ht), Op.bind_ok Led.checkChildInode_apply,
        Op.bind_ok Led.setParentTimes_apply, if_pos rfl]
      exact (h.withTimes ts).moveEntry ht hv.ne hv.isName.2
  | rpcRename oldName newName =>
      obtain ⟨t, ht⟩ := Option.isSome_iff_exists.mp hv.present
      show Names (RpcServer.renameSameParentHandler oldName newName 0 s).2 base
      unfold RpcServer.renameSameParentHandler
      rw [Op.bind_ok (Led.getChildInode_present ht), Op.bind_ok Led.checkChildInode_apply,
        if_pos rfl]
      exact h.moveEntry ht hv.ne hv.isName.2
  | localRenameSrc oldName =>
      obtain ⟨t, ht⟩ := Option.isSome_iff_exists.mp hv
      obtain ⟨heq, -, hn⟩ := h.renameSrc ht
      unfold Operation.perform
      dsimp only
      rw [Op.bind_ok heq]
      exact hn
  | rpcRenameSrc oldName =>
      obtain ⟨t, ht⟩ := Option.isSome_iff_exists.mp hv
      obtain ⟨-, heq, hn⟩ := h.renameSrc ht
      unfold Operation.perform
      dsimp only
      rw [Op.bind_ok heq]
      exact hn
  | localRenameDst target checkDstIno newName =>
      show Names (LocalOps.localRenameNotSameParentDst target checkDstIno newName 0 s).2 base
      rw [FuseOps.localRenameNotSameParentDst_eq h.self]
      exact h.dstSection hv
  | rpcRenameDst target checkDstIno newName =>
      show Names (RpcServer.renameNotSameParentDstHandler target checkDstIno newName 0 s).2 base
      rw [FuseOps.renameNotSameParentDstHandler_eq h.self]
      exact h.dstSection hv
  | localRmdirDown ts targetIno targetName => exact h.rmdirDown hv
  | rpcRmdirDown ts targetIno targetName => exact h.rmdirDown hv
  | child name change =>
      obtain ⟨c, hc, hf, hv⟩ := hv
      exact h.onChild hc hf hv
  | self pIno change => exact h.onSelf hself hv.1 hv.2

end Names

end Nmfs
