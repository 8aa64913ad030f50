import Nmfs.Fs.JournalCalls

/-
  The directory's own inode in memory and in the pending transaction. Where an operation sets the
  times of the directory, it does so before the journal hears of it, and the call may be refused:
  the name is entered first, and only then is the inode touched.
-/

namespace Nmfs

open Lib

namespace Transaction

variable {tx : Transaction} {self : Inode} {name : Bytes} {alive : Bool} {m : Mutation}

/-- A call that enters a name comes to nothing where the name says so already. Where it does not,
    the inode is touched, also if the call is refused after that. -/
theorem ComesTo.enters {r : Result} (h : ComesTo tx m r) (hm : Enters self name alive m)
    (hu : tx.committed = false) :
    (¬ tx.Turns name alive ∧ r.2.sInode = tx.sInode) ∨
    (tx.Turns name alive ∧ r.2.sInode = (tx.touchSelf self).sInode) := by
  cases h with
  | turnedAway m hc => exact absurd hc (Bool.eq_false_iff.mp hu)
  | refused what hc hm' ht =>
      obtain ⟨rfl, rfl⟩ := hm.unique hm'
      exact Or.inl ⟨ht, rfl⟩
  | mkdir _ _ _ hc ht | rmdir _ _ _ hc ht | mkregLate _ _ _ _ hc ht | rmregLate _ _ _ _ hc ht =>
      cases hm with
      | _ ha => exact Or.inr ⟨ha ▸ ht, withEntry_sInode⟩
  | mkreg _ _ _ htakes | rmreg _ _ _ htakes =>
      cases hm with
      | _ ha => exact Or.inr ⟨ha ▸ htakes.turns, withEntry_sInode⟩
  | mkself | rmself | chself | chreg => cases hm

theorem sInode_enters (hm : Enters self name alive m) (hu : tx.committed = false)
    (ht : tx.Turns name alive) : (m.apply tx).2.sInode = (tx.touchSelf self).sInode :=
  ((apply_comesTo tx m).enters hm hu).elim (fun h => absurd ht h.1) fun h => h.2

theorem sInode_refused (hm : Enters self name alive m) (hu : tx.committed = false)
    (ht : ¬ tx.Turns name alive) : (m.apply tx).2.sInode = tx.sInode :=
  ((apply_comesTo tx m).enters hm hu).elim (fun h => h.2) fun h => absurd h.1 ht

end Transaction

namespace Sections

open Led DirectoryOps Mirror

/-- Either the pending transaction has the directory's inode as it is in memory, or the inode is
    still `before`, and the transaction has what it had. -/
structure InStep (before : Inode) (told : Option Inode) (s : Led) : Prop where
  uncommitted : s.jtable.Uncommitted
  self : s.tx.sInode = some s.table.thisDirInode.copy ∨
    s.table.thisDirInode = before ∧ s.tx.sInode = told

/-- The times are set, and the call that comes next enters the name. -/
structure Behind (name : Bytes) (alive : Bool) (s : Led) : Prop where
  uncommitted : s.jtable.Uncommitted
  touched : SelfTouched s
  turns : s.tx.Turns name alive

section

variable {before : Inode} {told : Option Inode} {s led : Led} {α : Type} {name : Bytes}
  {alive : Bool} {i : MemInode}

theorem tx_congr (hj : led.jtable = s.jtable)
    (ht : led.table.thisDirInode = s.table.thisDirInode) : led.tx = s.tx := by
  unfold Led.tx
  rw [hj, ht]

theorem InStep.congr (h : InStep before told s) (hj : led.jtable = s.jtable)
    (ht : led.table.thisDirInode = s.table.thisDirInode) : InStep before told led := by
  refine ⟨hj ▸ h.uncommitted, ?_⟩
  rw [tx_congr hj ht, ht]
  exact h.self

theorem InStep.copied (h : InStep before told s) (htold : ∀ i, told = some i → i = before.copy) :
    SelfCopied s := by
  intro i hi
  rcases h.self with hnew | ⟨hself, hold⟩
  · rw [hnew] at hi
    exact (Option.some.inj hi).symm
  · rw [hself]
    exact htold i (hold.symm.trans hi)

/-- The times of the directory are set. -/
theorem InStep.behind (h : InStep before told s) (htold : ∀ i, told = some i → i = before.copy)
    (ht : s.tx.Turns name alive) (ts : Timespec) : Behind name alive (s.withTimes ts) :=
  ⟨h.uncommitted, (h.copied htold).touched_withTimes ts, ht⟩

theorem Behind.congr (h : Behind name alive s) (hj : led.jtable = s.jtable)
    (ht : led.table.thisDirInode = s.table.thisDirInode) : Behind name alive led := by
  refine ⟨hj ▸ h.uncommitted, ?_, ?_⟩
  · unfold SelfTouched
    rw [tx_congr hj ht, ht]
    exact h.touched
  · rw [tx_congr hj ht]
    exact h.turns

/-! ## Calls -/

theorem tx_journal (m : Inode → Transaction.Mutation) :
    (journal m s).2.tx = ((m s.table.thisDirInode).apply s.tx).2 :=
  JournalTable.getEntry_record _ _ _

theorem behind_journal {m : Inode → Transaction.Mutation}
    (hm : ∀ i, Transaction.Enters i name alive (m i)) :
    Op.Ensures (Behind name alive) (journal m) fun _ => InStep before told := by
  intro s h
  refine ⟨h.uncommitted.record _ _, .inl ?_⟩
  have hopen : s.tx.committed = false := h.uncommitted _
  rw [tx_journal, Transaction.sInode_enters (hm s.table.thisDirInode) hopen h.turns]
  exact h.touched

theorem inStep_journal (htold : ∀ i, told = some i → i = before.copy)
    {m : Inode → Transaction.Mutation} (hm : ∀ i, Transaction.Enters i name alive (m i)) :
    Op.Keeps (InStep before told) (journal m) := by
  intro s h
  by_cases ht : s.tx.Turns name alive
  · exact behind_journal hm s ⟨h.uncommitted, (h.copied htold).touched, ht⟩
  · refine ⟨h.uncommitted.record _ _, ?_⟩
    have hopen : s.tx.committed = false := h.uncommitted _
    rw [tx_journal, Transaction.sInode_refused (hm s.table.thisDirInode) hopen ht]
    exact h.self

/-- What is told of a file does not touch the directory. -/
theorem InStep.chreg (h : InStep before told s) (dir : Uuid) (f : Inode) {led : Led}
    (hj : led.jtable = (s.jtable.record dir (.chreg f)).2)
    (ht : led.table.thisDirInode = s.table.thisDirInode) : InStep before told led := by
  have htx : led.tx.sInode = s.tx.sInode := by
    unfold Led.tx
    rw [hj, ht]
    by_cases hd : s.table.thisDirInode.ino = dir
    · rw [hd, JournalTable.getEntry_record]
      show (Transaction.chreg _ f).2.sInode = _
      rw [Transaction.chreg_eq (h.uncommitted dir)]
      rfl
    · rw [JournalTable.getEntry_record_ne _ _ _ hd]
  refine ⟨?_, ?_⟩
  · rw [hj]
    exact h.uncommitted.record dir (.chreg f)
  · rw [htx, ht]
    exact h.self

theorem inStep_delete : Op.Keeps (InStep before told) (deleteChildInode name) :=
  fun _ h => h.congr rfl thisDirInode_deleted

theorem inStep_create : Op.Keeps (InStep before told) (createChildInode name i) :=
  fun _ h => h.congr rfl thisDirInode_created

/-- The rest of a section, once the inode is in step. -/
theorem then_inStep {β : Type} {m : Section α} {f : α → Section β} {Q : Led → Prop}
    (hm : Op.Ensures Q m fun _ => InStep before told)
    (hf : ∀ a, Op.Keeps (InStep before told) (f a)) :
    Op.Ensures Q (m >>= f) fun _ => InStep before told :=
  hm.bind hf fun _ _ h => h

/-! ## Whole sections -/

theorem inStep_removeDst (htold : ∀ i, told = some i → i = before.copy) (ino : Uuid) :
    Op.Keeps (InStep before told) (removeDst ino name) := by
  intro s h
  unfold removeDst
  split
  · cases hc : s.table.child name with
    | none =>
        rw [Op.bind_error (getChildInode_absent hc)]
        exact h
    | some c =>
        rw [Op.bind_ok (getChildInode_present hc)]
        exact inStep_delete.bind (fun _ => inStep_journal htold fun i => .rmreg rfl) s h
  · exact h

theorem inStep_removeSrc (htold : ∀ i, told = some i → i = before.copy) (target : MemInode) :
    Op.Keeps (InStep before told) (removeSrc name target) :=
  inStep_delete.bind fun _ => inStep_journal htold fun _ => .rmreg rfl

theorem inStep_insertTarget (htold : ∀ i, told = some i → i = before.copy) (target : MemInode) :
    Op.Keeps (InStep before told) (insertTarget name target) :=
  inStep_create.bind fun _ => inStep_journal htold fun _ => .mkreg rfl

theorem inStep_createChild (htold : ∀ i, told = some i → i = before.copy) {env : Env}
    {mode : UInt32} : Op.Ensures (fun s => InStep before told s ∧ s.tx.Turns name true)
      (createChild env name mode) fun _ => InStep before told := by
  intro s h
  unfold createChild
  rw [Op.bind_ok parentIno_apply, Op.bind_ok createChildInode_apply,
    Op.bind_ok setParentTimes_apply, created_withTimes]
  refine then_inStep (behind_journal fun i => .mkreg rfl) (fun _ => Op.Keeps.pure _) _ ?_
  exact (h.1.behind htold h.2 env.now).congr rfl thisDirInode_created

theorem inStep_symlinkChild (htold : ∀ i, told = some i → i = before.copy) {env : Env}
    {src : Bytes} : Op.Keeps (InStep before told) (symlinkChild env src name) := by
  unfold symlinkChild
  refine Op.Ensures.read_bind fun there => ?_
  split
  · exact Op.Keeps.pure _
  · refine Op.Ensures.read_bind fun parent => inStep_create.bind fun _ => ?_
    exact (inStep_journal htold fun i => .mkreg rfl).bind fun _ => Op.Keeps.pure _

/-- The times are set where the last link goes. -/
theorem inStep_unlinkChild (htold : ∀ i, told = some i → i = before.copy) {ts : Timespec}
    (h : InStep before told s) (ht : ∀ c, s.table.child name = some c →
      c.inode.core.iNlink - 1 = 0 → s.tx.Turns name false) :
    InStep before told (unlinkChild ts name s).2 := by
  cases hc : s.table.child name with
  | none =>
      rw [unlinkChild_absent hc]
      exact h
  | some c =>
      by_cases hlast : c.inode.core.iNlink - 1 = 0
      · unfold unlinkChild
        rw [Op.bind_ok (getChildInode_present hc), if_pos hlast, Op.bind_ok removeData_apply,
          Op.bind_ok deleteChildInode_apply, Op.bind_ok setParentTimes_apply, deleted_withTimes]
        refine then_inStep (behind_journal fun i => .rmreg rfl) (fun _ => Op.Keeps.pure _) _ ?_
        exact (h.behind htold (ht c hc hlast) ts).congr rfl thisDirInode_deleted
      · rw [unlinkChild_linked hc hlast]
        exact h.chreg c.pIno _ rfl thisDirInode_withChild

theorem inStep_recordMkdir (htold : ∀ i, told = some i → i = before.copy) {env : Env}
    {mode : UInt32} : Op.Ensures (fun s => InStep before told s ∧ s.tx.Turns name true)
      (recordMkdir env name mode) fun _ => InStep before told := by
  intro s h
  unfold recordMkdir
  rw [Op.bind_ok parentIno_apply, Op.bind_ok createChildInode_apply,
    Op.bind_ok setParentTimes_apply, created_withTimes]
  refine then_inStep (behind_journal fun i => .mkdir rfl) (fun _ s h => ?_) _ ?_
  · exact h.congr rfl thisDirInode_withChild
  · exact (h.1.behind htold h.2 env.now).congr rfl thisDirInode_created

theorem inStep_mkdirHandler (htold : ∀ i, told = some i → i = before.copy) {env : Env}
    {mode : UInt32} : Op.Ensures (fun s => InStep before told s ∧ s.tx.Turns name true)
      (RpcServer.mkdirHandler env name mode) fun _ => InStep before told := by
  intro s h
  unfold RpcServer.mkdirHandler
  rw [Op.bind_ok parentIno_apply, Op.bind_ok createChildInode_apply,
    Op.bind_ok setChildInode_apply, Op.bind_ok setParentTimes_apply, withChild_withTimes,
    created_withTimes]
  refine then_inStep (behind_journal fun i => .mkdir rfl) (fun _ => Op.Keeps.pure _) _ ?_
  refine Behind.congr (s := s.withTimes env.now) (h.1.behind htold h.2 env.now) rfl ?_
  exact thisDirInode_withChild.trans thisDirInode_created

theorem inStep_rmdirDown (htold : ∀ i, told = some i → i = before.copy) {ts : Timespec}
    {ino : Uuid} : Op.Ensures (fun s => InStep before told s ∧ s.tx.Turns name false)
      (rmdirDown ts ino name) fun _ => InStep before told := by
  intro s h
  unfold rmdirDown
  rw [Op.bind_ok deleteChildInode_apply, Op.bind_ok setParentTimes_apply, deleted_withTimes]
  refine then_inStep (behind_journal fun i => .rmdir rfl) (fun _ => Op.Keeps.pure _) _ ?_
  exact (h.1.behind htold h.2 ts).congr rfl thisDirInode_deleted

/-- What a local rename tells the journal first. -/
def FirstRemoved (s : Led) (oldName newName : Bytes) : Prop :=
  if s.table.checkChildInode newName = Uuid.nil then s.tx.Turns oldName false
  else (s.table.child newName).isSome ∧ s.tx.Turns newName false

theorem inStep_localRename (htold : ∀ i, told = some i → i = before.copy) {ts : Timespec}
    {oldName newName : Bytes} (h : InStep before told s)
    (ht : (s.table.child oldName).isSome → FirstRemoved s oldName newName) :
    InStep before told (LocalOps.localRenameSameParent ts oldName newName 0 s).2 := by
  unfold LocalOps.localRenameSameParent
  cases hold : s.table.child oldName with
  | none =>
      rw [Op.bind_error (getChildInode_absent hold)]
      exact h
  | some c =>
      have hfirst := ht (by rw [hold]; rfl)
      unfold FirstRemoved at hfirst
      rw [Op.bind_ok (getChildInode_present hold), Op.bind_ok checkChildInode_apply,
        Op.bind_ok setParentTimes_apply, if_pos rfl]
      have hrest : Op.Keeps (InStep before told) (insertTarget newName c >>= fun _ =>
          (pure ⟨0, none⟩ : Section Reply)) :=
        (inStep_insertTarget htold c).bind fun _ => Op.Keeps.pure _
      unfold moveEntry
      by_cases hfree : s.table.checkChildInode newName = Uuid.nil
      · rw [if_pos hfree] at hfirst
        rw [Op.bind_ok (removeDst_absent hfree)]
        refine then_inStep ?_ (fun _ => hrest) _ (h.behind htold hfirst ts)
        intro s hs
        unfold removeSrc
        rw [Op.bind_ok deleteChildInode_apply]
        exact behind_journal (fun i => .rmreg rfl) _ (hs.congr rfl thisDirInode_deleted)
      · rw [if_neg hfree] at hfirst
        obtain ⟨dst, hdst⟩ := Option.isSome_iff_exists.mp hfirst.1
        have hsrc : Op.Keeps (InStep before told) (removeSrc oldName c >>= fun _ =>
            insertTarget newName c >>= fun _ => (pure ⟨0, none⟩ : Section Reply)) :=
          (inStep_removeSrc htold c).bind fun _ => hrest
        have hbehind := h.behind htold hfirst.2 ts
        unfold removeDst
        rw [if_pos hfree]
        refine then_inStep (Q := fun t => t = s.withTimes ts) ?_ (fun _ => hsrc) _ rfl
        rintro _ rfl
        rw [Op.bind_ok (getChildInode_present (s := s.withTimes ts) hdst),
          Op.bind_ok deleteChildInode_apply]
        exact behind_journal (fun i => .rmreg rfl) _ (hbehind.congr rfl thisDirInode_deleted)

theorem inStep_renameHandler (htold : ∀ i, told = some i → i = before.copy)
    {oldName newName : Bytes} : Op.Keeps (InStep before told)
      (RpcServer.renameSameParentHandler oldName newName 0) := by
  intro s h
  unfold RpcServer.renameSameParentHandler
  cases hold : s.table.child oldName with
  | none =>
      rw [Op.bind_error (getChildInode_absent hold)]
      exact h
  | some c =>
      rw [Op.bind_ok (getChildInode_present hold), Op.bind_ok checkChildInode_apply, if_pos rfl]
      refine (inStep_removeDst htold _).bind (fun _ => ?_) s h
      refine (inStep_removeSrc htold c).bind fun _ => ?_
      exact (inStep_insertTarget htold c).bind fun _ => Op.Keeps.pure _

/-- The first half of a rename to another directory. -/
theorem inStep_takeSrc (htold : ∀ i, told = some i → i = before.copy) {oldName : Bytes}
    {f : MemInode → Section α} (hf : ∀ c, Op.Keeps (InStep before told) (f c)) :
    Op.Keeps (InStep before told)
      (getChildInode oldName >>= fun c => removeSrc oldName c >>= fun _ => f c) := by
  intro s h
  show InStep before told _
  cases hold : s.table.child oldName with
  | none =>
      rw [Op.bind_error (getChildInode_absent hold)]
      exact h
  | some c =>
      rw [Op.bind_ok (getChildInode_present hold)]
      exact (inStep_removeSrc htold c).bind (fun _ => hf c) s h

/-- The second half. -/
theorem inStep_bringDst (htold : ∀ i, told = some i → i = before.copy) {ino : Uuid}
    {newName : Bytes} {target : MemInode} {r : α} : Op.Keeps (InStep before told)
      (removeDst ino newName >>= fun _ => insertTarget newName target >>= fun _ =>
        (pure r : Section α)) := by
  refine (inStep_removeDst htold ino).bind fun _ => ?_
  exact (inStep_insertTarget htold target).bind fun _ => Op.Keeps.pure _

theorem inStep_localRenameDst (htold : ∀ i, told = some i → i = before.copy) {ino : Uuid}
    {newName : Bytes} {target : Inode} : Op.Keeps (InStep before told)
      (LocalOps.localRenameNotSameParentDst target ino newName 0) := by
  unfold LocalOps.localRenameNotSameParentDst
  refine Op.Ensures.read_bind fun parent => ?_
  rw [if_pos rfl]
  exact inStep_bringDst htold

theorem inStep_renameDstHandler (htold : ∀ i, told = some i → i = before.copy) {ino : Uuid}
    {newName : Bytes} {target : Inode} : Op.Keeps (InStep before told)
      (RpcServer.renameNotSameParentDstHandler target ino newName 0) := by
  unfold RpcServer.renameNotSameParentDstHandler
  refine Op.Ensures.read_bind fun parent => ?_
  rw [if_pos rfl]
  exact inStep_bringDst htold

/-! ## Operations -/

/-- Where the operation sets the times of the directory, the call that comes next enters its
    name. -/
def TimesTold (s : Led) : Refinement.Operation → Prop
  | .request (.localCreate _ name _) | .request (.rpcCreate _ name _)
  | .request (.rpcMkdir _ name _) => s.tx.Turns name true
  | .request (.localUnlink _ name) | .request (.rpcUnlink _ name) =>
    ∀ c, s.table.child name = some c → c.inode.core.iNlink - 1 = 0 → s.tx.Turns name false
  | .localRename _ oldName newName =>
    (s.table.child oldName).isSome → FirstRemoved s oldName newName
  | .localRmdirDown _ _ name | .rpcRmdirDown _ _ name => s.tx.Turns name false
  | _ => True

theorem inStep_onChild (h : InStep before told s) {change : Refinement.InodeChange}
    (hf : ∀ c, s.table.child name = some c → IsFile c.inode ∧ change.Valid c.inode) :
    InStep before told (Refinement.onChild name change s) := by
  unfold Refinement.onChild
  split
  · exact h
  · rename_i c hc
    obtain ⟨hfile, hv⟩ := hf c hc
    have hch := Refinement.InodeChange.changes
      (o := ⟨c.inode, c.pIno, s.dataPool, s.jtable⟩) hv (.inr hfile)
    revert hch
    generalize change.perform ⟨c.inode, c.pIno, s.dataPool, s.jtable⟩ = o
    intro hch
    have hself : (s.table.setChildInode name o.i).thisDirInode = s.table.thisDirInode :=
      thisDirInode_withChild (s := s)
    rcases hch.jtable with ⟨-, hj⟩ | hj
    · exact h.congr hj hself
    · rw [(Refinement.isDir_of_changes hch).trans hfile, if_neg (by decide)] at hj
      exact h.chreg c.pIno o.i hj hself

/-- A change of the inode is told as a whole. -/
theorem inStep_onSelf (h : InStep before told s)
    (hdir : Inode.isDir s.table.thisDirInode.core.iMode = true) {pIno : Uuid}
    {change : Refinement.InodeChange} (hv : change.Valid s.table.thisDirInode)
    (hd : change.OfDir) : InStep before told (Refinement.onSelf pIno change s) := by
  have hch := Refinement.InodeChange.changes
    (o := ⟨s.table.thisDirInode, pIno, s.dataPool, s.jtable⟩) hv (.inl hd)
  unfold Refinement.onSelf
  revert hch
  generalize change.perform ⟨s.table.thisDirInode, pIno, s.dataPool, s.jtable⟩ = o
  intro hch
  rcases hch.jtable with ⟨hi, hj⟩ | hj
  · exact h.congr hj hi
  · rw [(Refinement.isDir_of_changes hch).trans hdir, if_pos rfl] at hj
    refine ⟨?_, .inl ?_⟩
    · dsimp only
      rw [hj]
      exact h.uncommitted.record o.i.ino (.chself o.i)
    · show (JournalTable.getEntry o.jtable o.i.ino).sInode = _
      rw [hj, JournalTable.getEntry_record]
      show (Transaction.chself _ o.i).2.sInode = _
      rw [Transaction.chself_eq (h.uncommitted _)]

/-- An operation leaves the inode in step, unless the journal refuses to enter the first name. -/
theorem operation_inStep (htold : ∀ i, told = some i → i = before.copy) (h : InStep before told s)
    (hdir : Inode.isDir s.table.thisDirInode.core.iMode = true) {P : Uuid → Prop}
    {o : Refinement.Operation} (ho : Fair P s o) (ht : TimesTold s o) :
    InStep before told (o.perform s).2 := by
  cases o with
  | request r =>
      cases r with
      | localMkdir env name mode => exact ho.elim
      | localCreate env name mode => exact inStep_createChild htold s ⟨h, ht⟩
      | rpcCreate env name mode => exact inStep_createChild htold s ⟨h, ht⟩
      | rpcMkdir env name mode => exact inStep_mkdirHandler htold s ⟨h, ht⟩
      | localSymlink env src name => exact inStep_symlinkChild htold s h
      | rpcSymlink env src name => exact inStep_symlinkChild htold s h
      | localUnlink ts name => exact inStep_unlinkChild htold h ht
      | rpcUnlink ts name => exact inStep_unlinkChild htold h ht
  | localRename ts oldName newName => exact inStep_localRename htold h ht
  | rpcRename oldName newName => exact inStep_renameHandler htold s h
  | localRenameSrc oldName =>
      refine Op.Keeps.bind ?_ (fun _ => Op.Keeps.pure _) s h
      exact inStep_takeSrc htold fun c => Op.Keeps.pure c
  | rpcRenameSrc oldName =>
      refine Op.Keeps.bind ?_ (fun _ => Op.Keeps.pure _) s h
      exact inStep_takeSrc htold fun c => Op.Keeps.pure (0, some c.inode)
  | localRenameDst target ino newName => exact inStep_localRenameDst htold s h
  | rpcRenameDst target ino newName => exact inStep_renameDstHandler htold s h
  | localRmdirDown ts ino name => exact inStep_rmdirDown htold s ⟨h, ht⟩
  | rpcRmdirDown ts ino name => exact inStep_rmdirDown htold s ⟨h, ht⟩
  | child name change => exact inStep_onChild h ho
  | self pIno change => exact inStep_onSelf h hdir ho.1 ho.2

end

end Sections

end Nmfs
