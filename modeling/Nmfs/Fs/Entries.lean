import Nmfs.Fs.Sections
import Nmfs.Fs.Moves
import Nmfs.Lib.Namespace

/-
  What the calls do to the entries, in any cluster whose tables are sound, for any paths, and also
  where they raise in the middle.
-/

namespace Nmfs

open Lib

/-- `Within`, with the names. -/
structure Led.Lists (P : Uuid → Prop) (dir : Uuid) (names : Bytes → Option Uuid) (s : Led) :
    Prop where
  within : s.Within P dir
  listed : s.table.listed = names

namespace Sections

open Led DirectoryOps

variable {P : Uuid → Prop} {dir : Uuid} {names : Bytes → Option Uuid} {s : Led} {α β : Type}
  {name : Bytes}

theorem Lists.child_none (h : s.Lists P dir names) (hn : names name = none) :
    s.table.child name = none := by
  rw [← h.listed, h.within.sound] at hn
  exact Option.map_eq_none_iff.mp hn

theorem Lists.child_some (h : s.Lists P dir names) {ino : Uuid} (hn : names name = some ino) :
    ∃ c, s.table.child name = some c ∧ c.inode.ino = ino := by
  rw [← h.listed, h.within.sound] at hn
  exact Option.map_eq_some_iff.mp hn

theorem Lists.free_of_child (h : s.Lists P dir names) (hc : s.table.child name = none) :
    names name = none := by
  rw [← h.listed, h.within.sound, hc]
  rfl

/-- A step that leaves the names alone. -/
theorem lists_of_keeps {m : Section α} (hm : Op.Keeps (Within P dir) m)
    (hl : ∀ s, (m s).2.table.listed = s.table.listed) : Op.Keeps (Led.Lists P dir names) m :=
  fun s h => ⟨hm s h.within, (hl s).trans h.listed⟩

theorem lists_setTimes (ts : Timespec) : Op.Keeps (Led.Lists P dir names) (setParentTimes ts) :=
  lists_of_keeps (keeps_setTimes ts) fun _ => rfl

theorem lists_setChild (name : Bytes) (i : Inode) :
    Op.Keeps (Led.Lists P dir names) (setChildInode name i) :=
  lists_of_keeps (keeps_setChild name i) fun _ => DentryTable.listed_setChild

theorem lists_journalAt (d : Uuid) (m : Transaction.Mutation) :
    Op.Keeps (Led.Lists P dir names) (journalAt d m) :=
  lists_of_keeps (keeps_journalAt d m) fun _ => rfl

theorem lists_journal (m : Inode → Transaction.Mutation) :
    Op.Keeps (Led.Lists P dir names) (journal m) :=
  lists_of_keeps (keeps_journal m) fun _ => rfl

theorem lists_delete (name : Bytes) : Op.Ensures (Led.Lists P dir names) (deleteChildInode name)
    fun r s => (∃ n, r = .ok n) ∧ s.Lists P dir (Function.update names name none) := by
  intro s h
  refine ⟨⟨_, rfl⟩, deleted_within h.within name, ?_⟩
  show (s.table.deleteChildInode name).2.listed = _
  cases hc : s.table.child name with
  | none =>
      rw [DentryTable.delete_absent hc, ← h.listed]
      refine (Function.update_eq_self_iff.mpr ?_).symm
      rw [h.within.sound, hc]
      rfl
  | some c => rw [DentryTable.listed_delete hc, h.listed]

theorem lists_create {i : MemInode} (hi : P i.inode.ino) (hn : names name = none) :
    Op.Ensures (Led.Lists P dir names) (createChildInode name i)
      fun r s => (∃ n, r = .ok n) ∧
        s.Lists P dir (Function.update names name (some i.inode.ino)) := by
  intro s h
  refine ⟨⟨_, rfl⟩, created_within h.within name hi, ?_⟩
  show (s.table.createChildInode name i).2.listed = _
  rw [DentryTable.listed_create (Lists.child_none h hn), h.listed]

/-- The name is gone afterwards, also where the journal refuses it. -/
theorem lists_removeSrc (name : Bytes) (target : MemInode) :
    Op.Ensures (Led.Lists P dir names) (removeSrc name target)
      fun _ s => s.Lists P dir (Function.update names name none) := by
  unfold removeSrc
  refine (lists_delete name).bind (fun _ => ?_) fun _ _ h => h.2
  exact fun s h => lists_journal _ s h.2

/-- Where the lookup has found no name, there is none. -/
theorem lists_removeDst {ino : Uuid} (hn : ino = Uuid.nil → names name = none) :
    Op.Ensures (Led.Lists P dir names) (removeDst ino name)
      fun _ s => s.Lists P dir (Function.update names name none) := by
  intro s h
  unfold removeDst
  split
  · cases hc : s.table.child name with
    | none =>
        rw [Op.bind_error (getChildInode_absent hc)]
        rw [Function.update_eq_self_iff.mpr (Lists.free_of_child h hc).symm]
        exact h
    | some c =>
        rw [Op.bind_ok (getChildInode_present hc)]
        exact lists_removeSrc name c s h
  · rename_i hnil
    rw [Function.update_eq_self_iff.mpr (hn (not_not.mp hnil)).symm]
    exact h

theorem lists_insertTarget {target : MemInode} (hi : P target.inode.ino) (hn : names name = none) :
    Op.Ensures (Led.Lists P dir names) (insertTarget name target)
      fun _ s => s.Lists P dir (Function.update names name (some target.inode.ino)) := by
  unfold insertTarget
  refine (lists_create hi hn).bind (fun _ => ?_) fun _ _ h => h.2
  exact fun s h => lists_journal _ s h.2

/-- A section afterwards: its result and the names. -/
def Leaves (P : Uuid → Prop) (dir : Uuid) (Q : Except Err α → (Bytes → Option Uuid) → Prop)
    (r : Except Err α) (s : Led) : Prop :=
  ∃ names, s.Lists P dir names ∧ Q r names

/-! ## Sections of a rename -/

/-- The name is out of the source, or the section has raised before. -/
def Takes (names : Bytes → Option Uuid) (oldName : Bytes) (flags : UInt32) (ino? : α → Option Uuid)
    (r : Except Err α) (names' : Bytes → Option Uuid) : Prop :=
  names' = names ∧ (∀ a, r = .ok a → ino? a = none) ∧ (flags = 0 → names oldName = none) ∨
    flags = 0 ∧ ∃ ino, names oldName = some ino ∧ names' = Function.update names oldName none ∧
      ∀ a, r = .ok a → ino? a = some ino

/-- `refuse` is what the section does with other flags. -/
theorem lists_take {oldName : Bytes} {flags : UInt32} {give : MemInode → α} {refuse : Section α}
    {ino? : α → Option Uuid} (hgive : ∀ c, ino? (give c) = some c.inode.ino)
    (hrefuse : ∀ s, (refuse s).2 = s ∧ ∀ a, (refuse s).1 = .ok a → ino? a = none) :
    Op.Ensures (Led.Lists P dir names)
      (do
        let target ← getChildInode oldName
        if flags = 0 then
          removeSrc oldName target
          return give target
        else refuse)
      (Leaves P dir (Takes names oldName flags ino?)) := by
  intro s h
  cases hc : s.table.child oldName with
  | none =>
      rw [Op.bind_error (getChildInode_absent hc)]
      exact ⟨names, h, .inl ⟨rfl, nofun, fun _ => Lists.free_of_child h hc⟩⟩
  | some c =>
      rw [Op.bind_ok (getChildInode_present hc)]
      split
      · rename_i hz
        have hl : names oldName = some c.inode.ino := by
          rw [← h.listed, h.within.sound, hc]
          rfl
        refine Op.Ensures.bind (lists_removeSrc oldName c) (fun _ s' h' => ?_) (fun e s' h' => ?_) s h
        · refine ⟨_, h', .inr ⟨hz, _, hl, rfl, fun a ha => ?_⟩⟩
          cases ha
          exact hgive c
        · exact ⟨_, h', .inr ⟨hz, _, hl, rfl, nofun⟩⟩
      · rename_i hz
        obtain ⟨hs, hno⟩ := hrefuse s
        rw [hs]
        exact ⟨names, h, .inl ⟨rfl, hno, fun hz' => absurd hz' hz⟩⟩

theorem lists_localRenameSrc (oldName : Bytes) (flags : UInt32) :
    Op.Ensures (Led.Lists P dir names) (LocalOps.localRenameNotSameParentSrc oldName flags)
      (Leaves P dir (Takes names oldName flags fun t => some t.inode.ino)) :=
  lists_take (fun _ => rfl) fun _ => ⟨rfl, nofun⟩

theorem lists_renameSrcHandler (oldName : Bytes) (flags : UInt32) :
    Op.Ensures (Led.Lists P dir names) (RpcServer.renameNotSameParentSrcHandler oldName flags)
      (Leaves P dir (Takes names oldName flags fun t => t.2.map Inode.ino)) := by
  refine lists_take (fun _ => rfl) fun _ => ⟨rfl, fun a ha => ?_⟩
  cases ha
  rfl

/-- The destination has the file under the name, or the section has raised. -/
def Receives (names : Bytes → Option Uuid) (newName : Bytes) (ino : Uuid) (r : Except Err Reply)
    (names' : Bytes → Option Uuid) : Prop :=
  names' = Function.update names newName (some ino) ∨
    (names' = names ∨ names' = Function.update names newName none) ∧ ∃ e, r = .error e

theorem lists_dstSection {target : MemInode} (hi : P target.inode.ino) {ino : Uuid}
    (hn : ino = Uuid.nil → names name = none) :
    Op.Ensures (Led.Lists P dir names) (FuseOps.dstSection target ino name)
      (Leaves P dir (Receives names name target.inode.ino)) := by
  unfold FuseOps.dstSection
  refine (lists_removeDst hn).bind (fun _ => ?_) fun e s h => ⟨_, h, .inr ⟨.inr rfl, e, rfl⟩⟩
  have hinsert := @lists_insertTarget P dir (Function.update names name none) name target hi
    (Function.update_self ..)
  rw [Function.update_idem] at hinsert
  exact hinsert.bind (fun _ s h => ⟨_, h, .inl rfl⟩) fun e s h => ⟨_, h, .inl rfl⟩

theorem lists_localRenameDst {target : Inode} (hi : P target.ino) {ino : Uuid}
    (hn : ino = Uuid.nil → names name = none) :
    Op.Ensures (Led.Lists P dir names) (LocalOps.localRenameNotSameParentDst target ino name 0)
      (Leaves P dir (Receives names name target.ino)) := by
  intro s h
  rw [FuseOps.localRenameNotSameParentDst_eq h.within.self]
  have hi' : P (⟨target, dir⟩ : MemInode).inode.ino := hi
  exact lists_dstSection hi' hn s h

theorem lists_renameDstHandler {target : Inode} (hi : P target.ino) {ino : Uuid}
    (hn : ino = Uuid.nil → names name = none) :
    Op.Ensures (Led.Lists P dir names) (RpcServer.renameNotSameParentDstHandler target ino name 0)
      (Leaves P dir (Receives names name target.ino)) := by
  intro s h
  rw [FuseOps.renameNotSameParentDstHandler_eq h.within.self]
  have hi' : P (⟨target, dir⟩ : MemInode).inode.ino := hi
  exact lists_dstSection hi' hn s h

/-- The entry is moved within the directory, or the section has raised on the way. -/
def Moves (names : Bytes → Option Uuid) (oldName newName : Bytes) (ino : Uuid)
    (r : Except Err Reply) (names' : Bytes → Option Uuid) : Prop :=
  names' = Function.update (Function.update names oldName none) newName (some ino) ∨
    (names' = Function.update names newName none ∨
      names' = Function.update (Function.update names oldName none) newName none) ∧
      ∃ e, r = .error e

theorem lists_moveEntry {target : MemInode} (hi : P target.inode.ino) {ino : Uuid}
    {oldName newName : Bytes} (hn : ino = Uuid.nil → names newName = none) :
    Op.Ensures (Led.Lists P dir names) (moveEntry ino oldName newName target)
      (Leaves P dir (Moves names oldName newName target.inode.ino)) := by
  have hboth : Function.update (Function.update names newName none) oldName none =
      Function.update (Function.update names oldName none) newName none := by
    by_cases heq : newName = oldName
    · rw [heq]
    · exact Function.update_comm heq _ _ _
  have hremove := @lists_removeSrc P dir (Function.update names newName none) oldName target
  rw [hboth] at hremove
  have hinsert := @lists_insertTarget P dir
    (Function.update (Function.update names oldName none) newName none) newName target hi
    (Function.update_self ..)
  rw [Function.update_idem] at hinsert
  unfold moveEntry
  refine (lists_removeDst hn).bind (fun _ => ?_) fun e s h => ⟨_, h, .inr ⟨.inl rfl, e, rfl⟩⟩
  refine hremove.bind (fun _ => ?_) fun e s h => ⟨_, h, .inr ⟨.inr rfl, e, rfl⟩⟩
  exact hinsert.bind (fun _ s h => ⟨_, h, .inl rfl⟩) fun e s h => ⟨_, h, .inl rfl⟩

/-- Nothing, and 0 is not returned, or a move. -/
def Renames (names : Bytes → Option Uuid) (oldName newName : Bytes) (flags : UInt32)
    (r : Except Err Reply) (names' : Bytes → Option Uuid) : Prop :=
  names' = names ∧ (∀ reply, r = .ok reply → reply.ret ≠ 0) ∧ (flags = 0 → names oldName = none) ∨
    flags = 0 ∧ ∃ ino, names oldName = some ino ∧ Moves names oldName newName ino r names'

/-- Where the lookup gives nil, the name is free. -/
theorem Lists.free_of_check (hP : ∀ u, P u → u ≠ Uuid.nil) (h : s.Lists P dir names)
    (hc : s.table.checkChildInode name = Uuid.nil) : names name = none := by
  cases hn : names name with
  | none => rfl
  | some u =>
      exfalso
      obtain ⟨c, hchild, rfl⟩ := Lists.child_some h hn
      refine hP _ (h.within.within name c hchild) ?_
      unfold DentryTable.checkChildInode at hc
      split at hc
      · exact absurd hc (by decide)
      · unfold Dentry.getChildIno at hc
        rw [← h.listed] at hn
        rw [show s.table.dentries.childList.lookup name = some c.inode.ino from hn] at hc
        exact hc

/-- `times` is what the LOCAL section does before it looks at the flags. -/
theorem lists_rename (hP : ∀ u, P u → u ≠ Uuid.nil) {oldName newName : Bytes} {flags : UInt32}
    {times : Section Unit} (htimes : ∀ s, (times s).1 = .ok ())
    (hkeeps : Op.Keeps (Led.Lists P dir names) times) :
    Op.Ensures (Led.Lists P dir names)
      (do
        let target ← getChildInode oldName
        let checkDstIno ← Led.checkChildInode newName
        times
        if flags = 0 then moveEntry checkDstIno oldName newName target
        else return ⟨-ENOSYS, none⟩)
      (Leaves P dir (Renames names oldName newName flags)) := by
  intro s h
  cases hc : s.table.child oldName with
  | none =>
      rw [Op.bind_error (getChildInode_absent hc)]
      exact ⟨names, h, .inl ⟨rfl, nofun, fun _ => Lists.free_of_child h hc⟩⟩
  | some c =>
      have hl : names oldName = some c.inode.ino := by
        rw [← h.listed, h.within.sound, hc]
        rfl
      have hs := hkeeps s h
      rw [Op.bind_ok (getChildInode_present hc), Op.bind_ok checkChildInode_apply,
        Op.bind_ok (Prod.ext (htimes s) rfl)]
      split
      · rename_i hz
        obtain ⟨names', hl', hm⟩ := lists_moveEntry (h.within.within oldName c hc)
          (fun hnil => Lists.free_of_check hP h hnil) _ hs
        exact ⟨names', hl', .inr ⟨hz, _, hl, hm⟩⟩
      · rename_i hz
        refine ⟨names, hs, .inl ⟨rfl, fun reply hr => ?_, fun hz' => absurd hz' hz⟩⟩
        cases hr
        decide

theorem lists_localRename (hP : ∀ u, P u → u ≠ Uuid.nil) (ts : Timespec) (oldName newName : Bytes)
    (flags : UInt32) :
    Op.Ensures (Led.Lists P dir names) (LocalOps.localRenameSameParent ts oldName newName flags)
      (Leaves P dir (Renames names oldName newName flags)) :=
  lists_rename hP (fun _ => rfl) (lists_setTimes ts)

theorem lists_renameHandler (hP : ∀ u, P u → u ≠ Uuid.nil) (oldName newName : Bytes)
    (flags : UInt32) :
    Op.Ensures (Led.Lists P dir names) (RpcServer.renameSameParentHandler oldName newName flags)
      (Leaves P dir (Renames names oldName newName flags)) :=
  @lists_rename P dir names hP oldName newName flags (pure ()) (fun _ => rfl) (Op.Keeps.pure ())

/-! ## Sections of mkdir and rmdir -/

/-- The name is new, or everything is as it was. -/
def Adds (P : Uuid → Prop) (dir : Uuid) (names : Bytes → Option Uuid) (name : Bytes) (ino : Uuid)
    (s : Led) : Prop :=
  s.Lists P dir names ∨
    names name = none ∧ s.Lists P dir (Function.update names name (some ino))

theorem adds_of_lists {ino : Uuid} {m : Section α}
    (hm : ∀ names, Op.Keeps (Led.Lists P dir names) m) :
    Op.Keeps (Adds P dir names name ino) m := by
  intro s h
  rcases h with h | ⟨hn, h⟩
  · exact .inl (hm _ s h)
  · exact .inr ⟨hn, hm _ s h⟩

theorem adds_create {i : MemInode} (hi : P i.inode.ino) :
    Op.Ensures (Led.Lists P dir names) (createChildInode name i)
      fun _ => Adds P dir names name i.inode.ino := by
  intro s h
  cases hn : names name with
  | none => exact .inr ⟨hn, (lists_create hi hn s h).2⟩
  | some u =>
      obtain ⟨c, hc, -⟩ := Lists.child_some h hn
      refine .inl ⟨created_within h.within name hi, ?_⟩
      show (s.table.createChildInode name i).2.listed = _
      rw [DentryTable.create_present hc]
      exact h.listed

theorem adds_localMkdir {env : Env} (hi : P env.newIno) (mode : UInt32) :
    Op.Ensures (Led.Lists P dir names) (LocalOps.localMkdir env name mode)
      fun _ => Adds P dir names name env.newIno := by
  unfold LocalOps.localMkdir
  refine Op.Ensures.read_bind fun parent => (adds_create hi).bind (fun _ => ?_) fun _ _ h => h
  refine (adds_of_lists fun _ => lists_setTimes _).bind fun _ => ?_
  refine (adds_of_lists fun _ => lists_journal _).bind fun _ => ?_
  refine (adds_of_lists fun _ => lists_setChild _ _).bind fun _ => ?_
  exact (adds_of_lists fun _ => lists_journalAt _ _).bind fun _ => Op.Keeps.pure _

theorem adds_mkdirHandler {env : Env} (hi : P env.newIno) (mode : UInt32) :
    Op.Ensures (Led.Lists P dir names) (RpcServer.mkdirHandler env name mode)
      fun _ => Adds P dir names name env.newIno := by
  unfold RpcServer.mkdirHandler
  refine Op.Ensures.read_bind fun parent => (adds_create hi).bind (fun _ => ?_) fun _ _ h => h
  refine (adds_of_lists fun _ => lists_setChild _ _).bind fun _ => ?_
  refine (adds_of_lists fun _ => lists_setTimes _).bind fun _ => ?_
  exact (adds_of_lists fun _ => lists_journal _).bind fun _ => Op.Keeps.pure _

theorem lists_rmdirTop (ino : Uuid) : Op.Keeps (Led.Lists P dir names) (rmdirTop ino) := by
  unfold rmdirTop
  refine Op.Ensures.read_bind fun childNum => ?_
  split
  · exact Op.Keeps.pure _
  · exact (lists_journalAt _ _).bind fun _ => Op.Keeps.pure _

theorem lists_rmdirDown (ts : Timespec) (ino : Uuid) :
    Op.Ensures (Led.Lists P dir names) (rmdirDown ts ino name)
      fun _ s => s.Lists P dir (Function.update names name none) := by
  unfold rmdirDown
  refine (lists_delete name).bind (fun _ s h => ?_) fun _ _ h => h.2
  have hrest : Op.Keeps (Led.Lists P dir (Function.update names name none))
      (setParentTimes ts >>= fun _ =>
        journal (fun parent => .rmdir parent name ino) >>= fun _ =>
          (pure ⟨0, none⟩ : Section Reply)) :=
    (lists_setTimes ts).bind fun _ => (lists_journal _).bind fun _ => Op.Keeps.pure _
  exact hrest s h.2

end Sections

end Nmfs
