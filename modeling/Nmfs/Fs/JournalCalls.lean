import Nmfs.Fs.Sections

/-
  What a section on a directory tells the journal, whatever it finds and also where it raises. An
  invariant of the journal that the calls keep is kept by the section.
-/

namespace Nmfs

open Lib

namespace JournalTable

/-- Calls of the journal one after the other, each one that `G` allows. -/
inductive Records (G : Uuid → Transaction.Mutation → Prop) (jtable : JournalTable) :
    JournalTable → Prop
  | refl : Records G jtable jtable
  | record {jtable' : JournalTable} (h : Records G jtable jtable') {dir : Uuid}
      {m : Transaction.Mutation} (hm : G dir m) : Records G jtable (jtable'.record dir m).2

/-- What each of the calls keeps, all of them keep. -/
theorem Records.invariant {G : Uuid → Transaction.Mutation → Prop} {I : JournalTable → Prop}
    (hstep : ∀ jtable dir m, I jtable → G dir m → I (jtable.record dir m).2)
    {jtable jtable' : JournalTable} (hr : Records G jtable jtable') (h : I jtable) : I jtable' := by
  induction hr with
  | refl => exact h
  | record hr hm ih => exact hstep _ _ _ ih hm

end JournalTable

/-- The calls of a section on `dir`, whose children have numbers in `P`. What is called for another
    directory, when it is made or removed, is not among them. -/
inductive Calls (P : Uuid → Prop) (dir : Uuid) : Uuid → Transaction.Mutation → Prop
  | chself {self : Inode} (hself : self.ino = dir) : Calls P dir dir (.chself self)
  | mkdir {self : Inode} {name : Bytes} {ino : Uuid} (hself : self.ino = dir)
      (hname : Dentry.NameOk name) : Calls P dir dir (.mkdir self name ino)
  | rmdir {self : Inode} {name : Bytes} {ino : Uuid} (hself : self.ino = dir)
      (hname : Dentry.NameOk name) : Calls P dir dir (.rmdir self name ino)
  | mkreg {self f : Inode} {name : Bytes} (hself : self.ino = dir) (hname : Dentry.NameOk name)
      (hf : P f.ino) : Calls P dir dir (.mkreg self name f)
  | rmreg {self f : Inode} {name : Bytes} (hself : self.ino = dir) (hname : Dentry.NameOk name) :
      Calls P dir dir (.rmreg self name f)
  | chreg {f : Inode} (hf : P f.ino) : Calls P dir dir (.chreg f)

theorem Calls.mono {P Q : Uuid → Prop} {dir d : Uuid} {m : Transaction.Mutation}
    (h : Calls P dir d m) (hPQ : ∀ u, P u → Q u) : d = dir ∧ Calls Q dir dir m := by
  cases h with
  | chself hself => exact ⟨rfl, .chself hself⟩
  | mkdir hself hname => exact ⟨rfl, .mkdir hself hname⟩
  | rmdir hself hname => exact ⟨rfl, .rmdir hself hname⟩
  | mkreg hself hname hf => exact ⟨rfl, .mkreg hself hname (hPQ _ hf)⟩
  | rmreg hself hname => exact ⟨rfl, .rmreg hself hname⟩
  | chreg hf => exact ⟨rfl, .chreg (hPQ _ hf)⟩

/-- A directory in the middle of a section, and what it has told the journal. -/
structure Led.Tells (P : Uuid → Prop) (dir : Uuid) (jtable : JournalTable) (s : Led) :
    Prop where
  within : s.Within P dir
  distinct : Distinct s.table.listed
  parent : ∀ n c, s.table.child n = some c → c.pIno = dir
  selfDir : Inode.isDir s.table.thisDirInode.core.iMode = true
  records : JournalTable.Records (Calls P dir) jtable s.jtable

/-- What the names stand for is in `L`. -/
def Led.Confined (L : Bytes → Uuid → Prop) (s : Led) : Prop :=
  ∀ n u, s.table.listed n = some u → L n u

namespace Sections

open Led DirectoryOps

variable {P : Uuid → Prop} {dir : Uuid} {jtable : JournalTable} {s : Led} {α : Type}
  {name : Bytes} {L : Bytes → Uuid → Prop} {u : Uuid}

theorem Tells.listed_of_child (h : s.Tells P dir jtable) {c : MemInode}
    (hc : s.table.child name = some c) : s.table.listed name = some c.inode.ino := by
  rw [h.within.sound, hc]
  rfl

/-- Neither another number nor a name of its own. -/
theorem Tells.only (h : s.Tells P dir jtable) {c : MemInode}
    (hc : s.table.child name = some c) :
    s.Confined fun n u => u = c.inode.ino → n = name := by
  rintro n u hn rfl
  exact h.distinct n name _ hn (Tells.listed_of_child h hc)

/-! ## Steps of a section -/

theorem created_tells (h : s.Tells P dir jtable) {i : MemInode} (hi : P i.inode.ino)
    (hp : i.pIno = dir) (hnew : Lacks s.table.listed i.inode.ino) :
    (s.created name i).Tells P dir jtable := by
  refine ⟨created_within h.within name hi, ?_, ?_, ?_, h.records⟩
  · show Distinct (s.table.createChildInode name i).2.listed
    cases hn : s.table.child name with
    | none =>
        rw [DentryTable.listed_create hn]
        exact h.distinct.insert hnew
    | some c =>
        rw [DentryTable.create_present hn]
        exact h.distinct
  · show ∀ n c, (s.table.createChildInode name i).2.child n = some c → c.pIno = dir
    intro n c hc
    cases hn : s.table.child name with
    | none =>
        rw [DentryTable.child_create hn] at hc
        rcases update_eq_some hc with ⟨-, hu⟩ | ⟨-, hold⟩
        · cases hu
          exact hp
        · exact h.parent n c hold
    | some c' =>
        rw [DentryTable.create_present hn] at hc
        exact h.parent n c hc
  · rw [thisDirInode_created]
    exact h.selfDir

theorem listed_deleted (h : s.table.Sound) :
    (s.deleted name).table.listed = Function.update s.table.listed name none := by
  funext n
  have hd : (s.deleted name).table.listed n =
      (Function.update s.table.child name none n).map fun c => c.inode.ino :=
    (h.delete name n).trans (congrArg _ (congrFun DentryTable.child_delete n))
  rw [hd]
  by_cases hn : n = name
  · rw [hn, Function.update_self, Function.update_self]
    rfl
  · rw [Function.update_of_ne hn, Function.update_of_ne hn, h n]

theorem deleted_tells (h : s.Tells P dir jtable) : (s.deleted name).Tells P dir jtable := by
  refine ⟨deleted_within h.within name, ?_, ?_, ?_, h.records⟩
  · rw [listed_deleted h.within.sound]
    exact h.distinct.erase
  · intro n c hc
    have hc' : (s.table.deleteChildInode name).2.child n = some c := hc
    rw [DentryTable.child_delete] at hc'
    exact h.parent n c (update_none_eq_some hc').2
  · rw [thisDirInode_deleted]
    exact h.selfDir

theorem deleted_confined (h : s.Tells P dir jtable) (hL : s.Confined L) :
    (s.deleted name).Confined fun n u => n ≠ name ∧ L n u := by
  intro n u hn
  rw [listed_deleted h.within.sound] at hn
  obtain ⟨hne, hold⟩ := update_none_eq_some hn
  exact ⟨hne, hL n u hold⟩

theorem withChild_tells (h : s.Tells P dir jtable) (i : Inode) :
    (s.withChild name i).Tells P dir jtable := by
  refine ⟨withChild_within h.within name i, ?_, ?_, ?_, h.records⟩
  · show Distinct (s.table.setChildInode name i).listed
    rw [DentryTable.listed_setChild]
    exact h.distinct
  · intro n c hc
    obtain ⟨c', hc', rfl⟩ := Option.map_eq_some_iff.mp
      ((DentryTable.child_setChild n).symm.trans hc)
    have hp := h.parent n c' hc'
    split <;> exact hp
  · rw [thisDirInode_withChild]
    exact h.selfDir

theorem tells_setTimes (ts : Timespec) :
    Op.Keeps (Tells P dir jtable) (setParentTimes ts) :=
  fun s h => ⟨keeps_setTimes ts s h.within, h.distinct, h.parent, h.selfDir, h.records⟩

theorem tells_journalAt {d : Uuid} {m : Transaction.Mutation} (hm : Calls P dir d m) :
    Op.Keeps (Tells P dir jtable) (journalAt d m) :=
  fun s h => ⟨keeps_journalAt d m s h.within, h.distinct, h.parent, h.selfDir, h.records.record hm⟩

theorem tells_journal {m : Inode → Transaction.Mutation}
    (hm : ∀ self : Inode, self.ino = dir → Calls P dir dir (m self)) :
    Op.Keeps (Tells P dir jtable) (journal m) := by
  intro s h
  show Tells P dir jtable (journalAt s.table.thisDirInode.ino (m s.table.thisDirInode) s).2
  rw [h.within.self]
  exact tells_journalAt (hm _ h.within.self) s h

theorem tells_create {i : MemInode} (hi : P i.inode.ino) (hp : i.pIno = dir) :
    Op.Ensures (fun s => s.Tells P dir jtable ∧ Lacks s.table.listed i.inode.ino)
      (createChildInode name i) fun _ => Tells P dir jtable :=
  fun _ h => created_tells h.1 hi hp h.2

theorem tells_delete : Op.Keeps (Tells P dir jtable) (deleteChildInode name) :=
  fun _ h => deleted_tells h

theorem tells_setChild (i : Inode) :
    Op.Keeps (Tells P dir jtable) (setChildInode name i) := fun _ h => withChild_tells h i

theorem tells_removeData (ino : Uuid) : Op.Keeps (Tells P dir jtable) (removeData ino) :=
  fun s h => ⟨keeps_removeData ino s h.within, h.distinct, h.parent, h.selfDir, h.records⟩

theorem tells_getChild {f : MemInode → Section α}
    (hf : ∀ c, P c.inode.ino → c.pIno = dir →
      Op.Ensures (fun s => s.Tells P dir jtable ∧ s.table.child name = some c) (f c)
        fun _ => Tells P dir jtable) :
    Op.Keeps (Tells P dir jtable) (getChildInode name >>= f) := by
  intro s h
  show Tells P dir jtable _
  cases hc : s.table.child name with
  | none =>
      rw [Op.bind_error (getChildInode_absent hc)]
      exact h
  | some c =>
      rw [Op.bind_ok (getChildInode_present hc)]
      exact hf c (h.within.within name c hc) (h.parent name c hc) s ⟨h, hc⟩

/-- The rest of a section, once the directory is in order. -/
theorem then_tells {β : Type} {m : Section α} {f : α → Section β} {Q : Led → Prop}
    (hm : Op.Ensures Q m fun _ => Tells P dir jtable)
    (hf : ∀ a, Op.Keeps (Tells P dir jtable) (f a)) :
    Op.Ensures Q (m >>= f) fun _ => Tells P dir jtable :=
  hm.bind hf fun _ _ h => h

theorem tells_parent {f : Uuid → Section α} {Q : Led → Prop} {R : Except Err α → Led → Prop}
    (hf : Op.Ensures (fun s => s.Tells P dir jtable ∧ Q s) (f dir) R) :
    Op.Ensures (fun s => s.Tells P dir jtable ∧ Q s) (parentIno >>= f) R := by
  intro s h
  rw [Op.bind_ok parentIno_apply, h.1.within.self]
  exact hf s h

/-! ## Whole sections -/

theorem tells_createChild {env : Env} {mode : UInt32} (hname : Dentry.NameOk name)
    (hi : P env.newIno) :
    Op.Ensures (fun s => s.Tells P dir jtable ∧ Lacks s.table.listed env.newIno)
      (createChild env name mode) fun _ => Tells P dir jtable := by
  unfold createChild
  refine tells_parent (then_tells ?_ fun _ => ?_)
  · exact tells_create (i := ⟨Inode.make env (mode ||| Inode.S_IFREG), dir⟩) hi rfl
  · refine (tells_setTimes env.now).bind fun _ => ?_
    exact (tells_journal fun self hself => .mkreg hself hname hi).bind fun _ => Op.Keeps.pure _

theorem tells_symlinkChild {env : Env} {src : Bytes} (hname : Dentry.NameOk name)
    (hi : P env.newIno) :
    Op.Ensures (fun s => s.Tells P dir jtable ∧ Lacks s.table.listed env.newIno)
      (symlinkChild env src name) fun _ => Tells P dir jtable := by
  unfold symlinkChild
  refine Op.Ensures.read_bind fun there => ?_
  split
  · exact fun s h => h.1
  · refine tells_parent (then_tells ?_ fun _ => ?_)
    · exact tells_create (i := ⟨Inode.makeLink env src, dir⟩) hi rfl
    · exact (tells_journal fun self hself => .mkreg hself hname hi).bind fun _ => Op.Keeps.pure _

/-- `local_mkdir` up to the new directory's own transaction. -/
def recordMkdir (env : Env) (newChildName : Bytes) (mode : UInt32) : Section Unit := do
  let i := Inode.make env (mode ||| Inode.S_IFDIR)
  let parent ← parentIno
  let _ ← createChildInode newChildName ⟨i, parent⟩
  setParentTimes env.now
  journal fun parent => .mkdir parent newChildName i.ino
  setChildInode newChildName (i.setSize (UInt64.ofNat Inode.DIR_INODE_SIZE))

theorem localMkdir_eq {env : Env} {mode : UInt32} :
    LocalOps.localMkdir env name mode = (do
      recordMkdir env name mode
      journalAt env.newIno (.mkself (sizedDir env mode))
      return ⟨0, some env.newIno⟩) := by
  unfold recordMkdir
  simp only [bind_assoc]
  rfl

theorem tells_recordMkdir {env : Env} {mode : UInt32} (hname : Dentry.NameOk name)
    (hi : P env.newIno) :
    Op.Ensures (fun s => s.Tells P dir jtable ∧ Lacks s.table.listed env.newIno)
      (recordMkdir env name mode) fun _ => Tells P dir jtable := by
  unfold recordMkdir
  refine tells_parent (then_tells ?_ fun _ => ?_)
  · exact tells_create (i := ⟨Inode.make env (mode ||| Inode.S_IFDIR), dir⟩) hi rfl
  · refine (tells_setTimes env.now).bind fun _ => ?_
    exact (tells_journal fun self hself => .mkdir hself hname).bind fun _ => tells_setChild _

theorem tells_mkdirHandler {env : Env} {mode : UInt32} (hname : Dentry.NameOk name)
    (hi : P env.newIno) :
    Op.Ensures (fun s => s.Tells P dir jtable ∧ Lacks s.table.listed env.newIno)
      (RpcServer.mkdirHandler env name mode) fun _ => Tells P dir jtable := by
  unfold RpcServer.mkdirHandler
  refine tells_parent (then_tells ?_ fun _ => ?_)
  · exact tells_create (i := ⟨Inode.make env (mode ||| Inode.S_IFDIR), dir⟩) hi rfl
  · refine (tells_setChild _).bind fun _ => (tells_setTimes env.now).bind fun _ => ?_
    exact (tells_journal fun self hself => .mkdir hself hname).bind fun _ => Op.Keeps.pure _

theorem tells_unlinkChild {ts : Timespec} (hname : Dentry.NameOk name) :
    Op.Keeps (Tells P dir jtable) (unlinkChild ts name) := by
  unfold unlinkChild
  refine tells_getChild fun c hc hp => ?_
  dsimp only
  split
  · refine then_tells ?_ fun _ => ?_
    · exact fun s h => tells_removeData _ s h.1
    · refine tells_delete.bind fun _ => (tells_setTimes ts).bind fun _ => ?_
      exact (tells_journal fun self hself => .rmreg hself hname).bind fun _ => Op.Keeps.pure _
  · refine then_tells ?_ fun _ => ?_
    · exact fun s h => tells_setChild _ s h.1
    · rw [hp]
      refine (tells_journalAt (.chreg ?_)).bind fun _ => Op.Keeps.pure _
      exact hc

/-- What the names stand for only gets less. -/
theorem tells_removeDst {ino : Uuid} (hname : Dentry.NameOk name) :
    Op.Keeps (fun s => s.Tells P dir jtable ∧ s.Confined L) (removeDst ino name) := by
  intro s h
  unfold removeDst
  split
  · cases hc : s.table.child name with
    | none =>
        rw [Op.bind_error (getChildInode_absent hc)]
        exact h
    | some c =>
        rw [Op.bind_ok (getChildInode_present hc), Op.bind_ok deleteChildInode_apply]
        constructor
        · exact tells_journal (fun self hself => .rmreg hself hname) _ (deleted_tells h.1)
        · exact fun n u hn => (deleted_confined h.1 h.2 n u hn).2
  · exact h

theorem tells_removeSrc {target : MemInode} (hname : Dentry.NameOk name) :
    Op.Ensures (fun s => s.Tells P dir jtable ∧ s.Confined L) (removeSrc name target)
      fun _ s => s.Tells P dir jtable ∧ s.Confined fun n u => n ≠ name ∧ L n u := by
  intro s h
  unfold removeSrc
  rw [Op.bind_ok deleteChildInode_apply]
  constructor
  · exact tells_journal (fun self hself => .rmreg hself hname) _ (deleted_tells h.1)
  · exact deleted_confined h.1 h.2

theorem tells_insertTarget {target : MemInode} (hname : Dentry.NameOk name)
    (ht : P target.inode.ino) (hp : target.pIno = dir) :
    Op.Ensures (fun s => s.Tells P dir jtable ∧ Lacks s.table.listed target.inode.ino)
      (insertTarget name target) fun _ => Tells P dir jtable := by
  unfold insertTarget
  refine (tells_create ht hp).bind (fun _ => ?_) fun _ _ h => h
  exact tells_journal fun self hself => .mkreg hself hname ht

theorem tells_moveEntry {ino : Uuid} {oldName newName : Bytes} {target : MemInode}
    (hold : Dentry.NameOk oldName) (hnew : Dentry.NameOk newName) (ht : P target.inode.ino)
    (hp : target.pIno = dir) :
    Op.Ensures (fun s => s.Tells P dir jtable ∧
        s.Confined fun n u => u = target.inode.ino → n = oldName)
      (moveEntry ino oldName newName target) fun _ => Tells P dir jtable := by
  unfold moveEntry
  refine Op.Ensures.bind (tells_removeDst hnew) (fun _ => ?_) fun _ _ h => h.1
  refine Op.Ensures.bind (tells_removeSrc hold) (fun _ => ?_) fun _ _ h => h.1
  -- no name stands for the target any more
  refine then_tells (fun s h => tells_insertTarget hnew ht hp s ⟨h.1, fun n hn => ?_⟩)
    fun _ => Op.Keeps.pure _
  obtain ⟨hne, heq⟩ := h.2 n _ hn
  exact hne (heq rfl)

theorem tells_localRename {ts : Timespec} {oldName newName : Bytes} (hold : Dentry.NameOk oldName)
    (hnew : Dentry.NameOk newName) (flags : UInt32) :
    Op.Keeps (Tells P dir jtable)
      (LocalOps.localRenameSameParent ts oldName newName flags) := by
  unfold LocalOps.localRenameSameParent
  refine tells_getChild fun c hc hp s h => ?_
  have honly := Tells.only h.1 h.2
  have hset := tells_setTimes ts s h.1
  rw [Op.bind_ok checkChildInode_apply, Op.bind_ok setParentTimes_apply]
  split
  · exact tells_moveEntry hold hnew hc hp _ ⟨hset, honly⟩
  · exact hset

theorem tells_renameHandler {oldName newName : Bytes} (hold : Dentry.NameOk oldName)
    (hnew : Dentry.NameOk newName) (flags : UInt32) :
    Op.Keeps (Tells P dir jtable)
      (RpcServer.renameSameParentHandler oldName newName flags) := by
  unfold RpcServer.renameSameParentHandler
  refine tells_getChild fun c hc hp s h => ?_
  have honly := Tells.only h.1 h.2
  rw [Op.bind_ok checkChildInode_apply]
  split
  · exact tells_moveEntry hold hnew hc hp _ ⟨h.1, honly⟩
  · exact h.1

/-- The first half of a rename to another directory, up to what it returns. -/
theorem tells_takeSrc {oldName : Bytes} {f : MemInode → Section α} (hold : Dentry.NameOk oldName)
    (hf : ∀ c, Op.Keeps (Tells P dir jtable) (f c)) :
    Op.Keeps (Tells P dir jtable)
      (getChildInode oldName >>= fun c => removeSrc oldName c >>= fun _ => f c) := by
  refine tells_getChild fun c _ _ => ?_
  refine then_tells (fun s h => ?_) fun _ => hf c
  exact (tells_removeSrc (L := fun _ _ => True) hold s ⟨h.1, fun _ _ _ => trivial⟩).1

/-- The second half. -/
theorem tells_bringDst {ino : Uuid} {newName : Bytes} {target : Inode} {r : α}
    (hnew : Dentry.NameOk newName) (ht : P target.ino) :
    Op.Ensures (fun s => s.Tells P dir jtable ∧ Lacks s.table.listed target.ino)
      (removeDst ino newName >>= fun _ => insertTarget newName ⟨target, dir⟩ >>= fun _ =>
        (pure r : Section α)) fun _ => Tells P dir jtable := by
  have hdst : Op.Ensures (fun s => s.Tells P dir jtable ∧ Lacks s.table.listed target.ino)
      (removeDst ino newName)
      fun _ s => s.Tells P dir jtable ∧ Lacks s.table.listed target.ino := by
    intro s h
    have hkeep : Op.Keeps (fun s => s.Tells P dir jtable ∧ s.Confined fun _ u => u ≠ target.ino)
        (removeDst ino newName) := tells_removeDst hnew
    obtain ⟨htells, hL⟩ := hkeep s ⟨h.1, fun n u hn heq => h.2 n (heq ▸ hn)⟩
    exact ⟨htells, fun n hn => hL n _ hn rfl⟩
  refine hdst.bind (fun _ => then_tells ?_ fun _ => Op.Keeps.pure _) fun _ _ h => h.1
  have hin : P (MemInode.mk target dir).inode.ino := ht
  exact tells_insertTarget hnew hin rfl

theorem tells_localRenameDst {ino : Uuid} {newName : Bytes} {target : Inode}
    (hnew : Dentry.NameOk newName) (ht : P target.ino) :
    Op.Ensures (fun s => s.Tells P dir jtable ∧ Lacks s.table.listed target.ino)
      (LocalOps.localRenameNotSameParentDst target ino newName 0)
      fun _ => Tells P dir jtable := by
  unfold LocalOps.localRenameNotSameParentDst
  refine tells_parent ?_
  rw [if_pos rfl]
  exact tells_bringDst hnew ht

theorem tells_renameDstHandler {ino : Uuid} {newName : Bytes} {target : Inode}
    (hnew : Dentry.NameOk newName) (ht : P target.ino) :
    Op.Ensures (fun s => s.Tells P dir jtable ∧ Lacks s.table.listed target.ino)
      (RpcServer.renameNotSameParentDstHandler target ino newName 0)
      fun _ => Tells P dir jtable := by
  unfold RpcServer.renameNotSameParentDstHandler
  refine tells_parent ?_
  rw [if_pos rfl]
  exact tells_bringDst hnew ht

theorem listed_rmdirDown {ts : Timespec} {ino : Uuid} (h : s.table.Sound) :
    (rmdirDown ts ino name s).2.table.listed = Function.update s.table.listed name none := by
  have hjournal : ∀ (m : Inode → Transaction.Mutation) (t : Led),
      ((journal m >>= fun _ => (pure ⟨0, none⟩ : Section Reply)) t).2.table = t.table := by
    intro m t
    rw [Op.bind_apply]
    cases (journal m t).1 <;> rfl
  unfold rmdirDown
  rw [Op.bind_ok deleteChildInode_apply, Op.bind_ok setParentTimes_apply, hjournal]
  exact listed_deleted h

theorem tells_rmdirDown {ts : Timespec} {ino : Uuid} (hname : Dentry.NameOk name) :
    Op.Keeps (Tells P dir jtable) (rmdirDown ts ino name) := by
  unfold rmdirDown
  refine tells_delete.bind fun _ => (tells_setTimes ts).bind fun _ => ?_
  exact (tells_journal fun self hself => .rmdir hself hname).bind fun _ => Op.Keeps.pure _

/-! ## Operations -/

/-- A new child: its name, and a number that no name stands for. -/
structure BringsNew (P : Uuid → Prop) (s : Led) (name : Bytes) (ino : Uuid) : Prop where
  nameOk : Dentry.NameOk name
  within : P ino
  unlisted : Lacks s.table.listed ino

/-- The names are names, what is brought in is new to the directory, and a change of an inode leaves
    its type. `local_mkdir` goes beyond the directory. -/
def Fair (P : Uuid → Prop) (s : Led) : Refinement.Operation → Prop
  | .request (.localMkdir _ _ _) => False
  | .request r => Dentry.NameOk r.name ∧ ∀ ino, r.newIno = some ino → BringsNew P s r.name ino
  | .localRename _ oldName newName | .rpcRename oldName newName =>
    Dentry.NameOk oldName ∧ Dentry.NameOk newName
  | .localRenameSrc oldName | .rpcRenameSrc oldName => Dentry.NameOk oldName
  | .localRenameDst target _ newName | .rpcRenameDst target _ newName =>
    BringsNew P s newName target.ino
  | .localRmdirDown _ _ name | .rpcRmdirDown _ _ name => Dentry.NameOk name
  | .child name change =>
    ∀ c, s.table.child name = some c → Mirror.IsFile c.inode ∧ change.Valid c.inode
  | .self _ change => change.Valid s.table.thisDirInode ∧ change.OfDir

theorem onChild_tells (h : s.Tells P dir jtable) {change : Refinement.InodeChange}
    (hf : ∀ c, s.table.child name = some c → Mirror.IsFile c.inode ∧ change.Valid c.inode) :
    (Refinement.onChild name change s).Tells P dir jtable := by
  unfold Refinement.onChild
  split
  · exact h
  · rename_i c hc
    obtain ⟨hfile, hv⟩ := hf c hc
    have hch := Refinement.InodeChange.changes
      (o := ⟨c.inode, c.pIno, s.dataPool, s.jtable⟩) hv (.inr hfile)
    have hw : (s.withChild name (change.perform ⟨c.inode, c.pIno, s.dataPool, s.jtable⟩).i).Tells
        P dir jtable := withChild_tells h _
    have hkeep := change_keeps change (o := ⟨c.inode, c.pIno, s.dataPool, s.jtable⟩)
      h.within.uncommitted
    refine ⟨⟨hw.within.self, hw.within.sound, hw.within.within, hkeep.2⟩, hw.distinct, hw.parent,
      hw.selfDir, ?_⟩
    dsimp only
    revert hch
    generalize change.perform ⟨c.inode, c.pIno, s.dataPool, s.jtable⟩ = o
    intro hch
    rcases hch.jtable with ⟨-, hj⟩ | hj
    · rw [hj]
      exact h.records
    · have hfile' := (Refinement.isDir_of_changes hch).trans hfile
      rw [hfile', if_neg (by decide)] at hj
      dsimp only at hj
      rw [hj, h.parent name c hc]
      refine h.records.record (.chreg ?_)
      rw [hch.ino]
      exact h.within.within name c hc

theorem onSelf_tells (h : s.Tells P dir jtable) {pIno : Uuid}
    {change : Refinement.InodeChange} (hv : change.Valid s.table.thisDirInode)
    (hd : change.OfDir) : (Refinement.onSelf pIno change s).Tells P dir jtable := by
  have hw := onSelf_within h.within pIno change
  have hch := Refinement.InodeChange.changes
    (o := ⟨s.table.thisDirInode, pIno, s.dataPool, s.jtable⟩) hv (.inl hd)
  have hdir := (Refinement.isDir_of_changes hch).trans h.selfDir
  refine ⟨hw, h.distinct, h.parent, hdir, ?_⟩
  unfold Refinement.onSelf
  rcases hch.jtable with ⟨-, hj⟩ | hj
  · dsimp only
    rw [hj]
    exact h.records
  · rw [hdir, if_pos rfl, hch.ino] at hj
    dsimp only at hj ⊢
    rw [hj, h.within.self]
    exact h.records.record (.chself (hch.ino.trans h.within.self))

theorem request_tells (h : s.Tells P dir jtable) {r : Creation.Request}
    (hr : Fair P s (.request r)) : (r.serve s).2.Tells P dir jtable := by
  cases r with
  | localMkdir env name mode =>
      exact hr.elim
  | localUnlink ts name => exact tells_unlinkChild hr.1 s h
  | rpcUnlink ts name => exact tells_unlinkChild hr.1 s h
  | localCreate env name mode =>
      exact tells_createChild hr.1 (hr.2 _ rfl).within s ⟨h, (hr.2 _ rfl).unlisted⟩
  | rpcCreate env name mode =>
      exact tells_createChild hr.1 (hr.2 _ rfl).within s ⟨h, (hr.2 _ rfl).unlisted⟩
  | rpcMkdir env name mode =>
      exact tells_mkdirHandler hr.1 (hr.2 _ rfl).within s ⟨h, (hr.2 _ rfl).unlisted⟩
  | localSymlink env src name =>
      exact tells_symlinkChild hr.1 (hr.2 _ rfl).within s ⟨h, (hr.2 _ rfl).unlisted⟩
  | rpcSymlink env src name =>
      exact tells_symlinkChild hr.1 (hr.2 _ rfl).within s ⟨h, (hr.2 _ rfl).unlisted⟩

/-- What an operation on a directory tells the journal. -/
theorem operation_tells (h : s.Tells P dir jtable) {o : Refinement.Operation}
    (ho : Fair P s o) : (o.perform s).2.Tells P dir jtable := by
  cases o with
  | request r => exact request_tells h ho
  | localRename ts oldName newName => exact tells_localRename ho.1 ho.2 0 s h
  | rpcRename oldName newName => exact tells_renameHandler ho.1 ho.2 0 s h
  | localRenameSrc oldName =>
      refine Op.Keeps.bind ?_ (fun _ => Op.Keeps.pure _) s h
      exact tells_takeSrc ho fun c => Op.Keeps.pure c
  | rpcRenameSrc oldName =>
      refine Op.Keeps.bind ?_ (fun _ => Op.Keeps.pure _) s h
      exact tells_takeSrc ho fun c => Op.Keeps.pure (0, some c.inode)
  | localRenameDst target ino newName =>
      exact tells_localRenameDst ho.nameOk ho.within s ⟨h, ho.unlisted⟩
  | rpcRenameDst target ino newName =>
      exact tells_renameDstHandler ho.nameOk ho.within s ⟨h, ho.unlisted⟩
  | localRmdirDown ts ino name => exact tells_rmdirDown ho s h
  | rpcRmdirDown ts ino name => exact tells_rmdirDown ho s h
  | child name change => exact onChild_tells h ho
  | self pIno change => exact onSelf_tells h ho.1 ho.2

end Sections

end Nmfs
