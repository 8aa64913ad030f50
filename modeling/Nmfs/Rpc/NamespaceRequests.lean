import Nmfs.Rpc.InodeRequests

/-
  The operations on a directory's names, at the leader for another client and by a client that leads
  the directory itself. Both sides see the same clock and draw the same inode numbers.

  `rpc_mkdir` is the only handler that is sent the ids of the requester; `rpc_create` and
  `rpc_symlink` go by those of the leader. `rpc_rename_same_parent` leaves the directory's times
  alone.
-/

namespace Nmfs

open Lib

namespace NamespaceRequests

open Led DirectoryOps

inductive NamespaceRequest where
  | mkdir (name : Bytes) (mode : UInt32)
  | create (name : Bytes) (mode : UInt32)
  | symlink (src name : Bytes)
  | unlink (name : Bytes)
  | rename (oldName newName : Bytes)

/-- What an operation finds at a client with these ids. -/
def envOf (ids : Ids) (newIno : Uuid) (born now : Timespec) : Env :=
  ⟨ids.uid, ids.gid, newIno, born, now⟩

/-- By a client that leads the directory. -/
def NamespaceRequest.here (requester : Ids) (newIno : Uuid) (born now : Timespec) :
    NamespaceRequest → Section Reply
  | mkdir name mode => LocalOps.localMkdir (envOf requester newIno born now) name mode
  | create name mode => LocalOps.localCreate (envOf requester newIno born now) name mode
  | symlink src name => LocalOps.localSymlink (envOf requester newIno born now) src name
  | unlink name => LocalOps.localUnlink now name
  | rename oldName newName => LocalOps.localRenameSameParent now oldName newName 0

/-- By the handlers of a leader. -/
def NamespaceRequest.served (leader requester : Ids) (newIno : Uuid) (born now : Timespec) :
    NamespaceRequest → Section Reply
  | mkdir name mode => RpcServer.mkdirHandler (envOf requester newIno born now) name mode
  | create name mode => RpcServer.createHandler (envOf leader newIno born now) name mode
  | symlink src name => RpcServer.symlinkHandler (envOf leader newIno born now) src name
  | unlink name => RpcServer.unlinkHandler now name
  | rename oldName newName => RpcServer.renameSameParentHandler oldName newName 0

/-- What `rpc_client::mkdir` enters into its own journal once the handler has answered 0. -/
def mkself (requester : Ids) (newIno : Uuid) (born now : Timespec) (mode : UInt32)
    (jtable : JournalTable) : JournalTable :=
  (jtable.record newIno (.mkself (sizedDir (envOf requester newIno born now) mode))).2

/-- The children, the directory's inode and its transaction are the same. -/
structure SameDirectory (s s' : Led) : Prop where
  listed : s.table.listed = s'.table.listed
  child : s.table.child = s'.table.child
  self : s.table.thisDirInode = s'.table.thisDirInode
  tx : s.tx = s'.tx
  dataPool : s.dataPool = s'.dataPool

/-- The two sides do the same and answer the same, whatever the clock shows; a new directory gets the
    same transaction of its own, which one side has at the leader and the other at the requester. -/
structure SameEffect (leader requester : Ids) (newIno : Uuid) (r : NamespaceRequest) (s : Led) :
    Prop where
  same : ∀ born now, (r.served leader requester newIno born now s).1 =
      (r.here requester newIno born now s).1 ∧
    SameDirectory (r.served leader requester newIno born now s).2
      (r.here requester newIno born now s).2
  own : ∀ name mode, r = .mkdir name mode → ∀ born now reply,
    (r.served leader requester newIno born now s).1 = .ok reply → ∀ jtable : JournalTable,
      jtable.getEntry newIno = Transaction.new newIno →
      (mkself requester newIno born now mode jtable).getEntry newIno =
        (r.here requester newIno born now s).2.jtable.getEntry newIno

/-- Nothing has the new number yet. -/
structure Fresh (newIno : Uuid) (s : Led) : Prop where
  self : newIno ≠ s.table.thisDirInode.ino
  child : ∀ name c, s.table.child name = some c → c.inode.ino ≠ newIno
  file : s.tx.fInodes.lookup newIno = none
  own : s.jtable.getEntry newIno = Transaction.new newIno

/-- The name is taken, and the transaction has it already. -/
def Taken (name : Bytes) (s : Led) : Prop := s.table.child name ≠ none ∧ ¬ s.tx.Turns name true

/-- A file or a link gets the ids of the leader, unless the name is taken; a rename sets no times,
    unless there is nothing to rename. What a transaction has as new is there. -/
def NamespaceRequest.Carried (leader requester : Ids) (s : Led) : NamespaceRequest → Prop
  | mkdir name _ => s.table.child name = none → s.tx.Turns name true
  | create name _ => leader = requester ∨ Taken name s
  | symlink _ name => leader = requester ∨ s.table.checkChildInode name ≠ Uuid.nil ∨ Taken name s
  | unlink _ => True
  | rename oldName _ => s.table.child oldName = none

/-! ## Both sides, step by step -/

section

variable {s s' : Led} {name : Bytes} {i i' : MemInode} {env : Env} {mode : UInt32} {newIno : Uuid}
  {leader requester : Ids} {born now : Timespec}

theorem SameDirectory.refl (s : Led) : SameDirectory s s := ⟨rfl, rfl, rfl, rfl, rfl⟩

theorem journal_eq (m : Inode → Transaction.Mutation) :
    journal m s = (((m s.table.thisDirInode).apply s.tx).1.map fun _ => (),
      s.withTx ((m s.table.thisDirInode).apply s.tx).2) := rfl

/-- A child is created, and `mkreg`, whatever comes of it. -/
def attempt (s : Led) (name : Bytes) (i : MemInode) (reply : Reply) : Except Err Reply × Led :=
  ((s.tx.mkreg s.table.thisDirInode name i.inode).1.map fun _ => reply,
    (s.created name i).withTx (s.tx.mkreg s.table.thisDirInode name i.inode).2)

/-- The end of `createChild` and of `symlinkChild`. -/
theorem mkreg_attempt (reply : Reply) :
    (do
      journal fun parent => .mkreg parent name i.inode
      return reply : Section Reply) (s.created name i) = attempt s name i reply := by
  have hj : journal (fun parent => .mkreg parent name i.inode) (s.created name i) =
      ((s.tx.mkreg s.table.thisDirInode name i.inode).1.map fun _ => (),
        (s.created name i).withTx (s.tx.mkreg s.table.thisDirInode name i.inode).2) := by
    rw [journal_eq, tx_created, thisDirInode_created]
    rfl
  unfold attempt
  rw [Op.bind_apply, hj]
  cases (s.tx.mkreg s.table.thisDirInode name i.inode).1 <;> rfl

theorem createChild_eq (ids : Ids) : createChild (envOf ids newIno born now) name mode s =
    attempt (s.withTimes now) name (newFile s (envOf ids newIno born now) mode)
      ⟨0, some newIno⟩ := by
  unfold createChild
  rw [Op.bind_ok parentIno_apply, Op.bind_ok createChildInode_apply,
    Op.bind_ok setParentTimes_apply, created_withTimes]
  exact mkreg_attempt (s := s.withTimes now) (i := newFile s (envOf ids newIno born now) mode)
    ⟨0, some newIno⟩

theorem symlinkChild_eq {src : Bytes} (hnew : s.table.checkChildInode name = Uuid.nil) (ids : Ids) :
    symlinkChild (envOf ids newIno born now) src name s =
      attempt s name (newLink s (envOf ids newIno born now) src) ⟨0, none⟩ := by
  unfold symlinkChild
  rw [Op.bind_ok checkChildInode_apply, if_neg (by rw [hnew]; simp), Op.bind_ok parentIno_apply,
    Op.bind_ok createChildInode_apply]
  exact mkreg_attempt (i := newLink s (envOf ids newIno born now) src) ⟨0, none⟩

theorem created_taken (h : s.table.child name ≠ none) : s.created name i = s := by
  obtain ⟨c, hc⟩ := Option.ne_none_iff_exists'.mp h
  unfold created
  rw [DentryTable.create_present hc]

theorem child_created (h : s.table.child name = none) : (s.created name i).table.child name = some i := by
  show (s.table.createChildInode name i).2.child name = _
  rw [DentryTable.child_create h, Function.update_self]

/-- What is not entered leaves no trace, whose ids it may have. -/
theorem attempt_taken (hu : s.tx.committed = false) (h : Taken name s) (i i' : MemInode)
    (reply : Reply) : attempt s name i reply = attempt s name i' reply := by
  unfold attempt
  rw [Transaction.mkreg_taken hu h.2, Transaction.mkreg_taken hu h.2, created_taken h.1, created_taken h.1]

/-- What is entered can be told apart. -/
theorem core_of_attempt {reply : Reply}
    (h : SameDirectory (attempt s name i reply).2 (attempt s name i' reply).2)
    (hu : s.tx.committed = false) (hi : i.inode.ino = i'.inode.ino)
    (hfile : s.tx.fInodes.lookup i.inode.ino = none) (ht : ¬ Taken name s) :
    i.inode.core = i'.inode.core := by
  by_cases hc : s.table.child name = none
  · have hchild := congrFun h.child name
    have heq : some i = some i' :=
      (child_created hc).symm.trans (hchild.trans (child_created hc))
    exact congrArg (fun i => i.inode.core) (Option.some.inj heq)
  · have hturns : s.tx.Turns name true := by
      by_contra hn
      exact ht ⟨hc, hn⟩
    have htx := h.tx
    unfold attempt at htx
    rw [tx_withTx, tx_withTx] at htx
    have hnew : ∀ f : Inode, f.ino = i.inode.ino →
        (s.tx.mkreg s.table.thisDirInode name f).2.fInodes.lookup i.inode.ino = some (some f.copy) := by
      intro f hf
      have htakes : s.tx.TakesNew name f.ino := by
        refine ⟨hu, hturns, fun g hg => ?_⟩
        rw [hf, hfile] at hg
        cases hg
      rw [Transaction.mkreg_eq htakes, ← hf]
      exact AList.lookup_insert _
    have hlookup := hnew i.inode rfl
    rw [htx, hnew i'.inode hi.symm] at hlookup
    exact (congrArg Inode.core (Option.some.inj (Option.some.inj hlookup))).symm

/-! ## create and symlink -/

theorem served_create : (NamespaceRequest.create name mode).served leader requester newIno born now =
    createChild (envOf leader newIno born now) name mode := rfl

theorem here_create : (NamespaceRequest.create name mode).here requester newIno born now =
    createChild (envOf requester newIno born now) name mode := rfl

theorem served_symlink {src : Bytes} :
    (NamespaceRequest.symlink src name).served leader requester newIno born now =
      symlinkChild (envOf leader newIno born now) src name := rfl

theorem here_symlink {src : Bytes} : (NamespaceRequest.symlink src name).here requester newIno born now =
    symlinkChild (envOf requester newIno born now) src name := rfl

theorem create_same_iff (hu : s.tx.committed = false) (hf : Fresh newIno s) :
    SameEffect leader requester newIno (.create name mode) s ↔ leader = requester ∨ Taken name s := by
  constructor
  · intro h
    by_contra hne
    rw [not_or] at hne
    have hdir := (h.same ⟨0, 0⟩ ⟨0, 0⟩).2
    rw [served_create, here_create, createChild_eq, createChild_eq] at hdir
    have hcore : (newFile s (envOf leader newIno ⟨0, 0⟩ ⟨0, 0⟩) mode).inode.core =
        (newFile s (envOf requester newIno ⟨0, 0⟩ ⟨0, 0⟩) mode).inode.core :=
      core_of_attempt hdir hu rfl hf.file hne.2
    exact hne.1 (Ids.ext (congrArg Inode.Core.iUid hcore) (congrArg Inode.Core.iGid hcore))
  · intro h
    refine ⟨fun born now => ?_, fun _ _ heq => nomatch heq⟩
    rw [served_create, here_create]
    rcases h with rfl | ht
    · exact ⟨rfl, SameDirectory.refl _⟩
    · rw [createChild_eq, createChild_eq, attempt_taken (s := s.withTimes now) hu ht
        (newFile s (envOf leader newIno born now) mode)
        (newFile s (envOf requester newIno born now) mode)]
      exact ⟨rfl, SameDirectory.refl _⟩

theorem symlink_same_iff {src : Bytes} (hu : s.tx.committed = false) (hf : Fresh newIno s) :
    SameEffect leader requester newIno (.symlink src name) s ↔
      leader = requester ∨ s.table.checkChildInode name ≠ Uuid.nil ∨ Taken name s := by
  constructor
  · intro h
    by_contra hne
    rw [not_or, not_or, not_ne_iff] at hne
    obtain ⟨hids, hnew, ht⟩ := hne
    have hdir := (h.same ⟨0, 0⟩ ⟨0, 0⟩).2
    rw [served_symlink, here_symlink, symlinkChild_eq hnew, symlinkChild_eq hnew] at hdir
    have hcore : (newLink s (envOf leader newIno ⟨0, 0⟩ ⟨0, 0⟩) src).inode.core =
        (newLink s (envOf requester newIno ⟨0, 0⟩ ⟨0, 0⟩) src).inode.core :=
      core_of_attempt hdir hu rfl hf.file ht
    exact hids (Ids.ext (congrArg Inode.Core.iUid hcore) (congrArg Inode.Core.iGid hcore))
  · intro h
    refine ⟨fun born now => ?_, fun _ _ heq => nomatch heq⟩
    rw [served_symlink, here_symlink]
    rcases h with rfl | htaken | ht
    · exact ⟨rfl, SameDirectory.refl _⟩
    · rw [symlinkChild_taken htaken, symlinkChild_taken htaken]
      exact ⟨rfl, SameDirectory.refl _⟩
    · by_cases hnew : s.table.checkChildInode name = Uuid.nil
      · rw [symlinkChild_eq hnew, symlinkChild_eq hnew,
          attempt_taken hu ht (newLink s (envOf leader newIno born now) src)
            (newLink s (envOf requester newIno born now) src)]
        exact ⟨rfl, SameDirectory.refl _⟩
      · rw [symlinkChild_taken hnew, symlinkChild_taken hnew]
        exact ⟨rfl, SameDirectory.refl _⟩

/-! ## mkdir -/

theorem served_mkdir : (NamespaceRequest.mkdir name mode).served leader requester newIno born now =
    RpcServer.mkdirHandler (envOf requester newIno born now) name mode := rfl

theorem here_mkdir : (NamespaceRequest.mkdir name mode).here requester newIno born now =
    LocalOps.localMkdir (envOf requester newIno born now) name mode := rfl

def directoryExists : Err :=
  .logicError "transaction::mkdir() failed (directory already exists)"

theorem journal_refused (ino : Uuid) (hu : s.tx.committed = false) (ht : ¬ s.tx.Turns name true) :
    journal (fun parent => .mkdir parent name ino) s = (.error directoryExists, s.withTx s.tx) := by
  have hrefused : s.tx.mkdir s.table.thisDirInode name ino = (.error directoryExists, s.tx) :=
    Transaction.mkdir_taken hu ht
  rw [journal_eq]
  show (Except.map _ (s.tx.mkdir s.table.thisDirInode name ino).1,
    s.withTx (s.tx.mkdir s.table.thisDirInode name ino).2) = _
  rw [hrefused]
  rfl

theorem localMkdir_refused (hu : s.tx.committed = false) (ht : ¬ s.tx.Turns name true) :
    LocalOps.localMkdir env name mode s = (.error directoryExists,
      ((s.withTimes env.now).created name (newDir s env mode)).withTx s.tx) := by
  have htx : ((s.withTimes env.now).created name (newDir s env mode)).tx = s.tx := tx_created
  have hj := journal_refused (s := (s.withTimes env.now).created name (newDir s env mode))
    env.newIno (htx ▸ hu) (htx ▸ ht)
  rw [htx] at hj
  unfold LocalOps.localMkdir
  rw [Op.bind_ok parentIno_apply, Op.bind_ok createChildInode_apply,
    Op.bind_ok setParentTimes_apply, created_withTimes]
  exact Op.bind_error hj

/-- The size is set before the transaction refuses the name. -/
theorem mkdirHandler_refused (hu : s.tx.committed = false) (ht : ¬ s.tx.Turns name true) :
    RpcServer.mkdirHandler env name mode s = (.error directoryExists,
      (((s.withTimes env.now).created name (newDir s env mode)).withChild name
        (sizedDir env mode)).withTx s.tx) := by
  have htx : (((s.withTimes env.now).created name (newDir s env mode)).withChild name
      (sizedDir env mode)).tx = s.tx := tx_withChild.trans tx_created
  have hj := journal_refused (s := ((s.withTimes env.now).created name (newDir s env mode)).withChild
    name (sizedDir env mode)) env.newIno (htx ▸ hu) (htx ▸ ht)
  rw [htx] at hj
  unfold RpcServer.mkdirHandler
  rw [Op.bind_ok parentIno_apply, Op.bind_ok createChildInode_apply,
    Op.bind_ok setChildInode_apply, Op.bind_ok setParentTimes_apply, withChild_withTimes,
    created_withTimes]
  exact Op.bind_error hj

theorem withChild_other {c : MemInode} {f : Inode} (hc : s.table.child name = some c)
    (hi : c.inode.ino ≠ f.ino) : s.withChild name f = s := by
  unfold withChild DentryTable.setChildInode
  rw [show s.table.childInodes.lookup name = some c from hc]
  dsimp only
  rw [if_neg hi]

/-- The directory's own transaction is not the new one's. -/
theorem sameDirectory_started {f : Inode} (h : f.ino ≠ s.table.thisDirInode.ino) :
    SameDirectory s (s.started f) := by
  have htx : (s.started f).tx = s.tx :=
    JournalTable.getEntry_record_ne s.jtable f.ino (.mkself f) h.symm
  exact ⟨rfl, rfl, rfl, htx.symm, rfl⟩

/-- The new directory's transaction is made of the same inode on both sides. -/
theorem own_started {jtable : JournalTable} (hf : Fresh newIno s) (i : MemInode)
    (hown : jtable.getEntry newIno = Transaction.new newIno) :
    (mkself requester newIno born now mode jtable).getEntry newIno =
      ((((s.withTimes now).insertedDir name i).withChild name
        (sizedDir (envOf requester newIno born now) mode)).started
          (sizedDir (envOf requester newIno born now) mode)).jtable.getEntry newIno := by
  have hother : ((s.withTimes now).insertedDir name i).jtable.getEntry newIno =
      s.jtable.getEntry newIno := by
    unfold insertedDir withTx
    rw [thisDirInode_created]
    unfold JournalTable.getEntry
    exact congrArg (fun tx => Option.getD tx _) (AList.lookup_insert_ne hf.self)
  unfold mkself started
  have hleft := JournalTable.getEntry_record jtable newIno
    (.mkself (sizedDir (envOf requester newIno born now) mode))
  have hright := JournalTable.getEntry_record ((s.withTimes now).insertedDir name i).jtable newIno
    (.mkself (sizedDir (envOf requester newIno born now) mode))
  rw [hleft, hown, ← hf.own, ← hother]
  exact hright.symm

theorem mkdir_same_iff (hu : s.tx.committed = false) (hf : Fresh newIno s) :
    SameEffect leader requester newIno (.mkdir name mode) s ↔
      (s.table.child name = none → s.tx.Turns name true) := by
  constructor
  · intro h hc
    by_contra ht
    have hdir := (h.same ⟨0, 0⟩ ⟨0, 0⟩).2
    rw [served_mkdir, here_mkdir, mkdirHandler_refused hu ht, localMkdir_refused hu ht] at hdir
    have hchild := congrFun hdir.child name
    have hcreated : ((s.withTimes ⟨0, 0⟩).created name
        (newDir s (envOf requester newIno ⟨0, 0⟩ ⟨0, 0⟩) mode)).table.child name =
        some (newDir s (envOf requester newIno ⟨0, 0⟩ ⟨0, 0⟩) mode) := child_created hc
    have hsized : (((s.withTimes ⟨0, 0⟩).created name
        (newDir s (envOf requester newIno ⟨0, 0⟩ ⟨0, 0⟩) mode)).withChild name
          (sizedDir (envOf requester newIno ⟨0, 0⟩ ⟨0, 0⟩) mode)).table.child name =
        some { newDir s (envOf requester newIno ⟨0, 0⟩ ⟨0, 0⟩) mode with
          inode := sizedDir (envOf requester newIno ⟨0, 0⟩ ⟨0, 0⟩) mode } := by
      show (DentryTable.setChildInode _ name _).child name = _
      rw [DentryTable.child_setChild, hcreated, Option.map_some]
      exact congrArg some (if_pos ⟨rfl, rfl⟩)
    have heq := hsized.symm.trans (hchild.trans hcreated)
    have hsize : UInt64.ofNat Inode.DIR_INODE_SIZE = 0 :=
      congrArg (fun c => c.inode.core.iSize) (Option.some.inj heq)
    exact absurd hsize (by decide)
  · intro h
    by_cases ht : s.tx.Turns name true
    · constructor
      · intro born now
        rw [served_mkdir, here_mkdir, mkdirHandler_new hu ht, localMkdir_new hu ht]
        refine ⟨rfl, sameDirectory_started ?_⟩
        rw [thisDirInode_withChild]
        show newIno ≠ (((s.withTimes now).created name _).table.thisDirInode).ino
        rw [thisDirInode_created]
        exact hf.self
      · rintro name' mode' ⟨rfl, rfl⟩ born now reply - jtable hown
        rw [here_mkdir, localMkdir_new hu ht]
        exact own_started hf _ hown
    · have hc : s.table.child name ≠ none := fun hc => ht (h hc)
      obtain ⟨c, hsome⟩ := Option.ne_none_iff_exists'.mp hc
      constructor
      · intro born now
        rw [served_mkdir, here_mkdir, mkdirHandler_refused hu ht, localMkdir_refused hu ht,
          created_taken (s := s.withTimes _) hc,
          withChild_other (s := s.withTimes _)
            (f := sizedDir (envOf requester newIno born now) mode) hsome (hf.child name c hsome)]
        exact ⟨rfl, SameDirectory.refl _⟩
      · intro name' mode' heq born now reply hreply
        rw [served_mkdir, mkdirHandler_refused hu ht] at hreply
        cases hreply

/-! ## rename -/

/-- Nothing in a section of a rename touches the directory's inode but the times. -/
def HasSelf (self : Inode) (s : Led) : Prop := s.table.thisDirInode = self

variable {self : Inode}

theorem keeps_journal (m : Inode → Transaction.Mutation) : Op.Keeps (HasSelf self) (journal m) :=
  fun _ h => h

theorem keeps_delete (name : Bytes) : Op.Keeps (HasSelf self) (deleteChildInode name) :=
  fun _ h => thisDirInode_deleted.trans h

theorem keeps_create (name : Bytes) (i : MemInode) : Op.Keeps (HasSelf self) (createChildInode name i) :=
  fun _ h => thisDirInode_created.trans h

theorem keeps_moveEntry (ino : Uuid) (oldName newName : Bytes) (target : MemInode) :
    Op.Keeps (HasSelf self) (moveEntry ino oldName newName target) := by
  have hdst : Op.Keeps (HasSelf self) (removeDst ino newName) := by
    unfold removeDst
    split
    · refine Op.Keeps.bind (fun _ h => h) fun c => ?_
      exact (keeps_delete newName).bind fun _ => keeps_journal _
    · exact Op.Keeps.pure _
  have hsrc : Op.Keeps (HasSelf self) (removeSrc oldName target) :=
    (keeps_delete oldName).bind fun _ => keeps_journal _
  have hinsert : Op.Keeps (HasSelf self) (insertTarget newName target) :=
    (keeps_create newName target).bind fun _ => keeps_journal _
  exact hdst.bind fun _ => hsrc.bind fun _ => hinsert.bind fun _ => Op.Keeps.pure _

theorem rename_same_iff {oldName newName : Bytes} :
    SameEffect leader requester newIno (.rename oldName newName) s ↔
      s.table.child oldName = none := by
  constructor
  · intro h
    by_contra hc
    obtain ⟨c, hsome⟩ := Option.ne_none_iff_exists'.mp hc
    have hboth : ∀ now, ((NamespaceRequest.rename oldName newName).served leader requester newIno
        ⟨0, 0⟩ now s).2.table.thisDirInode = s.table.thisDirInode ∧
        ((NamespaceRequest.rename oldName newName).here requester newIno ⟨0, 0⟩ now
          s).2.table.thisDirInode = s.table.thisDirInode.setTimes now := by
      intro now
      constructor
      · show (RpcServer.renameSameParentHandler oldName newName 0 s).2.table.thisDirInode = _
        unfold RpcServer.renameSameParentHandler
        rw [Op.bind_ok (getChildInode_present hsome), Op.bind_ok checkChildInode_apply]
        exact keeps_moveEntry _ _ _ _ s rfl
      · show (LocalOps.localRenameSameParent now oldName newName 0 s).2.table.thisDirInode = _
        unfold LocalOps.localRenameSameParent
        rw [Op.bind_ok (getChildInode_present hsome), Op.bind_ok checkChildInode_apply,
          Op.bind_ok setParentTimes_apply]
        exact keeps_moveEntry _ _ _ _ (s.withTimes now) rfl
    have hself : ∀ now, s.table.thisDirInode = s.table.thisDirInode.setTimes now := fun now =>
      (hboth now).1.symm.trans ((h.same ⟨0, 0⟩ now).2.self.trans (hboth now).2)
    have htime := (hself ⟨0, 0⟩).symm.trans (hself ⟨1, 0⟩)
    have hsec : (0 : UInt64) = 1 := congrArg (fun i => i.core.iMtime.tvSec) htime
    exact absurd hsec (by decide)
  · intro hc
    refine ⟨fun born now => ?_, fun _ _ heq => nomatch heq⟩
    have hserved : (NamespaceRequest.rename oldName newName).served leader requester newIno born now s =
        (.error .noEntry, s) := Op.bind_error (getChildInode_absent hc)
    have hhere : (NamespaceRequest.rename oldName newName).here requester newIno born now s =
        (.error .noEntry, s) := Op.bind_error (getChildInode_absent hc)
    rw [hserved, hhere]
    exact ⟨rfl, SameDirectory.refl s⟩

end

/-! ## Both sides of every request -/

/-- The two sides do the same exactly where the request is carried out under the right ids and with
    the right times. -/
theorem names_same_iff (leader requester : Ids) (newIno : Uuid) (r : NamespaceRequest) (s : Led)
    (hu : s.tx.committed = false) (hf : Fresh newIno s) :
    SameEffect leader requester newIno r s ↔ r.Carried leader requester s := by
  cases r with
  | mkdir name mode => exact mkdir_same_iff hu hf
  | create name mode => exact create_same_iff hu hf
  | symlink src name => exact symlink_same_iff hu hf
  | unlink name =>
      refine iff_of_true ⟨fun born now => ?_, fun _ _ heq => nomatch heq⟩ trivial
      exact ⟨rfl, SameDirectory.refl _⟩
  | rename oldName newName => exact rename_same_iff

def homeDir : Led := ⟨.ofNew Creation.homeInode, ∅, ∅⟩

def freshIno : Uuid := (Creation.envOf 1).newIno

theorem fresh_homeDir : Fresh freshIno homeDir :=
  ⟨by decide, fun _ _ h => (nomatch h), rfl, rfl⟩

/-- A directory is made for another user. -/
theorem names_same_iff_mkdir :
    SameEffect ⟨0, 0⟩ ⟨1000, 1000⟩ freshIno (.mkdir [97] 0x1ED) homeDir :=
  (names_same_iff ⟨0, 0⟩ ⟨1000, 1000⟩ freshIno (.mkdir [97] 0x1ED) homeDir rfl fresh_homeDir).mpr
    fun _ _ h => nomatch h

/-- A file that the user 1000 creates belongs to the user that the leader runs as. -/
theorem create_differs :
    ((RpcServer.createHandler (envOf ⟨0, 0⟩ freshIno ⟨1, 0⟩ ⟨1, 0⟩) [97] 0x1A4 homeDir).2.table.child
      [97]).map (fun c => c.inode.core.iUid) = some 0 ∧
    ((LocalOps.localCreate (envOf ⟨1000, 1000⟩ freshIno ⟨1, 0⟩ ⟨1, 0⟩) [97] 0x1A4
      homeDir).2.table.child [97]).map (fun c => c.inode.core.iUid) = some 1000 ∧
    ¬ SameEffect ⟨0, 0⟩ ⟨1000, 1000⟩ freshIno (.create [97] 0x1A4) homeDir := by
  refine ⟨rfl, rfl, ?_⟩
  rw [create_same_iff rfl fresh_homeDir, not_or]
  exact ⟨by decide, fun h => h.1 rfl⟩

end NamespaceRequests

end Nmfs
