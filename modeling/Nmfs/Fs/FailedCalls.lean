import Nmfs.Fs.Cluster
import Nmfs.Fs.Creation
import Nmfs.Rpc.InodeRequests

/-
  What is left behind by an operation of `fs_ops/local_ops.cpp` that fails: one that returns a
  negative code, or raises `no_entry` or its "NOT IMPLEMENTED". What the journal raises is a
  `logic_error`, and does not count.

  An inode is handed to `local_opendir`, `local_open` and `local_truncate` by `path_traversal`, which
  has it from the table of the directory. The one for `local_rename_not_same_parent_dst` is in no
  table at that time.
-/

namespace Nmfs

open Lib

namespace FailedCalls

open Led DirectoryOps LocalOps

/-- `file_handler`, of a LOCAL inode. -/
structure FileHandler where
  ino : Uuid
  fhno : UInt64
  deriving DecidableEq

structure Leader where
  led : Led
  /-- `p_ino` of the directory itself -/
  pIno : Uuid
  /-- the inode that is moved here -/
  target : MemInode
  /-- `file_handler_list::fh_list` -/
  openContext : AList (fun _ : UInt64 => FileHandler)

abbrev LocalOp (α : Type) : Type := Op Err Leader α

section

variable {α : Type}

def onLed (m : Section α) : LocalOp α := fun s =>
  ((m s.led).1, { s with led := (m s.led).2 })

def onInode (targetIsParent : Bool) (fileName : Bytes) (f : OpenInode → α × OpenInode) :
    LocalOp α := fun s => onLed (onTarget s.pIno targetIsParent fileName f) s

end

def addFileHandler (key : UInt64) (fh : FileHandler) : LocalOp Unit := fun s =>
  match s.openContext.lookup key with
  | none => (.ok (), { s with openContext := s.openContext.insert key fh })
  | some _ =>
    (.error (.runtimeError "file_handler is corrupted : cannot add file_handler to list"), s)

/-- `target_inode->set_p_ino` -/
def setTargetParent : LocalOp Inode := Op.of fun s =>
  (s.target.inode, { s with target := { s.target with pIno := s.led.table.thisDirInode.ino } })

/-- The calls. `fh` is the address of the new handler. -/
inductive LocalCall where
  | opendir (targetIsParent : Bool) (fileName : Bytes) (fh : UInt64)
  | rmdirTop (targetIno : Uuid)
  | symlink (env : Env) (src dst : Bytes)
  | renameSameParent (ts : Timespec) (oldPath newPath : Bytes) (flags : UInt32)
  | renameNotSameParentSrc (oldPath : Bytes) (flags : UInt32)
  | renameNotSameParentDst (checkDstIno : Uuid) (newPath : Bytes) (flags : UInt32)
  | «open» (targetIsParent : Bool) (fileName : Bytes) (flags : UInt32) (fh : UInt64)
  | unlink (ts : Timespec) (childName : Bytes)
  | truncate (targetIsParent : Bool) (fileName : Bytes) (offset : UInt64) (ts : Timespec)

def LocalCall.perform : LocalCall → LocalOp Int
  | opendir targetIsParent fileName fh => do
    let i ← onLed (RpcServer.targetInode targetIsParent fileName)
    if ¬ Inode.isDir i.core.iMode then return -ENOTDIR
    addFileHandler fh ⟨i.ino, fh⟩
    return 0
  | rmdirTop targetIno => do
    let reply ← onLed (localRmdirTop targetIno)
    return reply.ret
  | symlink env src dst => do
    let symlinkName ← Op.lift (Path.getFilenameFromPath dst)
    let reply ← onLed (localSymlink env src symlinkName)
    return reply.ret
  | renameSameParent ts oldPath newPath flags => do
    let paradox ← Op.lift (FuseOps.paradoxCheck oldPath newPath)
    if paradox then return -EINVAL
    let oldName ← Op.lift (Path.getFilenameFromPath oldPath)
    let newName ← Op.lift (Path.getFilenameFromPath newPath)
    let reply ← onLed (localRenameSameParent ts oldName newName flags)
    return reply.ret
  | renameNotSameParentSrc oldPath flags => do
    let oldName ← Op.lift (Path.getFilenameFromPath oldPath)
    let _ ← onLed (localRenameNotSameParentSrc oldName flags)
    return 0
  | renameNotSameParentDst checkDstIno newPath flags => do
    let newName ← Op.lift (Path.getFilenameFromPath newPath)
    -- before the flags are looked at, and before the new name is looked up
    let target ← setTargetParent
    let reply ← onLed (localRenameNotSameParentDst target checkDstIno newName flags)
    return reply.ret
  | «open» targetIsParent fileName flags fh => do
    let (ret, ino) ← onInode targetIsParent fileName fun o =>
      (((localOpen o flags).1, o.i.ino), (localOpen o flags).2)
    if ret < 0 then return ret
    addFileHandler fh ⟨ino, fh⟩
    return 0
  | unlink ts childName => do
    let reply ← onLed (localUnlink ts childName)
    return reply.ret
  | truncate targetIsParent fileName offset ts =>
    onInode targetIsParent fileName fun o => localTruncate o offset ts

def Fails : Except Err Int → Prop
  | .ok ret => ret < 0
  | .error e => e = .noEntry ∨ e = .runtimeError "NOT IMPLEMENTED"

/-- The child lists, the inodes, the pending transactions and the open handles are as before. -/
structure Untouched (s s' : Leader) : Prop where
  listed : s'.led.table.listed = s.led.table.listed
  child : s'.led.table.child = s.led.table.child
  self : s'.led.table.thisDirInode = s.led.table.thisDirInode
  target : s'.target = s.target
  jtable : s'.led.jtable = s.led.jtable
  openContext : s'.openContext = s.openContext

/-- If the call fails, it has changed nothing. -/
def FailsUntouched (s : Leader) (c : LocalCall) : Prop :=
  Fails (c.perform s).1 → Untouched s (c.perform s).2

/-- The new name has no inode to be replaced, though its inode number is there, or the flags are
    not supported. -/
def Refused (t : DentryTable) (checkDstIno : Uuid) (newName : Bytes) (flags : UInt32) : Prop :=
  flags ≠ 0 ∨ checkDstIno ≠ Uuid.nil ∧ t.child newName = none

/-- Where a rename is refused that late, the directory's times are what the clock shows, or the
    moved inode's parent is the directory already. -/
def LateRefusalHarmless (s : Leader) : LocalCall → Prop
  | .renameSameParent ts oldPath newPath flags => ∀ oldName newName,
    FuseOps.paradoxCheck oldPath newPath = .ok false →
    Path.getFilenameFromPath oldPath = .ok oldName → Path.getFilenameFromPath newPath = .ok newName →
    (s.led.table.child oldName).isSome →
    Refused s.led.table (s.led.table.checkChildInode newName) newName flags →
    s.led.table.thisDirInode.core.iMtime = ts ∧ s.led.table.thisDirInode.core.iCtime = ts
  | .renameNotSameParentDst checkDstIno newPath flags => ∀ newName,
    Path.getFilenameFromPath newPath = .ok newName →
    Refused s.led.table checkDstIno newName flags →
    s.target.pIno = s.led.table.thisDirInode.ino
  | _ => True

/-! ## What cannot fail -/

/-- The result, or what the journal raises. -/
def Settled {α : Type} (ok : α → Prop) : Except Err α → Prop
  | .ok a => ok a
  | .error e => ∃ what, e = .logicError what

section

variable {σ α β : Type} {m : Op Err σ α} {f : α → Op Err σ β} {s : σ} {ok : β → Prop}

theorem settled_bind (hm : Settled (fun _ => True) (m s).1) (hf : ∀ a t, Settled ok (f a t).1) :
    Settled ok ((m >>= f) s).1 := by
  rw [Op.bind_apply]
  cases hr : (m s).1 with
  | ok a => exact hf a _
  | error e =>
      rw [hr] at hm
      exact hm

theorem settled_journalAt (dir : Uuid) (mu : Transaction.Mutation) (s : Led) :
    Settled (fun _ => True) (journalAt dir mu s).1 := by
  cases hr : (journalAt dir mu s).1 with
  | ok a => trivial
  | error e => exact JournalTable.record_error _ _ _ hr

theorem settled_journal (mu : Inode → Transaction.Mutation) (s : Led) :
    Settled (fun _ => True) (journal mu s).1 := settled_journalAt _ _ s

theorem settled_removeSrc (name : Bytes) (target : MemInode) (s : Led) :
    Settled (fun _ => True) (removeSrc name target s).1 :=
  settled_bind trivial fun _ t => settled_journal _ t

theorem settled_insertTarget (name : Bytes) (target : MemInode) (s : Led) :
    Settled (fun _ => True) (insertTarget name target s).1 :=
  settled_bind trivial fun _ t => settled_journal _ t

end

theorem not_fails_of_settled {α : Type} {r : Except Err α} {f : α → Int}
    (h : Settled (fun a => f a = 0) r) : ¬ Fails (r.map f) := by
  match r with
  | .ok a =>
      have hzero : f a = 0 := h
      show ¬ f a < 0
      rw [hzero]
      exact Int.lt_irrefl 0
  | .error e =>
      obtain ⟨what, rfl⟩ := h
      exact fun hf => by obtain hf | hf := hf <;> cases hf

/-! ## Sections -/

section

variable {s : Leader} {α : Type}

theorem Untouched.refl (s : Leader) : Untouched s s := ⟨rfl, rfl, rfl, rfl, rfl, rfl⟩

/-- A call that goes on with what a section returns. -/
theorem onLed_map (m : Section α) (f : α → Int) :
    (do
      let a ← onLed m
      return f a : LocalOp Int) s =
      ((m s.led).1.map f, { s with led := (m s.led).2 }) := by
  rw [Op.bind_apply]
  unfold onLed
  dsimp only
  cases (m s.led).1 <;> rfl

/-- What the section leaves as it is, or what it cannot fail at. -/
theorem onLed_untouched {m : Section α} {f : α → Int}
    (h : (m s.led).2 = s.led ∨ Settled (fun a => f a = 0) (m s.led).1) :
    Fails ((m s.led).1.map f) → Untouched s { s with led := (m s.led).2 } := by
  intro hf
  obtain heq | hsettled := h
  · rw [heq]
    exact .refl s
  · exact absurd hf (not_fails_of_settled hsettled)

/-- To start with, a path is taken apart. -/
theorem lift_bind {x : Except Err α} {f : α → LocalOp Int} {P : Except Err Int × Leader → Prop}
    (herror : ∀ e, x = .error e → P (.error e, s)) (hok : ∀ a, x = .ok a → P (f a s)) :
    P ((Op.lift x >>= f) s) := by
  cases hx : x with
  | ok a =>
      rw [Op.bind_ok (Op.lift_ok rfl)]
      exact hok a hx
  | error e =>
      have hraise : (Op.lift (.error e) : LocalOp α) s = (.error e, s) := rfl
      rw [Op.bind_error hraise]
      exact herror e hx

end

section

variable {s : Led} {name : Bytes}

theorem removeDst_missing {ino : Uuid} (hi : ino ≠ Uuid.nil) (hc : s.table.child name = none) :
    removeDst ino name s = (.error .noEntry, s) := by
  unfold removeDst
  rw [if_pos hi]
  exact Op.bind_error (getChildInode_absent hc)

theorem settled_removeDst {ino : Uuid} (h : ¬ (ino ≠ Uuid.nil ∧ s.table.child name = none)) :
    Settled (fun _ => True) (removeDst ino name s).1 := by
  unfold removeDst
  split
  · rename_i hi
    obtain ⟨c, hc⟩ := Option.ne_none_iff_exists'.mp fun hc => h ⟨hi, hc⟩
    rw [Op.bind_ok (getChildInode_present hc)]
    exact settled_bind trivial fun _ t => settled_journal _ t
  · trivial

theorem settled_moveEntry {ino : Uuid} {oldName : Bytes} {target : MemInode}
    (h : ¬ (ino ≠ Uuid.nil ∧ s.table.child name = none)) :
    Settled (fun reply => reply.ret = 0) (moveEntry ino oldName name target s).1 := by
  unfold moveEntry
  refine settled_bind (settled_removeDst h) fun _ t => ?_
  refine settled_bind (settled_removeSrc _ _ t) fun _ t => ?_
  exact settled_bind (settled_insertTarget _ _ t) fun _ t => rfl

theorem moveEntry_missing {ino : Uuid} {oldName : Bytes} {target : MemInode}
    (hi : ino ≠ Uuid.nil) (hc : s.table.child name = none) :
    moveEntry ino oldName name target s = (.error .noEntry, s) := by
  unfold moveEntry
  exact Op.bind_error (removeDst_missing hi hc)

theorem rmdirTop_untouched (targetIno : Uuid) : (rmdirTop targetIno s).2 = s ∨
    Settled (fun reply => reply.ret = 0) (rmdirTop targetIno s).1 := by
  have hread : (Op.read fun s => s.table.getChildNum : Section Nat) s =
      (.ok s.table.getChildNum, s) := rfl
  unfold rmdirTop
  rw [Op.bind_ok hread]
  split
  · exact Or.inl rfl
  · exact Or.inr (settled_bind (settled_journalAt _ _ s) fun _ _ => rfl)

theorem symlink_untouched (env : Env) (src : Bytes) : (symlinkChild env src name s).2 = s ∨
    Settled (fun reply => reply.ret = 0) (symlinkChild env src name s).1 := by
  by_cases hthere : s.table.checkChildInode name ≠ Uuid.nil
  · rw [symlinkChild_taken hthere]
    exact Or.inl rfl
  · right
    unfold symlinkChild
    rw [Op.bind_ok checkChildInode_apply, if_neg hthere, Op.bind_ok parentIno_apply,
      Op.bind_ok createChildInode_apply]
    exact settled_bind (settled_journal _ _) fun _ _ => rfl

theorem unlink_untouched (ts : Timespec) : (unlinkChild ts name s).2 = s ∨
    Settled (fun reply => reply.ret = 0) (unlinkChild ts name s).1 := by
  match hc : s.table.child name with
  | none =>
      rw [unlinkChild_absent hc]
      exact Or.inl rfl
  | some c =>
      right
      unfold unlinkChild
      rw [Op.bind_ok (getChildInode_present hc)]
      dsimp only
      split
      · refine settled_bind trivial fun _ t => settled_bind trivial fun _ t => ?_
        exact settled_bind trivial fun _ t => settled_bind (settled_journal _ t) fun _ _ => rfl
      · refine settled_bind trivial fun _ t => ?_
        exact settled_bind (settled_journalAt _ _ t) fun _ _ => rfl

theorem renameSrc_untouched (flags : UInt32) : (localRenameNotSameParentSrc name flags s).2 = s ∨
    Settled (fun _ => (0 : Int) = 0) (localRenameNotSameParentSrc name flags s).1 := by
  match hc : s.table.child name with
  | none =>
      left
      unfold localRenameNotSameParentSrc
      rw [Op.bind_error (getChildInode_absent hc)]
  | some c =>
      unfold localRenameNotSameParentSrc
      rw [Op.bind_ok (getChildInode_present hc)]
      split
      · exact Or.inr (settled_bind (settled_removeSrc _ _ s) fun _ _ => rfl)
      · exact Or.inl rfl

end

/-! ## The inode of a handle -/

section

variable {s : Leader} {targetIsParent : Bool} {fileName : Bytes}

/-- Putting an inode back as it was changes nothing. -/
theorem closeChild_untouched {c : MemInode} (hc : s.led.table.child fileName = some c) :
    Untouched s { s with led := s.led.closeChild fileName (s.led.openChild c) } := by
  have hchild : (s.led.table.setChildInode fileName c.inode).child = s.led.table.child := by
    funext name
    rw [DentryTable.child_setChild]
    by_cases hn : name = fileName
    · subst hn
      rw [hc, Option.map_some, if_pos ⟨rfl, rfl⟩]
    · have hsame : ∀ c' : MemInode, (if name = fileName ∧ c'.inode.ino = c.inode.ino then
          { c' with inode := c.inode } else c') = c' := fun c' => if_neg fun h => hn h.1
      simp only [hsame, Option.map_id']
  exact ⟨DentryTable.listed_setChild, hchild, thisDirInode_withChild, rfl, rfl, rfl⟩

/-- The inode is there, and can be put back, or `get_child_inode` has raised. -/
theorem onInode_cases (targetIsParent : Bool) (fileName : Bytes) (s : Leader) :
    (RpcServer.targetInode targetIsParent fileName s.led = (.error .noEntry, s.led) ∧
      ∀ (α : Type) (f : OpenInode → α × OpenInode),
        onInode targetIsParent fileName f s = (.error .noEntry, s)) ∨
    ∃ (o : OpenInode) (close : OpenInode → Led),
      RpcServer.targetInode targetIsParent fileName s.led = (.ok o.i, s.led) ∧
      Untouched s { s with led := close o } ∧
      ∀ (α : Type) (f : OpenInode → α × OpenInode),
        onInode targetIsParent fileName f s = (.ok (f o).1, { s with led := close (f o).2 }) := by
  match targetIsParent with
  | true =>
      exact Or.inr ⟨s.led.openSelf s.pIno, s.led.closeSelf, rfl, .refl s, fun _ _ => rfl⟩
  | false =>
      match hc : s.led.table.child fileName with
      | none =>
          refine Or.inl ⟨RpcServer.targetInode_absent hc, fun α f => ?_⟩
          unfold onInode onLed
          rw [onTarget_absent hc]
      | some c =>
          refine Or.inr ⟨s.led.openChild c, s.led.closeChild fileName,
            RpcServer.targetInode_child hc, closeChild_untouched hc, fun α f => ?_⟩
          unfold onInode onLed
          rw [onTarget_child hc]

theorem localOpen_refused {o : OpenInode} {flags : UInt32} (h : (localOpen o flags).1 < 0) :
    (localOpen o flags).2 = o := by
  unfold localOpen at h ⊢
  split
  · rfl
  · rename_i hdir
    rw [if_neg hdir] at h
    split
    · rfl
    · rename_i hlnk
      rw [if_neg hlnk] at h
      split at h
      · exact absurd h (Int.lt_irrefl 0)
      · exact absurd h (Int.lt_irrefl 0)

theorem localTruncate_refused {o : OpenInode} {offset : UInt64} {ts : Timespec}
    (h : (localTruncate o offset ts).1 < 0) : (localTruncate o offset ts).2 = o := by
  unfold localTruncate at h ⊢
  split
  · rfl
  · rename_i hdir
    rw [if_neg hdir] at h
    exact absurd h (Int.not_lt.mpr (Int.natCast_nonneg _))

theorem addFileHandler_not_fails (key : UInt64) (fh : FileHandler) (s : Leader) :
    ¬ Fails ((do
      addFileHandler key fh
      return 0 : LocalOp Int) s).1 := by
  match hk : s.openContext.lookup key with
  | none =>
      have hadd : addFileHandler key fh s =
          (.ok (), { s with openContext := s.openContext.insert key fh }) := by
        unfold addFileHandler
        rw [hk]
      rw [Op.bind_ok hadd]
      exact Int.lt_irrefl 0
  | some fh' =>
      have hadd : addFileHandler key fh s = (.error (.runtimeError
          "file_handler is corrupted : cannot add file_handler to list"), s) := by
        unfold addFileHandler
        rw [hk]
      rw [Op.bind_error hadd]
      exact not_or.mpr ⟨nofun, by decide⟩

end

/-! ## Calls -/

section

variable {s : Leader}

theorem opendir_untouched (targetIsParent : Bool) (fileName : Bytes) (fh : UInt64) :
    FailsUntouched s (.opendir targetIsParent fileName fh) := by
  dsimp only [FailsUntouched, LocalCall.perform]
  obtain ⟨hraise, -⟩ | ⟨o, close, hi, -, -⟩ := onInode_cases targetIsParent fileName s
  · have hled : onLed (RpcServer.targetInode targetIsParent fileName) s = (.error .noEntry, s) := by
      unfold onLed
      rw [hraise]
    rw [Op.bind_error hled]
    exact fun _ => .refl s
  · have hled : onLed (RpcServer.targetInode targetIsParent fileName) s = (.ok o.i, s) := by
      unfold onLed
      rw [hi]
    rw [Op.bind_ok hled]
    split
    · exact fun _ => .refl s
    · exact fun hf => absurd hf (addFileHandler_not_fails _ _ s)

theorem open_untouched (targetIsParent : Bool) (fileName : Bytes) (flags : UInt32) (fh : UInt64) :
    FailsUntouched s (.open targetIsParent fileName flags fh) := by
  dsimp only [FailsUntouched, LocalCall.perform]
  obtain ⟨-, hraise⟩ | ⟨o, close, -, hback, hrun⟩ := onInode_cases targetIsParent fileName s
  · rw [Op.bind_error (hraise _ _)]
    exact fun _ => .refl s
  · rw [Op.bind_ok (hrun _ _)]
    dsimp only
    split
    · rename_i hret
      rw [localOpen_refused hret]
      exact fun _ => hback
    · exact fun hf => absurd hf (addFileHandler_not_fails _ _ _)

theorem truncate_untouched (targetIsParent : Bool) (fileName : Bytes) (offset : UInt64)
    (ts : Timespec) : FailsUntouched s (.truncate targetIsParent fileName offset ts) := by
  dsimp only [FailsUntouched, LocalCall.perform]
  obtain ⟨-, hraise⟩ | ⟨o, close, -, hback, hrun⟩ := onInode_cases targetIsParent fileName s
  · rw [hraise]
    exact fun _ => .refl s
  · rw [hrun]
    intro hret
    dsimp only
    rw [localTruncate_refused hret]
    exact hback

omit s in
theorem setTimes_same {i : Inode} {ts : Timespec} (hm : i.core.iMtime = ts)
    (hc : i.core.iCtime = ts) : i.setTimes ts = i := by
  obtain ⟨core, linkTargetName⟩ := i
  obtain ⟨iMode, iUid, iGid, iIno, iNlink, iSize, iAtime, iMtime, iCtime, linkTargetLen⟩ := core
  dsimp only at hm hc
  subst hm hc
  rfl

theorem untouched_withTimes_iff (ts : Timespec) :
    Untouched s { s with led := s.led.withTimes ts } ↔
      s.led.table.thisDirInode.core.iMtime = ts ∧ s.led.table.thisDirInode.core.iCtime = ts := by
  constructor
  · intro h
    have hself : s.led.table.thisDirInode.setTimes ts = s.led.table.thisDirInode := h.self
    exact ⟨(congrArg (fun i => i.core.iMtime) hself).symm,
      (congrArg (fun i => i.core.iCtime) hself).symm⟩
  · intro ⟨hm, hc⟩
    exact ⟨rfl, rfl, setTimes_same hm hc, rfl, rfl, rfl⟩

/-- Within a directory, once the old name has been found. -/
theorem localRename_eq {ts : Timespec} {oldName newName : Bytes} {flags : UInt32} {c : MemInode}
    {t : Led} (hc : t.table.child oldName = some c) :
    localRenameSameParent ts oldName newName flags t =
      (if flags = 0 then moveEntry (t.table.checkChildInode newName) oldName newName c
        else return ⟨-ENOSYS, none⟩) (t.withTimes ts) := by
  unfold localRenameSameParent
  rw [Op.bind_ok (getChildInode_present hc), Op.bind_ok checkChildInode_apply,
    Op.bind_ok setParentTimes_apply]

theorem localRename_refused {ts : Timespec} {oldName newName : Bytes} {flags : UInt32}
    {c : MemInode} {t : Led} (hc : t.table.child oldName = some c)
    (h : Refused t.table (t.table.checkChildInode newName) newName flags) :
    ∃ r, localRenameSameParent ts oldName newName flags t = (r, t.withTimes ts) ∧
      Fails (r.map fun reply => reply.ret) := by
  rw [localRename_eq hc]
  by_cases hflags : flags = 0
  · obtain ⟨hi, hnew⟩ := h.resolve_left (not_not.mpr hflags)
    rw [if_pos hflags]
    exact ⟨_, moveEntry_missing hi hnew, Or.inl rfl⟩
  · rw [if_neg hflags]
    exact ⟨.ok ⟨-ENOSYS, none⟩, rfl, Int.negSucc_lt_zero 37⟩

theorem localRename_settled {ts : Timespec} {oldName newName : Bytes} {flags : UInt32}
    {c : MemInode} {t : Led} (hc : t.table.child oldName = some c)
    (h : ¬ Refused t.table (t.table.checkChildInode newName) newName flags) :
    Settled (fun reply => reply.ret = 0) (localRenameSameParent ts oldName newName flags t).1 := by
  obtain ⟨hflags, hnew⟩ := not_or.mp h
  rw [localRename_eq hc, if_pos (not_not.mp hflags)]
  exact settled_moveEntry hnew

theorem renameSameParent_iff (ts : Timespec) (oldPath newPath : Bytes) (flags : UInt32) :
    FailsUntouched s (.renameSameParent ts oldPath newPath flags) ↔
      LateRefusalHarmless s (.renameSameParent ts oldPath newPath flags) := by
  dsimp only [FailsUntouched, LocalCall.perform, LateRefusalHarmless]
  refine lift_bind (P := fun out => (Fails out.1 → Untouched s out.2) ↔ _) (fun e he => ?_)
    fun paradox hparadox => ?_
  · exact iff_of_true (fun _ => .refl s) fun _ _ hp => by rw [he] at hp; cases hp
  split
  · subst paradox
    exact iff_of_true (fun _ => .refl s) fun _ _ hp => by rw [hparadox] at hp; cases hp
  rename_i hclear
  obtain rfl := Bool.eq_false_of_not_eq_true hclear
  refine lift_bind (P := fun out => (Fails out.1 → Untouched s out.2) ↔ _) (fun e he => ?_)
    fun oldName hold => ?_
  · exact iff_of_true (fun _ => .refl s) fun _ _ _ ho => by rw [he] at ho; cases ho
  refine lift_bind (P := fun out => (Fails out.1 → Untouched s out.2) ↔ _) (fun e he => ?_)
    fun newName hnew => ?_
  · exact iff_of_true (fun _ => .refl s) fun _ _ _ _ hn => by rw [he] at hn; cases hn
  rw [onLed_map]
  match hc : s.led.table.child oldName with
  | none =>
      have habsent : localRenameSameParent ts oldName newName flags s.led =
          (.error .noEntry, s.led) := Op.bind_error (getChildInode_absent hc)
      rw [habsent]
      exact iff_of_true (fun _ => .refl s) fun _ _ _ ho _ hsome => by
        rw [hold] at ho
        cases ho
        rw [hc] at hsome
        cases hsome
  | some c =>
      by_cases hr : Refused s.led.table (s.led.table.checkChildInode newName) newName flags
      · obtain ⟨r, hrun, hfails⟩ := @localRename_refused ts _ _ _ _ _ hc hr
        rw [hrun]
        constructor
        · exact fun h _ _ _ _ _ _ _ => (untouched_withTimes_iff ts).mp (h hfails)
        · intro h _
          have hsome : (s.led.table.child oldName).isSome := by
            rw [hc]
            rfl
          exact (untouched_withTimes_iff ts).mpr (h oldName newName hparadox hold hnew hsome hr)
      · have hsettled := @localRename_settled ts _ _ _ _ _ hc hr
        refine iff_of_true (fun hf => absurd hf (not_fails_of_settled hsettled)) ?_
        intro _ newName' _ _ hn _ hr'
        rw [hnew] at hn
        cases hn
        exact absurd hr' hr

/-- Into a directory, once the new parent has been set. -/
theorem localRenameDst_refused {target : Inode} {checkDstIno : Uuid} {newName : Bytes}
    {flags : UInt32} {t : Led} (h : Refused t.table checkDstIno newName flags) :
    ∃ r, localRenameNotSameParentDst target checkDstIno newName flags t = (r, t) ∧
      Fails (r.map fun reply => reply.ret) := by
  unfold localRenameNotSameParentDst
  rw [Op.bind_ok parentIno_apply]
  by_cases hflags : flags = 0
  · obtain ⟨hi, hnew⟩ := h.resolve_left (not_not.mpr hflags)
    rw [if_pos hflags, Op.bind_error (removeDst_missing hi hnew)]
    exact ⟨_, rfl, Or.inl rfl⟩
  · rw [if_neg hflags]
    exact ⟨_, rfl, Or.inr rfl⟩

theorem localRenameDst_settled {target : Inode} {checkDstIno : Uuid} {newName : Bytes}
    {flags : UInt32} {t : Led} (h : ¬ Refused t.table checkDstIno newName flags) :
    Settled (fun reply => reply.ret = 0)
      (localRenameNotSameParentDst target checkDstIno newName flags t).1 := by
  obtain ⟨hflags, hnew⟩ := not_or.mp h
  unfold localRenameNotSameParentDst
  rw [Op.bind_ok parentIno_apply, if_pos (not_not.mp hflags)]
  refine settled_bind (settled_removeDst hnew) fun _ t => ?_
  exact settled_bind (settled_insertTarget _ _ t) fun _ _ => rfl

theorem renameDst_iff (checkDstIno : Uuid) (newPath : Bytes) (flags : UInt32) :
    FailsUntouched s (.renameNotSameParentDst checkDstIno newPath flags) ↔
      LateRefusalHarmless s (.renameNotSameParentDst checkDstIno newPath flags) := by
  dsimp only [FailsUntouched, LocalCall.perform, LateRefusalHarmless]
  refine lift_bind (P := fun out => (Fails out.1 → Untouched s out.2) ↔ _) (fun e he => ?_)
    fun newName hnew => ?_
  · exact iff_of_true (fun _ => .refl s) fun _ hn => by rw [he] at hn; cases hn
  have hset : setTargetParent s = (.ok s.target.inode,
      { s with target := { s.target with pIno := s.led.table.thisDirInode.ino } }) := rfl
  rw [Op.bind_ok hset, onLed_map]
  dsimp only
  by_cases hr : Refused s.led.table checkDstIno newName flags
  · obtain ⟨r, hrun, hfails⟩ := @localRenameDst_refused s.target.inode _ _ _ _ hr
    rw [hrun]
    constructor
    · intro h _ _ _
      exact (congrArg (fun target => target.pIno) (h hfails).target).symm
    · intro h _
      have hp := h newName hnew hr
      refine ⟨rfl, rfl, rfl, ?_, rfl, rfl⟩
      dsimp only
      rw [← hp]
  · have hsettled := @localRenameDst_settled s.target.inode _ _ _ _ hr
    refine iff_of_true (fun hf => absurd hf (not_fails_of_settled hsettled)) ?_
    intro newName' hn hr'
    rw [hnew] at hn
    cases hn
    exact absurd hr' hr

end

/-- Every call of the nine, in every state of a leader: if it fails it has changed nothing, if and
    only if a rename that is refused late finds what it sets set already. -/
theorem fails_untouched_iff (s : Leader) (c : LocalCall) :
    FailsUntouched s c ↔ LateRefusalHarmless s c := by
  match c with
  | .opendir targetIsParent fileName fh => exact iff_of_true (opendir_untouched _ _ _) trivial
  | .rmdirTop targetIno =>
      refine iff_of_true ?_ trivial
      dsimp only [FailsUntouched, LocalCall.perform]
      rw [onLed_map]
      exact onLed_untouched (rmdirTop_untouched targetIno)
  | .symlink env src dst =>
      refine iff_of_true ?_ trivial
      dsimp only [FailsUntouched, LocalCall.perform]
      refine lift_bind (P := fun out => Fails out.1 → Untouched s out.2) (fun e _ _ => .refl s)
        fun name _ => ?_
      rw [onLed_map]
      exact onLed_untouched (symlink_untouched env src)
  | .renameSameParent ts oldPath newPath flags => exact renameSameParent_iff ts oldPath newPath flags
  | .renameNotSameParentSrc oldPath flags =>
      refine iff_of_true ?_ trivial
      dsimp only [FailsUntouched, LocalCall.perform]
      refine lift_bind (P := fun out => Fails out.1 → Untouched s out.2) (fun e _ _ => .refl s)
        fun name _ => ?_
      rw [onLed_map (f := fun _ => 0)]
      exact onLed_untouched (renameSrc_untouched flags)
  | .renameNotSameParentDst checkDstIno newPath flags => exact renameDst_iff checkDstIno newPath flags
  | .open targetIsParent fileName flags fh => exact iff_of_true (open_untouched _ _ _ _) trivial
  | .unlink ts childName =>
      refine iff_of_true ?_ trivial
      dsimp only [FailsUntouched, LocalCall.perform]
      rw [onLed_map]
      exact onLed_untouched (unlink_untouched ts)
  | .truncate targetIsParent fileName offset ts =>
      exact iff_of_true (truncate_untouched _ _ _ _) trivial

/-- A directory with one file, `a`. -/
def oneFile : Leader where
  led := ⟨((DentryTable.ofNew Creation.homeInode).createChildInode [97]
    (newFile ⟨.ofNew Creation.homeInode, ∅, ∅⟩ (Creation.envOf 1) 0)).2, ∅, ∅⟩
  pIno := Uuid.rootIno
  target := ⟨Inode.make (Creation.envOf 2) Inode.S_IFREG, Uuid.nil⟩
  openContext := ∅

/-- With `RENAME_NOREPLACE` both kinds of rename are refused after the first change. -/
theorem late_refusals :
    ((LocalCall.renameSameParent ⟨9, 0⟩ [47, 97] [47, 98] 1).perform oneFile).1 = .ok (-ENOSYS) ∧
    ¬ FailsUntouched oneFile (.renameSameParent ⟨9, 0⟩ [47, 97] [47, 98] 1) ∧
    ((LocalCall.renameNotSameParentDst Uuid.nil [47, 98] 1).perform oneFile).1 =
      .error (.runtimeError "NOT IMPLEMENTED") ∧
    ¬ FailsUntouched oneFile (.renameNotSameParentDst Uuid.nil [47, 98] 1) := by
  refine ⟨rfl, fun h => ?_, rfl, fun h => ?_⟩
  · have htimes := ((renameSameParent_iff _ _ _ _).mp h [97] [98] (by decide) (by decide)
      (by decide) rfl (Or.inl (by decide))).1
    exact absurd htimes (by decide)
  · have hparent := (renameDst_iff _ _ _).mp h [98] (by decide) (Or.inl (by decide))
    exact absurd hparent (by decide)

end FailedCalls

end Nmfs
