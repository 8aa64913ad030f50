import Nmfs.Fs.Mirror
import Nmfs.Journal.Log

/-
  One client leads a directory: the operations on the directory and on the files in it, commits and
  checkpoints. Once everything is checkpointed, what is read from the pool is what is in memory.
-/

namespace Nmfs

open Lib

namespace Refinement

open DirectoryOps Mirror

/-- A change of an inode through its path or an open file. -/
inductive InodeChange where
  | chmod (mode : UInt32)
  | chown (uid gid : UInt32)
  | utimens (ts atime mtime : Timespec)
  | write (buffer : Bytes) (offset : UInt64) (flags : UInt32)
  | truncate (offset : UInt64) (ts : Timespec)

def InodeChange.perform (i : LocalOps.OpenInode) : InodeChange → LocalOps.OpenInode
  | chmod mode => LocalOps.localChmod i mode
  | chown uid gid => LocalOps.localChown i uid gid
  | utimens ts atime mtime => LocalOps.localUtimens i ts atime mtime
  | write buffer offset flags => (LocalOps.localWrite i buffer offset flags).2
  | truncate offset ts => (LocalOps.localTruncate i offset ts).2

/-- The inode is the one that the table has. -/
def onChild (name : Bytes) (change : InodeChange) (s : Led) : Led :=
  match s.table.child name with
  | none => s
  | some c =>
    let i := change.perform ⟨c.inode, c.pIno, s.dataPool, s.jtable⟩
    ⟨s.table.setChildInode name i.i, i.jtable, i.dataPool⟩

/-- The directory's own inode; `pIno` is wherever the directory lies. -/
def onSelf (pIno : Uuid) (change : InodeChange) (s : Led) : Led :=
  let i := change.perform ⟨s.table.thisDirInode, pIno, s.dataPool, s.jtable⟩
  ⟨{ s.table with thisDirInode := i.i }, i.jtable, i.dataPool⟩

inductive Operation where
  | request (r : Creation.Request)
  | localRename (ts : Timespec) (oldName newName : Bytes)
  | rpcRename (oldName newName : Bytes)
  | localRenameSrc (oldName : Bytes)
  | rpcRenameSrc (oldName : Bytes)
  | localRenameDst (target : Inode) (checkDstIno : Uuid) (newName : Bytes)
  | rpcRenameDst (target : Inode) (checkDstIno : Uuid) (newName : Bytes)
  | localRmdirDown (ts : Timespec) (targetIno : Uuid) (targetName : Bytes)
  | rpcRmdirDown (ts : Timespec) (targetIno : Uuid) (targetName : Bytes)
  | child (name : Bytes) (change : InodeChange)
  | self (pIno : Uuid) (change : InodeChange)

def Operation.perform (s : Led) : Operation → Except Err Reply × Led
  | request r => r.serve s
  | localRename ts oldName newName => LocalOps.localRenameSameParent ts oldName newName 0 s
  | rpcRename oldName newName => RpcServer.renameSameParentHandler oldName newName 0 s
  | localRenameSrc oldName =>
    (do let _ ← LocalOps.localRenameNotSameParentSrc oldName 0; return ⟨0, none⟩ : Section Reply) s
  | rpcRenameSrc oldName =>
    (do
      let (ret, _) ← RpcServer.renameNotSameParentSrcHandler oldName 0
      return ⟨ret, none⟩ : Section Reply) s
  | localRenameDst target checkDstIno newName =>
    LocalOps.localRenameNotSameParentDst target checkDstIno newName 0 s
  | rpcRenameDst target checkDstIno newName =>
    RpcServer.renameNotSameParentDstHandler target checkDstIno newName 0 s
  | localRmdirDown ts targetIno targetName => LocalOps.localRmdirDown ts targetIno targetName s
  | rpcRmdirDown ts targetIno targetName => RpcServer.rmdirDownHandler ts targetIno targetName s
  | child name change => (.ok ⟨0, none⟩, onChild name change s)
  | self pIno change => (.ok ⟨0, none⟩, onSelf pIno change s)

/-- The leader, the meta pool, and what is committed and not yet checkpointed. -/
structure State where
  led : Led
  pool : Pool
  queue : List Transaction

inductive Action where
  | operation (o : Operation)
  | commit
  | checkpoint

def step (s : State) : Action → Option State
  | .operation o => some { s with led := (o.perform s.led).2 }
  | .commit =>
    (s.led.jtable.lookup s.led.table.thisDirInode.ino).bind fun tx =>
      match tx.commit s.pool with
      | .error _ => none
      | .ok (tx, pool) => some ⟨committed s.led, pool, s.queue ++ [tx]⟩
  | .checkpoint =>
    match s.queue with
    | [] => none
    | tx :: queue =>
      match tx.checkpoint s.pool with
      | (.error _, _) => none
      | (.ok (), pool) => some ⟨s.led, pool, queue⟩

/-- What is left in the queue is checkpointed, in commit order. -/
def checkpointAll : List Transaction → Pool → Except Err Unit × Pool
  | [], pool => (.ok (), pool)
  | tx :: queue, pool =>
    match tx.checkpoint pool with
    | (.error e, pool) => (.error e, pool)
    | (.ok (), pool) => checkpointAll queue pool

/-! ## What is asked of the operations -/

/-- The file name of a path. -/
def IsName (name : Bytes) : Prop := Dentry.NameOk name ∧ name ≠ [47]

/-- The mode has no other file type than `type`. -/
def HasType (mode type : UInt32) : Prop := (mode ||| type) &&& Inode.S_IFMT = type

instance (mode type : UInt32) : Decidable (HasType mode type) :=
  inferInstanceAs (Decidable (_ = _))

/-- A new child: its name is absent, and `alloc_new_ino` gives a fresh inode number. -/
structure NewName (s : Led) (env : Env) (name : Bytes) : Prop where
  isName : IsName name
  absent : s.table.listed name = none
  fresh : Creation.FreshIno s env.newIno

def InodeChange.Valid (i : Inode) : InodeChange → Prop
  | chmod mode => HasType mode (i.core.iMode &&& Inode.S_IFMT)
  | _ => True

/-- A path to a directory is not written to. -/
def InodeChange.OfDir : InodeChange → Prop
  | write _ _ _ => False
  | _ => True

instance (i : Inode) : (change : InodeChange) → Decidable (change.Valid i)
  | .chmod mode => inferInstanceAs (Decidable (HasType mode (i.core.iMode &&& Inode.S_IFMT)))
  | .chown _ _ | .utimens _ _ _ | .write _ _ _ | .truncate _ _ => .isTrue trivial

instance : (change : InodeChange) → Decidable change.OfDir
  | .write _ _ _ => .isFalse id
  | .chmod _ | .chown _ _ | .utimens _ _ _ | .truncate _ _ => .isTrue trivial

/-- A rename of a child to another name, which may be taken. -/
structure Renames (s : Led) (oldName newName : Bytes) : Prop where
  isName : IsName newName
  ne : oldName ≠ newName
  present : (s.table.child oldName).isSome

/-- The second part of a rename from another directory: the name that was looked up is still what it
    was, and the inode is new to the directory and to its transaction. -/
structure MovesIn (s : Led) (target : Inode) (checkDstIno : Uuid) (newName : Bytes) : Prop where
  isName : IsName newName
  lookedUp : checkDstIno = (s.table.listed newName).getD Uuid.nil
  wellFormed : target.WellFormed
  notNil : target.ino ≠ Uuid.nil
  notSelf : target.ino ≠ s.table.dirIno
  unlisted : Lacks s.table.listed target.ino
  notLive : ∀ g, s.tx.fInodes.lookup target.ino ≠ some (some g)

def Operation.Valid (s : Led) : Operation → Prop
  | request (.localCreate env name mode) | request (.rpcCreate env name mode) =>
    NewName s env name ∧ HasType mode Inode.S_IFREG
  | request (.localMkdir env name mode) | request (.rpcMkdir env name mode) =>
    NewName s env name ∧ HasType mode Inode.S_IFDIR
  | request (.localSymlink env src name) | request (.rpcSymlink env src name) =>
    NewName s env name ∧ src.length < 2 ^ 32
  | request (.localUnlink _ name) | request (.rpcUnlink _ name) => (s.table.child name).isSome
  | localRename _ oldName newName | rpcRename oldName newName => Renames s oldName newName
  | localRenameSrc oldName | rpcRenameSrc oldName => (s.table.child oldName).isSome
  | localRenameDst target checkDstIno newName | rpcRenameDst target checkDstIno newName =>
    MovesIn s target checkDstIno newName
  | localRmdirDown _ targetIno targetName | rpcRmdirDown _ targetIno targetName =>
    s.table.listed targetName = some targetIno
  | child name change =>
    ∃ c, s.table.child name = some c ∧ IsFile c.inode ∧ change.Valid c.inode
  | self _ change => change.Valid s.table.thisDirInode ∧ change.OfDir

/-- Each operation is of the kinds above, and what is committed fits into the DENTRY object. -/
def Valid (s : State) : Action → Prop
  | .operation o => o.Valid s.led
  | .commit => s.led.table.dentries.serialize.length ≤ Dentry.MAX_DENTRY_OBJ_SIZE
  | .checkpoint => True

/-- No mutator raises. -/
def Accepted (s : State) : Action → Prop
  | .operation o => ∃ reply, (o.perform s.led).1 = .ok reply
  | _ => True

/-! ## One operation -/

section

variable {m : Stored} {d : Dentry} {s : Led} {env : Env} {name : Bytes} {mode : UInt32}

/-- The operation is accepted, and what it leaves behind still mirrors. -/
def Done (m : Stored) (d : Dentry) (result : Except Err Reply × Led) : Prop :=
  (∃ reply, result.1 = .ok reply) ∧ Mirrors m d result.2

theorem done_ok {reply : Reply} {led : Led} (h : Mirrors m d led) :
    Done m d (.ok reply, led) := ⟨⟨reply, rfl⟩, h⟩

theorem make_wellFormed (env : Env) {type : UInt32} (h : HasType mode type)
    (ht : type ≠ Inode.S_IFLNK) : (Inode.make env (mode ||| type)).WellFormed := by
  have hl : Inode.isLnk (Inode.make env (mode ||| type)).core.iMode = false := by
    unfold Inode.isLnk
    rw [show (Inode.make env (mode ||| type)).core.iMode &&& Inode.S_IFMT = type from h]
    exact decide_eq_false ht
  unfold Inode.WellFormed
  rw [if_neg (by rw [hl]; decide)]
  rfl

theorem makeLink_wellFormed (env : Env) {src : Bytes} (h : src.length < 2 ^ 32) :
    (Inode.makeLink env src).WellFormed := by
  have hl : Inode.isLnk (Inode.makeLink env src).core.iMode = true := by
    show Inode.isLnk (Inode.S_IFLNK ||| 0x1FF) = true
    decide
  have hlen : (Dentry.cString src).length ≤ src.length := (List.takeWhile_sublist _).length_le
  unfold Inode.WellFormed
  rw [if_pos hl]
  show (Dentry.cString src).length = (UInt32.ofNat (Dentry.cString src).length).toNat
  rw [UInt32.toNat_ofNat_of_lt' (by rw [UInt32.size]; omega)]

theorem NewName.newChild {i : MemInode} (h : NewName s env name) (hi : i.inode.ino = env.newIno)
    (hp : i.pIno = s.table.dirIno) (hw : i.inode.WellFormed) : NewChild s name i := by
  have hf := h.fresh
  rw [← hi] at hf
  exact ⟨h.absent, h.isName.1, hf.notNil, hf.notSelf, hf.unlisted, hp, hw⟩

theorem done_create (h : Mirrors m d s) (hn : NewName s env name)
    (ht : HasType mode Inode.S_IFREG) : Done m d (createChild env name mode s) := by
  have hr := h.recorded
  rw [createChild_new (hr.names.takesNew hn.absent hn.fresh.noFile)]
  apply done_ok
  have hnew : NewChild s name (newFile s env mode) :=
    hn.newChild (i := newFile s env mode) rfl hr.names.self (make_wellFormed env ht (by decide))
  exact ⟨(hr.withTimes env.now).inserted (hnew.withTimes env.now),
    (h.self.touched_withTimes env.now).inserted⟩

theorem done_symlink {src : Bytes} (h : Mirrors m d s) (hn : NewName s env name)
    (hsrc : src.length < 2 ^ 32) : Done m d (symlinkChild env src name s) := by
  have hr := h.recorded
  have hcheck : s.table.checkChildInode name = Uuid.nil := by
    unfold DentryTable.checkChildInode Dentry.getChildIno
    rw [if_neg hn.isName.2, show s.table.dentries.childList.lookup name = none from hn.absent]
    rfl
  rw [symlinkChild_new hcheck (hr.names.takesNew hn.absent hn.fresh.noFile)]
  apply done_ok
  have hnew : NewChild s name (newLink s env src) :=
    hn.newChild (i := newLink s env src) rfl hr.names.self (makeLink_wellFormed env hsrc)
  exact ⟨hr.inserted hnew, h.self.touched.inserted⟩

/-- The two kinds of mkdir up to the new directory's own transaction. -/
theorem mirrors_mkdir (h : Mirrors m d s) (hn : NewName s env name)
    (ht : HasType mode Inode.S_IFDIR) :
    Mirrors m d (((s.withTimes env.now).insertedDir name (newDir s env mode)).withChild name
      (sizedDir env mode)) := by
  have hr := h.recorded
  have hw := make_wellFormed env ht (by decide)
  have hdir : ¬ IsFile (newDir s env mode).inode := by
    unfold IsFile Inode.isDir
    rw [show (newDir s env mode).inode.core.iMode &&& Inode.S_IFMT = Inode.S_IFDIR from ht]
    decide
  have hnew : NewChild s name (newDir s env mode) :=
    hn.newChild (i := newDir s env mode) rfl hr.names.self hw
  have hins := (hr.withTimes env.now).insertedDir (hnew.withTimes env.now) hdir hn.fresh.unknown
  have hself : SelfRecorded m ((s.withTimes env.now).insertedDir name (newDir s env mode)) :=
    (h.self.touched_withTimes env.now).insertedDir
  refine ⟨hins.withChild hw (.inr hdir), hself.congr ?_ ?_ ?_⟩
  · rw [Led.tx_withChild]
  · exact Led.thisDirInode_withChild
  · exact DentryTable.dirIno_setChild

theorem done_localMkdir (h : Mirrors m d s) (hn : NewName s env name)
    (ht : HasType mode Inode.S_IFDIR) : Done m d (LocalOps.localMkdir env name mode s) := by
  have hr := h.recorded
  rw [localMkdir_new hr.names.uncommitted (hr.names.turns_new hn.absent)]
  apply done_ok
  have hm := mirrors_mkdir h hn ht
  have hne : (sizedDir env mode).ino ≠ (((s.withTimes env.now).insertedDir name
      (newDir s env mode)).withChild name (sizedDir env mode)).table.dirIno := by
    show _ ≠ (DentryTable.setChildInode _ _ _).dirIno
    rw [DentryTable.dirIno_setChild]
    rw [show ((s.withTimes env.now).insertedDir name (newDir s env mode)).table.dirIno =
      s.table.dirIno from DentryTable.dirIno_create]
    exact hn.fresh.notSelf
  refine ⟨hm.recorded.started hne, hm.self.congr ?_ rfl rfl⟩
  rw [hm.recorded.names.tx_started hne]

theorem done_mkdirHandler (h : Mirrors m d s) (hn : NewName s env name)
    (ht : HasType mode Inode.S_IFDIR) : Done m d (RpcServer.mkdirHandler env name mode s) := by
  have hr := h.recorded
  rw [mkdirHandler_new hr.names.uncommitted (hr.names.turns_new hn.absent)]
  exact done_ok (mirrors_mkdir h hn ht)

theorem done_unlink {ts : Timespec} (h : Mirrors m d s) {c : MemInode}
    (hc : s.table.child name = some c) : Done m d (unlinkChild ts name s) := by
  have hl := h.recorded.names.listed_of_child hc
  by_cases hlast : c.inode.core.iNlink - 1 = 0
  · rw [unlinkChild_last hc hlast (h.recorded.names.takesRemoval hl)]
    apply done_ok
    have hd : Mirrors m d (s.withoutData c.inode.ino) := h.withData _
    exact ⟨(hd.recorded.withTimes ts).removed hl (h.recorded.nameOk_listed hl),
      (hd.self.touched_withTimes ts).removed⟩
  · rw [unlinkChild_linked hc hlast, h.recorded.names.parent name c hc]
    exact done_ok (h.rewritten hc rfl (h.recorded.wellFormed name c hc))

theorem done_rmdirDown {ts : Timespec} {ino : Uuid} (h : Mirrors m d s)
    (hl : s.table.listed name = some ino) : Done m d (rmdirDown ts ino name s) := by
  have hr := h.recorded
  rw [rmdirDown_ok hr.names.uncommitted (hr.names.turns_removal hl)]
  exact done_ok ⟨(hr.withTimes ts).removedDir hl (hr.nameOk_listed hl),
    (h.self.touched_withTimes ts).removedDir⟩

/-- A child is moved to a free name. -/
theorem done_move {oldName newName : Bytes} {t : MemInode} (hr : Recorded m d s)
    (hs : SelfTouched s) (ht : s.table.child oldName = some t)
    (hfree : s.table.listed newName = none) (hnew : Dentry.NameOk newName) :
    Done m d ((removeSrc oldName t >>= fun _ => insertTarget newName t >>= fun _ =>
      (pure ⟨0, none⟩ : Section Reply)) s) := by
  have hl := hr.names.listed_of_child ht
  have hrem := hr.removed hl (hr.nameOk_listed hl)
  have hlist : (s.removed oldName t.inode.ino).table.listed =
      Function.update s.table.listed oldName none := DentryTable.listed_delete ht
  have hdir : (s.removed oldName t.inode.ino).table.dirIno = s.table.dirIno :=
    DentryTable.dirIno_delete
  have hfree' : (s.removed oldName t.inode.ino).table.listed newName = none := by
    rw [hlist]
    by_cases hn : newName = oldName
    · rw [hn, Function.update_self]
    · rw [Function.update_of_ne hn]
      exact hfree
  have hdead : (s.removed oldName t.inode.ino).tx.fInodes.lookup t.inode.ino = some none := by
    rw [Led.fInodes_removed]
    exact AList.lookup_insert _
  have hchild : NewChild (s.removed oldName t.inode.ino) newName t := by
    refine ⟨hfree', hnew, hr.names.notNil _ _ hl, ?_, ?_, ?_, hr.wellFormed _ _ ht⟩
    · rw [hdir]
      exact fun heq => hr.apart oldName (hl.trans (congrArg some heq))
    · rw [hlist]
      exact hr.names.distinct.lacks_erase hl
    · rw [hdir]
      exact hr.names.parent _ _ ht
  rw [Op.bind_ok (removeSrc_ok (hr.names.takesRemoval hl)), Op.bind_ok (insertTarget_ok
    (hrem.names.takesNew hfree' (by rw [hdead]; exact fun g hg => (nomatch hg))))]
  refine done_ok ⟨hrem.inserted hchild, ?_⟩
  have hself : SelfRecorded m (s.removed oldName t.inode.ino) := hs.removed
  exact hself.touched.inserted

/-- The part of a rename that the two kinds share. -/
theorem done_moveEntry {oldName newName : Bytes} {t : MemInode} (hr : Recorded m d s)
    (hs : SelfTouched s) (ht : s.table.child oldName = some t) (hne : oldName ≠ newName)
    (hnew : IsName newName) :
    Done m d (moveEntry (s.table.checkChildInode newName) oldName newName t s) := by
  have hcheck : s.table.checkChildInode newName = (s.table.listed newName).getD Uuid.nil := by
    unfold DentryTable.checkChildInode
    rw [if_neg hnew.2]
    rfl
  unfold moveEntry
  cases hc : s.table.child newName with
  | none =>
      have hfree := hr.names.listed_none hc
      rw [hcheck, hfree, Option.getD_none, Op.bind_ok (removeDst_absent rfl)]
      exact done_move hr hs ht hfree hnew.1
  | some c =>
      have hl := hr.names.listed_of_child hc
      have hnil := hr.names.notNil _ _ hl
      rw [hcheck, hl, Option.getD_some,
        Op.bind_ok (removeDst_present hnil hc (hr.names.takesRemoval hl))]
      have hlist : (s.removed newName c.inode.ino).table.listed =
          Function.update s.table.listed newName none := DentryTable.listed_delete hc
      have hchild : (s.removed newName c.inode.ino).table.child =
          Function.update s.table.child newName none := DentryTable.child_delete
      have hself : SelfRecorded m (s.removed newName c.inode.ino) := hs.removed
      apply done_move (hr.removed hl hnew.1) hself.touched
      · rw [hchild, Function.update_of_ne hne]
        exact ht
      · rw [hlist, Function.update_self]
      · exact hnew.1

theorem done_localRename {ts : Timespec} {oldName newName : Bytes} (h : Mirrors m d s)
    (hren : Renames s oldName newName) :
    Done m d (LocalOps.localRenameSameParent ts oldName newName 0 s) := by
  obtain ⟨t, ht⟩ := Option.isSome_iff_exists.mp hren.present
  unfold LocalOps.localRenameSameParent
  rw [Op.bind_ok (Led.getChildInode_present ht), Op.bind_ok Led.checkChildInode_apply,
    Op.bind_ok Led.setParentTimes_apply, if_pos rfl]
  exact done_moveEntry (s := s.withTimes ts) (h.recorded.withTimes ts) (h.self.touched_withTimes ts)
    ht hren.ne hren.isName

theorem done_renameHandler {oldName newName : Bytes} (h : Mirrors m d s)
    (hren : Renames s oldName newName) :
    Done m d (RpcServer.renameSameParentHandler oldName newName 0 s) := by
  obtain ⟨t, ht⟩ := Option.isSome_iff_exists.mp hren.present
  unfold RpcServer.renameSameParentHandler
  rw [Op.bind_ok (Led.getChildInode_present ht), Op.bind_ok Led.checkChildInode_apply, if_pos rfl]
  exact done_moveEntry h.recorded h.self.touched ht hren.ne hren.isName

theorem mirrors_removeSrc {oldName : Bytes} (h : Mirrors m d s) {t : MemInode}
    (ht : s.table.child oldName = some t) :
    removeSrc oldName t s = (.ok (), s.removed oldName t.inode.ino) ∧
      Mirrors m d (s.removed oldName t.inode.ino) := by
  have hr := h.recorded
  have hl := hr.names.listed_of_child ht
  exact ⟨removeSrc_ok (hr.names.takesRemoval hl), hr.removed hl (hr.nameOk_listed hl),
    h.self.touched.removed⟩

theorem done_localRenameSrc {oldName : Bytes} (h : Mirrors m d s)
    (hp : (s.table.child oldName).isSome) :
    Done m d (Operation.perform s (.localRenameSrc oldName)) := by
  obtain ⟨t, ht⟩ := Option.isSome_iff_exists.mp hp
  obtain ⟨hrem, hm⟩ := mirrors_removeSrc h ht
  have hsrc : LocalOps.localRenameNotSameParentSrc oldName 0 s =
      (.ok t, s.removed oldName t.inode.ino) := by
    unfold LocalOps.localRenameNotSameParentSrc
    rw [Op.bind_ok (Led.getChildInode_present ht), if_pos rfl, Op.bind_ok hrem]
    rfl
  unfold Operation.perform
  dsimp only
  rw [Op.bind_ok hsrc]
  exact done_ok hm

theorem done_renameSrcHandler {oldName : Bytes} (h : Mirrors m d s)
    (hp : (s.table.child oldName).isSome) :
    Done m d (Operation.perform s (.rpcRenameSrc oldName)) := by
  obtain ⟨t, ht⟩ := Option.isSome_iff_exists.mp hp
  obtain ⟨hrem, hm⟩ := mirrors_removeSrc h ht
  have hsrc : RpcServer.renameNotSameParentSrcHandler oldName 0 s =
      (.ok (0, some t.inode), s.removed oldName t.inode.ino) := by
    unfold RpcServer.renameNotSameParentSrcHandler
    rw [Op.bind_ok (Led.getChildInode_present ht), if_pos rfl, Op.bind_ok hrem]
    rfl
  unfold Operation.perform
  dsimp only
  rw [Op.bind_ok hsrc]
  exact done_ok hm

/-- The inode of another directory gets a free name. -/
theorem done_moveIn {target : Inode} {newName : Bytes} (hr : Recorded m d s)
    (hs : SelfTouched s) (hname : Dentry.NameOk newName) (hfree : s.table.listed newName = none)
    (hw : target.WellFormed) (hnil : target.ino ≠ Uuid.nil) (hself : target.ino ≠ s.table.dirIno)
    (hnew : Lacks s.table.listed target.ino)
    (hlive : ∀ g, s.tx.fInodes.lookup target.ino ≠ some (some g)) :
    Done m d ((insertTarget newName ⟨target, s.table.dirIno⟩ >>= fun _ =>
      (pure ⟨0, none⟩ : Section Reply)) s) := by
  have hchild : NewChild s newName ⟨target, s.table.dirIno⟩ :=
    ⟨hfree, hname, hnil, hself, hnew, rfl, hw⟩
  rw [Op.bind_ok (insertTarget_ok (c := ⟨target, s.table.dirIno⟩)
    (hr.names.takesNew hfree hlive))]
  exact done_ok ⟨hr.inserted hchild, hs.inserted⟩

theorem done_localRenameDst {target : Inode} {checkDstIno : Uuid} {newName : Bytes}
    (h : Mirrors m d s) (hv : MovesIn s target checkDstIno newName) :
    Done m d (LocalOps.localRenameNotSameParentDst target checkDstIno newName 0 s) := by
  have hr := h.recorded
  unfold LocalOps.localRenameNotSameParentDst
  rw [Op.bind_ok Led.parentIno_apply, if_pos rfl, hr.names.self, hv.lookedUp]
  cases hc : s.table.child newName with
  | none =>
      have hfree := hr.names.listed_none hc
      rw [hfree, Option.getD_none, Op.bind_ok (removeDst_absent rfl)]
      exact done_moveIn hr h.self.touched hv.isName.1 hfree hv.wellFormed hv.notNil hv.notSelf
        hv.unlisted hv.notLive
  | some c =>
      have hl := hr.names.listed_of_child hc
      rw [hl, Option.getD_some, Op.bind_ok (removeDst_present (hr.names.notNil _ _ hl) hc
        (hr.names.takesRemoval hl))]
      have hlist : (s.removed newName c.inode.ino).table.listed =
          Function.update s.table.listed newName none := DentryTable.listed_delete hc
      have hdir : (s.removed newName c.inode.ino).table.dirIno = s.table.dirIno :=
        DentryTable.dirIno_delete
      have hself : SelfRecorded m (s.removed newName c.inode.ino) := h.self.touched.removed
      have hin := @done_moveIn m d _ target newName
        (hr.removed hl hv.isName.1) hself.touched hv.isName.1
        (by rw [hlist, Function.update_self]) hv.wellFormed hv.notNil
        (by rw [hdir]; exact hv.notSelf) (by rw [hlist]; exact hv.unlisted.erase) (by
          intro g hg
          have hne : target.ino ≠ c.inode.ino := by
            intro heq
            exact hv.unlisted newName (hl.trans (congrArg some heq.symm))
          rw [Led.fInodes_removed, AList.lookup_insert_ne hne] at hg
          exact hv.notLive g hg)
      rw [hdir] at hin
      exact hin

/-! ## A change of an inode -/

/-- What a change makes of an inode, and that it is recorded if it is one. -/
structure Changes (o o' : LocalOps.OpenInode) : Prop where
  ino : o'.i.ino = o.i.ino
  type : o'.i.core.iMode &&& Inode.S_IFMT = o.i.core.iMode &&& Inode.S_IFMT
  link : o'.i.linkTargetName = o.i.linkTargetName ∧ o'.i.core.linkTargetLen = o.i.core.linkTargetLen
  jtable : (o'.i = o.i ∧ o'.jtable = o.jtable) ∨ o'.jtable = (if Inode.isDir o'.i.core.iMode then
    (o.jtable.record o'.i.ino (.chself o'.i)).2 else (o.jtable.record o.pIno (.chreg o'.i)).2)

theorem Changes.of_dataPool {o o' : LocalOps.OpenInode} {dataPool : Pool}
    (h : Changes { o with dataPool } o') : Changes o o' :=
  ⟨h.ino, h.type, h.link, h.jtable⟩

theorem changes_setCore {o : LocalOps.OpenInode} {core : Inode.Core}
    (hino : core.iIno = o.i.core.iIno)
    (htype : core.iMode &&& Inode.S_IFMT = o.i.core.iMode &&& Inode.S_IFMT)
    (hlen : core.linkTargetLen = o.i.core.linkTargetLen) : Changes o (o.setCore core).record := by
  refine ⟨?_, ?_, ?_, .inr ?_⟩
  · rw [LocalOps.OpenInode.record_i]
    exact hino
  · rw [LocalOps.OpenInode.record_i]
    exact htype
  · rw [LocalOps.OpenInode.record_i]
    exact ⟨rfl, hlen⟩
  · rw [LocalOps.OpenInode.record_i]
    unfold LocalOps.OpenInode.record
    split <;> rfl

theorem localWrite_cases (o : LocalOps.OpenInode) (buffer : Bytes) (offset : UInt64)
    (flags : UInt32) : ∃ dataPool,
      (LocalOps.localWrite o buffer offset flags).2 = { o with dataPool } ∨
      ∃ size, (LocalOps.localWrite o buffer offset flags).2 =
        (LocalOps.OpenInode.setSize { o with dataPool } size).chreg := by
  unfold LocalOps.localWrite
  generalize (if flags &&& LocalOps.O_APPEND ≠ 0 then o.i.core.iSize else offset) = start
  dsimp only
  refine ⟨(RadosIo.write o.dataPool .data o.i.ino.toStr buffer start.toNat).2, ?_⟩
  by_cases hlt : o.i.core.iSize < start + UInt64.ofNat buffer.length
  · rw [if_pos hlt]
    exact .inr ⟨_, rfl⟩
  · rw [if_neg hlt]
    exact .inl rfl

theorem InodeChange.changes {change : InodeChange} {o : LocalOps.OpenInode}
    (hv : change.Valid o.i) (hd : change.OfDir ∨ IsFile o.i) : Changes o (change.perform o) := by
  cases change with
  | chmod mode =>
      exact changes_setCore rfl hv rfl
  | chown uid gid => exact changes_setCore rfl rfl rfl
  | utimens ts atime mtime => exact changes_setCore rfl rfl rfl
  | write buffer offset flags =>
      have hfile : Inode.isDir o.i.core.iMode = false := hd.resolve_left fun h => h
      show Changes o (LocalOps.localWrite o buffer offset flags).2
      obtain ⟨dataPool, hsame | ⟨size, hsize⟩⟩ := localWrite_cases o buffer offset flags
      · rw [hsame]
        exact ⟨rfl, rfl, ⟨rfl, rfl⟩, .inl ⟨rfl, rfl⟩⟩
      · rw [hsize]
        refine ⟨rfl, rfl, ⟨rfl, rfl⟩, .inr ?_⟩
        show _ = if Inode.isDir o.i.core.iMode then _ else _
        rw [hfile]
        rfl
  | truncate offset ts =>
      unfold InodeChange.perform LocalOps.localTruncate
      dsimp only
      split
      · exact ⟨rfl, rfl, ⟨rfl, rfl⟩, .inl ⟨rfl, rfl⟩⟩
      · apply Changes.of_dataPool
        exact changes_setCore rfl rfl rfl

theorem wellFormed_of_changes {o o' : LocalOps.OpenInode} (h : Changes o o')
    (hw : o.i.WellFormed) : o'.i.WellFormed := by
  have hl : Inode.isLnk o'.i.core.iMode = Inode.isLnk o.i.core.iMode := by
    unfold Inode.isLnk
    rw [h.type]
  unfold Inode.WellFormed at hw ⊢
  rw [hl, h.link.1, h.link.2]
  exact hw

theorem isDir_of_changes {o o' : LocalOps.OpenInode} (h : Changes o o') :
    Inode.isDir o'.i.core.iMode = Inode.isDir o.i.core.iMode := by
  unfold Inode.isDir
  rw [h.type]

/-- A file in the directory is changed. -/
theorem mirrors_onChild {change : InodeChange} (h : Mirrors m d s) {c : MemInode}
    (hc : s.table.child name = some c) (hf : IsFile c.inode) (hv : change.Valid c.inode) :
    Mirrors m d (onChild name change s) := by
  have hr := h.recorded
  have hch := InodeChange.changes (o := ⟨c.inode, c.pIno, s.dataPool, s.jtable⟩) hv (.inr hf)
  unfold onChild
  rw [hc]
  dsimp only
  revert hch
  generalize change.perform ⟨c.inode, c.pIno, s.dataPool, s.jtable⟩ = o
  intro hch
  have hd : Mirrors m d { s with dataPool := o.dataPool } := h.withData _
  rcases hch.jtable with ⟨hi, hj⟩ | hj
  · have hw := hr.wellFormed name c hc
    rw [hi, hj]
    refine ⟨hd.recorded.withChild hw (.inl (hr.files name c hc hf)), hd.self.congr ?_ ?_ ?_⟩
    · exact congrArg _ (Led.tx_withChild (s := { s with dataPool := o.dataPool }))
    · exact Led.thisDirInode_withChild (s := { s with dataPool := o.dataPool })
    · exact DentryTable.dirIno_setChild
  · have hfile : Inode.isDir o.i.core.iMode = false := (isDir_of_changes hch).trans hf
    rw [hfile, if_neg (by decide)] at hj
    have hm := hd.rewritten (f := o.i) hc hch.ino
      (wellFormed_of_changes hch (hr.wellFormed name c hc))
    rw [hj, hr.names.parent name c hc]
    exact hm

/-- The directory itself is changed. -/
theorem mirrors_onSelf {change : InodeChange} {pIno : Uuid} (h : Mirrors m d s)
    (hv : change.Valid s.table.thisDirInode) (hd : change.OfDir) :
    Mirrors m d (onSelf pIno change s) := by
  have hch := InodeChange.changes (o := ⟨s.table.thisDirInode, pIno, s.dataPool, s.jtable⟩) hv
    (.inl hd)
  unfold onSelf
  revert hch
  generalize change.perform ⟨s.table.thisDirInode, pIno, s.dataPool, s.jtable⟩ = o
  intro hch
  have hdata : Mirrors m d { s with dataPool := o.dataPool } := h.withData _
  dsimp only
  rcases hch.jtable with ⟨hi, hj⟩ | hj
  · rw [hi, hj]
    exact hdata
  · have hdir := h.recorded.selfDir
    rw [isDir_of_changes hch, if_pos hdir.1] at hj
    rw [hj]
    exact hdata.rewrittenSelf (f := o.i) (hch.ino.trans h.recorded.names.self)
      ⟨(isDir_of_changes hch).trans hdir.1, hch.link.2.trans hdir.2⟩

theorem done_operation {o : Operation} (h : Mirrors m d s) (hv : o.Valid s) :
    Done m d (o.perform s) := by
  cases o with
  | request r =>
      cases r with
      | localCreate env name mode => exact done_create h hv.1 hv.2
      | rpcCreate env name mode => exact done_create h hv.1 hv.2
      | localMkdir env name mode => exact done_localMkdir h hv.1 hv.2
      | rpcMkdir env name mode => exact done_mkdirHandler h hv.1 hv.2
      | localSymlink env src name => exact done_symlink h hv.1 hv.2
      | rpcSymlink env src name => exact done_symlink h hv.1 hv.2
      | localUnlink ts name =>
          obtain ⟨c, hc⟩ := Option.isSome_iff_exists.mp hv
          exact done_unlink h hc
      | rpcUnlink ts name =>
          obtain ⟨c, hc⟩ := Option.isSome_iff_exists.mp hv
          exact done_unlink h hc
  | localRename ts oldName newName => exact done_localRename h hv
  | rpcRename oldName newName => exact done_renameHandler h hv
  | localRenameSrc oldName => exact done_localRenameSrc h hv
  | rpcRenameSrc oldName => exact done_renameSrcHandler h hv
  | localRenameDst target checkDstIno newName => exact done_localRenameDst h hv
  | rpcRenameDst target checkDstIno newName => exact done_localRenameDst h hv
  | localRmdirDown ts targetIno targetName => exact done_rmdirDown h hv
  | rpcRmdirDown ts targetIno targetName => exact done_rmdirDown h hv
  | child name change =>
      obtain ⟨c, hc, hf, hv⟩ := hv
      exact done_ok (mirrors_onChild h hc hf hv)
  | self pIno change => exact done_ok (mirrors_onSelf h hv.1 hv.2)

end

/-! ## A run of operations -/

def syncAll : List Transaction → Stored → Except Err Stored
  | [], m => .ok m
  | tx :: txs, m => m.sync tx >>= syncAll txs

theorem syncAll_snoc {txs : List Transaction} {tx : Transaction} {m m₁ m₂ : Stored}
    (h : syncAll txs m = .ok m₁) (h' : m₁.sync tx = .ok m₂) :
    syncAll (txs ++ [tx]) m = .ok m₂ := by
  induction txs generalizing m with
  | nil =>
      cases h
      exact bind_eq_ok.mpr ⟨m₂, h', rfl⟩
  | cons t txs ih =>
      obtain ⟨m', hm', hrest⟩ := bind_eq_ok.mp h
      exact bind_eq_ok.mpr ⟨m', hm', ih hrest⟩

/-- The pool has what `m₀` says; with the queue checkpointed it will have what `m` says, and that
    mirrors what the leader has. -/
structure Follows (dir : Uuid) (m₀ m : Stored) (d : Dentry) (s : State) : Prop where
  stores : Stores s.pool dir m₀
  queue : syncAll s.queue m₀ = .ok m
  sIno : ∀ tx ∈ s.queue, tx.sIno = dir
  mirrors : Mirrors m d s.led
  dirIno : s.led.table.dirIno = dir

theorem checkpoint_stores {dir : Uuid} {m m' : Stored} {pool : Pool} {tx : Transaction}
    (h : Stores pool dir m) (hino : tx.sIno = dir) (hs : m.sync tx = .ok m') :
    ∃ pool', tx.checkpoint pool = (.ok (), pool') ∧ Stores pool' dir m' := by
  subst hino
  obtain ⟨hok, hst⟩ := (sync_stores tx h).2 m' hs
  unfold Transaction.checkpoint
  generalize tx.sync pool = r at hok hst
  obtain ⟨result, pool'⟩ := r
  cases hok
  exact ⟨_, rfl, Journal.stores_frame hst (RadosIo.frame_write_file _ _)⟩

theorem checkpointAll_stores {dir : Uuid} {m m' : Stored} {pool : Pool} {queue : List Transaction}
    (h : Stores pool dir m) (hino : ∀ tx ∈ queue, tx.sIno = dir)
    (hs : syncAll queue m = .ok m') :
    ∃ pool', checkpointAll queue pool = (.ok (), pool') ∧ Stores pool' dir m' := by
  induction queue generalizing pool m with
  | nil =>
      cases hs
      exact ⟨pool, rfl, h⟩
  | cons tx queue ih =>
      obtain ⟨m₁, hm₁, hrest⟩ := bind_eq_ok.mp hs
      obtain ⟨pool₁, hcp, hst⟩ := checkpoint_stores h (hino tx List.mem_cons_self) hm₁
      unfold checkpointAll
      rw [hcp]
      exact ih hst (fun t ht => hino t (List.mem_cons_of_mem _ ht)) hrest

/-- The state is one that a run can reach: see `start_follows` and `step_follows`. -/
def Reachable (dir : Uuid) (s : State) : Prop := ∃ m₀ m d, Follows dir m₀ m d s

theorem dirIno_of_mirrors {m : Stored} {d : Dentry} {s : Led} (h : Mirrors m d s) :
    s.table.dirIno = d.thisIno := (load_thisIno h.recorded.load).symm

section

variable {dir : Uuid} {s s' : State} {m₀ m : Stored} {d : Dentry}

theorem Follows.operation (h : Follows dir m₀ m d s) {o : Operation} (hv : o.Valid s.led) :
    Follows dir m₀ m d { s with led := (o.perform s.led).2 } := by
  have hm := (done_operation h.mirrors hv).2
  refine ⟨h.stores, h.queue, h.sIno, hm, ?_⟩
  rw [← h.dirIno, dirIno_of_mirrors h.mirrors]
  exact dirIno_of_mirrors hm

theorem Follows.commit (h : Follows dir m₀ m d s) (hv : Valid s .commit)
    (hstep : step s .commit = some s') :
    s'.led = committed s.led ∧ ∃ m' d', Follows dir m₀ m' d' s' := by
  obtain ⟨tx, htx, hstep⟩ := Option.bind_eq_some_iff.mp hstep
  have hcur : s.led.tx = tx := by
    unfold Led.tx JournalTable.getEntry
    rw [htx]
    rfl
  obtain ⟨m', d', hsync, hm'⟩ := h.mirrors.commit hv
  have hopen : tx.committed = false := hcur ▸ h.mirrors.recorded.names.uncommitted
  have hino : tx.sIno = dir := hcur ▸ h.mirrors.recorded.sIno.trans h.dirIno
  unfold Transaction.commit at hstep
  rw [if_neg (by rw [hopen]; decide)] at hstep
  cases hstep
  refine ⟨rfl, m', d', Journal.stores_frame h.stores (RadosIo.frame_write_file _ _), ?_, ?_, hm',
    h.dirIno⟩
  · rw [hcur] at hsync
    exact syncAll_snoc h.queue hsync
  · intro t ht
    rcases List.mem_append.mp ht with ht | ht
    · exact h.sIno t ht
    · rw [List.mem_singleton.mp ht]
      exact hino

theorem Follows.checkpoint (h : Follows dir m₀ m d s) {tx : Transaction}
    {queue : List Transaction} (hq : s.queue = tx :: queue) :
    ∃ pool m₁, step s .checkpoint = some ⟨s.led, pool, queue⟩ ∧
      Follows dir m₁ m d ⟨s.led, pool, queue⟩ := by
  have hqueue := h.queue
  have hsIno := h.sIno
  rw [hq] at hqueue hsIno
  obtain ⟨m₁, hm₁, hrest⟩ := bind_eq_ok.mp hqueue
  obtain ⟨pool, hcp, hst⟩ := checkpoint_stores h.stores (hsIno tx List.mem_cons_self) hm₁
  refine ⟨pool, m₁, ?_, hst, hrest, fun t ht => hsIno t (List.mem_cons_of_mem _ ht), h.mirrors,
    h.dirIno⟩
  unfold step
  dsimp only
  rw [hq]
  dsimp only
  rw [hcp]

theorem Follows.of_checkpoint (h : Follows dir m₀ m d s) (hstep : step s .checkpoint = some s') :
    s'.led = s.led ∧ ∃ m₁, Follows dir m₁ m d s' := by
  cases hq : s.queue with
  | nil =>
      unfold step at hstep
      rw [hq] at hstep
      cases hstep
  | cons tx queue =>
      obtain ⟨pool, m₁, hs, h'⟩ := h.checkpoint hq
      rw [hs] at hstep
      cases hstep
      exact ⟨rfl, m₁, h'⟩

theorem step_follows {a : Action} (h : Reachable dir s) (hv : Valid s a)
    (hstep : step s a = some s') : Reachable dir s' := by
  obtain ⟨m₀, m, d, h⟩ := h
  cases a with
  | operation o =>
      cases hstep
      exact ⟨m₀, m, d, h.operation hv⟩
  | commit =>
      obtain ⟨-, m', d', h'⟩ := h.commit hv hstep
      exact ⟨m₀, m', d', h'⟩
  | checkpoint =>
      obtain ⟨-, m₁, h'⟩ := h.of_checkpoint hstep
      exact ⟨m₁, m, d, h'⟩

end

/-! ## Where a run starts -/

/-- The directory has just been made, and journaled with `mkself`. -/
structure JustMade (dir : Uuid) (s : State) : Prop where
  made : ∃ self jtable dataPool, s.led = (Led.mk (.ofNew self) jtable dataPool).started self ∧
    self.ino = dir ∧ IsDirectory self ∧ JournalTable.getEntry jtable dir = Transaction.new dir
  stores : ∃ m, Stores s.pool dir m
  queue : s.queue = []

/-- The objects of a directory and its children: each INODE object spells the inode with the number
    it is stored under, and no number occurs twice. -/
structure Consistent (pool : Pool) (dir : Uuid) (m : Stored) (d : Dentry) (dirInode : Inode) :
    Prop where
  stores : Stores pool dir m
  load : m.load dir false = .ok d
  spells : Inode.Spells (m.inodes dir) dirInode
  ino : dirInode.ino = dir
  directory : IsDirectory dirInode ∧ dirInode.WellFormed
  distinct : Distinct d.childList.lookup
  children : ∀ name u, d.childList.lookup name = some u →
    u ≠ Uuid.nil ∧ u ≠ dir ∧ ∃ i : Inode, i.ino = u ∧ i.WellFormed ∧ Inode.Spells (m.inodes u) i

/-- The directory has been loaded from a consistent meta pool. -/
structure Loaded (dir : Uuid) (s : State) : Prop where
  pulled : ∃ t jtable dataPool, DentryTable.pull s.pool dir = .ok t ∧ s.led = ⟨t, jtable, dataPool⟩ ∧
    JournalTable.getEntry jtable dir = Transaction.new dir
  consistent : ∃ m d dirInode, Consistent s.pool dir m d dirInode
  queue : s.queue = []

theorem justMade_reachable {dir : Uuid} {s : State} (h : JustMade dir s) : Reachable dir s := by
  obtain ⟨self, jtable, dataPool, hled, rfl, hdir, hj⟩ := h.made
  obtain ⟨m, hm⟩ := h.stores
  have htx : s.led.tx =
      { Transaction.new self.ino with sInode := some self.copy, status := .S_CREATED } := by
    rw [hled]
    show JournalTable.getEntry (jtable.record self.ino (.mkself self)).2 self.ino = _
    rw [JournalTable.getEntry_record, hj]
    rfl
  have htable : s.led.table = .ofNew self := by rw [hled]; rfl
  have hnames : Names s.led fun _ => none := by
    rw [hled]
    exact Names.of_new self jtable dataPool hj
  refine ⟨m, m, ⟨self.ino, ∅⟩, hm, by rw [h.queue]; rfl, by rw [h.queue]; exact fun _ h => (nomatch h),
    ⟨⟨hnames, ?_, ?_, ?_, ?_, ?_, ?_, ?_, ?_, ?_⟩, ?_⟩, ?_⟩
  · rw [htx, htable]
    rfl
  · rw [htx, htable]
    rfl
  · rw [htx]
    exact fun hc => (nomatch hc)
  · rw [htx]
    exact fun e he => (nomatch he)
  · rw [htable]
    exact fun n c hc => (nomatch hc)
  · rw [htable]
    exact fun n c hc => (nomatch hc)
  · rw [htx]
    exact fun u i hu => (nomatch hu)
  · rw [htable]
    exact fun n hn => (nomatch hn)
  · rw [htable]
    exact hdir
  · unfold SelfRecorded
    rw [htx, htable]
    rfl
  · rw [htable]
    rfl

/-- What is pulled from a consistent pool. -/
structure PulledFrom (dir : Uuid) (m : Stored) (d : Dentry) (t : DentryTable) : Prop where
  self : t.thisDirInode.ino = dir ∧ IsDirectory t.thisDirInode ∧
    Inode.Spells (m.inodes dir) t.thisDirInode
  dentries : t.dentries = d
  child : ∀ name c, t.child name = some c → ∃ u, t.listed name = some u ∧ c.inode.ino = u ∧
    c.inode.WellFormed ∧ Inode.Spells (m.inodes u) c.inode

theorem spells_pulled {object : Bytes} {i : Inode} (h : Inode.Spells object i)
    (hw : i.WellFormed) : Inode.Spells object i.pulled := by
  obtain ⟨post, hpost⟩ := h
  exact ⟨post, hpost.trans (by rw [Inode.serialize_pulled hw])⟩

theorem Consistent.pulledFrom {pool : Pool} {dir : Uuid} {m : Stored} {d : Dentry} {self : Inode}
    (h : Consistent pool dir m d self) {t : DentryTable}
    (hp : DentryTable.Pulled pool dir t) : PulledFrom dir m d t := by
  have hd : t.dentries = d := by
    have hload := hp.dentries
    rw [h.stores.load, h.load] at hload
    exact (Except.ok.inj hload).symm
  have hself : t.thisDirInode = self.pulled := by
    have hpull := Inode.pull_of_spells (by rw [h.ino]; exact h.stores.inodes dir) h.spells
      h.directory.2
    rw [h.ino, hp.self] at hpull
    exact Except.ok.inj hpull
  refine ⟨?_, hd, ?_⟩
  · rw [hself]
    exact ⟨h.ino, h.directory.1, spells_pulled h.spells h.directory.2⟩
  · intro name c hc
    cases hl : t.listed name with
    | none =>
        rw [hp.absent name hl] at hc
        cases hc
    | some u =>
        obtain ⟨i, hpull, hchild⟩ := hp.present name u hl
        have hlook : d.childList.lookup name = some u := by
          rw [← hd]
          exact hl
        obtain ⟨-, -, j, rfl, hw, hspells⟩ := h.children name u hlook
        rw [Inode.pull_of_spells (h.stores.inodes _) hspells hw] at hpull
        cases hpull
        rw [hc] at hchild
        cases hchild
        exact ⟨j.ino, rfl, rfl, Inode.pulled_wellFormed hw, spells_pulled hspells hw⟩

theorem loaded_reachable {dir : Uuid} {s : State} (h : Loaded dir s) : Reachable dir s := by
  obtain ⟨t, jtable, dataPool, hpull, hled, hj⟩ := h.pulled
  obtain ⟨m, d, self, hcons⟩ := h.consistent
  have hp := DentryTable.pull_ok hpull
  have hfrom := hcons.pulledFrom hp
  have hl : t.listed = d.childList.lookup := by
    unfold DentryTable.listed
    rw [hfrom.dentries]
  have hnames : Names ⟨t, jtable, dataPool⟩ t.listed := by
    refine Names.of_pulled hp dataPool hj hfrom.self.1 (by rw [hl]; exact hcons.distinct) ?_
    intro n u i hn hi
    rw [hl] at hn
    obtain ⟨hnil, -, j, rfl, hw, hspells⟩ := hcons.children n u hn
    rw [Inode.pull_of_spells (hcons.stores.inodes _) hspells hw] at hi
    cases hi
    exact ⟨rfl, hnil⟩
  have htx : (Led.mk t jtable dataPool).tx = Transaction.new dir := by
    show JournalTable.getEntry jtable t.thisDirInode.ino = _
    rw [hfrom.self.1, hj]
  refine ⟨m, m, d, hcons.stores, by rw [h.queue]; rfl,
    by rw [h.queue]; exact fun _ h => (nomatch h), ?_, by rw [hled]; exact hp.dirIno⟩
  rw [hled]
  refine ⟨⟨hl ▸ hnames, ?_, ?_, ?_, ?_, ?_, ?_, ?_, ?_, hfrom.self.2.1⟩, ?_⟩
  · rw [htx]
    show m.load t.dirIno _ = _
    rw [hp.dirIno]
    exact hcons.load
  · rw [htx]
    exact hp.dirIno.symm
  · rw [htx]
    exact fun hc => (nomatch hc)
  · rw [htx]
    exact fun e he => (nomatch he)
  · intro n c hc _
    rw [htx]
    obtain ⟨u, -, rfl, -, hspells⟩ := hfrom.child n c hc
    exact hspells
  · intro n c hc
    obtain ⟨u, -, -, hw, -⟩ := hfrom.child n c hc
    exact hw
  · rw [htx]
    exact fun u i hu => (nomatch hu)
  · intro n hn
    have hn' : d.childList.lookup n = some t.dirIno := (congrFun hl n).symm.trans hn
    exact (hcons.children n _ hn').2.1 hp.dirIno
  · unfold SelfRecorded
    rw [htx]
    show Inode.Spells (m.inodes t.dirIno) _
    rw [hp.dirIno]
    exact hfrom.self.2.2

/-! ## What is read back -/

/-- The objects of the directory say what the table has: the children, the files and the directory's
    own inode. -/
structure Refines (pool : Pool) (t : DentryTable) : Prop where
  children : ∃ d, Dentry.load pool t.dirIno false = .ok d ∧ d.childList.lookup = t.listed
  files : ∀ name c, t.child name = some c → IsFile c.inode → ∃ i,
    Inode.pull pool c.inode.ino = .ok i ∧ i.core = c.inode.core ∧ i.target = c.inode.target
  self : ∃ i, Inode.pull pool t.dirIno = .ok i ∧ i.core = t.thisDirInode.core ∧
    i.target = t.thisDirInode.target

theorem wellFormed_of_directory {i : Inode} (h : IsDirectory i) : i.WellFormed := by
  have hl : Inode.isLnk i.core.iMode = false := by
    have hd := of_decide_eq_true h.1
    unfold Inode.isLnk
    rw [hd]
    decide
  unfold Inode.WellFormed
  rw [if_neg (by rw [hl]; decide)]
  exact h.2

/-- What is in memory is what is stored, where nothing is pending. -/
theorem refines_of_mirrors {pool : Pool} {m : Stored} {d : Dentry} {s : Led}
    (hst : Stores pool s.table.dirIno m) (h : Mirrors m d s)
    (htx : s.tx = Transaction.new s.table.dirIno) : Refines pool s.table := by
  have hr := h.recorded
  constructor
  · refine ⟨d, ?_, ?_⟩
    · have hload := hr.load
      rw [htx] at hload
      exact (hst.load false).trans hload
    · have hl := hr.names.listed
      rw [htx] at hl
      exact hl
  · intro name c hc hf
    have hfile := hr.files name c hc hf
    rw [htx] at hfile
    exact ⟨_, Inode.pull_of_spells (hst.inodes _) hfile (hr.wellFormed name c hc), rfl,
      Inode.pulled_target⟩
  · have hself := h.self
    unfold SelfRecorded at hself
    rw [htx] at hself
    have hpull := Inode.pull_of_spells (i := s.table.thisDirInode)
      (by rw [hr.names.self]; exact hst.inodes _) hself (wellFormed_of_directory hr.selfDir)
    rw [hr.names.self] at hpull
    exact ⟨_, hpull, rfl, Inode.pulled_target⟩

theorem accepted_of_reachable {dir : Uuid} {s : State} {a : Action} (h : Reachable dir s)
    (hv : Valid s a) : Accepted s a := by
  obtain ⟨m₀, m, d, h⟩ := h
  cases a with
  | operation o => exact (done_operation h.mirrors hv).1
  | commit => trivial
  | checkpoint => trivial

theorem stepsMeet_accepted {dir : Uuid} {s : State} {as : List Action} (h : Reachable dir s)
    (hv : StepsMeet step Valid s as) : StepsMeet step Accepted s as := by
  induction as generalizing s with
  | nil => trivial
  | cons a as ih =>
      exact ⟨accepted_of_reachable h hv.1, fun t ht => ih (step_follows h hv.1 ht) (hv.2 t ht)⟩

/-- No mutator raises in a run, and once the run has committed everything and what is left in the
    queue is checkpointed, the pool refines what the leader has in memory. -/
theorem checkpointed_refines (dir : Uuid) (s s' : State) (as : List Action)
    (hstart : JustMade dir s ∨ Loaded dir s) (hv : StepsMeet step Valid s as)
    (hr : run step s as = some s') (hall : s'.led.jtable.lookup dir = none) :
    StepsMeet step Accepted s as ∧
      ∃ pool, checkpointAll s'.queue s'.pool = (.ok (), pool) ∧ Refines pool s'.led.table := by
  have h : Reachable dir s := hstart.elim justMade_reachable loaded_reachable
  refine ⟨stepsMeet_accepted h hv, ?_⟩
  obtain ⟨m₀, m, d, hend⟩ := run_invariant_of_stepsMeet (fun _ _ _ => step_follows) h hv hr
  obtain ⟨pool, hcp, hst⟩ := checkpointAll_stores hend.stores hend.sIno hend.queue
  refine ⟨pool, hcp, refines_of_mirrors (hend.dirIno ▸ hst) hend.mirrors ?_⟩
  show JournalTable.getEntry s'.led.jtable s'.led.table.thisDirInode.ino = _
  rw [hend.mirrors.recorded.names.self, hend.dirIno]
  unfold JournalTable.getEntry
  rw [hall]
  rfl

/-- A directory that has just been made, with an empty pool. -/
def madeState : State := ⟨Creation.home.led, ∅, []⟩

/-- A file is created and renamed, and both are committed. -/
def renameRun : List Action :=
  [.operation (.request (.localCreate (Creation.envOf 1) [97] 0x1A4)),
    .operation (.localRename ⟨2, 0⟩ [97] [98]), .commit]

theorem madeState_justMade : JustMade Creation.homeInode.ino madeState where
  made := ⟨Creation.homeInode, ∅, ∅, rfl, rfl, ⟨by decide, rfl⟩, rfl⟩
  stores := ⟨⟨none, fun _ => []⟩, fun _ => AList.lookup_empty _,
    fun _ => RadosIo.Holds.of_absent fun _ => AList.lookup_empty _⟩
  queue := rfl

theorem isName_of_lower {b : UInt8} (h : b ≠ 0 ∧ b ≠ 47) : IsName [b] :=
  ⟨⟨fun hm => h.1 (List.mem_singleton.mp hm).symm, by rw [List.length_singleton]; decide⟩,
    fun heq => h.2 (List.cons.inj heq).1⟩

theorem checkpointed_refines_rename : ∃ s', run step madeState renameRun = some s' ∧
    ∃ pool, checkpointAll s'.queue s'.pool = (.ok (), pool) ∧ Refines pool s'.led.table := by
  refine ⟨_, rfl, (checkpointed_refines Creation.homeInode.ino madeState _ renameRun
    (.inl madeState_justMade) ⟨?_, fun t ht => ⟨?_, fun u hu => ⟨?_, fun v _ => trivial⟩⟩⟩ rfl rfl).2⟩
  · refine ⟨⟨isName_of_lower (by decide), rfl, ?_⟩, by decide⟩
    exact ⟨by decide, by decide, fun n hn => (nomatch hn), by decide⟩
  · cases ht
    exact ⟨isName_of_lower (by decide), by decide, by decide⟩
  · cases ht
    cases hu
    show _ ≤ RadosIo.objSize
    rw [RadosIo.objSize_eq]
    decide

end Refinement

end Nmfs
