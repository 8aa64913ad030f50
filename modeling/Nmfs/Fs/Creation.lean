import Nmfs.Fs.Names
import Nmfs.Lib.Run

/-
  Requests of any clients that create and remove names in one directory, one after the other at its
  leader, with commits and checkpoints of its transactions in between. A transaction that has been
  committed waits until it is checkpointed; of the DENTRY object there are the children it reads as,
  and `checkpoint_syncs` says that `sync` makes of them what the checkpoint makes.
-/

namespace Nmfs

open Lib

namespace Creation

open DirectoryOps

structure Directory where
  led : Led
  /-- committed, in commit order -/
  pending : List Transaction
  /-- the children in the DENTRY object -/
  stored : Bytes → Option Uuid

inductive Request where
  | localCreate (env : Env) (name : Bytes) (mode : UInt32)
  | rpcCreate (env : Env) (name : Bytes) (mode : UInt32)
  | localMkdir (env : Env) (name : Bytes) (mode : UInt32)
  | rpcMkdir (env : Env) (name : Bytes) (mode : UInt32)
  | localSymlink (env : Env) (src name : Bytes)
  | rpcSymlink (env : Env) (src name : Bytes)
  | localUnlink (ts : Timespec) (name : Bytes)
  | rpcUnlink (ts : Timespec) (name : Bytes)

def Request.serve : Request → Section Reply
  | localCreate env name mode => LocalOps.localCreate env name mode
  | rpcCreate env name mode => RpcServer.createHandler env name mode
  | localMkdir env name mode => LocalOps.localMkdir env name mode
  | rpcMkdir env name mode => RpcServer.mkdirHandler env name mode
  | localSymlink env src name => LocalOps.localSymlink env src name
  | rpcSymlink env src name => RpcServer.symlinkHandler env src name
  | localUnlink ts name => LocalOps.localUnlink ts name
  | rpcUnlink ts name => RpcServer.unlinkHandler ts name

/-- The name that the request is about. -/
def Request.name : Request → Bytes
  | localCreate _ name _ | rpcCreate _ name _ | localMkdir _ name _ | rpcMkdir _ name _
  | localSymlink _ _ name | rpcSymlink _ _ name | localUnlink _ name | rpcUnlink _ name => name

/-- The inode number that `alloc_new_ino` gives for it. -/
def Request.newIno : Request → Option Uuid
  | localCreate env _ _ | rpcCreate env _ _ | localMkdir env _ _ | rpcMkdir env _ _
  | localSymlink env _ _ | rpcSymlink env _ _ => some env.newIno
  | localUnlink _ _ | rpcUnlink _ _ => none

/-- The requests that do not ask whether the name is taken. -/
def Request.Unchecked : Request → Prop
  | localCreate _ _ _ | rpcCreate _ _ _ | localMkdir _ _ _ | rpcMkdir _ _ _ => True
  | localSymlink _ _ _ | rpcSymlink _ _ _ | localUnlink _ _ | rpcUnlink _ _ => False

inductive Action where
  | request (r : Request)
  | commit
  | checkpoint

def step (d : Directory) : Action → Option Directory
  | .request r => some { d with led := (r.serve d.led).2 }
  | .commit =>
    (d.led.jtable.lookup d.led.table.thisDirInode.ino).map fun tx => { d with
      led := { d.led with jtable := d.led.jtable.erase d.led.table.thisDirInode.ino }
      pending := d.pending ++ [tx] }
  | .checkpoint =>
    match d.pending with
    | [] => none
    | tx :: pending => some { d with pending, stored := overlay tx.dentries d.stored }

/-- The children that the transactions make of those in the DENTRY object. -/
def overlays (pending : List Transaction) (stored : Bytes → Option Uuid) : Bytes → Option Uuid :=
  pending.foldl (fun f tx => overlay tx.dentries f) stored

/-- The children of the DENTRY object overlaid with what has been committed. -/
def Directory.base (d : Directory) : Bytes → Option Uuid := overlays d.pending d.stored

/-- Memory and journal have the same children. -/
def Directory.InStep (d : Directory) : Prop :=
  overlay d.led.tx.dentries d.base = d.led.table.listed

/-- After the request the directory is in step, no mutator has raised, and an inode number that was
    answered is under the name. -/
def Agrees (d : Directory) : Action → Prop
  | .request r =>
    let after : Directory := { d with led := (r.serve d.led).2 }
    after.InStep ∧ (∀ what, (r.serve d.led).1 ≠ .error (.logicError what)) ∧
      ∀ reply ino, (r.serve d.led).1 = .ok reply → reply.newIno = some ino →
        after.led.table.listed r.name = some ino
  | _ => True

/-- An inode number that is nowhere yet. -/
structure FreshIno (s : Led) (ino : Uuid) : Prop where
  notNil : ino ≠ Uuid.nil
  notSelf : ino ≠ s.table.dirIno
  unlisted : Lacks s.table.listed ino
  unknown : s.tx.fInodes.lookup ino = none

/-- `alloc_new_ino` gives fresh inode numbers. -/
def Fresh (d : Directory) : Action → Prop
  | .request r => ∀ ino, r.newIno = some ino → FreshIno d.led ino
  | _ => True

/-- Who creates or makes a directory names what is not there. -/
def NamesAbsent (d : Directory) : Action → Prop
  | .request r => r.Unchecked → d.led.table.listed r.name = none
  | _ => True

/-- The checkpoint is `sync` of the oldest transaction, which begins with the stored children. -/
theorem checkpoint_syncs {d : Directory} {tx : Transaction} {pending : List Transaction}
    {pool : Pool} {m : Stored} {e : Dentry} (hp : d.pending = tx :: pending)
    (hst : Stores pool tx.sIno m) (hs : tx.status ≠ .S_DELETED)
    (hload : Dentry.load pool tx.sIno (tx.status = .S_CREATED) = .ok e)
    (he : e.childList.lookup = d.stored) (hnames : ∀ n ∈ tx.dentries.entries, Dentry.NameOk n.1)
    (hfit : (Transaction.applyDentries tx.dentries.entries e).serialize.length ≤
      Dentry.MAX_DENTRY_OBJ_SIZE) :
    ∃ d' e', step d .checkpoint = some d' ∧ (tx.sync pool).1 = .ok () ∧
      Dentry.load (tx.sync pool).2 tx.sIno false = .ok e' ∧ e'.childList.lookup = d'.stored := by
  obtain ⟨m', e', hsync, hload', hlookup⟩ :=
    sync_overlays hs ((hst.load _).symm.trans hload) hnames hfit
  obtain ⟨hok, hst'⟩ := (sync_stores tx hst).2 m' hsync
  refine ⟨⟨d.led, pending, overlay tx.dentries d.stored⟩, e', ?_, hok,
    (hst'.load false).trans hload', he ▸ hlookup⟩
  unfold step
  dsimp only
  rw [hp]

/-! ## One request -/

section

variable {s : Led} {base : Bytes → Option Uuid} {env : Env} {name : Bytes} {mode : UInt32}

/-- What a request leaves behind that is served as it should. -/
structure Served (base : Bytes → Option Uuid) (name : Bytes) (result : Except Err Reply × Led) :
    Prop where
  names : Names result.2 base
  raises : ∀ what, result.1 ≠ .error (.logicError what)
  answered : ∀ reply ino, result.1 = .ok reply → reply.newIno = some ino →
    result.2.table.listed name = some ino

theorem FreshIno.noFile {ino : Uuid} (h : FreshIno s ino) (g : Inode) :
    s.tx.fInodes.lookup ino ≠ some (some g) := by
  rw [h.unknown]
  exact fun h => (nomatch h)

theorem FreshIno.noDead {ino : Uuid} (h : FreshIno s ino) : s.tx.fInodes.lookup ino ≠ some none := by
  rw [h.unknown]
  exact fun h => (nomatch h)

theorem served_ok {led : Led} {reply : Reply} (h : Names led base)
    (hans : ∀ ino, reply.newIno = some ino → led.table.listed name = some ino) :
    Served base name (.ok reply, led) := by
  refine ⟨h, fun what he => (nomatch he), ?_⟩
  intro r ino hr hino
  cases hr
  exact hans ino hino

theorem listed_created {i : MemInode} (h : Names s base) (hl : s.table.listed name = none) :
    (s.created name i).table.listed name = some i.inode.ino := by
  have hc := h.child_none hl
  show (s.table.createChildInode name i).2.listed name = _
  rw [DentryTable.listed_create hc, Function.update_self]

theorem served_create (h : Names s base) (hf : FreshIno s env.newIno)
    (hl : s.table.listed name = none) : Served base name (createChild env name mode s) := by
  rw [createChild_new (h.takesNew hl hf.noFile)]
  apply served_ok
  · exact (h.withTimes env.now).inserted hl hf.notNil hf.unlisted h.self
  · intro ino hino
    cases hino
    exact listed_created (i := newFile s env mode) (h.withTimes env.now) hl

theorem served_localMkdir (h : Names s base) (hf : FreshIno s env.newIno)
    (hl : s.table.listed name = none) :
    Served base name (LocalOps.localMkdir env name mode s) := by
  rw [localMkdir_new h.uncommitted (h.turns_new hl)]
  have hmk := ((h.withTimes env.now).insertedDir (i := newDir s env mode) hl hf.notNil hf.unlisted
    h.self hf.noDead).withChild name (sizedDir env mode)
  apply served_ok
  · apply hmk.started
    have hdir : ((s.withTimes env.now).insertedDir name (newDir s env mode)).table.dirIno =
        s.table.dirIno := DentryTable.dirIno_create
    show _ ≠ (DentryTable.setChildInode _ _ _).dirIno
    rw [DentryTable.dirIno_setChild, hdir]
    exact hf.notSelf
  · intro ino hino
    cases hino
    show (DentryTable.setChildInode _ _ _).listed name = _
    rw [DentryTable.listed_setChild]
    exact listed_created (i := newDir s env mode) (h.withTimes env.now) hl

theorem served_mkdirHandler (h : Names s base) (hf : FreshIno s env.newIno)
    (hl : s.table.listed name = none) :
    Served base name (RpcServer.mkdirHandler env name mode s) := by
  rw [mkdirHandler_new h.uncommitted (h.turns_new hl)]
  have hmk := ((h.withTimes env.now).insertedDir (i := newDir s env mode) hl hf.notNil hf.unlisted
    h.self hf.noDead).withChild name (sizedDir env mode)
  apply served_ok hmk
  intro ino hino
  cases hino
  show (DentryTable.setChildInode _ _ _).listed name = _
  rw [DentryTable.listed_setChild]
  exact listed_created (i := newDir s env mode) (h.withTimes env.now) hl

/-- A link is only made where the name is free. -/
theorem served_symlink {src : Bytes} (h : Names s base) (hf : FreshIno s env.newIno) :
    Served base name (symlinkChild env src name s) := by
  by_cases hcheck : s.table.checkChildInode name = Uuid.nil
  · have hl := h.listed_of_check hcheck
    rw [symlinkChild_new hcheck (h.takesNew hl hf.noFile)]
    apply served_ok
    · exact h.inserted hl hf.notNil hf.unlisted h.self
    · exact fun ino hino => (nomatch hino)
  · rw [symlinkChild_taken hcheck]
    exact served_ok h fun ino hino => (nomatch hino)

theorem served_unlink {ts : Timespec} (h : Names s base) :
    Served base name (unlinkChild ts name s) := by
  cases hc : s.table.child name with
  | none =>
      rw [unlinkChild_absent hc]
      exact ⟨h, fun what he => (nomatch he), fun reply ino hr => (nomatch hr)⟩
  | some c =>
      have hl := h.listed_of_child hc
      by_cases hlast : c.inode.core.iNlink - 1 = 0
      · rw [unlinkChild_last hc hlast (h.takesRemoval hl)]
        exact served_ok (((h.withoutData _).withTimes ts).removed hl) fun ino hino => (nomatch hino)
      · rw [unlinkChild_linked hc hlast, h.parent name c hc]
        have hset := h.withChild name (c.inode.setNlink (c.inode.core.iNlink - 1))
        have hch := hset.changed (c.inode.setNlink (c.inode.core.iNlink - 1))
        have hdir : (s.withChild name (c.inode.setNlink (c.inode.core.iNlink - 1))).table.dirIno =
            s.table.dirIno := DentryTable.dirIno_setChild
        rw [hdir] at hch
        exact served_ok hch fun ino hino => (nomatch hino)

/-- What a request for a taken name leaves behind that does not ask: the name keeps the inode
    number it has, and still the new one is answered, if the journal does not raise. -/
structure Unserved (s : Led) (env : Env) (result : Except Err Reply × Led) : Prop where
  listed : result.2.table.listed = s.table.listed
  result : result.1 = .ok ⟨0, some env.newIno⟩ ∨ ∃ what, result.1 = .error (.logicError what)

/-- The call of the journal decides. -/
theorem unserved_journal {led : Led} {m : Inode → Transaction.Mutation}
    {f : Unit → Section Reply} (hl : led.table.listed = s.table.listed)
    (hf : ∀ led', led'.table = led.table → Unserved s env (f () led')) :
    Unserved s env ((Led.journal m >>= f) led) := by
  rw [Op.bind_apply]
  cases hj : (Led.journal m led).1 with
  | ok u => exact hf _ rfl
  | error e =>
      obtain ⟨what, rfl⟩ := Led.journal_error hj
      exact ⟨hl, .inr ⟨what, rfl⟩⟩

theorem listed_created_taken {c : MemInode} (hc : s.table.child name = some c) (i : MemInode)
    (ts : Timespec) : ((s.created name i).withTimes ts).table.listed = s.table.listed := by
  show (s.table.createChildInode name i).2.listed = _
  rw [DentryTable.create_present hc]

theorem unserved_create {c : MemInode} (hc : s.table.child name = some c) :
    Unserved s env (createChild env name mode s) := by
  unfold createChild
  rw [Op.bind_ok Led.parentIno_apply, Op.bind_ok Led.createChildInode_apply,
    Op.bind_ok Led.setParentTimes_apply]
  have hl := listed_created_taken hc (newFile s env mode) env.now
  apply unserved_journal hl
  intro led' ht
  exact ⟨(congrArg _ ht).trans hl, .inl rfl⟩

theorem unserved_localMkdir {c : MemInode} (hc : s.table.child name = some c) :
    Unserved s env (LocalOps.localMkdir env name mode s) := by
  unfold LocalOps.localMkdir
  rw [Op.bind_ok Led.parentIno_apply, Op.bind_ok Led.createChildInode_apply,
    Op.bind_ok Led.setParentTimes_apply]
  have hl := listed_created_taken hc (newDir s env mode) env.now
  apply unserved_journal hl
  intro led' ht
  rw [Op.bind_ok Led.setChildInode_apply]
  refine ⟨?_, .inl ?_⟩
  · rw [Op.bind_ok Led.mkself_started]
    show (DentryTable.setChildInode _ _ _).listed = _
    rw [DentryTable.listed_setChild, ht]
    exact hl
  · rw [Op.bind_ok Led.mkself_started]
    rfl

theorem unserved_mkdirHandler {c : MemInode} (hc : s.table.child name = some c) :
    Unserved s env (RpcServer.mkdirHandler env name mode s) := by
  unfold RpcServer.mkdirHandler
  rw [Op.bind_ok Led.parentIno_apply, Op.bind_ok Led.createChildInode_apply,
    Op.bind_ok Led.setChildInode_apply, Op.bind_ok Led.setParentTimes_apply]
  have hl : (((s.created name (newDir s env mode)).withChild name (sizedDir env mode)).withTimes
      env.now).table.listed = s.table.listed := by
    show (DentryTable.setChildInode _ _ _).listed = _
    rw [DentryTable.listed_setChild]
    exact listed_created_taken hc _ env.now
  apply unserved_journal hl
  intro led' ht
  exact ⟨(congrArg _ ht).trans hl, .inl rfl⟩

theorem Unserved.not_agrees {result : Except Err Reply × Led} (h : Unserved s env result)
    (hf : FreshIno s env.newIno) (hraise : ∀ what, result.1 ≠ .error (.logicError what))
    (hans : ∀ reply ino, result.1 = .ok reply → reply.newIno = some ino →
      result.2.table.listed name = some ino) : False := by
  rcases h.result with hr | ⟨what, hr⟩
  · have hl := hans _ _ hr rfl
    rw [h.listed] at hl
    exact hf.unlisted name hl
  · exact hraise what hr

theorem served_request {r : Request} (h : Names s base)
    (hf : ∀ ino, r.newIno = some ino → FreshIno s ino)
    (hl : r.Unchecked → s.table.listed r.name = none) : Served base r.name (r.serve s) := by
  cases r with
  | localCreate env name mode => exact served_create h (hf _ rfl) (hl trivial)
  | rpcCreate env name mode => exact served_create h (hf _ rfl) (hl trivial)
  | localMkdir env name mode => exact served_localMkdir h (hf _ rfl) (hl trivial)
  | rpcMkdir env name mode => exact served_mkdirHandler h (hf _ rfl) (hl trivial)
  | localSymlink env src name => exact served_symlink h (hf _ rfl)
  | rpcSymlink env src name => exact served_symlink h (hf _ rfl)
  | localUnlink ts name => exact served_unlink h
  | rpcUnlink ts name => exact served_unlink h

/-- A request that agrees has named what is not there, if it did not ask. -/
theorem absent_of_served {r : Request} (h : Names s base)
    (hf : ∀ ino, r.newIno = some ino → FreshIno s ino)
    (hraise : ∀ what, (r.serve s).1 ≠ .error (.logicError what))
    (hans : ∀ reply ino, (r.serve s).1 = .ok reply → reply.newIno = some ino →
      (r.serve s).2.table.listed r.name = some ino) (hu : r.Unchecked) :
    s.table.listed r.name = none := by
  cases hc : s.table.child r.name with
  | none => exact h.listed_none hc
  | some c =>
      exfalso
      cases r with
      | localCreate env name mode => exact (unserved_create hc).not_agrees (hf _ rfl) hraise hans
      | rpcCreate env name mode => exact (unserved_create hc).not_agrees (hf _ rfl) hraise hans
      | localMkdir env name mode =>
          exact (unserved_localMkdir hc).not_agrees (hf _ rfl) hraise hans
      | rpcMkdir env name mode =>
          exact (unserved_mkdirHandler hc).not_agrees (hf _ rfl) hraise hans
      | localSymlink env src name => exact hu
      | rpcSymlink env src name => exact hu
      | localUnlink ts name => exact hu
      | rpcUnlink ts name => exact hu

end

/-! ## A run of requests -/

theorem overlays_snoc (pending : List Transaction) (tx : Transaction)
    (stored : Bytes → Option Uuid) :
    overlays (pending ++ [tx]) stored = overlay tx.dentries (overlays pending stored) :=
  List.foldl_append

/-- A commit hands the transaction over as it is. -/
theorem names_commit {s : Led} {base : Bytes → Option Uuid} (h : Names s base) :
    Names { s with jtable := s.jtable.erase s.table.thisDirInode.ino }
      (overlay s.tx.dentries base) := by
  have htx : Led.tx { s with jtable := s.jtable.erase s.table.thisDirInode.ino } =
      Transaction.new s.table.thisDirInode.ino := JournalTable.getEntry_erase _ _
  refine ⟨h.self, ?_, h.sound, ?_, h.distinct, ?_, h.notNil, h.parent⟩
  · rw [htx]
    rfl
  · rw [htx]
    exact h.listed
  · intro n u _
    rw [htx]
    exact fun h => (nomatch h)

theorem names_step {d d' : Directory} {a : Action} (h : Names d.led d.base) (hf : Fresh d a)
    (ha : NamesAbsent d a) (hstep : step d a = some d') : Names d'.led d'.base := by
  cases a with
  | request r =>
      cases hstep
      exact (served_request h hf ha).names
  | commit =>
      obtain ⟨tx, htx, rfl⟩ := Option.map_eq_some_iff.mp hstep
      have hcur : d.led.tx = tx := by
        unfold Led.tx JournalTable.getEntry
        rw [htx]
        rfl
      have hc := names_commit h
      rw [hcur] at hc
      unfold Directory.base
      rw [overlays_snoc]
      exact hc
  | checkpoint =>
      unfold step at hstep
      cases hp : d.pending with
      | nil =>
          rw [hp] at hstep
          cases hstep
      | cons tx pending =>
          rw [hp] at hstep
          cases hstep
          unfold Directory.base at h
          rw [hp] at h
          exact h

/-- Memory and journal agree after every request of a run, if and only if no create or mkdir of it
    names a child that is there. -/
theorem memory_and_journal_agree_iff (d : Directory) (as : List Action)
    (h : Names d.led d.base) (hfresh : StepsMeet step Fresh d as) :
    StepsMeet step Agrees d as ↔ StepsMeet step NamesAbsent d as := by
  refine stepsMeet_congr (I := fun d => Names d.led d.base) ?_
    (fun _ _ _ => names_step) h hfresh
  intro d a h hf
  cases a with
  | request r =>
      constructor
      · rintro ⟨-, hraise, hans⟩ hu
        exact absent_of_served h hf hraise hans hu
      · intro ha
        have hs := served_request h hf ha
        exact ⟨hs.names.listed, hs.raises, hs.answered⟩
  | commit => exact Iff.rfl
  | checkpoint => exact Iff.rfl

/-- A directory that has just been made. -/
def homeInode : Inode :=
  ⟨⟨0x41ED, 0, 0, Uuid.rootIno, 1, 4096, ⟨0, 0⟩, ⟨0, 0⟩, ⟨0, 0⟩, 0⟩, none⟩

def home : Directory := ⟨(Led.mk (.ofNew homeInode) ∅ ∅).started homeInode, [], fun _ => none⟩

def envOf (n : UInt8) : Env := ⟨0, 0, ⟨List.replicate 15 1 ++ [n], rfl⟩, ⟨1, 0⟩, ⟨1, 0⟩⟩

/-- A name that is created, committed and removed. -/
def oneCreator : List Action :=
  [.request (.localCreate (envOf 1) [97] 0), .commit, .request (.rpcUnlink ⟨2, 0⟩ [97])]

theorem memory_and_journal_agree_iff_oneCreator : StepsMeet step Agrees home oneCreator := by
  have hfresh : StepsMeet step Fresh home oneCreator := by
    refine ⟨?_, fun t _ => ⟨trivial, fun u _ => ⟨?_, fun v _ => trivial⟩⟩⟩
    · intro ino hino
      cases hino
      exact ⟨by decide, by decide, fun n hn => (nomatch hn), by decide⟩
    · exact fun ino hino => (nomatch hino)
  refine (memory_and_journal_agree_iff home oneCreator (Names.of_new homeInode ∅ ∅ rfl) hfresh).mpr ?_
  exact ⟨fun _ => rfl, fun t _ => ⟨trivial, fun u _ => ⟨fun hu => hu.elim, fun v _ => trivial⟩⟩⟩

/-- Two clients create one name, and the first file is committed by then. -/
def twoCreators : List Action :=
  [.request (.localCreate (envOf 1) [97] 0), .commit, .request (.rpcCreate (envOf 2) [97] 0)]

theorem two_creators_disagree : ¬ StepsMeet step Agrees home twoCreators := by
  intro h
  have hlast := ((h.2 _ rfl).2 _ rfl).1.2.2 ⟨0, some (envOf 2).newIno⟩ (envOf 2).newIno rfl rfl
  revert hlast
  decide

end Creation

end Nmfs
