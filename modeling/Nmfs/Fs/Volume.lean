import Nmfs.Fs.Effects
import Nmfs.Fs.JournalCalls
import Nmfs.Journal.Check

/-
  The file system with its journal: the directories at their leaders, the meta pool, what the commit
  threads have taken from the journal tables, and what is committed and waits for its checkpoint. A
  commit thread goes over what it has taken in any order. The transactions of one directory are
  checkpointed in commit order; those of different directories in any order.

  `used`, `removed`, `erased` and `committed` are history: no step of the code looks at them.
-/

namespace Nmfs

open Lib

structure Volume (C : Type) where
  cluster : Cluster C
  pool : Pool
  /-- what `replace_map` has given to the commit thread, without what is committed already -/
  cycle : C → JournalTable
  queues : Uuid → List Transaction
  /-- the inode numbers that something has, or has had -/
  used : List Uuid
  /-- the directories that `rmdir_top` took the table of -/
  removed : List Uuid
  /-- the directories whose `rmself` has been checkpointed -/
  erased : List Uuid
  committed : List Transaction

namespace FuseOps

variable {C : Type} [DecidableEq C]

/-- `mkdir` from where the parent is found. -/
def mkdirIn (me : C) (env : Env) (parent : Uuid) (targetName : Bytes) (mode : UInt32)
    (born : Timespec) : ClientOp C Int := do
  let i ← whereLed me parent
    (do
      let _ ← onDir parent (LocalOps.localMkdir env targetName mode)
      return newDirInode env mode env.born)
    (do
      let _ ← remotely needRecovery (onDir parent (RpcServer.mkdirHandler env targetName mode))
      mkself me (newDirInode env mode born)
      return newDirInode env mode born)
  leaseDentryTableMkdir me i
  return 0

/-- `rmdir` from where the parent is found. -/
def rmdirIn (me : C) (parent : Uuid) (targetName : Bytes) (ts : Timespec) : ClientOp C Int := do
  let targetIno ← checkChildInode me parent targetName
  let mode ← getMode me parent targetName
  if ¬ Inode.isDir mode then return -LocalOps.ENOTDIR
  getDentryTable targetIno
  let ret ← rmdirTop me targetIno
  if ret = 0 then rmdirDown me parent targetIno targetName ts
  else return ret

theorem mkdirBlock_eq (me : C) (env : Env) (path : Bytes) (mode : UInt32) (born : Timespec) :
    mkdirBlock me env path mode born = (do
      let targetName ← Op.lift (Path.getFilenameFromPath path)
      let parentPath ← Op.lift (Path.getParentDirPath path)
      let parent ← pathTraversal me parentPath
      getDentryTable parent
      mkdirIn me env parent targetName mode born) := rfl

theorem rmdirBlock_eq (me : C) (path : Bytes) (ts : Timespec) :
    rmdirBlock me path ts = (do
      let targetName ← Op.lift (Path.getFilenameFromPath path)
      let parentPath ← Op.lift (Path.getParentDirPath path)
      let parent ← pathTraversal me parentPath
      getDentryTable parent
      rmdirIn me parent targetName ts) := rfl

variable {s : Cluster C} {me : C} {parent : Uuid} {led : Led} {env : Env} {name : Bytes}
  {mode : UInt32} {born ts : Timespec}

/-! ## What the two come to -/

theorem mkdirIn_absent (h : s.led parent = none) : (mkdirIn me env parent name mode born s).2 = s := by
  have hdir : ∀ {α : Type} (m : Section α), onDir parent m s = (.error .noEntry, s) := by
    intro α m
    unfold onDir
    rw [h]
  unfold mkdirIn whereLed
  rw [Op.bind_apply]
  by_cases hl : s.leader parent = me
  · rw [if_pos hl, Op.bind_error (hdir _)]
  · rw [if_neg hl, Op.bind_error (remotely_error (hdir _))]

/-- What is done on the parent, where the client leads it and where it does not. -/
def mkdirSection (here : Bool) (env : Env) (name : Bytes) (mode : UInt32) : Section Unit :=
  if here then Sections.recordMkdir env name mode
  else do
    let _ ← RpcServer.mkdirHandler env name mode

/-- The new directory's own transaction and table come after that. -/
def founded (me : C) (i : Inode) (s : Cluster C) : Cluster C :=
  (leaseDentryTableMkdir me i (mkself me i s).2).2

theorem mkself_put (hme : s.leader parent = me) (i : Inode) :
    (mkself me i (s.put parent led)).2 = s.put parent (led.started i) := by
  subst hme
  show ({ s.put parent led with
    jtables := Function.update (s.put parent led).jtables (s.leader parent)
      (((s.put parent led).jtables (s.leader parent)).record i.ino (.mkself i)).2 } : Cluster C) = _
  unfold Cluster.put Led.started
  dsimp only
  rw [Function.update_self, Function.update_idem]

theorem mkdirIn_eq (h : s.led parent = some led) :
    ∃ born', (mkdirIn me env parent name mode born s).2 =
      match mkdirSection (s.leader parent = me) env name mode led with
      | (.ok _, led) => founded me (newDirInode env mode born') (s.put parent led)
      | (.error _, led) => s.put parent led := by
  unfold mkdirIn whereLed mkdirSection
  by_cases hme : s.leader parent = me
  · refine ⟨env.born, ?_⟩
    have hdir := onDir_led (m := LocalOps.localMkdir env name mode) h
    rw [Op.bind_apply, if_pos hme, Op.bind_apply, hdir, decide_eq_true hme, if_pos rfl,
      Sections.localMkdir_eq, Op.bind_apply]
    generalize Sections.recordMkdir env name mode led = r
    obtain ⟨r, led'⟩ := r
    cases r with
    | error e => rfl
    | ok u =>
        have hself : (do
            Led.journalAt env.newIno (.mkself (DirectoryOps.sizedDir env mode))
            return ⟨0, some env.newIno⟩ : Section DirectoryOps.Reply) led' =
            (.ok ⟨0, some env.newIno⟩, led'.started (DirectoryOps.sizedDir env mode)) :=
          Op.bind_ok (Led.mkself_started (f := DirectoryOps.sizedDir env mode))
        dsimp only
        unfold founded
        rw [hself, mkself_put hme]
        rfl
  · refine ⟨born, ?_⟩
    have hdir := onDir_led (m := RpcServer.mkdirHandler env name mode) h
    rw [Op.bind_apply, if_neg hme, Op.bind_apply, decide_eq_false hme, if_neg (by decide),
      Op.bind_apply]
    cases hr : RpcServer.mkdirHandler env name mode led with
    | mk r led' =>
        rw [hr] at hdir
        cases r with
        | error e =>
            rw [remotely_error hdir, Op.bind_error hr]
        | ok reply =>
            rw [remotely_ok hdir, Op.bind_ok hr]
            rfl

/-- The number that is looked up. -/
theorem checkChildInode_looks : Op.Reads s (checkChildInode me parent name) fun ino =>
    ∃ led, s.led parent = some led ∧ ino = led.table.checkChildInode name := by
  have hdir : Op.Reads s (onDir parent (Led.checkChildInode name) : ClientOp C Uuid) fun ino =>
      ∃ led, s.led parent = some led ∧ ino = led.table.checkChildInode name :=
    onDir_reads fun led hl => ⟨rfl, fun ino hino => ⟨led, hl, (Except.ok.inj hino).symm⟩⟩
  exact whereLed_reads hdir (remotely_reads hdir)

theorem getMode_looks : Op.Reads s (getMode me parent name) fun mode =>
    ∃ led c, s.led parent = some led ∧ led.table.child name = some c ∧
      mode = c.inode.core.iMode := by
  have hdir : Op.Reads s (onDir parent (Led.getChildInode name) : ClientOp C MemInode) fun c =>
      ∃ led, s.led parent = some led ∧ led.table.child name = some c := by
    refine onDir_reads fun led hl => ⟨rfl, fun c hc => ⟨led, hl, ?_⟩⟩
    cases hchild : led.table.child name with
    | none =>
        rw [Led.getChildInode_absent hchild] at hc
        cases hc
    | some c' =>
        rw [Led.getChildInode_present hchild] at hc
        exact congrArg _ (Except.ok.inj hc)
  refine (whereLed_reads hdir (remotely_reads hdir)).bind_reads fun c ⟨led, hl, hc⟩ => ?_
  exact .pure ⟨led, c, hl, hc, rfl⟩

theorem rmdirDown_snd {ino : Uuid} : (rmdirDown me parent ino name ts s).2 =
    (onDir parent (DirectoryOps.rmdirDown ts ino name) s).2 := by
  have hpure : ∀ {β : Type} (m : ClientOp C β) (f : β → Int),
      (m >>= fun b => (pure (f b) : ClientOp C Int)) s =
        ((m s).1.map f, (m s).2) := by
    intro β m f
    rw [Op.bind_apply]
    cases (m s).1 <;> rfl
  unfold rmdirDown whereLed
  split
  · rw [hpure]
    rfl
  · unfold remotely Op.mapError
    rw [hpure]
    rfl

/-- The cluster after the first part of an rmdir. -/
def topped (s : Cluster C) (ino : Uuid) (top : Led) : Cluster C :=
  { s.put ino (top.ended ino) with
    tables := Function.update (s.put ino (top.ended ino)).tables ino none }

/-- Nothing is done, or both parts are. -/
def Rmdirs (parent : Uuid) (name : Bytes) (ts : Timespec) (s s' : Cluster C) : Prop :=
  s' = s ∨ ∃ led c top, s.led parent = some led ∧ led.table.child name = some c ∧
    s.led (led.table.checkChildInode name) = some top ∧ ¬ 0 < top.table.getChildNum ∧
    s' = (onDir parent (DirectoryOps.rmdirDown ts (led.table.checkChildInode name) name)
      (topped s (led.table.checkChildInode name) top)).2

theorem rmdirIn_rmdirs : Rmdirs parent name ts s (rmdirIn me parent name ts s).2 := by
  unfold rmdirIn
  refine Op.Reads.bind (Q := fun _ => Rmdirs parent name ts s) checkChildInode_looks
    (fun _ _ => .inl rfl) fun ino ⟨led, hl, hino⟩ => ?_
  refine Op.Reads.bind (Q := fun _ => Rmdirs parent name ts s) getMode_looks
    (fun _ _ => .inl rfl) fun mode ⟨led', c, hl', hc, _⟩ => ?_
  obtain rfl : led' = led := Option.some.inj (hl'.symm.trans hl)
  split
  · exact .inl rfl
  refine Op.Reads.bind (Q := fun _ => Rmdirs parent name ts s) getDentryTable_reads
    (fun _ _ => .inl rfl) fun _ htop => ?_
  subst hino
  obtain ⟨table, ht⟩ := Option.isSome_iff_exists.mp htop
  obtain ⟨top, htop⟩ : ∃ top, s.led (led'.table.checkChildInode name) = some top :=
    ⟨_, Option.map_eq_some_iff.mpr ⟨table, ht, rfl⟩⟩
  by_cases hn : 0 < top.table.getChildNum
  · rw [Op.bind_ok (rmdirTop_full htop hn)]
    exact .inl rfl
  · rw [Op.bind_ok (rmdirTop_empty htop hn), if_pos rfl]
    exact .inr ⟨led', c, top, hl, hc, htop, hn, rmdirDown_snd⟩

end FuseOps

namespace Volume

open Refinement

variable {C : Type} [DecidableEq C]

inductive Action (C : Type) where
  /-- an operation at the leader of the directory -/
  | perform (dir : Uuid) (o : Operation)
  | mkdir (me : C) (env : Env) (dir : Uuid) (name : Bytes) (mode : UInt32) (born : Timespec)
  | rmdir (me : C) (dir : Uuid) (name : Bytes) (ts : Timespec)
  /-- a change through a handle on an inode that its directory does not have any more -/
  | handle (i : Inode) (pIno : Uuid) (change : InodeChange)
  /-- `replace_map`, when the commit thread has committed all of the last map -/
  | replace (me : C)
  | commit (dir : Uuid)
  | checkpoint (dir : Uuid)

/-- The directory whose journal hears of the change. -/
def home (i : Inode) (pIno : Uuid) : Uuid := if Inode.isDir i.core.iMode then i.ino else pIno

def handled (s : Cluster C) (i : Inode) (pIno : Uuid) (change : InodeChange) : Cluster C :=
  let c := s.leader (home i pIno)
  let o := change.perform ⟨i, pIno, s.dataPool, s.jtables c⟩
  { s with jtables := Function.update s.jtables c o.jtable, dataPool := o.dataPool }

/-- The inode number that an operation brings along. -/
def brought : Operation → List Uuid
  | .request r => r.newIno.toList
  | .localRenameDst target _ _ | .rpcRenameDst target _ _ => [target.ino]
  | _ => []

/-- The directory that has a table in `s` and none in `s'`. -/
def lost (s s' : Cluster C) (ino : Option Uuid) : List Uuid :=
  (ino.filter fun u => (s.tables u).isSome && (s'.tables u).isNone).toList

omit [DecidableEq C] in
/-- The pending transaction of a directory, if there is one. -/
def pending (s : Volume C) (dir : Uuid) : Option Transaction :=
  (s.cluster.jtables (s.cluster.leader dir)).lookup dir

omit [DecidableEq C] in
/-- The transaction of a directory that the commit thread is about to commit. -/
def waiting (s : Volume C) (dir : Uuid) : Option Transaction :=
  (s.cycle (s.cluster.leader dir)).lookup dir

def step (s : Volume C) : Action C → Option (Volume C)
  | .perform dir o => (s.cluster.led dir).map fun led =>
    { s with
      cluster := s.cluster.put dir (o.perform led).2
      used := brought o ++ s.used }
  | .mkdir me env dir name mode born =>
    some { s with
      cluster := (FuseOps.mkdirIn me env dir name mode born s.cluster).2
      used := env.newIno :: s.used }
  | .rmdir me dir name ts =>
    let cluster := (FuseOps.rmdirIn me dir name ts s.cluster).2
    some { s with
      cluster
      removed := lost s.cluster cluster (s.cluster.entries dir name) ++ s.removed }
  | .handle i pIno change => some { s with cluster := handled s.cluster i pIno change }
  | .replace me =>
    if (s.cycle me).entries = [] then
      some { s with
        cluster := { s.cluster with jtables := Function.update s.cluster.jtables me ∅ }
        cycle := Function.update s.cycle me (s.cluster.jtables me) }
    else none
  | .commit dir =>
    (s.waiting dir).bind fun tx =>
      match tx.commit s.pool with
      | .error _ => none
      | .ok (tx, pool) =>
        let c := s.cluster.leader dir
        some { s with
          pool
          cycle := Function.update s.cycle c ((s.cycle c).erase dir)
          queues := Function.update s.queues dir (s.queues dir ++ [tx])
          committed := s.committed ++ [tx] }
  | .checkpoint dir =>
    match s.queues dir with
    | [] => none
    | tx :: queue =>
      match tx.checkpoint s.pool with
      | (.error _, _) => none
      | (.ok (), pool) =>
        some { s with
          pool
          queues := Function.update s.queues dir queue
          erased := if tx.status = .S_DELETED then dir :: s.erased else s.erased }

omit [DecidableEq C] in
/-- The transactions of a directory that the journal does not change any more. -/
def taken (s : Volume C) (dir : Uuid) : List Transaction := s.queues dir ++ (s.waiting dir).toList

omit [DecidableEq C] in
/-- The transactions of a directory that have not been checkpointed, the oldest first. -/
def line (s : Volume C) (dir : Uuid) : List Transaction := s.taken dir ++ (s.pending dir).toList

/-! ## What the clients do -/

/-- No directory has it, and it is no directory that has been removed. -/
structure Homeless (s : Volume C) (ino : Uuid) : Prop where
  unlisted : ∀ dir, Lacks (s.cluster.entries dir) ino
  notRemoved : ino ∉ s.removed

/-- The names come from the kernel, new numbers from the generator. A rename brings what another
    directory has given away. -/
def OperationLegal (s : Volume C) (led : Led) : Operation → Prop
  | .request (.localMkdir _ _ _) | .request (.rpcMkdir _ _ _) => False
  | .request r => Dentry.NameOk r.name ∧ ∀ ino, r.newIno = some ino → ino ∉ s.used
  | .localRename _ oldName newName | .rpcRename oldName newName =>
    Dentry.NameOk oldName ∧ Dentry.NameOk newName
  | .localRenameSrc oldName | .rpcRenameSrc oldName => Dentry.NameOk oldName
  | .localRenameDst target _ newName | .rpcRenameDst target _ newName =>
    Dentry.NameOk newName ∧ s.Homeless target.ino
  | .localRmdirDown _ _ _ | .rpcRmdirDown _ _ _ => False
  | .child name change =>
    ∀ c, led.table.child name = some c → Mirror.IsFile c.inode ∧ change.Valid c.inode
  | .self _ change => change.Valid led.table.thisDirInode ∧ change.OfDir

/-- The inode of a file that was in the directory `pIno`, or of a directory that has been removed. -/
inductive Open (s : Volume C) (i : Inode) (pIno : Uuid) : InodeChange → Prop
  | file {change : InodeChange} (hi : Mirror.IsFile i) (hused : i.ino ∈ s.used)
      (hnodir : s.cluster.tables i.ino = none ∧ i.ino ∉ s.removed)
      (hdir : (s.cluster.tables pIno).isSome ∨ pIno ∈ s.removed) : Open s i pIno change
  | directory {change : InodeChange} (hi : Inode.isDir i.core.iMode = true) (hd : change.OfDir)
      (hremoved : i.ino ∈ s.removed) : Open s i pIno change

def Legal (s : Volume C) : Action C → Prop
  | .perform dir o => ∀ led, s.cluster.led dir = some led → OperationLegal s led o
  | .mkdir _ env _ name mode _ =>
    IsName name ∧ HasType mode Inode.S_IFDIR ∧ env.newIno ∉ s.used
  | .rmdir _ _ name _ => IsName name
  | .handle i pIno change => change.Valid i ∧ Open s i pIno change
  | .replace _ | .commit _ | .checkpoint _ => True

end Volume

/-! ## The tables -/

/-- A table between two sections. -/
structure DentryTable.Settled (dir : Uuid) (t : DentryTable) : Prop where
  self : t.thisDirInode.ino = dir
  sound : t.Sound
  distinct : Distinct t.listed
  parent : ∀ n c, t.child n = some c → c.pIno = dir
  selfDir : Inode.isDir t.thisDirInode.core.iMode = true

theorem Led.Tells.settled {P : Uuid → Prop} {dir : Uuid} {jtable : JournalTable} {led : Led}
    (h : led.Tells P dir jtable) : led.table.Settled dir :=
  ⟨h.within.self, h.within.sound, h.distinct, h.parent, h.selfDir⟩

namespace Cluster

open FuseOps

variable {C : Type} {s : Cluster C} {used removed : List Uuid} {dir : Uuid}
  {led led' : Led} {P : Uuid → Prop} {jtable : JournalTable} {name : Bytes} {u : Uuid}

/-- The tables are settled, no two names stand for one number, and what has been removed has no
    table and no name. -/
structure Tidy (used removed : List Uuid) (s : Cluster C) : Prop where
  settled : ∀ dir table, s.tables dir = some table → table.Settled dir
  uncommitted : ∀ c, (s.jtables c).Uncommitted
  apart : ∀ dir dir' n n' u, s.entries dir n = some u → s.entries dir' n' = some u → dir = dir'
  listed : ∀ dir n u, s.entries dir n = some u → u ∈ used ∧ u ∉ removed
  led : ∀ dir table, s.tables dir = some table → dir ∈ used ∧ dir ∉ removed
  removed : ∀ u ∈ removed, u ∈ used

/-- Before a section. -/
theorem Tidy.tells (h : s.Tidy used removed) (hl : s.led dir = some led)
    (hP : ∀ n u, led.table.listed n = some u → P u) : led.Tells P dir led.jtable := by
  obtain ⟨ht, hj, -⟩ := led_eq_some.mp hl
  have hs := h.settled dir led.table ht
  refine ⟨⟨hs.self, hs.sound, fun n c hc => hP n _ ?_, ?_⟩, hs.distinct, hs.parent, hs.selfDir, .refl⟩
  · rw [hs.sound, hc]
    rfl
  · rw [hj]
    exact h.uncommitted _

theorem Tidy.mono (h : s.Tidy used removed) (used' : List Uuid) (hu : ∀ u ∈ used, u ∈ used') :
    s.Tidy used' removed :=
  ⟨h.settled, h.uncommitted, h.apart, fun d n u hn => ⟨hu u (h.listed d n u hn).1, (h.listed d n u hn).2⟩,
    fun d t ht => ⟨hu d (h.led d t ht).1, (h.led d t ht).2⟩, fun u hr => hu u (h.removed u hr)⟩

/-- What is journaled or written elsewhere does not matter. -/
theorem Tidy.of_tables {s' : Cluster C} (h : s.Tidy used removed) (ht : s'.tables = s.tables)
    (hj : ∀ c, (s'.jtables c).Uncommitted) : s'.Tidy used removed := by
  have he : s'.entries = s.entries := by
    funext d n
    unfold entries
    rw [ht]
  refine ⟨?_, hj, ?_, ?_, ?_, h.removed⟩
  · rw [ht]
    exact h.settled
  · rw [he]
    exact h.apart
  · rw [he]
    exact h.listed
  · rw [ht]
    exact h.led

/-- A directory without a name and without a table. -/
theorem Tidy.forget (h : s.Tidy used removed) (ht : s.tables u = none)
    (hu : ∀ dir, Lacks (s.entries dir) u) (hused : u ∈ used) : s.Tidy used (u :: removed) := by
  refine ⟨h.settled, h.uncommitted, h.apart, fun d n v hn => ?_, fun d t hd => ?_, fun v hv => ?_⟩
  · refine ⟨(h.listed d n v hn).1, List.not_mem_cons_of_ne_of_not_mem ?_ (h.listed d n v hn).2⟩
    intro heq
    exact hu d n (hn.trans (congrArg some heq))
  · refine ⟨(h.led d t hd).1, List.not_mem_cons_of_ne_of_not_mem ?_ (h.led d t hd).2⟩
    intro heq
    rw [heq, ht] at hd
    cases hd
  · rcases List.mem_cons.mp hv with rfl | hv
    · exact hused
    · exact h.removed v hv

theorem entries_drop [DecidableEq C] :
    Cluster.entries { s with tables := Function.update s.tables dir none } =
      Function.update s.entries dir fun _ => none := by
  funext d n
  unfold entries
  by_cases hd : d = dir
  · subst hd
    dsimp only
    rw [Function.update_self, Function.update_self]
    rfl
  · dsimp only
    rw [Function.update_of_ne hd, Function.update_of_ne hd]

section

variable [DecidableEq C]

/-- A section is over. What is new in the directory had no name before. -/
theorem Tidy.put (h : s.Tidy used removed) (hl : s.led dir = some led)
    (ht : led'.Tells P dir jtable)
    (hP : ∀ u, P u → (∃ n, led.table.listed n = some u) ∨
      (∀ d, Lacks (s.entries d) u) ∧ u ∈ used ∧ u ∉ removed) :
    (s.put dir led').Tidy used removed := by
  obtain ⟨htable, -, -⟩ := led_eq_some.mp hl
  have hold : s.entries dir = led.table.listed := entries_of_led hl
  -- what the directory has now, it had, or nobody had it
  have hnew : ∀ n u, led'.table.listed n = some u → (∃ n, s.entries dir n = some u) ∨
      (∀ d, Lacks (s.entries d) u) ∧ u ∈ used ∧ u ∉ removed := by
    intro n u hn
    rw [hold]
    rw [ht.within.sound] at hn
    obtain ⟨c, hc, rfl⟩ := Option.map_eq_some_iff.mp hn
    exact hP _ (ht.within.within n c hc)
  have hself : ∀ d n u, (s.put dir led').entries d n = some u →
      s.entries d n = some u ∧ d ≠ dir ∨ d = dir ∧ led'.table.listed n = some u := by
    intro d n u hn
    rw [entries_put] at hn
    by_cases hd : d = dir
    · subst hd
      rw [Function.update_self] at hn
      exact .inr ⟨rfl, hn⟩
    · rw [Function.update_of_ne hd] at hn
      exact .inl ⟨hn, hd⟩
  have hfrom : ∀ d n u, (s.put dir led').entries d n = some u → (∃ n, s.entries d n = some u) ∨
      (∀ d, Lacks (s.entries d) u) ∧ u ∈ used ∧ u ∉ removed := by
    intro d n u hn
    rcases hself d n u hn with ⟨hother, -⟩ | ⟨rfl, hsame⟩
    · exact .inl ⟨n, hother⟩
    · exact hnew n u hsame
  refine ⟨?_, ?_, ?_, ?_, ?_, h.removed⟩
  · intro d table hd
    rcases update_eq_some hd with ⟨rfl, htab⟩ | ⟨-, hd⟩
    · cases htab
      exact ht.settled
    · exact h.settled d table hd
  · intro c
    show (Function.update s.jtables (s.leader dir) led'.jtable c).Uncommitted
    by_cases hc : c = s.leader dir
    · subst hc
      rw [Function.update_self]
      exact ht.within.uncommitted
    · rw [Function.update_of_ne hc]
      exact h.uncommitted c
  · intro d d' n n' u hn hn'
    rcases hfrom d n u hn with ⟨k, hk⟩ | hno
    · rcases hfrom d' n' u hn' with ⟨k', hk'⟩ | hno
      · exact h.apart d d' k k' u hk hk'
      · exact absurd hk (hno.1 d k)
    · -- only the directory itself can have got it
      rcases hself d n u hn with ⟨hold, -⟩ | ⟨rfl, -⟩
      · exact absurd hold (hno.1 d n)
      · rcases hself d' n' u hn' with ⟨hold, -⟩ | ⟨rfl, -⟩
        · exact absurd hold (hno.1 d' n')
        · rfl
  · intro d n u hn
    rcases hfrom d n u hn with ⟨k, hk⟩ | hno
    · exact h.listed d k u hk
    · exact hno.2
  · intro d table hd
    rcases update_eq_some hd with ⟨rfl, -⟩ | ⟨-, hd⟩
    · exact h.led d led.table htable
    · exact h.led d table hd

omit [DecidableEq C] in
/-- A new directory gets its table. -/
theorem Tidy.lease (h : s.Tidy used removed) {i : Inode} (me : C)
    (hdir : Inode.isDir i.core.iMode = true) (hused : i.ino ∈ used) (hr : i.ino ∉ removed) :
    (leaseDentryTableMkdir me i s).2.Tidy used removed := by
  have hnone : ∀ n, (DentryTable.ofNew i).listed n = none := fun n => AList.lookup_empty _
  have hchild : ∀ n, (DentryTable.ofNew i).child n = none := fun n => AList.lookup_empty _
  have he : ∀ d n u, (leaseDentryTableMkdir me i s).2.entries d n = some u →
      s.entries d n = some u := by
    intro d n u hn
    have hn' : (Function.update s.tables i.ino (some (.ofNew i)) d).bind
        (fun table => table.listed n) = some u := hn
    by_cases hd : d = i.ino
    · rw [hd, Function.update_self] at hn'
      exact absurd hn' (by rw [Option.bind_some, hnone]; exact fun h => (nomatch h))
    · rw [Function.update_of_ne hd] at hn'
      exact hn'
  refine ⟨?_, h.uncommitted, ?_, ?_, ?_, h.removed⟩
  · intro d table hd
    rcases update_eq_some hd with ⟨rfl, ht⟩ | ⟨-, hd⟩
    · cases ht
      refine ⟨rfl, fun n => ?_, fun n n' u hn => ?_, fun n c hc => ?_, hdir⟩
      · rw [hnone, hchild]
        rfl
      · rw [hnone] at hn
        cases hn
      · rw [hchild] at hc
        cases hc
    · exact h.settled d table hd
  · exact fun d d' n n' u hn hn' => h.apart d d' n n' u (he _ _ _ hn) (he _ _ _ hn')
  · exact fun d n u hn => h.listed d n u (he _ _ _ hn)
  · intro d table hd
    rcases update_eq_some hd with ⟨rfl, -⟩ | ⟨-, hd⟩
    · exact ⟨hused, hr⟩
    · exact h.led d table hd

/-- A directory loses its table. -/
theorem Tidy.drop (h : s.Tidy used removed) :
    Cluster.Tidy used removed { s with tables := Function.update s.tables dir none } := by
  have he : ∀ d n u, Cluster.entries { s with tables := Function.update s.tables dir none } d n =
      some u → s.entries d n = some u := by
    intro d n u hn
    rw [entries_drop] at hn
    by_cases hd : d = dir
    · rw [hd, Function.update_self] at hn
      cases hn
    · rw [Function.update_of_ne hd] at hn
      exact hn
  refine ⟨fun d table hd => h.settled d table (update_none_eq_some hd).2, h.uncommitted, ?_, ?_,
    fun d table hd => h.led d table (update_none_eq_some hd).2, h.removed⟩
  · exact fun d d' n n' u hn hn' => h.apart d d' n n' u (he _ _ _ hn) (he _ _ _ hn')
  · exact fun d n u hn => h.listed d n u (he _ _ _ hn)

theorem Tidy.mkself (h : s.Tidy used removed) (me : C) (i : Inode) :
    (FuseOps.mkself me i s).2.Tidy used removed := by
  refine h.of_tables rfl fun c => ?_
  show (Function.update s.jtables me _ c).Uncommitted
  by_cases hc : c = me
  · rw [hc, Function.update_self]
    exact (h.uncommitted me).record _ _
  · rw [Function.update_of_ne hc]
    exact h.uncommitted c

/-- `rmdir_top` tells the journal of the directory that is removed. -/
theorem Tidy.topped (h : s.Tidy used removed) (ino : Uuid) {top : Led} (ht : s.led ino = some top) :
    (FuseOps.topped s ino top).Tidy used removed := by
  have hput : (s.put ino (top.ended ino)).Tidy used removed := by
    obtain ⟨htable, hj, -⟩ := led_eq_some.mp ht
    refine h.of_tables ?_ fun c => ?_
    · show Function.update s.tables ino (some top.table) = _
      rw [← htable, Function.update_eq_self]
    · show (Function.update s.jtables (s.leader ino) (top.ended ino).jtable c).Uncommitted
      by_cases hc : c = s.leader ino
      · rw [hc, Function.update_self]
        show ((top.jtable.record ino .rmself).2).Uncommitted
        rw [hj]
        exact (h.uncommitted _).record _ _
      · rw [Function.update_of_ne hc]
        exact h.uncommitted c
  exact hput.drop

theorem Settled.listed_of_empty {t : DentryTable} (h : ¬ 0 < t.getChildNum) (name : Bytes) :
    t.listed name = none := by
  have hnil : t.dentries.childList.entries = [] := List.eq_nil_of_length_eq_zero (Nat.eq_zero_of_not_pos h)
  unfold DentryTable.listed AList.lookup
  rw [hnil]
  rfl

theorem led_topped {top : Led} {ino : Uuid} (hne : dir ≠ ino) (hl : s.led dir = some led) :
    ∃ led', (FuseOps.topped s ino top).led dir = some led' ∧ led'.table = led.table := by
  obtain ⟨ht, -, -⟩ := led_eq_some.mp hl
  refine ⟨⟨led.table, (FuseOps.topped s ino top).jtables (s.leader dir),
    (FuseOps.topped s ino top).dataPool⟩, led_eq_some.mpr ⟨?_, rfl, rfl⟩, rfl⟩
  show Function.update (Function.update s.tables ino (some _)) ino none dir = _
  rw [Function.update_of_ne hne, Function.update_of_ne hne, ht]

/-- The directory `ino` is removed from `dir`. -/
structure Removes (s : Cluster C) (dir : Uuid) (name : Bytes) (ts : Timespec) (ino : Uuid)
    (led top led' : Led) (s' : Cluster C) : Prop where
  parent : s.led dir = some led
  listed : led.table.listed name = some ino
  child : s.led ino = some top
  ne : dir ≠ ino
  next : (FuseOps.topped s ino top).led dir = some led'
  same : led'.table = led.table
  eq : s' = (FuseOps.topped s ino top).put dir (DirectoryOps.rmdirDown ts ino name led').2

/-- An rmdir that does something removes an empty directory from another one. -/
theorem Tidy.rmdirs (h : s.Tidy used removed) {s' : Cluster C} {ts : Timespec}
    (hname : Refinement.IsName name) (hr : Rmdirs dir name ts s s') :
    s' = s ∨ ∃ ino led top led', s.Removes dir name ts ino led top led' s' := by
  rcases hr with rfl | ⟨led, c, top, hl, hc, htop, hn, rfl⟩
  · exact .inl rfl
  have hlist : led.table.listed name = some c.inode.ino := by
    rw [(h.settled dir led.table (led_eq_some.mp hl).1).sound, hc]
    rfl
  have hcheck : led.table.checkChildInode name = c.inode.ino := by
    unfold DentryTable.checkChildInode
    rw [if_neg hname.2]
    show (led.table.listed name).getD Uuid.nil = _
    rw [hlist]
    rfl
  rw [hcheck] at htop ⊢
  have hne : dir ≠ c.inode.ino := by
    intro heq
    rw [← heq, hl] at htop
    cases htop
    rw [Settled.listed_of_empty hn] at hlist
    cases hlist
  obtain ⟨led', hl', ht'⟩ := @led_topped C s dir led _ top c.inode.ino hne hl
  refine .inr ⟨c.inode.ino, led, top, led', hl, hlist, htop, hne, hl', ht', ?_⟩
  rw [onDir_led hl']

/-- It has no table any more. -/
theorem Removes.tables_eq_none {s' : Cluster C} {ts : Timespec} {ino : Uuid} {top : Led}
    (h : s.Removes dir name ts ino led top led' s') : s'.tables ino = none := by
  rw [h.eq]
  show Function.update (FuseOps.topped s ino top).tables dir _ ino = none
  rw [Function.update_of_ne (Ne.symm h.ne)]
  exact Function.update_self _ _ _

end

end Cluster

namespace Volume

open Refinement Cluster

variable {C : Type} [DecidableEq C] {s s' : Volume C} {dir : Uuid} {led : Led}

def Tidy (s : Volume C) : Prop := s.cluster.Tidy s.used s.removed

/-- What a directory has had and what it gets. -/
def Has (led : Led) (us : List Uuid) (u : Uuid) : Prop :=
  (∃ n, led.table.listed n = some u) ∨ u ∈ us

omit [DecidableEq C] in
theorem Tidy.unlisted_of_fresh (h : s.Tidy) {ino : Uuid} (hf : ino ∉ s.used) (d : Uuid) :
    Lacks (s.cluster.entries d) ino := fun n hn => hf (h.listed d n ino hn).1

omit [DecidableEq C] in
theorem brings_new (hl : s.cluster.led dir = some led) {ino : Uuid} {name : Bytes}
    {us : List Uuid} (hname : Dentry.NameOk name) (hf : ∀ d, Lacks (s.cluster.entries d) ino)
    (hu : ino ∈ us) : Sections.BringsNew (Has led us) led name ino := by
  refine ⟨hname, .inr hu, ?_⟩
  have := hf dir
  rwa [entries_of_led hl] at this

omit [DecidableEq C] in
theorem perform_fair (h : s.Tidy) (hl : s.cluster.led dir = some led) {o : Operation}
    (ho : OperationLegal s led o) : Sections.Fair (Has led (brought o)) led o := by
  have hrequest : ∀ r : Creation.Request, Dentry.NameOk r.name ∧ (∀ ino, r.newIno = some ino →
      ino ∉ s.used) → Dentry.NameOk r.name ∧ ∀ ino, r.newIno = some ino →
        Sections.BringsNew (Has led (brought (.request r))) led r.name ino := by
    intro r hr
    refine ⟨hr.1, fun ino hino => brings_new hl hr.1 (h.unlisted_of_fresh (hr.2 ino hino)) ?_⟩
    exact Option.mem_toList.mpr hino
  cases o with
  | request r =>
      cases r with
      | localMkdir env name mode => exact ho
      | rpcMkdir env name mode => exact ho.elim
      | localCreate env name mode => exact hrequest _ ho
      | rpcCreate env name mode => exact hrequest _ ho
      | localSymlink env src name => exact hrequest _ ho
      | rpcSymlink env src name => exact hrequest _ ho
      | localUnlink ts name => exact hrequest _ ho
      | rpcUnlink ts name => exact hrequest _ ho
  | localRename ts oldName newName => exact ho
  | rpcRename oldName newName => exact ho
  | localRenameSrc oldName => exact ho
  | rpcRenameSrc oldName => exact ho
  | localRenameDst target ino newName =>
      exact brings_new hl ho.1 ho.2.unlisted (List.mem_singleton.mpr rfl)
  | rpcRenameDst target ino newName =>
      exact brings_new hl ho.1 ho.2.unlisted (List.mem_singleton.mpr rfl)
  | localRmdirDown ts ino name => exact ho.elim
  | rpcRmdirDown ts ino name => exact ho.elim
  | child name change => exact ho
  | self pIno change => exact ho

omit [DecidableEq C] in
theorem perform_tells (h : s.Tidy) (hl : s.cluster.led dir = some led) {o : Operation}
    (ho : OperationLegal s led o) :
    (o.perform led).2.Tells (Has led (brought o)) dir led.jtable :=
  Sections.operation_tells (Cluster.Tidy.tells h hl fun n _ hn => .inl ⟨n, hn⟩)
    (perform_fair h hl ho)

omit [DecidableEq C] in
theorem mkdirSection_tells (h : s.Tidy) (hl : s.cluster.led dir = some led) {env : Env}
    {name : Bytes} (hname : Dentry.NameOk name) (hf : env.newIno ∉ s.used) (here : Bool)
    (mode : UInt32) :
    (FuseOps.mkdirSection here env name mode led).2.Tells (Has led [env.newIno]) dir led.jtable := by
  have hb := brings_new hl hname (h.unlisted_of_fresh hf) (List.mem_singleton.mpr rfl)
  have ht := Cluster.Tidy.tells h hl (P := Has led [env.newIno]) fun n u hn => .inl ⟨n, hn⟩
  unfold FuseOps.mkdirSection
  split
  · exact Sections.tells_recordMkdir hname hb.within led ⟨ht, hb.unlisted⟩
  · exact Sections.then_tells (Sections.tells_mkdirHandler hname hb.within)
      (fun _ => Op.Keeps.pure _) led ⟨ht, hb.unlisted⟩

theorem isDir_newDirInode {env : Env} {mode : UInt32} {born : Timespec}
    (ht : HasType mode Inode.S_IFDIR) :
    Inode.isDir (FuseOps.newDirInode env mode born).core.iMode = true := by
  unfold Inode.isDir
  rw [show (FuseOps.newDirInode env mode born).core.iMode &&& Inode.S_IFMT = Inode.S_IFDIR from ht]
  decide

/-- What the directory has afterwards, it had before or it gets. -/
theorem Tidy.put (h : s.Tidy) (hl : s.cluster.led dir = some led) {led' : Led} {us : List Uuid}
    (ht : led'.Tells (Has led us) dir led.jtable)
    (hus : ∀ u ∈ us, (∀ d, Lacks (s.cluster.entries d) u) ∧ u ∉ s.removed) :
    (s.cluster.put dir led').Tidy (us ++ s.used) s.removed := by
  have hmono := Cluster.Tidy.mono h (us ++ s.used) fun u hu => List.mem_append_right _ hu
  refine hmono.put hl ht fun u hu => ?_
  rcases hu with hold | hnew
  · exact .inl hold
  · exact .inr ⟨(hus u hnew).1, List.mem_append_left _ hnew, (hus u hnew).2⟩

omit [DecidableEq C] in
theorem brought_homeless (h : s.Tidy) {o : Operation} (ho : OperationLegal s led o) :
    ∀ u ∈ brought o, (∀ d, Lacks (s.cluster.entries d) u) ∧ u ∉ s.removed := by
  have hfresh : ∀ u, u ∉ s.used → (∀ d, Lacks (s.cluster.entries d) u) ∧ u ∉ s.removed :=
    fun u hu => ⟨h.unlisted_of_fresh hu, fun hr => hu (h.removed u hr)⟩
  intro u hu
  cases o with
  | request r =>
      have hino : r.newIno = some u := Option.mem_toList.mp hu
      cases r with
      | localMkdir env name mode => exact ho.elim
      | rpcMkdir env name mode => exact ho.elim
      | localCreate env name mode => exact hfresh u (ho.2 u hino)
      | rpcCreate env name mode => exact hfresh u (ho.2 u hino)
      | localSymlink env src name => exact hfresh u (ho.2 u hino)
      | rpcSymlink env src name => exact hfresh u (ho.2 u hino)
      | localUnlink ts name => cases hino
      | rpcUnlink ts name => cases hino
  | localRenameDst target ino newName =>
      obtain rfl := List.mem_singleton.mp hu
      exact ⟨ho.2.unlisted, ho.2.notRemoved⟩
  | rpcRenameDst target ino newName =>
      obtain rfl := List.mem_singleton.mp hu
      exact ⟨ho.2.unlisted, ho.2.notRemoved⟩
  | localRename _ _ _ | rpcRename _ _ | localRenameSrc _ | rpcRenameSrc _ | localRmdirDown _ _ _
  | rpcRmdirDown _ _ _ | child _ _ | self _ _ => exact absurd hu List.not_mem_nil

omit [DecidableEq C] in
theorem Tidy.fresh (h : s.Tidy) {u : Uuid} (hf : u ∉ s.used) :
    (∀ d, Lacks (s.cluster.entries d) u) ∧ u ∉ s.removed :=
  ⟨h.unlisted_of_fresh hf, fun hr => hf (h.removed u hr)⟩

omit [DecidableEq C] in
/-- The changes of an open inode are journaled by the client that has it. -/
theorem handled_uncommitted [DecidableEq C] (h : s.Tidy) (i : Inode) (pIno : Uuid)
    (change : InodeChange) (c : C) : ((handled s.cluster i pIno change).jtables c).Uncommitted := by
  unfold handled
  dsimp only
  by_cases hc : c = s.cluster.leader (home i pIno)
  · rw [hc, Function.update_self]
    exact (Sections.change_keeps change (h.uncommitted _)).2
  · rw [Function.update_of_ne hc]
    exact h.uncommitted c

/-- The client that makes a directory tells its own journal. -/
theorem Tidy.mkdir (h : s.Tidy) {me : C} {env : Env} {name : Bytes} {mode : UInt32}
    {born : Timespec} (hname : IsName name) (ht : HasType mode Inode.S_IFDIR)
    (hf : env.newIno ∉ s.used) :
    (FuseOps.mkdirIn me env dir name mode born s.cluster).2.Tidy (env.newIno :: s.used)
      s.removed := by
  have hmono := Cluster.Tidy.mono h (env.newIno :: s.used)
    fun u hu => List.mem_cons_of_mem _ hu
  cases hl : s.cluster.led dir with
  | none =>
      rw [FuseOps.mkdirIn_absent hl]
      exact hmono
  | some led =>
      obtain ⟨born', heq⟩ := @FuseOps.mkdirIn_eq C _ s.cluster me dir led env name mode born hl
      have htells := mkdirSection_tells h hl hname.1 hf (s.cluster.leader dir = me) mode
      have hput := h.put hl htells fun u hu => by
        rw [List.mem_singleton.mp hu]
        exact h.fresh hf
      rw [heq]
      revert hput
      generalize FuseOps.mkdirSection (s.cluster.leader dir = me) env name mode led = r
      obtain ⟨r, led'⟩ := r
      intro hput
      cases r with
      | error e => exact hput
      | ok u =>
          refine (hput.mkself me _).lease me (isDir_newDirInode ht) ?_ (h.fresh hf).2
          exact List.mem_cons_self

omit [DecidableEq C] in
theorem lost_of_same (cluster : Cluster C) (ino : Option Uuid) : lost cluster cluster ino = [] := by
  unfold lost
  cases ino with
  | none => rfl
  | some u => cases h : cluster.tables u <;> simp [h]

theorem lost_of_removes {cluster : Cluster C} {name : Bytes} {ts : Timespec} {ino : Uuid}
    {top led' : Led} (h : s.cluster.Removes dir name ts ino led top led' cluster) :
    lost s.cluster cluster (s.cluster.entries dir name) = [ino] := by
  have hsome : (s.cluster.tables ino).isSome = true := FuseOps.isSome_of_led h.child
  rw [entries_of_led h.parent, h.listed]
  unfold lost
  rw [Option.filter_some, h.tables_eq_none, hsome]
  rfl

/-- What an rmdir leaves behind: the directory has no table any more, and no name. -/
theorem Tidy.rmdir (h : s.Tidy) {me : C} {name : Bytes} {ts : Timespec} (hname : IsName name) :
    (FuseOps.rmdirIn me dir name ts s.cluster).2.Tidy s.used
      (lost s.cluster (FuseOps.rmdirIn me dir name ts s.cluster).2 (s.cluster.entries dir name) ++
        s.removed) := by
  have hrmdirs : FuseOps.Rmdirs dir name ts s.cluster (FuseOps.rmdirIn me dir name ts s.cluster).2 :=
    FuseOps.rmdirIn_rmdirs
  rcases Cluster.Tidy.rmdirs h hname hrmdirs with
    heq | ⟨ino, led, top, led', hr⟩
  · rw [heq, lost_of_same]
    exact h
  have hs := h.settled dir led.table (led_eq_some.mp hr.parent).1
  have hnamed : s.cluster.entries dir name = some ino := by
    rw [entries_of_led hr.parent, hr.listed]
  have htop₁ := Cluster.Tidy.topped h ino hr.child
  have htells : (DirectoryOps.rmdirDown ts ino name led').2.Tells (Has led' []) dir led'.jtable :=
    Sections.tells_rmdirDown hname.1 led' (htop₁.tells hr.next fun n u hn => .inl ⟨n, hn⟩)
  have hput := htop₁.put hr.next htells fun u hu => .inl (hu.resolve_right List.not_mem_nil)
  rw [lost_of_removes hr]
  refine Cluster.Tidy.forget (hr.eq ▸ hput) hr.tables_eq_none (fun d n hn => ?_)
    (h.listed dir name ino hnamed).1
  rw [hr.eq, entries_put] at hn
  by_cases hd : d = dir
  · rw [hd, Function.update_self, Sections.listed_rmdirDown (hr.same ▸ hs.sound), hr.same] at hn
    obtain ⟨hother, hold⟩ := update_none_eq_some hn
    exact hother (hs.distinct n name ino hold hr.listed)
  · rw [Function.update_of_ne hd] at hn
    have hold : s.cluster.entries d n = some ino := by
      have htopped : (FuseOps.topped s.cluster ino top).entries =
          Function.update (s.cluster.put ino (top.ended ino)).entries ino fun _ => none :=
        entries_drop
      rw [htopped, entries_put] at hn
      by_cases hi : d = ino
      · rw [hi, Function.update_self] at hn
        cases hn
      · rwa [Function.update_of_ne hi, Function.update_of_ne hi] at hn
    exact hd (h.apart d dir n name ino hold hnamed)

theorem Tidy.replace (h : s.Tidy) (me : C) : Cluster.Tidy s.used s.removed { s.cluster with
    jtables := Function.update s.cluster.jtables me ∅ } := by
  refine Cluster.Tidy.of_tables h rfl fun c => ?_
  dsimp only
  by_cases hc : c = me
  · rw [hc, Function.update_self]
    exact fun _ => rfl
  · rw [Function.update_of_ne hc]
    exact h.uncommitted c

/-- Every step of the clients keeps the tables in order. -/
theorem Tidy.step (h : s.Tidy) {a : Action C} (ha : Legal s a) (hs : step s a = some s') :
    s'.Tidy := by
  cases a with
  | perform dir o =>
      obtain ⟨led, hl, rfl⟩ := Option.map_eq_some_iff.mp hs
      exact h.put hl (perform_tells h hl (ha led hl)) (brought_homeless h (ha led hl))
  | mkdir me env dir name mode born =>
      cases hs
      exact h.mkdir ha.1 ha.2.1 ha.2.2
  | rmdir me dir name ts =>
      cases hs
      exact h.rmdir ha
  | handle i pIno change =>
      cases hs
      exact Cluster.Tidy.of_tables h rfl (handled_uncommitted h i pIno change)
  | replace me =>
      unfold Volume.step at hs
      dsimp only at hs
      split at hs
      · cases hs
        exact h.replace me
      · cases hs
  | commit dir =>
      obtain ⟨tx, htx, hs⟩ := Option.bind_eq_some_iff.mp hs
      split at hs
      · cases hs
      · cases hs
        exact h
  | checkpoint dir =>
      unfold Volume.step at hs
      dsimp only at hs
      split at hs
      · cases hs
      · split at hs
        · cases hs
        · cases hs
          exact h

end Volume

end Nmfs
