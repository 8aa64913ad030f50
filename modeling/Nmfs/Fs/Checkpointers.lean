import Nmfs.Lib.Threads
import Nmfs.Journal.CommitCycle
import Nmfs.Fs.Refinement
import Nmfs.Fs.VolumeSteps
import Mathlib.Data.Fintype.Basic
import Mathlib.Data.Finset.Lattice.Fold

/-
  The checkpoint threads of a client, each with its queue, over one meta pool. A thread's turn is one
  call of `rados_io`. What the commit thread issues is queued already, up to the null pointers.
-/

namespace Nmfs

open Lib RadosIo CommitCycle

namespace Checkpointers

/-- The calls that `transaction::checkpoint` makes. -/
inductive MetaCall where
  | read (category : ObjCategory) (key : Str) (len offset : Nat)
  | write (category : ObjCategory) (key : Str) (value : Bytes) (offset : Nat)
  | remove (category : ObjCategory) (key : Str)

namespace MetaCall

/-- What the caller looks at. -/
abbrev Reply : MetaCall → Type
  | read _ _ _ _ => ReadResult
  | write _ _ _ _ => Unit
  | remove _ _ => Unit

def exec : (c : MetaCall) → Pool → c.Reply × Pool
  | read category key len offset, pool => (RadosIo.read pool category key len offset, pool)
  | write category key value offset, pool =>
    ((), (RadosIo.write pool category key value offset).2)
  | remove category key, pool => ((), RadosIo.remove pool category key)

/-- The file that it is about. -/
def file : MetaCall → ObjCategory × Str
  | read category key _ _ => (category, key)
  | write category key _ _ => (category, key)
  | remove category key => (category, key)

/-- What it makes of the file's content. -/
def act : (c : MetaCall) → Option Bytes → c.Reply × Option Bytes
  | read _ _ len _, x => (headOf x len, x)
  | write _ _ value offset, x => ((), some (overwrite 0 (x.getD []) offset value))
  | remove _ _, _ => ((), none)

/-- A read of the head of a file, or a write of some bytes. -/
def Plain : MetaCall → Prop
  | read _ _ len offset => offset = 0 ∧ 0 < len ∧ len ≤ objSize
  | write _ _ value _ => value ≠ []
  | remove _ _ => True

end MetaCall

abbrev Prog (α : Type) : Type := Lib.Prog MetaCall.Reply Err α

def read (category : ObjCategory) (key : Str) (len offset : Nat) : Prog ReadResult :=
  .make (MetaCall.read category key len offset)

def write (category : ObjCategory) (key : Str) (value : Bytes) (offset : Nat) : Prog Unit :=
  .make (MetaCall.write category key value offset)

def remove (category : ObjCategory) (key : Str) : Prog Unit :=
  .make (MetaCall.remove category key)

/-! ## `checkpoint::operator()` -/

def syncInode (i : Inode) : Prog Unit := write .inode i.ino.toStr i.serialize 0

/-- The loop over `f_inodes`. -/
def syncFInodes : List ((_ : Uuid) × Option Inode) → Prog Unit
  | [] => pure ()
  | ⟨_, none⟩ :: entries => syncFInodes entries
  | ⟨_, some i⟩ :: entries => do
    syncInode i
    syncFInodes entries

/-- The constructor of `dentry`. -/
def loadDentry (ino : Uuid) (mkdir : Bool) : Prog Dentry :=
  if mkdir then pure ⟨ino, ∅⟩
  else do
    match ← read .dentry ino.toStr Dentry.MAX_DENTRY_OBJ_SIZE 0 with
    | .done bytes _ => .done (Dentry.deserialize ino bytes)
    | .noSuchObject _ _ =>
      .done (.error (.runtimeError ("Dentry Corrupted: inode number " ++ String.ofList ino.toStr)))

def syncSelf : Option Inode → Prog Unit
  | none => pure ()
  | some i => syncInode i

def sync (tx : Transaction) : Prog Unit :=
  if tx.status = .S_DELETED then do
    remove .inode tx.sIno.toStr
    remove .dentry tx.sIno.toStr
  else do
    syncSelf tx.sInode
    let d ← loadDentry tx.sIno (tx.status = .S_CREATED)
    let d := Transaction.applyDentries tx.dentries.entries d
    write .dentry d.thisIno.toStr d.serialize 0
    syncFInodes tx.fInodes.entries

def checkpoint (tx : Transaction) : Prog Unit := do
  sync tx
  write .journal tx.sIno.toStr [0] tx.offset

/-- What `dispatch` gives before the null pointer, one after the other. -/
def loop (queue : List Transaction) : Prog Unit := Threads.inOrder checkpoint queue

theorem queueIndex_lt (ino : Uuid) : queueIndex ino < NUM_CP_THREAD := Nat.mod_lt _ (by decide)

/-- The queue that the commit thread issues it to. -/
def owner (tx : Transaction) : Fin NUM_CP_THREAD := ⟨queueIndex tx.sIno, queueIndex_lt _⟩

/-- The threads, when the commit thread has issued `txs`. -/
def threads (txs : List Transaction) (i : Fin NUM_CP_THREAD) : Prog Unit :=
  loop (Threads.owned owner txs i)

def start (txs : List Transaction) (pool : Pool) :
    Threads (Fin NUM_CP_THREAD) MetaCall.Reply Err Unit Pool :=
  ⟨threads txs, pool⟩

/-! ## A thread alone -/

section

variable {pool : Pool}

theorem run_syncFInodes (entries : List ((_ : Uuid) × Option Inode)) :
    (syncFInodes entries).run MetaCall.exec pool =
      (.ok (), Transaction.syncFInodes entries pool) := by
  induction entries generalizing pool with
  | nil => rfl
  | cons e entries ih =>
      obtain ⟨u, i⟩ := e
      cases i with
      | none => exact ih
      | some i => exact ih

theorem run_loadDentry (ino : Uuid) (mkdir : Bool) :
    (loadDentry ino mkdir).run MetaCall.exec pool = (Dentry.load pool ino mkdir, pool) := by
  cases mkdir with
  | true => rfl
  | false =>
      unfold loadDentry Dentry.load
      rw [if_neg Bool.false_ne_true, if_neg Bool.false_ne_true]
      refine (Prog.run_bind_ok (Prog.run_make _)).trans ?_
      dsimp only [MetaCall.exec]
      cases RadosIo.read pool .dentry ino.toStr Dentry.MAX_DENTRY_OBJ_SIZE 0 <;> rfl

theorem run_syncSelf (self : Option Inode) : (syncSelf self).run MetaCall.exec pool =
    (.ok (), (self.map (Inode.sync pool)).getD pool) := by
  cases self <;> rfl

theorem run_sync (tx : Transaction) : (sync tx).run MetaCall.exec pool = tx.sync pool := by
  unfold sync Transaction.sync
  by_cases hs : tx.status = .S_DELETED
  · rw [if_pos hs, if_pos hs]
    rfl
  · rw [if_neg hs, if_neg hs]
    rw [Prog.run_bind_ok (run_syncSelf tx.sInode), Prog.run_bind, run_loadDentry]
    dsimp only
    cases Dentry.load ((tx.sInode.map (Inode.sync pool)).getD pool) tx.sIno
        (tx.status = .S_CREATED) with
    | error e => rfl
    | ok d =>
        refine (Prog.run_bind_ok (Prog.run_make _)).trans ?_
        exact run_syncFInodes _

theorem run_checkpoint (tx : Transaction) :
    (checkpoint tx).run MetaCall.exec pool = tx.checkpoint pool := by
  unfold checkpoint Transaction.checkpoint
  rw [Prog.run_bind, run_sync]
  rcases tx.sync pool with ⟨e | u, pool'⟩ <;> rfl

/-- It is `checkpointAll`. -/
theorem run_loop (queue : List Transaction) :
    (loop queue).run MetaCall.exec pool = Refinement.checkpointAll queue pool := by
  induction queue generalizing pool with
  | nil => rfl
  | cons tx queue ih =>
      have hrun : (checkpoint tx).run MetaCall.exec pool = tx.checkpoint pool := run_checkpoint tx
      unfold loop Threads.inOrder Refinement.checkpointAll
      rw [Prog.run_bind, hrun]
      rcases tx.checkpoint pool with ⟨e | u, pool'⟩
      · rfl
      · exact ih

end

/-! ## What a thread calls on -/

/-- The INODE objects that a transaction writes, or removes. -/
def written (tx : Transaction) : List Uuid :=
  if tx.status = .S_DELETED then [tx.sIno]
  else tx.sInode.toList.map Inode.ino ++ (tx.fInodes.entries.filterMap Sigma.snd).map Inode.ino

/-- The files of the pool that it is about. -/
def touched (tx : Transaction) : Set (ObjCategory × Str) := fun file =>
  file = (.dentry, tx.sIno.toStr) ∨ file = (.journal, tx.sIno.toStr) ∨
    ∃ u ∈ written tx, file = (.inode, u.toStr)

/-- It stays with its files, and calls as it should. -/
def Within (tx : Transaction) (c : MetaCall) : Prop := c.Plain ∧ c.file ∈ touched tx

section

variable {tx : Transaction} {P : MetaCall → Prop}

theorem calls_syncFInodes {entries : List ((_ : Uuid) × Option Inode)}
    (h : ∀ i ∈ entries.filterMap Sigma.snd, (syncInode i).Calls P) :
    (syncFInodes entries).Calls P := by
  induction entries with
  | nil => trivial
  | cons e entries ih =>
      obtain ⟨u, i⟩ := e
      cases i with
      | none => exact ih fun i hi => h i hi
      | some i =>
          refine (h i ?_).bind fun _ => ih fun j hj => h j ?_
          · exact List.mem_cons_self
          · exact List.mem_cons_of_mem _ hj

/-- Every dentry that can be read is the one of the directory. -/
theorem calls_loadDentry {ino : Uuid} {mkdir : Bool} {f : Dentry → Prog Unit}
    (hread : P (.read .dentry ino.toStr Dentry.MAX_DENTRY_OBJ_SIZE 0))
    (hf : ∀ d, d.thisIno = ino → (f d).Calls P) : (loadDentry ino mkdir >>= f).Calls P := by
  unfold loadDentry
  cases mkdir with
  | true => exact hf _ rfl
  | false =>
      rw [if_neg Bool.false_ne_true]
      refine ⟨hread, fun reply => ?_⟩
      cases reply with
      | noSuchObject v n => trivial
      | done bytes n =>
          show Prog.Calls _ (Prog.bind (.done (Dentry.deserialize ino bytes)) f)
          unfold Dentry.deserialize
          split
          · trivial
          · exact hf _ rfl

/-- All the calls of `transaction::checkpoint`. -/
theorem calls_checkpoint_of
    (hinode : ∀ i : Inode, i.ino ∈ written tx → P (.write .inode i.ino.toStr i.serialize 0))
    (hread : P (.read .dentry tx.sIno.toStr Dentry.MAX_DENTRY_OBJ_SIZE 0))
    (hdentry : ∀ d : Dentry, d.thisIno = tx.sIno → P (.write .dentry d.thisIno.toStr d.serialize 0))
    (hremove : tx.sIno ∈ written tx → P (.remove .inode tx.sIno.toStr))
    (hremove' : P (.remove .dentry tx.sIno.toStr))
    (hjournal : P (.write .journal tx.sIno.toStr [0] tx.offset)) : (checkpoint tx).Calls P := by
  refine Prog.Calls.bind ?_ fun _ => Prog.Calls.make hjournal
  unfold sync
  by_cases hs : tx.status = .S_DELETED
  · have hself : tx.sIno ∈ written tx := by
      unfold written
      rw [if_pos hs]
      exact List.mem_cons_self
    rw [if_pos hs]
    exact (Prog.Calls.make (hremove hself)).bind fun _ => Prog.Calls.make hremove'
  · have hwritten : written tx = tx.sInode.toList.map Inode.ino ++
        (tx.fInodes.entries.filterMap Sigma.snd).map Inode.ino := if_neg hs
    have hself : (syncSelf tx.sInode).Calls P := by
      cases hi : tx.sInode with
      | none => trivial
      | some i =>
          refine Prog.Calls.make (hinode i ?_)
          rw [hwritten, hi]
          exact List.mem_append_left _ List.mem_cons_self
    rw [if_neg hs]
    refine hself.bind fun _ => calls_loadDentry hread fun d hd => ?_
    have hd' : (Transaction.applyDentries tx.dentries.entries d).thisIno = tx.sIno :=
      (applyDentries_thisIno _ d).trans hd
    refine Prog.Calls.bind (Prog.Calls.make (hdentry _ hd')) fun _ =>
      calls_syncFInodes fun i hi => Prog.Calls.make (hinode i ?_)
    rw [hwritten]
    exact List.mem_append_right _ (List.mem_map_of_mem hi)

theorem calls_checkpoint (tx : Transaction) : (checkpoint tx).Calls (Within tx) := by
  refine calls_checkpoint_of (fun i hi => ?_) ?_ (fun d hd => ?_) (fun hself => ?_) ?_ ?_
  · exact ⟨serialize_ne_nil i, .inr (.inr ⟨_, hi, rfl⟩)⟩
  · exact ⟨⟨rfl, objSize_pos, Nat.le_refl _⟩, .inl rfl⟩
  · refine ⟨dentry_serialize_ne_nil d, .inl ?_⟩
    show (_, _) = (_, _)
    rw [hd]
  · exact ⟨trivial, .inr (.inr ⟨_, hself, rfl⟩)⟩
  · exact ⟨trivial, .inl rfl⟩
  · exact ⟨List.cons_ne_nil _ _, .inr (.inl rfl)⟩

end

/-! ## The pool as files -/

/-- The contents of all files. -/
def Files (pool : Pool) (files : ObjCategory × Str → Option Bytes) : Prop :=
  ∀ category key, StoredAs pool category key (files (category, key))

/-- What a call makes of the pool it makes of the files. -/
theorem exec_files (c : MetaCall) (pool : Pool) (files : ObjCategory × Str → Option Bytes)
    (hc : c.Plain) (h : Files pool files) :
    (c.exec pool).1 = (Prog.cells MetaCall.file MetaCall.act c files).1 ∧
      Files (c.exec pool).2 (Prog.cells MetaCall.file MetaCall.act c files).2 := by
  cases c with
  | read category key len offset =>
      obtain ⟨rfl, hlen, hmax⟩ := hc
      refine ⟨(h category key).read hlen hmax, ?_⟩
      show Files pool (Function.update files (category, key) (files (category, key)))
      rw [Function.update_eq_self]
      exact h
  | write category key value offset =>
      refine ⟨rfl, fun c k => ?_⟩
      show StoredAs _ c k (Function.update files (category, key) _ (c, k))
      by_cases hk : (c, k) = (category, key)
      · cases hk
        rw [Function.update_self]
        exact (h category key).write hc offset
      · rw [Function.update_of_ne hk]
        exact (frame_write_file _ _).storedAs hk (h c k)
  | remove category key =>
      refine ⟨rfl, fun c k => ?_⟩
      show StoredAs _ c k (Function.update files (category, key) none (c, k))
      by_cases hk : (c, k) = (category, key)
      · cases hk
        rw [Function.update_self]
        exact (h category key).remove
      · rw [Function.update_of_ne hk]
        exact frame_remove.storedAs hk (h c k)

theorem exists_files {pool : Pool} (h : Volume.WellStored pool) : ∃ files, Files pool files := by
  choose files hfiles using h
  exact ⟨fun file => files file.1 file.2, fun category key => hfiles category key⟩

/-! ## All threads -/

/-- No two threads write the same INODE object. -/
def Apart (txs : List Transaction) : Prop :=
  ∀ tx ∈ txs, ∀ tx' ∈ txs, owner tx ≠ owner tx' → ∀ u ∈ written tx, u ∉ written tx'

/-- The files of a thread. -/
def ownFiles (txs : List Transaction) (i : Fin NUM_CP_THREAD) : Set (ObjCategory × Str) :=
  fun file => ∃ tx ∈ txs, owner tx = i ∧ file ∈ touched tx

/-- The transactions of a directory go through one queue. -/
theorem owner_of_sIno {tx tx' : Transaction} (h : tx.sIno.toStr = tx'.sIno.toStr) :
    owner tx = owner tx' :=
  Fin.ext (congrArg queueIndex (Uuid.toStr_inj h))

theorem disjoint_ownFiles {txs : List Transaction} (h : Apart txs) {i j : Fin NUM_CP_THREAD}
    (hne : i ≠ j) : Disjoint (ownFiles txs i) (ownFiles txs j) := by
  rw [Set.disjoint_left]
  rintro file ⟨tx, htx, rfl, hfile⟩ ⟨tx', htx', rfl, hfile'⟩
  rcases hfile with rfl | rfl | ⟨u, hu, rfl⟩
  · rcases hfile' with heq | heq | ⟨u', hu', heq⟩
    · exact hne (owner_of_sIno (Prod.mk.inj heq).2)
    · cases (Prod.mk.inj heq).1
    · cases (Prod.mk.inj heq).1
  · rcases hfile' with heq | heq | ⟨u', hu', heq⟩
    · cases (Prod.mk.inj heq).1
    · exact hne (owner_of_sIno (Prod.mk.inj heq).2)
    · cases (Prod.mk.inj heq).1
  · rcases hfile' with heq | heq | ⟨u', hu', heq⟩
    · cases (Prod.mk.inj heq).1
    · cases (Prod.mk.inj heq).1
    · rw [Uuid.toStr_inj (Prod.mk.inj heq).2] at hu
      exact h tx htx tx' htx' hne u' hu hu'

section

variable {txs : List Transaction} {pool : Pool} {files : ObjCategory × Str → Option Bytes}
  {schedule : List (Fin NUM_CP_THREAD)}

theorem calls_owner {tx : Transaction} (h : tx ∈ txs) :
    (checkpoint tx).Calls fun c => c.file ∈ ownFiles txs (owner tx) :=
  (calls_checkpoint tx).mono fun _ hc => ⟨tx, h, rfl, hc.2⟩

theorem calls_threads (i : Fin NUM_CP_THREAD) :
    (threads txs i).Calls fun c => c.file ∈ ownFiles txs i :=
  Threads.calls_owned (fun _ => calls_owner) i

theorem plain_threads (i : Fin NUM_CP_THREAD) : (threads txs i).Calls MetaCall.Plain :=
  Threads.calls_inOrder fun tx _ => (calls_checkpoint tx).mono fun _ hc => hc.1

/-- The same threads, over the files. -/
def startFiles (txs : List Transaction) (files : ObjCategory × Str → Option Bytes) :
    Threads (Fin NUM_CP_THREAD) MetaCall.Reply Err Unit (ObjCategory × Str → Option Bytes) :=
  ⟨threads txs, files⟩

theorem turns_files (txs : List Transaction) (h : Files pool files)
    (schedule : List (Fin NUM_CP_THREAD)) :
    ((start txs pool).turns MetaCall.exec schedule).progs =
        ((startFiles txs files).turns (Prog.cells MetaCall.file MetaCall.act) schedule).progs ∧
      Files ((start txs pool).turns MetaCall.exec schedule).store
        ((startFiles txs files).turns (Prog.cells MetaCall.file MetaCall.act) schedule).store := by
  have hprogs : (start txs pool).progs = (startFiles txs files).progs := rfl
  exact Threads.turns_simulation exec_files hprogs plain_threads h schedule

theorem checkpointAll_files (h : Files pool files) (txs : List Transaction) :
    (Refinement.checkpointAll txs pool).1 =
        ((loop txs).run (Prog.cells MetaCall.file MetaCall.act) files).1 ∧
      Files (Refinement.checkpointAll txs pool).2
        ((loop txs).run (Prog.cells MetaCall.file MetaCall.act) files).2 := by
  rw [← run_loop]
  exact Prog.run_simulation exec_files
    (Threads.calls_inOrder fun tx _ => (calls_checkpoint tx).mono fun _ hc => hc.1) h

/-- What no transaction touches stays. -/
theorem loop_frame {file : ObjCategory × Str} (hfile : ∀ i, file ∉ ownFiles txs i) :
    ((loop txs).run (Prog.cells MetaCall.file MetaCall.act) files).2 file = files file := by
  refine Prog.run_frame _ (F := fun k => ∃ i, k ∈ ownFiles txs i) ?_ fun hmem => ?_
  · exact Threads.calls_inOrder fun tx htx => (calls_owner htx).mono fun _ hc => ⟨_, hc⟩
  · obtain ⟨i, hi⟩ := hmem
    exact hfile i hi

/-- Where the threads have come to their ends, the files are those of one thread that takes the
    transactions in commit order. -/
theorem files_at_end (hapart : Apart txs) (hdone : ∀ i, ∃ result,
      ((startFiles txs files).turns (Prog.cells MetaCall.file MetaCall.act) schedule).progs i =
        .done result) :
    ((∀ i, ((startFiles txs files).turns (Prog.cells MetaCall.file MetaCall.act)
        schedule).progs i = .done (.ok ())) ↔
      ((loop txs).run (Prog.cells MetaCall.file MetaCall.act) files).1 = .ok ()) ∧
      (((loop txs).run (Prog.cells MetaCall.file MetaCall.act) files).1 = .ok () →
        ((startFiles txs files).turns (Prog.cells MetaCall.file MetaCall.act) schedule).store =
          ((loop txs).run (Prog.cells MetaCall.file MetaCall.act) files).2) := by
  have hdisj : ∀ i j, i ≠ j → Disjoint (ownFiles txs i) (ownFiles txs j) :=
    fun i j => disjoint_ownFiles hapart
  have halone := Threads.turns_alone hdisj
    (Threads.alone_refl MetaCall.act (s := startFiles txs files) calls_threads) schedule
  have hcalls : ∀ tx ∈ txs, (checkpoint tx).Calls fun c => c.file ∈ ownFiles txs (owner tx) :=
    fun _ => calls_owner
  obtain ⟨hiff, hstore⟩ := Threads.run_inOrder MetaCall.act (s := files) hdisj hcalls
  generalize (startFiles txs files).turns (Prog.cells MetaCall.file MetaCall.act) schedule = s
    at hdone halone
  have hresult : ∀ i, s.progs i = .done (.ok ()) ↔ ((Threads.inOrder checkpoint
      (Threads.owned owner txs i)).run (Prog.cells MetaCall.file MetaCall.act) files).1 =
        .ok () := by
    intro i
    have hr := halone.result i
    obtain ⟨result, hi⟩ := hdone i
    rw [hi] at hr ⊢
    rw [show ((Threads.inOrder checkpoint (Threads.owned owner txs i)).run
      (Prog.cells MetaCall.file MetaCall.act) files).1 = result from hr.symm]
    exact ⟨fun heq => by injection heq, fun heq => by rw [heq]⟩
  refine ⟨(forall_congr' hresult).trans hiff.symm, fun hok => funext fun file => ?_⟩
  by_cases hfile : ∃ i, file ∈ ownFiles txs i
  · obtain ⟨i, hi⟩ := hfile
    have ho := halone.own i file hi
    obtain ⟨result, hend⟩ := hdone i
    rw [hend] at ho
    exact ho.trans (hstore hok i file hi).symm
  · have hnone : ∀ i, file ∉ ownFiles txs i := fun i hi => hfile ⟨i, hi⟩
    exact (halone.other file hnone).trans (loop_frame hnone).symm

end

/-- However the threads take turns, with enough of them each comes to its end, and then the pool has
    the files that it has when one thread takes all transactions in commit order; and no thread has
    raised if that one does not raise. -/
theorem parallel_checkpoints (txs : List Transaction) (pool : Pool)
    (hstored : Volume.WellStored pool) (hapart : Apart txs) :
    (∃ n, ∀ schedule : List (Fin NUM_CP_THREAD), (∀ i, n ≤ schedule.count i) →
      ∀ i, ∃ result, ((start txs pool).turns MetaCall.exec schedule).progs i = .done result) ∧
    ∀ schedule, (∀ i, ∃ result,
        ((start txs pool).turns MetaCall.exec schedule).progs i = .done result) →
      ((∀ i, ((start txs pool).turns MetaCall.exec schedule).progs i = .done (.ok ())) ↔
        (Refinement.checkpointAll txs pool).1 = .ok ()) ∧
      ((Refinement.checkpointAll txs pool).1 = .ok () → ∀ category key, ∃ x,
        StoredAs ((start txs pool).turns MetaCall.exec schedule).store category key x ∧
        StoredAs (Refinement.checkpointAll txs pool).2 category key x) := by
  obtain ⟨files, hfiles⟩ := exists_files hstored
  obtain ⟨hresult, hseq⟩ := checkpointAll_files hfiles txs
  constructor
  · let calls := fun i => (threads txs i).length (Prog.cells MetaCall.file MetaCall.act) files
    refine ⟨Finset.univ.sup calls, fun schedule hcount i => ?_⟩
    rw [(turns_files txs hfiles schedule).1]
    have hcalls : calls i ≤ schedule.count i :=
      (Finset.le_sup (Finset.mem_univ i)).trans (hcount i)
    exact Threads.turns_done (fun i j => disjoint_ownFiles hapart) calls_threads hcalls
  · intro schedule hdone
    obtain ⟨hprogs, hpar⟩ := turns_files txs hfiles schedule
    rw [hprogs] at hdone ⊢
    obtain ⟨hiff, hstore⟩ := files_at_end hapart hdone
    rw [hresult]
    refine ⟨hiff, fun hok category key => ⟨_, hpar category key, ?_⟩⟩
    rw [hstore hok]
    exact hseq category key

/-- Two directories that have just been made, in different queues. -/
def twoMade : List Transaction :=
  [Creation.homeInode, Inode.make (Creation.envOf 1) 0x41ED].map fun i =>
    ((Transaction.new i.ino).mkself i).2

theorem parallel_checkpoints_twoMade : ∃ schedule, ∀ i,
    ((start twoMade ∅).turns MetaCall.exec schedule).progs i = .done (.ok ()) := by
  have hapart : Apart twoMade := by
    unfold Apart
    decide
  have hstored : Volume.WellStored ∅ := fun _ _ => ⟨none, fun _ => AList.lookup_empty _⟩
  obtain ⟨⟨n, hn⟩, hend⟩ := parallel_checkpoints twoMade ∅ hstored hapart
  let turnsOf := (List.finRange NUM_CP_THREAD).map (List.replicate n)
  refine ⟨turnsOf.flatten, (hend _ (hn _ fun i => ?_)).1.mpr rfl⟩
  have hsub : (List.replicate n i).Sublist turnsOf.flatten :=
    List.sublist_flatten_of_mem (List.mem_map_of_mem (List.mem_finRange i))
  exact (List.count_replicate_self).ge.trans (hsub.count_le i)

end Checkpointers

end Nmfs
