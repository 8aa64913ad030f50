import Nmfs.Lease.Holder
import Nmfs.InMemory.DirectoryTable
import Nmfs.Fs.Refinement
import Nmfs.Journal.Check

/-
  What a client does to a directory long after it has got the table: it changes the inodes behind its
  open handles, its commit thread takes the pending transactions to the JOURNAL object, and its
  checkpoint threads take them to the meta pool. None of these asks for the lease again.

  An operation that has got a LOCAL table may use it at any time later. What the table has under a
  name is whatever `getChildInode` says.
-/

namespace Nmfs

open Lib Lease

/-- The directory whose journal hears of a change of the inode. -/
def MemInode.home (m : MemInode) : Uuid :=
  if Inode.isDir m.inode.core.iMode then m.inode.ino else m.pIno

structure OpenHandles (C : Type) where
  dirs : DirectoryTable.State C
  /-- the directories whose LOCAL tables the operations of a client have got -/
  held : List (C × Uuid)
  /-- the inodes in the memory of a client -/
  inodes : C → Nat → Option MemInode
  /-- `file_handler_list::fh_list`: the inode of a handle -/
  openContext : C → UInt64 → Option Nat
  jtables : C → JournalTable
  /-- what `replace_map` has given to the commit thread, without what is committed already -/
  cycle : C → JournalTable
  queues : C → Uuid → List Transaction
  pool : Pool
  dataPool : Pool
  grantedAt : GrantTimes C
  /-- history: the directories that a client has made -/
  made : List (C × Uuid)

namespace OpenHandles

open Refinement

variable {C : Type}

/-- Nobody has anything in memory. -/
def init (C : Type) (pool dataPool : Pool) : OpenHandles C where
  dirs := DirectoryTable.State.init C
  held := []
  inodes _ _ := none
  openContext _ _ := none
  jtables _ := ∅
  cycle _ := ∅
  queues _ _ := []
  pool
  dataPool
  grantedAt _ _ := none
  made := []

inductive Action (C : Type) where
  | dir (a : DirectoryTable.Action C)
  /-- a table gives an inode, which is from now on the client's `k` -/
  | getChildInode (c : C) (k : Nat) (m : MemInode)
  | open (c : C) (fh : UInt64) (k : Nat) (flags : UInt32)
  | opendir (c : C) (fh : UInt64) (k : Nat)
  | release (c : C) (fh : UInt64)
  /-- `write`, `truncate`, `chmod`, `chown` or `utimens` with a `file_info` -/
  | change (c : C) (fh : UInt64) (change : InodeChange)
  /-- any other operation on a table, with what it tells the journal -/
  | record (c : C) (dir : Uuid) (m : Transaction.Mutation)
  /-- `local_rename_not_same_parent_dst` -/
  | setPIno (c : C) (k : Nat) (dir : Uuid)
  /-- `replace_map`, when the commit thread has committed all of the last map -/
  | replace (c : C)
  | commit (c : C) (dir : Uuid)
  | checkpoint (c : C) (dir : Uuid)

/-- The LOCAL table that `get_dentry_table` returns in this step. -/
def got (s : DirectoryTable.State C) : DirectoryTable.Action C → List (C × Uuid)
  | .getDentryTable c ino _ =>
    if (DirectoryTable.cachedTable s c ino).any fun table => table.loc = .LOCAL then [(c, ino)]
    else []
  | .build c =>
    match s.phase c with
    | .acquired _ ino true _ => [(c, ino)]
    | _ => []
  | _ => []

/-- `journal::mkself` is called before the new directory's lease is acquired. -/
def isMkself : Transaction.Mutation → Bool
  | .mkself _ => true
  | _ => false

variable [DecidableEq C]

/-- The inode of `c` with everything around it. -/
def openInode (s : OpenHandles C) (c : C) (m : MemInode) : LocalOps.OpenInode :=
  ⟨m.inode, m.pIno, s.dataPool, s.jtables c⟩

def putInode (s : OpenHandles C) (c : C) (k : Nat) (m : MemInode) : OpenHandles C :=
  { s with inodes := Function.update s.inodes c (Function.update (s.inodes c) k (some m)) }

def putOpenInode (s : OpenHandles C) (c : C) (k : Nat) (m : MemInode) (o : LocalOps.OpenInode) :
    OpenHandles C :=
  { s.putInode c k { m with inode := o.i } with
    dataPool := o.dataPool
    jtables := Function.update s.jtables c o.jtable }

def setHandle (s : OpenHandles C) (c : C) (fh : UInt64) (k : Option Nat) : OpenHandles C :=
  { s with
    openContext := Function.update s.openContext c (Function.update (s.openContext c) fh k) }

/-- `get_file_handler(fh)->get_open_inode_info()`. -/
def handled (s : OpenHandles C) (c : C) (fh : UInt64) : Option (Nat × MemInode) :=
  (s.openContext c fh).bind fun k => (s.inodes c k).map fun m => (k, m)

def step (remote : C ↪ Addr) (s : OpenHandles C) : Action C → Option (OpenHandles C)
  | .dir a =>
    (DirectoryTable.step remote s.dirs a).map fun dirs =>
      { s with
        dirs
        held := got s.dirs a ++ s.held
        grantedAt := s.grantedAt.next remote s.dirs.lease dirs.lease }
  | .getChildInode c k m =>
    -- a directory's inode comes from its own table
    if (c, m.home) ∈ s.held ∧ s.inodes c k = none then some (s.putInode c k m) else none
  | .open c fh k flags =>
    (s.inodes c k).bind fun m =>
      -- the kernel opens directories with `opendir`
      if Inode.isDir m.inode.core.iMode = false ∧ s.openContext c fh = none then
        let (ret, o) := LocalOps.localOpen (s.openInode c m) flags
        if ret = 0 then some ((s.putOpenInode c k m o).setHandle c fh (some k)) else some s
      else none
  | .opendir c fh k =>
    (s.inodes c k).bind fun m =>
      if s.openContext c fh = none then
        -- `-ENOTDIR`
        if Inode.isDir m.inode.core.iMode then some (s.setHandle c fh (some k)) else some s
      else none
  | .release c fh => some (s.setHandle c fh none)
  | .change c fh change =>
    (s.handled c fh).bind fun (k, m) =>
      -- the kernel passes `chmod` the type that the inode has, and does not write to a directory
      if change.Valid m.inode ∧ (Inode.isDir m.inode.core.iMode → change.OfDir) then
        some (s.putOpenInode c k m (change.perform (s.openInode c m)))
      else none
  | .record c dir m =>
    if (c, dir) ∈ s.held ∨ isMkself m = true then
      some { s with
        jtables := Function.update s.jtables c ((s.jtables c).record dir m).2
        made := if isMkself m then (c, dir) :: s.made else s.made }
    else none
  | .setPIno c k dir =>
    if (c, dir) ∈ s.held then
      (s.inodes c k).map fun m => s.putInode c k { m with pIno := dir }
    else none
  | .replace c =>
    if (s.cycle c).entries = [] then
      some { s with
        jtables := Function.update s.jtables c ∅
        cycle := Function.update s.cycle c (s.jtables c) }
    else none
  | .commit c dir =>
    ((s.cycle c).lookup dir).bind fun tx =>
      match tx.commit s.pool with
      | .error _ => none
      | .ok (tx, pool) =>
        let queue := s.queues c dir ++ [tx]
        some { s with
          pool
          cycle := Function.update s.cycle c ((s.cycle c).erase dir)
          queues := Function.update s.queues c (Function.update (s.queues c) dir queue) }
  | .checkpoint c dir =>
    match s.queues c dir with
    | [] => none
    | tx :: queue =>
      match tx.checkpoint s.pool with
      | (.error _, _) => none
      | (.ok (), pool) =>
        some { s with
          pool
          queues := Function.update s.queues c (Function.update (s.queues c) dir queue) }

/-! ## Changing a directory -/

/-- The step changes the inode of a file of `dir` through a handle of `c`, or takes a transaction of
    `dir` to the journal or to the meta pool. -/
def Changes (s : OpenHandles C) (c : C) (dir : Uuid) : Action C → Prop
  | .change c' fh change => c' = c ∧ ∃ k m, s.handled c fh = some (k, m) ∧ m.pIno = dir ∧
    Inode.isDir m.inode.core.iMode = false ∧ (change.perform (s.openInode c m)).i ≠ m.inode
  | .commit c' dir' | .checkpoint c' dir' => c' = c ∧ dir' = dir
  | _ => False

/-- A client that changes a directory has the lease. -/
def HolderOnly (remote : C ↪ Addr) (s : OpenHandles C) (a : Action C) : Prop :=
  ∀ c dir, (step remote s a).isSome → s.Changes c dir a → Holds remote s.dirs.lease c dir

/-- A change comes within one lease period of the last grant to the client, and a directory that the
    client has made is not taken to the journal before the first grant. -/
def InTime (remote : C ↪ Addr) (s : OpenHandles C) (a : Action C) : Prop :=
  ∀ c dir, (step remote s a).isSome → s.Changes c dir a →
    (∀ t, s.grantedAt c dir = some t → s.dirs.lease.now < t + period) ∧
      ((c, dir) ∈ s.made → s.grantedAt c dir ≠ none)

/-! ## What a client has in its hands -/

omit [DecidableEq C] in
/-- The client has a transaction of the directory that is not checkpointed. -/
def Unwritten (s : OpenHandles C) (c : C) (dir : Uuid) : Prop :=
  dir ∈ s.jtables c ∨ dir ∈ s.cycle c ∨ s.queues c dir ≠ []

omit [DecidableEq C] in
def Granted (s : OpenHandles C) (c : C) (dir : Uuid) : Prop := (s.grantedAt c dir).isSome = true

/-- Nothing comes into a client's hands without a grant, but the first transaction of a directory that
    it has made. -/
structure Inv (remote : C ↪ Addr) (s : OpenHandles C) : Prop where
  dirs : DirectoryTable.Inv remote s.dirs
  grants : GrantsKnown remote s.dirs.lease s.grantedAt
  held : ∀ c dir, (c, dir) ∈ s.held → s.Granted c dir
  inodes : ∀ c k m, s.inodes c k = some m → (c, m.home) ∈ s.held
  unwritten : ∀ c dir, s.Unwritten c dir → s.Granted c dir ∨ (c, dir) ∈ s.made

section

variable {remote : C ↪ Addr} {s s' : OpenHandles C} {c : C} {dir : Uuid} {k : Nat} {m : MemInode}

omit [DecidableEq C] in
theorem inv_init (pool dataPool : Pool) : Inv remote (init C pool dataPool) where
  dirs := DirectoryTable.inv_init
  grants := grantsKnown_init
  held := nofun
  inodes := nofun
  unwritten c dir h := by
    obtain h | h | h := h
    · cases h
    · cases h
    · exact absurd rfl h

omit [DecidableEq C] in
/-- A client that gets a LOCAL table has been told that it is the leader. -/
theorem told_of_got {dirs : DirectoryTable.State C} {a : DirectoryTable.Action C}
    (h : DirectoryTable.Inv remote dirs) (hgot : (c, dir) ∈ got dirs a) :
    ∃ d, HasInfo dirs.lease c dir d true := by
  cases a with
  | getDentryTable c' ino fromRemote =>
      simp only [got] at hgot
      split at hgot
      · rename_i hlocal
        cases List.mem_singleton.mp hgot
        obtain ⟨table, hhit, hloc⟩ := (Option.any_eq_true _ _).mp hlocal
        obtain ⟨ht, -⟩ := DirectoryTable.cachedTable_eq_some hhit
        obtain ⟨d, hd, -⟩ := h.cached c dir table ht (of_decide_eq_true hloc)
        exact ⟨d, Or.inl hd⟩
      · cases hgot
  | build c' =>
      simp only [got] at hgot
      split at hgot
      · rename_i mkdir ino addr hphase
        cases List.mem_singleton.mp hgot
        obtain ⟨d, hd⟩ := h.acquired c mkdir dir addr hphase
        exact ⟨d, Or.inl hd⟩
      · cases hgot
  | lease b => cases hgot
  | leaseDentryTableMkdir c' ino => cases hgot
  | deliver c' => cases hgot
  | fail c' => cases hgot
  | buildFail c' => cases hgot
  | deleteDentryTable c' ino => cases hgot

omit [DecidableEq C] in
/-- What is left as it was. -/
theorem Inv.of_eq (h : Inv remote s) (hdirs : s'.dirs = s.dirs)
    (hgranted : s'.grantedAt = s.grantedAt) (hheld : s'.held = s.held)
    (hinodes : ∀ c k m, s'.inodes c k = some m → (c, m.home) ∈ s.held)
    (hunwritten : ∀ c dir, s'.Unwritten c dir → s.Granted c dir ∨ (c, dir) ∈ s'.made) :
    Inv remote s' := by
  refine ⟨hdirs ▸ h.dirs, ?_, ?_, ?_, ?_⟩
  · rw [hdirs, hgranted]
    exact h.grants
  · intro c dir hmem
    unfold Granted
    rw [hgranted]
    exact h.held c dir (hheld ▸ hmem)
  · rw [hheld]
    exact hinodes
  · intro c dir hu
    unfold Granted
    rw [hgranted]
    exact hunwritten c dir hu

/-- A step of the directory tables. -/
theorem Inv.dirStep {a : DirectoryTable.Action C} {dirs : DirectoryTable.State C} (h : Inv remote s)
    (hs : DirectoryTable.step remote s.dirs a = some dirs) :
    Inv remote { s with
      dirs
      held := got s.dirs a ++ s.held
      grantedAt := s.grantedAt.next remote s.dirs.lease dirs.lease } := by
  refine ⟨DirectoryTable.inv_step h.dirs hs, ?_, fun c dir hmem => ?_, fun c k m hm => ?_,
    fun c dir hu => ?_⟩
  · obtain heq | ⟨b, hb, -⟩ := DirectoryTable.lease_of_step hs
    · dsimp only
      rw [heq, GrantTimes.next_self]
      exact h.grants
    · exact grantsKnown_step h.grants hb
  · refine GrantTimes.next_isSome ?_
    obtain hgot | hold := List.mem_append.mp hmem
    · obtain ⟨d, hd⟩ := told_of_got h.dirs hgot
      exact h.grants.told c dir d hd
    · exact h.held c dir hold
  · exact List.mem_append_right _ (h.inodes c k m hm)
  · exact (h.unwritten c dir hu).imp_left GrantTimes.next_isSome

theorem Inv.putInode (h : Inv remote s) (hm : (c, m.home) ∈ s.held) :
    Inv remote (s.putInode c k m) := by
  refine h.of_eq rfl rfl rfl (fun c' k' m' hm' => ?_) h.unwritten
  simp only [OpenHandles.putInode, Function.update_apply] at hm'
  split at hm'
  · subst c'
    rw [Function.update_apply] at hm'
    split at hm'
    · cases hm'
      exact hm
    · exact h.inodes c k' m' hm'
  · exact h.inodes c' k' m' hm'

theorem Inv.setHandle (h : Inv remote s) (fh : UInt64) (k : Option Nat) :
    Inv remote (s.setHandle c fh k) :=
  h.of_eq rfl rfl rfl h.inodes h.unwritten

/-- The journal of `c` hears of directories that it may tell it of. -/
theorem Inv.setJtable (h : Inv remote s) {jtable : JournalTable} {made : List (C × Uuid)}
    (hmade : ∀ x ∈ s.made, x ∈ made)
    (hj : ∀ dir, dir ∈ jtable → dir ∈ s.jtables c ∨ (c, dir) ∈ s.held ∨ (c, dir) ∈ made) :
    Inv remote { s with jtables := Function.update s.jtables c jtable, made } := by
  refine h.of_eq rfl rfl rfl h.inodes fun c' dir hu => ?_
  have hold : s.Unwritten c' dir → s.Granted c' dir ∨ (c', dir) ∈ made :=
    fun hu => (h.unwritten c' dir hu).imp_right (hmade _)
  obtain hu | hu | hu := hu
  · dsimp only at hu
    rw [Function.update_apply] at hu
    split at hu
    · subst c'
      obtain hmem | hheld | hmem := hj dir hu
      · exact hold (Or.inl hmem)
      · exact Or.inl (h.held c dir hheld)
      · exact Or.inr hmem
    · exact hold (Or.inl hu)
  · exact hold (Or.inr (Or.inl hu))
  · exact hold (Or.inr (Or.inr hu))

theorem mem_record {jtable : JournalTable} {u : Uuid} {call : Transaction.Mutation} :
    dir ∈ (jtable.record u call).2 ↔ dir = u ∨ dir ∈ jtable :=
  AList.mem_insert _

omit [DecidableEq C] in
theorem home_of_changes {i : Inode} (hino : i.ino = m.inode.ino)
    (htype : i.core.iMode &&& Inode.S_IFMT = m.inode.core.iMode &&& Inode.S_IFMT) :
    MemInode.home { m with inode := i } = m.home := by
  unfold MemInode.home Inode.isDir
  dsimp only
  rw [hino, htype]

/-- The inode stays where it is, and its directory's journal hears of it. -/
theorem Inv.putOpenInode {o : LocalOps.OpenInode} (h : Inv remote s)
    (hm : (c, m.home) ∈ s.held) (hino : o.i.ino = m.inode.ino)
    (htype : o.i.core.iMode &&& Inode.S_IFMT = m.inode.core.iMode &&& Inode.S_IFMT)
    (hj : o.jtable = s.jtables c ∨ ∃ call, o.jtable = ((s.jtables c).record m.home call).2) :
    Inv remote (s.putOpenInode c k m o) := by
  have hput : Inv remote (s.putInode c k { m with inode := o.i }) := by
    refine h.putInode ?_
    rw [home_of_changes hino htype]
    exact hm
  have hheard : ∀ dir, dir ∈ o.jtable →
      dir ∈ s.jtables c ∨ (c, dir) ∈ s.held ∨ (c, dir) ∈ s.made := by
    intro dir hmem
    obtain heq | ⟨call, heq⟩ := hj
    · exact Or.inl (heq ▸ hmem)
    · rw [heq] at hmem
      obtain rfl | hmem := mem_record.mp hmem
      · exact Or.inr (Or.inl hm)
      · exact Or.inl hmem
  have hset := hput.setJtable (fun _ h => h) hheard
  exact hset.of_eq rfl rfl rfl hset.inodes hset.unwritten

omit [DecidableEq C] in
/-- `handled` finds an inode of the client. -/
theorem inode_of_handled {fh : UInt64} (hh : s.handled c fh = some (k, m)) :
    s.inodes c k = some m := by
  obtain ⟨k', -, hk⟩ := Option.bind_eq_some_iff.mp hh
  obtain ⟨m', hm, heq⟩ := Option.map_eq_some_iff.mp hk
  cases heq
  exact hm

omit [DecidableEq C] in
theorem home_of_file (hfile : Inode.isDir m.inode.core.iMode = false) : m.home = m.pIno :=
  if_neg (by rw [hfile]; decide)

theorem localOpen_cases (o : LocalOps.OpenInode) (flags : UInt32) :
    (LocalOps.localOpen o flags).2 = o ∨ (LocalOps.localOpen o flags).2 = (o.setSize 0).chreg := by
  unfold LocalOps.localOpen
  split
  · exact Or.inl rfl
  · split
    · exact Or.inl rfl
    · split
      · exact Or.inr rfl
      · exact Or.inl rfl

theorem Inv.open {fh : UInt64} {flags : UInt32} (h : Inv remote s)
    (hs : step remote s (.open c fh k flags) = some s') : Inv remote s' := by
  obtain ⟨m, hm, hs⟩ := Option.bind_eq_some_iff.mp hs
  have hheld := h.inodes c k m hm
  split at hs
  · rename_i hguard
    dsimp only at hs
    split at hs
    · cases hs
      refine Inv.setHandle ?_ fh (some k)
      obtain hsame | hsize := localOpen_cases (s.openInode c m) flags
      · rw [hsame]
        exact h.putOpenInode hheld rfl rfl (Or.inl rfl)
      · rw [hsize]
        refine h.putOpenInode hheld rfl rfl (Or.inr ⟨.chreg ((s.openInode c m).setSize 0).i, ?_⟩)
        rw [home_of_file hguard.1]
        rfl
    · cases hs
      exact h
  · cases hs

theorem Inv.change {fh : UInt64} {change : InodeChange} (h : Inv remote s)
    (hs : step remote s (.change c fh change) = some s') : Inv remote s' := by
  obtain ⟨⟨k, m⟩, hh, hs⟩ := Option.bind_eq_some_iff.mp hs
  dsimp only at hs
  split at hs
  · rename_i hguard
    cases hs
    have hkind : change.OfDir ∨ Mirror.IsFile m.inode := by
      by_cases hdir : Inode.isDir m.inode.core.iMode = true
      · exact Or.inl (hguard.2 hdir)
      · exact Or.inr (Bool.eq_false_iff.mpr hdir)
    have hch := InodeChange.changes (o := s.openInode c m) hguard.1 hkind
    refine h.putOpenInode (h.inodes c k m (inode_of_handled hh)) hch.ino hch.type ?_
    obtain ⟨-, hj⟩ | hj := hch.jtable
    · exact Or.inl hj
    · rw [isDir_of_changes hch, hch.ino] at hj
      unfold MemInode.home
      by_cases hdir : Inode.isDir m.inode.core.iMode = true
      · rw [show Inode.isDir (s.openInode c m).i.core.iMode = true from hdir, if_pos rfl] at hj
        rw [if_pos hdir]
        exact Or.inr ⟨_, hj⟩
      · rw [if_neg (show ¬ Inode.isDir (s.openInode c m).i.core.iMode = true from hdir)] at hj
        rw [if_neg hdir]
        exact Or.inr ⟨_, hj⟩
  · cases hs

theorem Inv.commit (h : Inv remote s) (hs : step remote s (.commit c dir) = some s') :
    Inv remote s' := by
  obtain ⟨tx, htx, hs⟩ := Option.bind_eq_some_iff.mp hs
  split at hs
  · cases hs
  · cases hs
    refine h.of_eq rfl rfl rfl h.inodes fun c' dir' hu => ?_
    obtain hu | hu | hu := hu
    · exact h.unwritten c' dir' (Or.inl hu)
    · refine h.unwritten c' dir' (Or.inr (Or.inl ?_))
      dsimp only at hu
      rw [Function.update_apply] at hu
      split at hu
      · subst c'
        exact (AList.mem_erase.mp hu).2
      · exact hu
    · dsimp only at hu
      rw [Function.update_apply] at hu
      split at hu
      · subst c'
        rw [Function.update_apply] at hu
        split at hu
        · subst dir'
          refine h.unwritten c dir (Or.inr (Or.inl ?_))
          rw [← AList.lookup_isSome, htx]
          rfl
        · exact h.unwritten c dir' (Or.inr (Or.inr hu))
      · exact h.unwritten c' dir' (Or.inr (Or.inr hu))

theorem Inv.checkpoint (h : Inv remote s) (hs : step remote s (.checkpoint c dir) = some s') :
    Inv remote s' := by
  simp only [step] at hs
  split at hs
  · cases hs
  · rename_i tx queue hqueue
    split at hs
    · cases hs
    · cases hs
      refine h.of_eq rfl rfl rfl h.inodes fun c' dir' hu => ?_
      obtain hu | hu | hu := hu
      · exact h.unwritten c' dir' (Or.inl hu)
      · exact h.unwritten c' dir' (Or.inr (Or.inl hu))
      · dsimp only at hu
        rw [Function.update_apply] at hu
        split at hu
        · subst c'
          rw [Function.update_apply] at hu
          split at hu
          · subst dir'
            exact h.unwritten c dir (Or.inr (Or.inr (by rw [hqueue]; exact List.cons_ne_nil _ _)))
          · exact h.unwritten c dir' (Or.inr (Or.inr hu))
        · exact h.unwritten c' dir' (Or.inr (Or.inr hu))

theorem Inv.replace (h : Inv remote s) (hs : step remote s (.replace c) = some s') :
    Inv remote s' := by
  simp only [step] at hs
  split at hs
  · cases hs
    refine h.of_eq rfl rfl rfl h.inodes fun c' dir hu => ?_
    obtain hu | hu | hu := hu
    · dsimp only at hu
      rw [Function.update_apply] at hu
      split at hu
      · cases hu
      · exact h.unwritten c' dir (Or.inl hu)
    · dsimp only at hu
      rw [Function.update_apply] at hu
      split at hu
      · subst c'
        exact h.unwritten c dir (Or.inl hu)
      · exact h.unwritten c' dir (Or.inr (Or.inl hu))
    · exact h.unwritten c' dir (Or.inr (Or.inr hu))
  · cases hs

theorem inv_step {a : Action C} (h : Inv remote s) (hs : step remote s a = some s') :
    Inv remote s' := by
  cases a with
  | dir b =>
      obtain ⟨dirs, hdirs, rfl⟩ := Option.map_eq_some_iff.mp hs
      exact h.dirStep hdirs
  | getChildInode c k m =>
      simp only [step] at hs
      split at hs
      · rename_i hguard
        cases hs
        exact h.putInode hguard.1
      · cases hs
  | «open» c fh k flags => exact h.open hs
  | opendir c fh k =>
      obtain ⟨m, -, hs⟩ := Option.bind_eq_some_iff.mp hs
      split at hs
      · split at hs
        · cases hs
          exact h.setHandle fh (some k)
        · cases hs
          exact h
      · cases hs
  | release c fh =>
      cases hs
      exact h.setHandle fh none
  | change c fh change => exact h.change hs
  | record c dir m =>
      simp only [step] at hs
      split at hs
      · rename_i hguard
        cases hs
        refine h.setJtable (fun x hx => ?_) fun u hmem => ?_
        · split
          · exact List.mem_cons_of_mem _ hx
          · exact hx
        · obtain rfl | hmem := mem_record.mp hmem
          · obtain hheld | hself := hguard
            · exact Or.inr (Or.inl hheld)
            · rw [if_pos hself]
              exact Or.inr (Or.inr List.mem_cons_self)
          · exact Or.inl hmem
      · cases hs
  | setPIno c k dir =>
      simp only [step] at hs
      split at hs
      · rename_i hheld
        obtain ⟨m, hm, rfl⟩ := Option.map_eq_some_iff.mp hs
        refine h.putInode ?_
        have hold := h.inodes c k m hm
        unfold MemInode.home at hold ⊢
        dsimp only
        split
        · rw [if_pos ‹_›] at hold
          exact hold
        · exact hheld
      · cases hs
  | replace c => exact h.replace hs
  | commit c dir => exact h.commit hs
  | checkpoint c dir => exact h.checkpoint hs

/-- A client changes what it has been granted, or what it has made. -/
theorem Inv.granted_of_changes {a : Action C} (h : Inv remote s)
    (hs : (step remote s a).isSome = true) (hc : s.Changes c dir a) :
    s.Granted c dir ∨ (c, dir) ∈ s.made := by
  cases a with
  | change c' fh change =>
      obtain ⟨rfl, k, m, hh, rfl, hfile, -⟩ := hc
      have hheld := h.inodes c' k m (inode_of_handled hh)
      rw [home_of_file hfile] at hheld
      exact Or.inl (h.held c' m.pIno hheld)
  | commit c' dir' =>
      obtain ⟨rfl, rfl⟩ := hc
      obtain ⟨s', hs⟩ := Option.isSome_iff_exists.mp hs
      obtain ⟨tx, htx, -⟩ := Option.bind_eq_some_iff.mp hs
      refine h.unwritten c' dir' (Or.inr (Or.inl ?_))
      rw [← AList.lookup_isSome, htx]
      rfl
  | checkpoint c' dir' =>
      obtain ⟨rfl, rfl⟩ := hc
      refine h.unwritten c' dir' (Or.inr (Or.inr fun hnil => ?_))
      simp only [step, hnil] at hs
      cases hs
  | _ => exact hc.elim

theorem holderOnly_iff (h : Inv remote s) (a : Action C) :
    HolderOnly remote s a ↔ InTime remote s a := by
  unfold HolderOnly InTime
  refine forall_congr' fun c => forall_congr' fun dir => forall_congr' fun hs => ?_
  refine forall_congr' fun hc => ?_
  rw [h.grants.holds_iff]
  constructor
  · rintro ⟨t, ht, hnow⟩
    refine ⟨fun t' ht' => ?_, fun _ hnone => ?_⟩
    · rw [ht] at ht'
      cases ht'
      exact hnow
    · rw [ht] at hnone
      cases hnone
  · rintro ⟨hin, hmade⟩
    have hgranted : s.Granted c dir := by
      obtain hgranted | hmem := h.granted_of_changes hs hc
      · exact hgranted
      · exact Option.isSome_iff_ne_none.mpr (hmade hmem)
    obtain ⟨t, ht⟩ := Option.isSome_iff_exists.mp hgranted
    exact ⟨t, ht, hin t ht⟩

/-- Somebody else's lease. -/
theorem not_holderOnly {a : Action C} {c' : C} (hs : step remote s a = some s')
    (hc : s.Changes c dir a) (hh : Holds remote s.dirs.lease c' dir) (hne : c ≠ c') :
    ¬ HolderOnly remote s a := by
  intro hall
  obtain ⟨e, he, haddr, -⟩ := hall c dir (by rw [hs]; rfl) hc
  obtain ⟨e', he', haddr', -⟩ := hh
  rw [he] at he'
  cases he'
  exact hne (remote.injective (haddr.symm.trans haddr'))

end

/-- An empty root directory. -/
def emptyRoot : Pool :=
  (∅ : Pool).insert (RadosIo.objKey .dentry Uuid.rootIno.toStr 0) (List.replicate 8 0)

/-- A file of the root directory. -/
def rootFile : MemInode := ⟨Inode.make (Creation.envOf 2) Inode.S_IFREG, Uuid.rootIno⟩

/-- The first client opens a file. When its lease has run out, the second one gets the lease. -/
def takenOver : List (Action Bool) :=
  [.dir (.getDentryTable false Uuid.rootIno false), .dir (.lease (.lookup 0)),
    .dir (.lease (.insert 0)), .dir (.deliver false), .dir (.build false),
    .getChildInode false 0 rootFile, .open false 0 0 0,
    .dir (.lease (.tick (milliseconds leasePeriodMs))),
    .dir (.getDentryTable true Uuid.rootIno false), .dir (.lease (.lookup 1)),
    .dir (.lease (.cas 1 0)), .dir (.deliver true), .dir (.build true)]

/-- The first client changes the file, and commits and checkpoints the change. -/
def lateSteps : List (Action Bool) :=
  [.change false 0 (.chmod 0x1A4), .replace false, .commit false Uuid.rootIno,
    .checkpoint false Uuid.rootIno]

theorem lateSteps_taken :
    (run (step twoClients) (init Bool emptyRoot ∅) (takenOver ++ lateSteps)).isSome = true := by
  decide +kernel

theorem takenOver_handled :
    (run (step twoClients) (init Bool emptyRoot ∅) takenOver).map (fun s => s.handled false 0) =
      some (some (0, rootFile)) := by decide +kernel

theorem lateSteps_lease : ∀ n ∈ [0, 2, 3],
    (run (step twoClients) (init Bool emptyRoot ∅) (takenOver ++ lateSteps.take n)).map
      (fun s => (s.dirs.lease.manager Uuid.rootIno, s.dirs.lease.now)) =
      some (some ⟨2 * milliseconds leasePeriodMs, twoClients true⟩, milliseconds leasePeriodMs) := by
  decide +kernel

theorem lateSteps_reached {n : Nat} {a : Action Bool} (hn : n ∈ [0, 2, 3])
    (ha : lateSteps[n]? = some a) : ∃ s t,
      run (step twoClients) (init Bool emptyRoot ∅) (takenOver ++ lateSteps.take n) = some s ∧
        step twoClients s a = some t ∧ Holds twoClients s.dirs.lease true Uuid.rootIno := by
  obtain ⟨s', hs'⟩ := Option.isSome_iff_exists.mp lateSteps_taken
  obtain ⟨hlt, rfl⟩ := List.getElem?_eq_some_iff.mp ha
  rw [← List.take_append_drop n lateSteps, ← List.append_assoc,
    List.drop_eq_getElem_cons hlt] at hs'
  obtain ⟨s, hs, hrest⟩ := run_append.mp hs'
  obtain ⟨t, ht, -⟩ := run_cons.mp hrest
  have hlease := lateSteps_lease n hn
  rw [hs] at hlease
  obtain ⟨hmanager, hnow⟩ := Prod.mk.inj (Option.some.inj hlease)
  refine ⟨s, t, hs, ht, _, hmanager, rfl, ?_⟩
  rw [hnow]
  decide

theorem takenOver_changes {s : OpenHandles Bool}
    (hs : run (step twoClients) (init Bool emptyRoot ∅) takenOver = some s) :
    s.Changes false Uuid.rootIno (.change false 0 (.chmod 0x1A4)) := by
  have hhandled := takenOver_handled
  rw [hs] at hhandled
  refine ⟨rfl, 0, rootFile, Option.some.inj hhandled, rfl, by decide, fun heq => ?_⟩
  dsimp only [InodeChange.perform, LocalOps.localChmod] at heq
  rw [LocalOps.OpenInode.record_i] at heq
  have hmode : (0x1A4 : UInt32) ||| rootFile.inode.core.iMode &&& Inode.S_IFMT =
      rootFile.inode.core.iMode := congrArg (fun i : Inode => i.core.iMode) heq
  exact absurd hmode (by decide)

end OpenHandles

end Nmfs
