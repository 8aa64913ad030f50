import Nmfs.Fs.Pulling
import Nmfs.Fs.StoredCheckpoint

/-
  The lease of a directory passes from the client that leads it to another one, which builds its
  table from the meta pool in `lease_dentry_table`; the call of `journalctl->check(ino)` in it is
  commented out, so it does not look at the journal. The old leader's threads do not ask for the
  lease: they go on committing and checkpointing, one call of `rados_io` at a time, while the new
  leader reads one object after the other.
-/

namespace Nmfs

open Lib RadosIo

namespace Takeover

open DirectoryOps Mirror Refinement Checkpointers

/-- The client that leads the directory first. -/
structure OldLeader where
  state : Refinement.State
  /-- what the checkpoint thread has left to do of the transaction that it has taken last -/
  thread : Prog Unit
  /-- history: the table as it was at each commit, oldest first -/
  commits : List DentryTable
  /-- history: how many transactions the checkpoint thread has taken -/
  taken : Nat

/-- The client that gets the lease; `n` commits came before that. -/
inductive NewLeader where
  | waiting
  | acquired (n : Nat)
  | pulling (n : Nat) (rest : Prog DentryTable)

structure State extends OldLeader where
  next : NewLeader

inductive Action where
  | operation (o : Operation)
  | commit
  /-- `dispatch` gives the checkpoint thread the next transaction -/
  | dispatch
  /-- the next call of the checkpoint thread -/
  | checkpoint
  /-- the transaction of another directory is checkpointed, and writes an INODE object -/
  | elsewhere (i : Inode)
  | acquire
  /-- `lease_dentry_table` begins to build the table -/
  | build
  /-- the next call of the new leader -/
  | pull

def step (s : State) : Action → Option State
  | .operation o => some { s with state := { s.state with led := (o.perform s.state.led).2 } }
  | .commit =>
    (Refinement.step s.state .commit).map fun state =>
      { s with state, commits := s.commits ++ [s.state.led.table] }
  | .dispatch =>
    match s.thread, s.state.queue with
    | .done (.ok ()), tx :: queue =>
      some { s with
        state := { s.state with queue }
        thread := Checkpointers.checkpoint tx
        taken := s.taken + 1 }
    | _, _ => none
  | .checkpoint =>
    match s.thread with
    | .done _ => none
    | .call c next =>
      let (reply, pool) := c.exec s.state.pool
      some { s with state := { s.state with pool }, thread := next reply }
  | .elsewhere i => some { s with state := { s.state with pool := i.sync s.state.pool } }
  | .acquire =>
    match s.next with
    | .waiting => some { s with next := .acquired s.commits.length }
    | _ => none
  | .build =>
    match s.next with
    | .acquired n =>
      some { s with next := .pulling n (Pulling.pullTable s.state.led.table.dirIno) }
    | _ => none
  | .pull =>
    match s.next with
    | .pulling n (.call c next) => some { s with next := .pulling n (next (c.exec s.state.pool).1) }
    | _ => none

/-- `t` has what `last` has: the children, the inodes of the files and the directory's own inode. -/
structure Inherits (t last : DentryTable) : Prop where
  listed : t.listed = last.listed
  files : ∀ name c, last.child name = some c → IsFile c.inode → ∃ c', t.child name = some c' ∧
    c'.inode.core = c.inode.core ∧ c'.inode.target = c.inode.target
  self : t.thisDirInode.core = last.thisDirInode.core

/-- The new leader has every operation that was committed before it acquired the lease: its table is
    what the directory was at the last of these commits, or at a later one. -/
def NothingLost (s : State) : Prop :=
  ∀ n result, s.next = .pulling n (.done result) → n ≠ 0 →
    ∃ t, result = .ok t ∧ ∃ last ∈ s.commits.drop (n - 1), Inherits t last

/-- The steps of the old leader are as in `Refinement.Valid`. The other directories have other inode
    numbers than this one and the files in it. -/
def Valid (s : State) : Action → Prop
  | .operation o => o.Valid s.state.led
  | .commit => Refinement.Valid s.state .commit
  | .elsewhere i => i.ino ≠ s.state.led.table.dirIno ∧
    (∀ name c, s.state.led.table.child name = some c → IsFile c.inode → c.inode.ino ≠ i.ino) ∧
    ∀ last ∈ s.commits.drop (s.taken - 1), ∀ name c, last.child name = some c → IsFile c.inode →
      c.inode.ino ≠ i.ino
  | _ => True

/-- Where the call is about the INODE object of a directory in `last`, the object is there. -/
def DirectoryThere (pool : Pool) (last : DentryTable) (c : MetaCall) : Prop :=
  ∀ name child, last.child name = some child → ¬ IsFile child.inode →
    c.file = (.inode, child.inode.ino.toStr) →
      ∃ i, Inode.pull pool child.inode.ino = .ok i ∧ Inode.isDir i.core.iMode = true

/-- When the new leader begins to build its table, the checkpoint thread is done with all that was
    committed before the lease was acquired, and it takes up nothing until the table is built. The
    INODE object of a directory is there when it is pulled. -/
def Undisturbed (s : State) : Action → Prop
  | .build => ∀ n, s.next = .acquired n → n ≤ s.taken ∧ s.thread = .done (.ok ())
  | .dispatch => ∀ n rest, s.next = .pulling n rest → ∃ result, rest = .done result
  | .pull => ∀ n c next, s.next = .pulling n (.call c next) →
    ∀ last, s.commits[s.taken - 1]? = some last → DirectoryThere s.state.pool last c
  | _ => True

/-! ## What the pool keeps -/

/-- `m` has what the table has. -/
structure Keeps (m : Stored) (t : DentryTable) : Prop where
  load : ∃ d, m.load t.dirIno false = .ok d ∧ d.childList.lookup = t.listed
  sound : t.Sound
  files : ∀ name c, t.child name = some c → IsFile c.inode →
    Inode.Spells (m.inodes c.inode.ino) c.inode ∧ c.inode.WellFormed
  self : Inode.Spells (m.inodes t.dirIno) t.thisDirInode ∧ t.thisDirInode.ino = t.dirIno ∧
    t.thisDirInode.WellFormed

section

variable {m m' : Stored} {d : Dentry} {s : Led} {t : DentryTable}

theorem keeps_of_mirrors (h : Mirrors m d (committed s)) : Keeps m s.table := by
  have hr := h.recorded
  have htx : (committed s).tx = Transaction.new s.table.dirIno :=
    (tx_committed s).trans (congrArg Transaction.new hr.names.self)
  have hself := h.self
  unfold SelfRecorded at hself
  rw [htx] at hself
  refine ⟨⟨d, ?_, ?_⟩, hr.names.sound, ?_, hself, hr.names.self,
    wellFormed_of_directory hr.selfDir⟩
  · have hload := hr.load
    rw [htx] at hload
    exact hload
  · have hl := hr.names.listed
    rw [htx] at hl
    exact hl
  · intro name c hc hf
    have hfile := hr.files name c hc hf
    rw [htx] at hfile
    exact ⟨hfile, hr.wellFormed name c hc⟩

theorem Keeps.sameBut {u : Uuid} (h : Keeps m t) (hs : SameBut u m m') (hdir : u ≠ t.dirIno)
    (hfiles : ∀ name c, t.child name = some c → IsFile c.inode → c.inode.ino ≠ u) : Keeps m' t := by
  refine ⟨?_, h.sound, ?_, ?_, h.self.2⟩
  · rw [hs.load]
    exact h.load
  · intro name c hc hf
    rw [hs.inodes _ (hfiles name c hc hf)]
    exact h.files name c hc hf
  · rw [hs.inodes _ (Ne.symm hdir)]
    exact h.self.1

theorem mirrors_sameBut {u : Uuid} (h : Mirrors m d s) (hs : SameBut u m m')
    (hdir : u ≠ s.table.dirIno)
    (hfiles : ∀ name c, s.table.child name = some c → IsFile c.inode → c.inode.ino ≠ u) :
    Mirrors m' d s := by
  have hr := h.recorded
  refine ⟨⟨hr.names, ?_, hr.sIno, hr.exists_, hr.nameOk, ?_, hr.wellFormed, hr.live, hr.apart,
    hr.selfDir⟩, ?_⟩
  · rw [hs.load]
    exact hr.load
  · intro n c hc hf
    have hfile := hr.files n c hc hf
    unfold FileRecorded at hfile ⊢
    rw [hs.inodes _ (hfiles n c hc hf)]
    exact hfile
  · have hself := h.self
    unfold SelfRecorded at hself ⊢
    rw [hs.inodes _ (Ne.symm hdir)]
    exact hself

end

/-! ## What is still to be checkpointed -/

/-- `m` has what the directory's table had at a commit. -/
structure Kept (dir : Uuid) (m : Stored) (last : DentryTable) : Prop where
  dirIno : last.dirIno = dir
  keeps : Keeps m last

/-- Checkpointing the transactions one after the other leads from `m` to `m'`, over what the tables
    were at their commits. -/
inductive Chain (dir : Uuid) : Stored → List Transaction → List DentryTable → Stored → Prop
  | nil {m : Stored} : Chain dir m [] [] m
  | cons {m m₁ m' : Stored} {tx : Transaction} {queue : List Transaction} {last : DentryTable}
      {commits : List DentryTable} (hino : tx.sIno = dir) (hs : m.sync tx = .ok m₁)
      (hk : Kept dir m₁ last) (hrest : Chain dir m₁ queue commits m') :
      Chain dir m (tx :: queue) (last :: commits) m'

section

variable {dir u : Uuid} {m m₁ m' m₁' : Stored} {queue : List Transaction} {tx : Transaction}
  {commits : List DentryTable} {last : DentryTable}

theorem Chain.snoc (h : Chain dir m queue commits m') (hino : tx.sIno = dir)
    (hs : m'.sync tx = .ok m₁) (hk : Kept dir m₁ last) :
    Chain dir m (queue ++ [tx]) (commits ++ [last]) m₁ := by
  induction h with
  | nil => exact .cons hino hs hk .nil
  | cons hino' hs' hk' _ ih => exact .cons hino' hs' hk' (ih hs)

theorem Kept.sameBut (h : Kept dir m last) (hsame : SameBut u m m') (hdir : u ≠ dir)
    (hfiles : ∀ name c, last.child name = some c → IsFile c.inode → c.inode.ino ≠ u) :
    Kept dir m' last :=
  ⟨h.dirIno, h.keeps.sameBut hsame (by rw [h.dirIno]; exact hdir) hfiles⟩

theorem Chain.sameBut (h : Chain dir m queue commits m') (hsame : SameBut u m m₁) (hdir : u ≠ dir)
    (hfiles : ∀ last ∈ commits, ∀ name c, last.child name = some c → IsFile c.inode →
      c.inode.ino ≠ u) :
    ∃ m₁', SameBut u m' m₁' ∧ Chain dir m₁ queue commits m₁' := by
  induction h generalizing m₁ with
  | nil => exact ⟨m₁, hsame, .nil⟩
  | cons hino hs hk _ ih =>
      obtain ⟨m₂, hs', hsame'⟩ := hsame.sync hs
      obtain ⟨m₁', hend, hchain⟩ := ih hsame' fun t ht => hfiles t (List.mem_cons_of_mem _ ht)
      have hk' := hk.sameBut hsame' hdir (hfiles _ List.mem_cons_self)
      exact ⟨m₁', hend, .cons hino hs' hk' hchain⟩

end

/-- The pool has what `now` says; with the transaction at hand checkpointed it will have what `m₀`
    says, and with the queue what `m` says. That mirrors what the old leader has. -/
structure Tracked (dir : Uuid) (now m₀ m : Stored) (d : Dentry) (s : OldLeader) : Prop where
  stores : Stores s.state.pool dir now
  calls : s.thread.Calls (OfDirectory dir)
  thread : s.thread.run execStored now = (.ok (), m₀)
  kept : ∀ last, 0 < s.taken → s.commits[s.taken - 1]? = some last → Kept dir m₀ last
  chain : Chain dir m₀ s.state.queue (s.commits.drop s.taken) m
  mirrors : Mirrors m d s.state.led
  dirIno : s.state.led.table.dirIno = dir
  taken : s.taken ≤ s.commits.length

def Tracks (dir : Uuid) (s : OldLeader) : Prop := ∃ now m₀ m d, Tracked dir now m₀ m d s

section

variable {dir : Uuid} {now m₀ m : Stored} {d : Dentry} {s : OldLeader} {o : Operation}

theorem Tracked.operation (h : Tracked dir now m₀ m d s) (hv : o.Valid s.state.led) :
    Tracked dir now m₀ m d { s with state := { s.state with led := (o.perform s.state.led).2 } } := by
  have hm := (done_operation h.mirrors hv).2
  refine ⟨h.stores, h.calls, h.thread, h.kept, h.chain, hm, ?_, h.taken⟩
  rw [← h.dirIno, dirIno_of_mirrors h.mirrors]
  exact dirIno_of_mirrors hm

theorem Tracked.commit {state : Refinement.State} (h : Tracked dir now m₀ m d s)
    (hv : Refinement.Valid s.state .commit) (hs : Refinement.step s.state .commit = some state) :
    ∃ m' d', Tracked dir now m₀ m' d'
      { s with state, commits := s.commits ++ [s.state.led.table] } := by
  obtain ⟨tx, htx, hs⟩ := Option.bind_eq_some_iff.mp hs
  have hcur : s.state.led.tx = tx := by
    unfold Led.tx JournalTable.getEntry
    rw [htx]
    rfl
  obtain ⟨m', d', hsync, hm'⟩ := h.mirrors.commit hv
  have hopen : tx.committed = false := hcur ▸ h.mirrors.recorded.names.uncommitted
  have hino : tx.sIno = dir := hcur ▸ h.mirrors.recorded.sIno.trans h.dirIno
  rw [hcur] at hsync
  unfold Transaction.commit at hs
  rw [if_neg (by rw [hopen]; decide)] at hs
  cases hs
  have hkept : Kept dir m' s.state.led.table := ⟨h.dirIno, keeps_of_mirrors hm'⟩
  refine ⟨m', d', Journal.stores_frame h.stores (frame_write_file _ _), h.calls, h.thread,
    fun last hpos hlast => ?_, ?_, hm', h.dirIno, ?_⟩
  · have htaken := h.taken
    dsimp only at hpos hlast
    rw [List.getElem?_append_left (by omega)] at hlast
    exact h.kept last hpos hlast
  · dsimp only
    rw [List.drop_append_of_le_length h.taken]
    exact h.chain.snoc hino hsync hkept
  · dsimp only
    rw [List.length_append]
    exact Nat.le_add_right_of_le h.taken

theorem Tracked.dispatch {tx : Transaction} {queue : List Transaction}
    (h : Tracked dir now m₀ m d s) (hthread : s.thread = .done (.ok ()))
    (hqueue : s.state.queue = tx :: queue) : ∃ m₁, Tracked dir now m₁ m d
      { s with
        state := { s.state with queue }
        thread := Checkpointers.checkpoint tx
        taken := s.taken + 1 } := by
  have hnow : now = m₀ := by
    have hrun := h.thread
    rw [hthread] at hrun
    exact (Prod.mk.inj hrun).2
  have hchain := h.chain
  rw [hqueue] at hchain
  generalize hrest : s.commits.drop s.taken = commits at hchain
  cases hchain with
  | @cons _ m₁ _ _ _ last commits hino hs hk hchain =>
      have hlast : s.commits[s.taken]? = some last := by
        rw [← List.head?_drop, hrest]
        rfl
      refine ⟨m₁, h.stores, hino ▸ ofDirectory_checkpoint tx, run_checkpoint_stored (hnow ▸ hs),
        fun last' _ hlast' => ?_, ?_, h.mirrors, h.dirIno, ?_⟩
      · dsimp only at hlast'
        rw [Nat.add_sub_cancel, hlast] at hlast'
        cases hlast'
        exact hk
      · dsimp only
        rw [← List.drop_drop, hrest]
        exact hchain
      · exact (List.getElem?_eq_some_iff.mp hlast).1

theorem Tracked.checkpoint {c : MetaCall} {next : c.Reply → Prog Unit}
    (h : Tracked dir now m₀ m d s) (hthread : s.thread = .call c next) :
    Tracked dir (execStored c now).2 m₀ m d
      { s with
        state := { s.state with pool := (c.exec s.state.pool).2 }
        thread := next (c.exec s.state.pool).1 } := by
  have hcalls := h.calls
  have hrun := h.thread
  rw [hthread] at hcalls hrun
  obtain ⟨hreply, hstores⟩ := exec_stored c s.state.pool now hcalls.1 h.stores
  refine ⟨hstores, hcalls.2 _, ?_, h.kept, h.chain, h.mirrors, h.dirIno, h.taken⟩
  dsimp only
  rw [hreply]
  exact hrun

theorem Tracked.elsewhere {i : Inode} (h : Tracked dir now m₀ m d s)
    (hdir : i.ino ≠ s.state.led.table.dirIno)
    (hfiles : ∀ name c, s.state.led.table.child name = some c → IsFile c.inode →
      c.inode.ino ≠ i.ino)
    (hfiles' : ∀ last ∈ s.commits.drop (s.taken - 1), ∀ name c, last.child name = some c →
      IsFile c.inode → c.inode.ino ≠ i.ino) :
    ∃ m₀' m', Tracked dir (now.write i) m₀' m' d
      { s with state := { s.state with pool := i.sync s.state.pool } } := by
  have hwrite : SameBut i.ino now (now.write i) :=
    ⟨rfl, fun v hv => Function.update_of_ne hv _ _⟩
  obtain ⟨hresult, hsame⟩ := Prog.run_simulation (P := OfDirectory dir)
    (fun c m m' _ => exec_sameBut c m m') h.calls hwrite
  rw [h.thread] at hresult hsame
  have hdir' : i.ino ≠ dir := h.dirIno ▸ hdir
  obtain ⟨m', hend, hchain⟩ := h.chain.sameBut hsame hdir' fun last hmem =>
    hfiles' last ((List.drop_sublist_drop_left _ (Nat.sub_le _ _)).subset hmem)
  refine ⟨(s.thread.run execStored (now.write i)).2, m', h.stores.write i, h.calls,
    Prod.ext hresult.symm rfl, fun last hpos hlast => ?_, hchain,
    mirrors_sameBut h.mirrors hend hdir hfiles, h.dirIno, h.taken⟩
  refine (h.kept last hpos hlast).sameBut hsame hdir' (hfiles' last ?_)
  have hmem : (s.commits.drop (s.taken - 1))[0]? = some last := by
    rw [List.getElem?_drop]
    exact hlast
  exact List.mem_of_getElem? hmem

end

/-! ## The new table -/

/-- What a call can be told while the pool has what `last` had. -/
def Replies (last : DentryTable) (c : MetaCall) (r : c.Reply) : Prop :=
  ∃ pool m, Stores pool last.dirIno m ∧ Keeps m last ∧ DirectoryThere pool last c ∧
    r = (c.exec pool).1

def Inherited (last : DentryTable) (result : Except Err DentryTable) : Prop :=
  ∃ t, result = .ok t ∧ Inherits t last

section

variable {m : Stored} {last : DentryTable}

theorem pullInode_file {name : Bytes} {c : MemInode} (h : Keeps m last)
    (hc : last.child name = some c) (hf : IsFile c.inode) :
    (Pulling.pullInode c.inode.ino).Ends (Replies last) fun result =>
      result = .ok c.inode.pulled := by
  refine Pulling.pullInode_ends (h.files name c hc hf).2 ?_
  rintro call r - ⟨pool, m', hstores, hkeeps, -, rfl⟩
  exact ⟨pool, _, hstores.inodes _, (hkeeps.files name c hc hf).1, rfl⟩

theorem pullInode_directory {name : Bytes} {c : MemInode} (hc : last.child name = some c)
    (hf : ¬ IsFile c.inode) :
    (Pulling.pullInode c.inode.ino).Ends (Replies last) fun result => ∃ i, result = .ok i := by
  refine Pulling.pullInode_ends_directory ?_
  rintro r ⟨pool, m', -, -, hthere, rfl⟩
  obtain ⟨i, hpull, hdir⟩ := hthere name c hc hf rfl
  exact ⟨pool, i, rfl, hpull, hdir⟩

theorem pullInode_self (h : Keeps m last) :
    (Pulling.pullInode last.dirIno).Ends (Replies last) fun result =>
      result = .ok last.thisDirInode.pulled := by
  obtain ⟨-, hino, hw⟩ := h.self
  rw [← hino]
  refine Pulling.pullInode_ends hw ?_
  rintro call r - ⟨pool, m', hstores, hkeeps, -, rfl⟩
  refine ⟨pool, _, hstores.inodes _, ?_, rfl⟩
  rw [hino]
  exact hkeeps.self.1

theorem loadDentry_listed :
    (loadDentry last.dirIno false).Ends (Replies last) fun result =>
      ∃ d, result = .ok d ∧ d.childList.lookup = last.listed := by
  unfold loadDentry
  rw [if_neg Bool.false_ne_true]
  refine Prog.Ends.bind (Prog.Ends.make fun r hr => ⟨r, rfl, hr⟩) fun r hr => ?_
  obtain ⟨pool, m, hstores, hkeeps, -, rfl⟩ := hr
  obtain ⟨d, hload, hlist⟩ := hkeeps.load
  rw [← hstores.load] at hload
  unfold Dentry.load at hload
  rw [if_neg Bool.false_ne_true] at hload
  dsimp only [MetaCall.exec]
  revert hload
  cases RadosIo.read pool .dentry last.dirIno.toStr Dentry.MAX_DENTRY_OBJ_SIZE 0 with
  | noSuchObject v n => exact fun hload => (nomatch hload)
  | done bytes n => exact fun hload => ⟨d, hload, hlist⟩

/-- However the reading of the objects is spread over time. -/
theorem pullTable_ends (h : Keeps m last) :
    (Pulling.pullTable last.dirIno).Ends (Replies last) (Inherited last) := by
  unfold Pulling.pullTable
  refine Prog.Ends.bind ((pullInode_self h).mono fun result hr => ⟨_, hr, rfl⟩) ?_
  rintro self rfl
  refine Prog.Ends.bind loadDentry_listed fun d hlist => ?_
  have hlookup : ∀ name, d.childList.entries.dlookup name = last.listed name :=
    fun name => congrFun hlist name
  let asked : Bytes → Inode → Prop := fun name i =>
    ∀ c, last.child name = some c → IsFile c.inode → i = c.inode.pulled
  have hasked : ∀ e ∈ d.childList.entries, (Pulling.pullInode e.2).Ends (Replies last)
      fun result => ∃ i, result = .ok i ∧ asked e.1 i := ?_
  · refine Prog.Ends.bind (Pulling.pullChildren_ends d.childList.nodupKeys
      (fun e _ => AList.lookup_empty e.1) hasked) fun childInodes hall => ?_
    refine ⟨_, rfl, hlist, fun name c hc hf => ?_, rfl⟩
    have hname := hall name
    rw [hlookup, h.sound name, hc] at hname
    obtain ⟨i, hi, hchild⟩ := hname
    obtain rfl := hi c hc hf
    exact ⟨_, hchild, rfl, Inode.pulled_target⟩
  · rintro ⟨name, u⟩ he
    have hl : last.listed name = some u :=
      (hlookup name).symm.trans (AList.mem_lookup_iff.mpr he)
    rw [h.sound name] at hl
    obtain ⟨c, hc, rfl⟩ := Option.map_eq_some_iff.mp hl
    by_cases hf : IsFile c.inode
    · refine (pullInode_file h hc hf).mono ?_
      rintro result rfl
      refine ⟨_, rfl, fun c' hc' _ => ?_⟩
      rw [hc] at hc'
      cases hc'
      rfl
    · refine (pullInode_directory hc hf).mono ?_
      rintro result ⟨i, rfl⟩
      refine ⟨i, rfl, fun c' hc' hf' => ?_⟩
      rw [hc] at hc'
      cases hc'
      exact absurd hf' hf

end

/-- The new leader reads what the directory was at a commit, the last one before the acquisition or
    a later one. -/
def Reads (s : State) : Prop :=
  ∀ n rest, s.next = .pulling n rest → n ≠ 0 → ∃ k last, n ≤ k + 1 ∧ s.commits[k]? = some last ∧
    rest.Ends (Replies last) (Inherited last) ∧
    ((∃ result, rest = .done result) ∨ s.thread = .done (.ok ()) ∧ s.taken = k + 1)

/-! ## A run -/

/-- What a step can be. -/
inductive Moves (s : State) : Action → State → Prop
  | operation {o : Operation} : Moves s (.operation o)
      { s with state := { s.state with led := (o.perform s.state.led).2 } }
  | commit {state : Refinement.State} (h : Refinement.step s.state .commit = some state) :
      Moves s .commit { s with state, commits := s.commits ++ [s.state.led.table] }
  | dispatch {tx : Transaction} {queue : List Transaction} (hthread : s.thread = .done (.ok ()))
      (hqueue : s.state.queue = tx :: queue) :
      Moves s .dispatch { s with
        state := { s.state with queue }
        thread := Checkpointers.checkpoint tx
        taken := s.taken + 1 }
  | checkpoint {c : MetaCall} {next : c.Reply → Prog Unit} (hthread : s.thread = .call c next) :
      Moves s .checkpoint { s with
        state := { s.state with pool := (c.exec s.state.pool).2 }
        thread := next (c.exec s.state.pool).1 }
  | elsewhere {i : Inode} :
      Moves s (.elsewhere i) { s with state := { s.state with pool := i.sync s.state.pool } }
  | acquire (hnext : s.next = .waiting) :
      Moves s .acquire { s with next := .acquired s.commits.length }
  | build {n : Nat} (hnext : s.next = .acquired n) :
      Moves s .build { s with next := .pulling n (Pulling.pullTable s.state.led.table.dirIno) }
  | pull {n : Nat} {c : MetaCall} {next : c.Reply → Prog DentryTable}
      (hnext : s.next = .pulling n (.call c next)) :
      Moves s .pull { s with next := .pulling n (next (c.exec s.state.pool).1) }

theorem moves_of_step {s s' : State} {a : Action} (hs : step s a = some s') : Moves s a s' := by
  cases a with
  | operation o =>
      cases hs
      exact .operation
  | commit =>
      obtain ⟨state, hstate, rfl⟩ := Option.map_eq_some_iff.mp hs
      exact .commit hstate
  | dispatch =>
      simp only [step] at hs
      split at hs
      · rename_i tx queue hthread hqueue
        cases hs
        exact .dispatch hthread hqueue
      · cases hs
  | checkpoint =>
      simp only [step] at hs
      split at hs
      · cases hs
      · rename_i c next hthread
        cases hs
        exact .checkpoint hthread
  | elsewhere i =>
      cases hs
      exact .elsewhere
  | acquire =>
      simp only [step] at hs
      split at hs
      · rename_i hnext
        cases hs
        exact .acquire hnext
      · cases hs
  | build =>
      simp only [step] at hs
      split at hs
      · rename_i n hnext
        cases hs
        exact .build hnext
      · cases hs
  | pull =>
      simp only [step] at hs
      split at hs
      · rename_i n c next hnext
        cases hs
        exact .pull hnext
      · cases hs

theorem step_tracks {dir : Uuid} {s s' : State} {a : Action} (h : Tracks dir s.toOldLeader)
    (hv : Valid s a) (hs : step s a = some s') : Tracks dir s'.toOldLeader := by
  obtain ⟨now, m₀, m, d, h⟩ := h
  cases moves_of_step hs with
  | operation => exact ⟨now, m₀, m, d, h.operation hv⟩
  | commit hstate =>
      obtain ⟨m', d', h'⟩ := h.commit hv hstate
      exact ⟨now, m₀, m', d', h'⟩
  | dispatch hthread hqueue =>
      obtain ⟨m₁, h'⟩ := h.dispatch hthread hqueue
      exact ⟨now, m₁, m, d, h'⟩
  | checkpoint hthread => exact ⟨_, m₀, m, d, h.checkpoint hthread⟩
  | elsewhere =>
      obtain ⟨m₀', m', h'⟩ := h.elsewhere hv.1 hv.2.1 hv.2.2
      exact ⟨_, m₀', m', d, h'⟩
  | acquire => exact ⟨now, m₀, m, d, h⟩
  | build => exact ⟨now, m₀, m, d, h⟩
  | pull => exact ⟨now, m₀, m, d, h⟩

section

variable {dir : Uuid} {s s' : State}

/-- The new leader begins when the old leader's thread is done. -/
theorem reads_build {n : Nat} (h : Tracks dir s.toOldLeader) (hu : Undisturbed s .build)
    (hnext : s.next = .acquired n) :
    Reads { s with next := .pulling n (Pulling.pullTable s.state.led.table.dirIno) } := by
  obtain ⟨now, m₀, m, d, h⟩ := h
  obtain ⟨hle, hthread⟩ := hu n hnext
  intro n' rest heq hn
  cases heq
  have htaken := h.taken
  obtain ⟨last, hlast⟩ : ∃ last, s.commits[s.taken - 1]? = some last :=
    ⟨_, List.getElem?_eq_getElem (by omega)⟩
  obtain ⟨hino, hkeeps⟩ := h.kept last (by omega) hlast
  have hends := pullTable_ends hkeeps
  rw [hino, ← h.dirIno] at hends
  have hk : s.taken = s.taken - 1 + 1 := by omega
  exact ⟨s.taken - 1, last, by omega, hlast, hends, Or.inr ⟨hthread, hk⟩⟩

theorem reads_pull {n : Nat} {c : MetaCall} {next : c.Reply → Prog DentryTable}
    (h : Tracks dir s.toOldLeader) (hr : Reads s) (hu : Undisturbed s .pull)
    (hnext : s.next = .pulling n (.call c next)) :
    Reads { s with next := .pulling n (next (c.exec s.state.pool).1) } := by
  obtain ⟨now, m₀, m, d, h⟩ := h
  intro n' rest heq hn
  cases heq
  obtain ⟨k, last, hle, hlast, hends, hdone | ⟨hthread, htaken⟩⟩ := hr n _ hnext hn
  · obtain ⟨result, hdone⟩ := hdone
    cases hdone
  · refine ⟨k, last, hle, hlast, hends _ ?_, Or.inr ⟨hthread, htaken⟩⟩
    have hk : s.taken - 1 = k := by omega
    obtain ⟨hino, hkeeps⟩ := h.kept last (by omega) (hk ▸ hlast)
    have hnow : now = m₀ := by
      have hrun := h.thread
      rw [hthread] at hrun
      exact (Prod.mk.inj hrun).2
    exact ⟨s.state.pool, now, hino ▸ h.stores, hnow ▸ hkeeps,
      hu n c next hnext last (hk ▸ hlast), rfl⟩

theorem step_reads {a : Action} (h : Tracks dir s.toOldLeader) (hr : Reads s)
    (hu : Undisturbed s a) (hs : step s a = some s') : Reads s' := by
  cases moves_of_step hs with
  | operation => exact hr
  | commit hstate =>
      intro n rest hnext hn
      obtain ⟨k, last, hle, hlast, hends, hdone⟩ := hr n rest hnext hn
      refine ⟨k, last, hle, ?_, hends, hdone⟩
      exact (List.getElem?_append_left (List.getElem?_eq_some_iff.mp hlast).1).trans hlast
  | dispatch hthread hqueue =>
      intro n rest hnext hn
      obtain ⟨k, last, hle, hlast, hends, -⟩ := hr n rest hnext hn
      exact ⟨k, last, hle, hlast, hends, Or.inl (hu n rest hnext)⟩
  | checkpoint hthread =>
      intro n rest hnext hn
      obtain ⟨k, last, hle, hlast, hends, hdone | ⟨hidle, -⟩⟩ := hr n rest hnext hn
      · exact ⟨k, last, hle, hlast, hends, Or.inl hdone⟩
      · rw [hthread] at hidle
        cases hidle
  | elsewhere => exact hr
  | acquire hnext =>
      intro n rest heq
      cases heq
  | build hnext => exact reads_build h hu hnext
  | pull hnext => exact reads_pull h hr hu hnext

end

/-- Where a run starts: the directory has just been made, or loaded, and nothing is committed yet. -/
structure Starts (dir : Uuid) (s : State) : Prop where
  state : JustMade dir s.state ∨ Loaded dir s.state
  thread : s.thread = .done (.ok ())
  history : s.commits = [] ∧ s.taken = 0
  next : s.next = .waiting

theorem starts_tracks {dir : Uuid} {s : State} (h : Starts dir s) : Tracks dir s.toOldLeader := by
  obtain ⟨m₀, m, d, hf⟩ := h.state.elim justMade_reachable loaded_reachable
  obtain ⟨hcommits, htaken⟩ := h.history
  have hqueue : s.state.queue = [] := h.state.elim (fun h => h.queue) fun h => h.queue
  have hsame : m₀ = m := by
    have hq := hf.queue
    rw [hqueue] at hq
    exact Except.ok.inj hq
  subst hsame
  refine ⟨m₀, m₀, m₀, d, hf.stores, ?_, ?_, fun last hpos => ?_, ?_, hf.mirrors, hf.dirIno, ?_⟩
  · rw [h.thread]
    trivial
  · rw [h.thread]
    rfl
  · rw [htaken] at hpos
    exact absurd hpos (Nat.lt_irrefl 0)
  · rw [hqueue, hcommits, List.drop_nil]
    exact .nil
  · rw [htaken]
    exact Nat.zero_le _

theorem starts_reads {dir : Uuid} {s : State} (h : Starts dir s) : Reads s := by
  intro n rest hnext
  rw [h.next] at hnext
  cases hnext

theorem nothingLost_of_reads {s : State} (h : Reads s) : NothingLost s := by
  intro n result hnext hn
  obtain ⟨k, last, hle, hlast, ⟨t, rfl, ht⟩, -⟩ := h n _ hnext hn
  refine ⟨t, rfl, last, ?_, ht⟩
  have hmem : (s.commits.drop (n - 1))[k - (n - 1)]? = some last := by
    rw [List.getElem?_drop, Nat.add_sub_cancel' (by omega)]
    exact hlast
  exact List.mem_of_getElem? hmem

/-- A takeover loses nothing where what was committed is checkpointed before the new leader reads the
    first object, and where nobody writes until it has read the last one. -/
theorem caughtUp_nothingLost (dir : Uuid) (s s' : State) (as : List Action) (hs : Starts dir s)
    (hv : StepsMeet step Valid s as) (hu : StepsMeet step Undisturbed s as)
    (hr : run step s as = some s') : NothingLost s' := by
  have hboth : Tracks dir s'.toOldLeader ∧ Reads s' :=
    run_invariant_of_stepsMeet (I := fun s => Tracks dir s.toOldLeader ∧ Reads s)
      (fun _ _ _ h hvu hs => ⟨step_tracks h.1 hvu.1 hs, step_reads h.1 h.2 hvu.2 hs⟩)
      ⟨starts_tracks hs, starts_reads hs⟩ (hv.and hu) hr
  exact nothingLost_of_reads hboth.2

/-! ## Three takeovers -/

/-- What the new leader has come to, and how many commits came before it. -/
def NewLeader.result : NewLeader → Option (Nat × Except Err DentryTable)
  | .pulling n (.done result) => some (n, result)
  | _ => none

theorem next_of_result {next : NewLeader} {n : Nat} {result : Except Err DentryTable}
    (h : next.result = some (n, result)) : next = .pulling n (.done result) := by
  cases next with
  | pulling n' rest =>
      cases rest with
      | done result' =>
          cases h
          rfl
      | call c next => cases h
  | _ => cases h

/-- What is raised. -/
def raised : Except Err DentryTable → Option Err
  | .ok _ => none
  | .error e => some e

def createAs (n : UInt8) (name : Bytes) : Operation :=
  .request (.localCreate (Creation.envOf n) name 0x1A4)

/-- A file is created, committed and checkpointed. -/
def oneFile : List Action :=
  [.operation (createAs 1 [97]), .commit, .dispatch] ++ List.replicate 4 .checkpoint

/-- Then the lease is acquired, and three objects are read. -/
def takeover : List Action := [.acquire, .build] ++ List.replicate 3 .pull

/-- Another file is created and committed before the lease is acquired. -/
def secondFile : List Action := [.operation (createAs 2 [98]), .commit] ++ takeover

/-- Another file is created before the lease is acquired. It is committed after the directory's own
    inode has been read, and the DENTRY object is read before the file's INODE object is written. -/
def secondFileLate : List Action :=
  [.operation (createAs 2 [98]), .acquire, .build, .pull, .commit, .dispatch] ++
    List.replicate 3 .checkpoint ++ List.replicate 3 .pull

def madeState : State := ⟨⟨Refinement.madeState, .done (.ok ()), [], 0⟩, .waiting⟩

def oneLed : Led := ((createAs 1 [97]).perform Creation.home.led).2

def twoLed : Led := ((createAs 2 [98]).perform (committed oneLed)).2

theorem madeState_starts : Starts Creation.homeInode.ino madeState :=
  ⟨.inl madeState_justMade, rfl, ⟨rfl, rfl⟩, rfl⟩

theorem oneLed_listed {name : Bytes} {u : Uuid} (h : oneLed.table.listed name = some u) :
    u = (Creation.envOf 1).newIno := by
  have hlist : oneLed.table.dentries.childList.lookup name =
      (AList.insert [97] (Creation.envOf 1).newIno (∅ : AList fun _ : Bytes => Uuid)).lookup name :=
    rfl
  unfold DentryTable.listed at h
  rw [hlist] at h
  rcases lookup_insert_eq_some h with ⟨-, hu⟩ | ⟨-, h⟩
  · exact hu
  · cases h

theorem oneLed_isFile {name : Bytes} {c : MemInode} (h : oneLed.table.child name = some c) :
    IsFile c.inode := by
  have hlist : oneLed.table.childInodes.lookup name =
      (AList.insert [97] ⟨Inode.make (Creation.envOf 1) (0x1A4 ||| Inode.S_IFREG),
        Creation.homeInode.ino⟩ (∅ : AList fun _ : Bytes => MemInode)).lookup name := rfl
  unfold DentryTable.child at h
  rw [hlist] at h
  rcases lookup_insert_eq_some h with ⟨-, rfl⟩ | ⟨-, h⟩
  · rfl
  · cases h

theorem valid_first : (createAs 1 [97]).Valid Creation.home.led :=
  ⟨⟨isName_of_lower (by decide), rfl, by decide, by decide, fun n hn => (nomatch hn), by decide⟩,
    by decide⟩

theorem valid_second : (createAs 2 [98]).Valid (committed oneLed) := by
  refine ⟨⟨isName_of_lower (by decide), by decide, by decide, by decide, ?_, by decide⟩, by decide⟩
  intro name hl
  have heq := oneLed_listed hl
  revert heq
  decide

theorem fits_of_le {t : DentryTable} (h : t.dentries.serialize.length ≤ 0x400) :
    t.dentries.serialize.length ≤ Dentry.MAX_DENTRY_OBJ_SIZE := by
  refine Nat.le_trans h ?_
  show _ ≤ RadosIo.objSize
  rw [RadosIo.objSize_eq]
  decide

/-- The first file is stored. -/
def oneStored (pool : Pool) : State :=
  ⟨⟨⟨committed oneLed, pool, []⟩, .done (.ok ()), [oneLed.table], 1⟩, .waiting⟩

theorem oneFile_run : ∃ pool, run step madeState oneFile = some (oneStored pool) := ⟨_, rfl⟩

theorem oneFile_valid : StepsMeet step Valid madeState oneFile := by
  refine ⟨valid_first, fun t ht => ⟨?_, fun u _ => StepsMeet.of_forall ?_⟩⟩
  · cases ht
    exact fits_of_le (by decide)
  · intro a ha
    have hkind : a = .dispatch ∨ a = .checkpoint := by
      simpa using ha
    obtain rfl | rfl := hkind
    · exact fun _ => trivial
    · exact fun _ => trivial

theorem oneFile_undisturbed : StepsMeet step Undisturbed madeState oneFile := by
  refine ⟨trivial, fun t ht => ⟨trivial, fun u hu => ⟨?_, fun v _ => StepsMeet.of_forall ?_⟩⟩⟩
  · cases ht
    cases hu
    exact nofun
  · intro a ha s
    obtain rfl := List.eq_of_mem_replicate ha
    trivial

/-- There are no directories to be pulled. -/
theorem pulls_undisturbed {s : State} (h : s.commits = [oneLed.table]) (n : Nat) :
    StepsMeet step Undisturbed s (List.replicate n .pull) := by
  induction n generalizing s with
  | zero => trivial
  | succ n ih =>
      refine ⟨?_, fun t ht => ih ?_⟩
      · intro k c next _ last hlast name child hchild hfile
        have hmem := List.mem_of_getElem? hlast
        rw [h, List.mem_singleton] at hmem
        subst hmem
        exact absurd (oneLed_isFile hchild) hfile
      · cases moves_of_step ht with
        | pull => exact h

theorem takeover_undisturbed (pool : Pool) : StepsMeet step Undisturbed (oneStored pool) takeover := by
  refine ⟨trivial, fun t ht => ?_⟩
  cases ht
  refine ⟨fun n hn => ?_, fun u hu => ?_⟩
  · cases hn
    exact ⟨Nat.le_refl _, rfl⟩
  · cases hu
    exact pulls_undisturbed rfl 3

theorem takeover_valid {s : State} : StepsMeet step Valid s takeover := by
  refine StepsMeet.of_forall fun a ha s => ?_
  have hkind : a = .acquire ∨ a = .build ∨ a = .pull := by
    simpa [takeover] using ha
  obtain rfl | rfl | rfl := hkind
  · trivial
  · trivial
  · trivial

/-- The new leader gets its table. -/
theorem caughtUp_nothingLost_oneFile : ∃ s t, run step madeState (oneFile ++ takeover) = some s ∧
    s.next = .pulling 1 (.done (.ok t)) ∧ NothingLost s := by
  have hend : (run step madeState (oneFile ++ takeover)).map (fun s =>
      s.next.result.map fun r => (r.1, raised r.2)) = some (some (1, none)) := by decide +kernel
  obtain ⟨s, hs, hresult⟩ := Option.map_eq_some_iff.mp hend
  obtain ⟨⟨n, result⟩, hresult, heq⟩ := Option.map_eq_some_iff.mp hresult
  cases result with
  | error e => cases heq
  | ok t =>
      cases heq
      obtain ⟨pool, hone⟩ := oneFile_run
      refine ⟨s, t, hs, next_of_result hresult,
        caughtUp_nothingLost _ _ _ _ madeState_starts ?_ ?_ hs⟩
      · exact oneFile_valid.append fun _ _ => takeover_valid
      · refine oneFile_undisturbed.append fun u hu => ?_
        rw [hone] at hu
        cases hu
        exact takeover_undisturbed pool

theorem twoLed_fits :
    twoLed.table.dentries.serialize.length ≤ Dentry.MAX_DENTRY_OBJ_SIZE :=
  fits_of_le (by decide)

theorem secondFile_valid (pool : Pool) : StepsMeet step Valid (oneStored pool) secondFile := by
  refine ⟨valid_second, fun t ht => ⟨?_, fun _ _ => takeover_valid⟩⟩
  cases ht
  exact twoLed_fits

theorem secondFileLate_valid (pool : Pool) :
    StepsMeet step Valid (oneStored pool) secondFileLate := by
  have hbefore : ∃ next, run step (oneStored pool) (secondFileLate.take 4) =
      some ⟨⟨⟨twoLed, pool, []⟩, .done (.ok ()), [oneLed.table], 1⟩, next⟩ := ⟨_, rfl⟩
  obtain ⟨next, hbefore⟩ := hbefore
  rw [← List.take_append_drop 4 secondFileLate]
  refine StepsMeet.append
    ⟨valid_second, fun _ _ => StepsMeet.of_forall fun a ha s => ?_⟩ fun t ht => ?_
  · have hkind : a = .acquire ∨ a = .build ∨ a = .pull := by
      simpa using ha
    obtain rfl | rfl | rfl := hkind <;> trivial
  · rw [hbefore] at ht
    cases ht
    refine ⟨twoLed_fits, fun _ _ => StepsMeet.of_forall fun a ha s => ?_⟩
    have hkind : a = .dispatch ∨ a = .checkpoint ∨ a = .pull := by
      simpa [or_assoc] using ha
    obtain rfl | rfl | rfl := hkind <;> trivial

/-- The second file is committed before the lease is acquired, and the new leader does not have it;
    or it is committed later, and the new leader has no table, for it finds the name and no inode. -/
theorem committed_file_lost :
    (∃ s t, run step madeState (oneFile ++ secondFile) = some s ∧
      StepsMeet step Valid madeState (oneFile ++ secondFile) ∧
      s.next = .pulling 2 (.done (.ok t)) ∧ t.listed [98] = none ∧
      (∀ last ∈ s.commits.drop 1, last.listed [98] = some (Creation.envOf 2).newIno) ∧
      ¬ NothingLost s) ∧
    ∃ s, run step madeState (oneFile ++ secondFileLate) = some s ∧
      StepsMeet step Valid madeState (oneFile ++ secondFileLate) ∧
      s.next = .pulling 1 (.done (.error .noEntry)) ∧ ¬ NothingLost s := by
  obtain ⟨pool, hone⟩ := oneFile_run
  constructor
  · have hend : (run step madeState (oneFile ++ secondFile)).map (fun s =>
        (s.next.result.map fun r => (r.1, r.2.toOption.map fun t => t.listed [98]),
          s.commits.map fun t => t.listed [98])) =
        some (some (2, some none), [none, some (Creation.envOf 2).newIno]) := by decide +kernel
    obtain ⟨s, hs, heq⟩ := Option.map_eq_some_iff.mp hend
    obtain ⟨hresult, hcommits⟩ := Prod.mk.inj heq
    obtain ⟨⟨n, result⟩, hresult, heq⟩ := Option.map_eq_some_iff.mp hresult
    obtain ⟨rfl, hlisted⟩ := Prod.mk.inj heq
    obtain ⟨t, ht, habsent⟩ := Option.map_eq_some_iff.mp hlisted
    cases result with
    | error e => cases ht
    | ok t' =>
        cases ht
        have hnext := next_of_result hresult
        have hlast : ∀ last ∈ s.commits.drop 1,
            last.listed [98] = some (Creation.envOf 2).newIno := by
          intro last hmem
          have hmap := List.mem_map_of_mem (f := fun t : DentryTable => t.listed [98]) hmem
          rw [List.map_drop, hcommits] at hmap
          exact List.mem_singleton.mp hmap
        refine ⟨s, t, hs, oneFile_valid.append fun u hu => ?_, hnext, habsent, hlast, ?_⟩
        · rw [hone] at hu
          cases hu
          exact secondFile_valid pool
        · intro hnothing
          obtain ⟨t', heq, last, hmem, hinherits⟩ := hnothing 2 _ hnext (by decide)
          cases heq
          have hlisted := congrFun hinherits.listed [98]
          rw [habsent, hlast last hmem] at hlisted
          cases hlisted
  · have hend : (run step madeState (oneFile ++ secondFileLate)).map (fun s =>
        s.next.result.map fun r => (r.1, raised r.2)) = some (some (1, some .noEntry)) := by
      decide +kernel
    obtain ⟨s, hs, hresult⟩ := Option.map_eq_some_iff.mp hend
    obtain ⟨⟨n, result⟩, hresult, heq⟩ := Option.map_eq_some_iff.mp hresult
    cases result with
    | ok t => cases heq
    | error e =>
        cases heq
        have hnext := next_of_result hresult
        refine ⟨s, hs, oneFile_valid.append fun u hu => ?_, hnext, ?_⟩
        · rw [hone] at hu
          cases hu
          exact secondFileLate_valid pool
        · intro hnothing
          obtain ⟨t, heq, -⟩ := hnothing 1 _ hnext (by decide)
          cases heq

end Takeover

end Nmfs
