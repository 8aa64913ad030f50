import Nmfs.Fs.Batching
import Nmfs.Fs.Journals
import Nmfs.Fs.LateCalls
import Nmfs.Fs.OwnInode

/-
  Which inode of a directory is the last one in its INODE object. The directory's own transactions
  write it, each as it was in memory, in the order of the commits. A rename of the directory puts its
  parent's copy among the files of the parent's transaction, and that one is checkpointed in no order
  with the others.

  `Leaves` says what the directory's own line will leave of the object, and `Current` that this is
  the inode in memory. The rest is what a checkpoint must not meet.
-/

namespace Nmfs

open Lib RadosIo Cluster

namespace Transaction

variable {tx : Transaction}

/-- What the transaction leaves of the directory's own INODE object, where it writes or removes it. -/
def own (tx : Transaction) : Option (Option Inode) :=
  if tx.status = .S_DELETED then some none else tx.sInode.map some

def lastOwn : List Transaction → Option (Option Inode)
  | [] => none
  | tx :: txs => (lastOwn txs).or tx.own

theorem own_of_deleted (h : tx.status = .S_DELETED) : tx.own = some none := if_pos h

theorem own_of_kept (h : tx.status ≠ .S_DELETED) : tx.own = tx.sInode.map some := if_neg h

theorem own_congr {tx' : Transaction} (hs : tx'.status = tx.status) (hi : tx'.sInode = tx.sInode) :
    tx'.own = tx.own := by
  unfold own
  rw [hs, hi]

theorem lastOwn_append (txs txs' : List Transaction) :
    lastOwn (txs ++ txs') = (lastOwn txs').or (lastOwn txs) := by
  induction txs with
  | nil => exact (Option.or_none).symm
  | cons tx txs ih =>
      show (lastOwn (txs ++ txs')).or tx.own = _
      rw [ih, Option.or_assoc]
      rfl

end Transaction

namespace Volume

open Batching Transaction

/-! ## One object -/

/-- The object, if there is one, begins with the record of the inode. -/
def Shows (object : Option Bytes) : Option Inode → Prop
  | none => object = none
  | some i => ∃ bytes, object = some bytes ∧ Inode.Spells bytes i

def InodeIs (pool : Pool) (dir : Uuid) (x : Option Inode) : Prop :=
  ∃ object, StoredAs pool .inode dir.toStr object ∧ Shows object x

section

variable {pool pool' : Pool} {dir u : Uuid} {x : Option Inode} {object : Option Bytes}
  {tx : Transaction}

theorem shows_imprint (object : Option Bytes) (i : Inode) : Shows (imprint object (some i)) (some i) :=
  ⟨_, rfl, Inode.spells_overwrite _ i⟩

theorem shows_copy {i : Inode} : Shows object (some i.copy) ↔ Shows object (some i) := by
  show (∃ bytes, object = some bytes ∧ ∃ post, bytes = i.copy.serialize ++ post) ↔ _
  rw [Inode.serialize_copy]
  exact Iff.rfl

theorem InodeIs.frame (h : InodeIs pool dir x)
    (hpool : ∀ y, StoredAs pool .inode dir.toStr y → StoredAs pool' .inode dir.toStr y) :
    InodeIs pool' dir x := by
  obtain ⟨object, ho, hx⟩ := h
  exact ⟨object, hpool object ho, hx⟩

/-- The inode can be read back. -/
theorem InodeIs.pull {i : Inode} (h : InodeIs pool dir (some i)) (hi : i.ino = dir)
    (hw : i.WellFormed) : Inode.pull pool dir = .ok i.pulled := by
  obtain ⟨object, ho, bytes, rfl, hx⟩ := h
  subst hi
  exact Inode.pull_of_spells ho.holds hx hw

/-- The JOURNAL object is another one. -/
theorem InodeIs.journal (h : InodeIs pool dir x) (key : Str) (value : Bytes) (offset : Nat) :
    InodeIs (RadosIo.write pool .journal key value offset).2 dir x :=
  h.frame fun _ hy => (frame_write_file _ _).storedAs (fun heq => nomatch (Prod.mk.inj heq).1) hy

/-- Once a transaction with `rmself` is written, there is no inode. -/
theorem inodeIs_deleted (hok : TxOk (fun _ => True) dir tx) (hw : WellStored pool)
    (hs : tx.status = .S_DELETED) : InodeIs (tx.sync pool).2 dir none :=
  ⟨none, (sync_deleted hok.sIno hw hs).2.inode, rfl⟩

/-- It touches nothing else. -/
theorem InodeIs.deleted (h : InodeIs pool u x) (hok : TxOk (fun _ => True) dir tx)
    (hs : tx.status = .S_DELETED) (hu : u ≠ dir) : InodeIs (tx.sync pool).2 u x := by
  refine h.frame fun y hy => ?_
  unfold Transaction.sync
  rw [if_pos hs, hok.sIno]
  refine frame_remove.storedAs (fun heq => nomatch (Prod.mk.inj heq).1) ?_
  exact frame_remove.storedAs (fun heq => hu (Uuid.toStr_inj (Prod.mk.inj heq).2)) hy

/-- Any other transaction writes its own inode, and then those of its files. -/
theorem inodeIs_written (hok : TxOk (fun _ => True) dir tx) (hs : tx.status ≠ .S_DELETED)
    (hsync : (tx.sync pool).1 = .ok ()) (ho : StoredAs pool .inode u.toStr object)
    (hx : Shows (if u = dir then imprint object tx.sInode else object) x)
    (hfile : ∀ i, tx.fInodes.lookup u = some (some i) → x = some i) :
    InodeIs (tx.sync pool).2 u x := by
  refine ⟨_, sync_inode hok hs hsync ho, ?_⟩
  cases hl : (tx.fInodes.lookup u).join with
  | none => exact hx
  | some i =>
      rw [hfile i (Option.join_eq_some_iff.mp hl)]
      exact shows_imprint _ i

end

variable {C : Type}

/-- What the checkpoints of the directory's own transactions leave of its INODE object. -/
def Leaves (s : Volume C) (dir : Uuid) (x : Option Inode) : Prop :=
  lastOwn (s.line dir) = some x ∨ lastOwn (s.line dir) = none ∧ InodeIs s.pool dir x

/-- The inode of every directory that is led, and nothing of one that has been removed. -/
structure Current (s : Volume C) : Prop where
  led : ∀ dir t, s.cluster.tables dir = some t → s.Leaves dir (some t.thisDirInode.copy)
  removed : ∀ dir ∈ s.removed, s.Leaves dir none

/-- Every transaction is one of its directory. -/
structure Regular (s : Volume C) : Prop where
  tidy : s.Tidy
  stored : WellStored s.pool
  told : ∀ c, Told (s.cluster.jtables c) ∧ Told (s.cycle c)
  queued : ∀ dir, ∀ tx ∈ s.queues dir, TxOk (fun _ => True) dir tx

section

variable {s s' : Volume C} {dir u : Uuid} {x : Option Inode}

theorem lastOwn_line :
    lastOwn (s.line dir) = (s.cluster.tx dir).own.or (lastOwn (s.taken dir)) := by
  unfold line
  rw [lastOwn_append]
  unfold pending Cluster.tx JournalTable.getEntry
  cases (s.cluster.jtables (s.cluster.leader dir)).lookup dir <;> rfl

theorem Leaves.eq_of_own (h : s.Leaves dir x) {y : Option Inode}
    (hy : (s.cluster.tx dir).own = some y) : x = y := by
  unfold Leaves at h
  rw [lastOwn_line, hy, Option.some_or] at h
  rcases h with h | ⟨h, -⟩
  · exact (Option.some.inj h).symm
  · cases h

theorem leaves_of_own (h : (s.cluster.tx dir).own = some x) : s.Leaves dir x := by
  refine .inl ?_
  rw [lastOwn_line, h, Option.some_or]

theorem Leaves.frame (h : s.Leaves dir x) (hline : lastOwn (s'.line dir) = lastOwn (s.line dir))
    (hpool : InodeIs s.pool dir x → InodeIs s'.pool dir x) : s'.Leaves dir x := by
  unfold Leaves
  rw [hline]
  exact h.imp_right fun h => ⟨h.1, hpool h.2⟩

/-- The client has told nothing new of the directory's own inode. -/
theorem Leaves.untold (h : s.Leaves dir x) (htaken : s'.taken dir = s.taken dir)
    (hpool : s'.pool = s.pool) (hown : (s'.cluster.tx dir).own = (s.cluster.tx dir).own) :
    s'.Leaves dir x := by
  refine h.frame ?_ (fun h => hpool ▸ h)
  rw [lastOwn_line, lastOwn_line, htaken, hown]

theorem tx_of_led {led : Led} (hl : s.cluster.led dir = some led)
    (hself : led.table.thisDirInode.ino = dir) : led.tx = s.cluster.tx dir := by
  obtain ⟨-, hj, -⟩ := led_eq_some.mp hl
  unfold Led.tx Cluster.tx
  rw [hj, hself]

end

/-! ## What the clients do -/

variable [DecidableEq C] {s s' : Volume C} {dir ino : Uuid} {led led' : Led} {P : Uuid → Prop}

/-- The other directories have the transactions that they had. -/
theorem tx_put (hl : s.cluster.led dir = some led)
    (hh : Heard (fun _ => True) dir led.jtable led'.jtable) {d : Uuid} (hd : d ≠ dir) :
    (s.cluster.put dir led').tx d = s.cluster.tx d := by
  obtain ⟨-, hj, -⟩ := led_eq_some.mp hl
  show (Function.update s.cluster.jtables (s.cluster.leader dir) led'.jtable
    (s.cluster.leader d)).getEntry d = (s.cluster.jtables (s.cluster.leader d)).getEntry d
  by_cases hc : s.cluster.leader d = s.cluster.leader dir
  · rw [hc, Function.update_self, ← hj]
    unfold JournalTable.getEntry
    rw [hh.other d hd]
  · rw [Function.update_of_ne hc]

theorem tx_put_self (hself : led'.table.thisDirInode.ino = dir) :
    (s.cluster.put dir led').tx dir = led'.tx := by
  show (Function.update s.cluster.jtables (s.cluster.leader dir) led'.jtable
    (s.cluster.leader dir)).getEntry dir = _
  rw [Function.update_self]
  unfold Led.tx
  rw [hself]

omit [DecidableEq C] in
theorem Heard.status {jtable jtable' : JournalTable}
    (h : Heard (fun _ => True) dir jtable jtable') :
    (jtable'.getEntry dir).status = (jtable.getEntry dir).status := by
  rcases h.here with hsame | ⟨tx, htx, -, hs⟩
  · unfold JournalTable.getEntry
    rw [hsame]
  · rw [← hs]
    show ((jtable'.lookup dir).getD _).status = _
    rw [htx]
    rfl

omit [DecidableEq C] in
/-- A transaction with `rmself` would leave nothing. -/
theorem Current.kept (h : s.Current) (hl : s.cluster.led dir = some led)
    (hself : led.table.thisDirInode.ino = dir) : led.tx.status ≠ .S_DELETED := by
  obtain ⟨htable, -, -⟩ := led_eq_some.mp hl
  intro hdel
  have hgone := (h.led dir led.table htable).eq_of_own
    (own_of_deleted (tx_of_led hl hself ▸ hdel))
  cases hgone

omit [DecidableEq C] in
/-- What the pending transaction has of the inode is what is in memory. -/
theorem Current.told (h : s.Current) (hl : s.cluster.led dir = some led)
    (hself : led.table.thisDirInode.ino = dir) (i : Inode) (hi : led.tx.sInode = some i) :
    i = led.table.thisDirInode.copy := by
  obtain ⟨htable, -, -⟩ := led_eq_some.mp hl
  have hown : (s.cluster.tx dir).own = some (some i) := by
    rw [← tx_of_led hl hself, own_of_kept (h.kept hl hself), hi]
    rfl
  exact (Option.some.inj ((h.led dir led.table htable).eq_of_own hown)).symm

/-- A section on a directory is over. -/
theorem Current.put (h : s.Current) (hl : s.cluster.led dir = some led)
    (ht : led'.Tells P dir led.jtable) (hok : TxOk (fun _ => True) dir (led.jtable.getEntry dir))
    (hr : dir ∉ s.removed) (hself : led.table.thisDirInode.ino = dir)
    (hin : Sections.InStep led.table.thisDirInode led.tx.sInode led') (us : List Uuid) :
    Current { s with cluster := s.cluster.put dir led', used := us } := by
  obtain ⟨htable, -, -⟩ := led_eq_some.mp hl
  have hheard : Heard (fun _ => True) dir led.jtable led'.jtable :=
    heard_of_records hok (fun _ _ => trivial) ht.records
  have hother : ∀ {d x}, d ≠ dir → s.Leaves d x →
      Leaves { s with cluster := s.cluster.put dir led', used := us } d x :=
    fun hd hx => hx.untold rfl rfl (congrArg Transaction.own (tx_put hl hheard hd))
  have hstatus : led'.tx.status = led.tx.status := by
    unfold Led.tx
    rw [ht.within.self, hself]
    exact hheard.status
  refine ⟨fun d t hd => ?_, fun d hd => ?_⟩
  · rcases update_eq_some hd with ⟨rfl, htab⟩ | ⟨hne, hd⟩
    · cases htab
      have hold := h.led d led.table htable
      have hkept := h.kept hl hself
      rcases hin.self with hnew | ⟨hsame, hkept'⟩
      · refine leaves_of_own ?_
        show ((s.cluster.put d led').tx d).own = _
        rw [tx_put_self ht.within.self, own_of_kept (hstatus ▸ hkept), hnew]
        rfl
      · rw [hsame]
        refine hold.untold rfl rfl ?_
        show ((s.cluster.put d led').tx d).own = _
        rw [tx_put_self ht.within.self, ← tx_of_led hl hself]
        exact own_congr hstatus hkept'
    · exact hother hne (h.led d t hd)
  · exact hother (fun heq => hr (heq ▸ hd)) (h.removed d hd)

theorem tx_topped {top : Led} (ht : s.cluster.led ino = some top) (d : Uuid) :
    (FuseOps.topped s.cluster ino top).tx d =
      if d = ino then (Transaction.rmself (s.cluster.tx ino)).2 else s.cluster.tx d := by
  show ((FuseOps.topped s.cluster ino top).jtables (s.cluster.leader d)).getEntry d = _
  rw [jtables_topped ht]
  by_cases hd : d = ino
  · rw [if_pos hd, hd, if_pos rfl, JournalTable.getEntry_record]
    rfl
  · rw [if_neg hd]
    split
    · rw [JournalTable.getEntry_record_ne _ _ _ hd]
      rfl
    · rfl

/-- `rmdir_top`: the directory's last transaction is the one that removes its inode. -/
theorem Current.topped (h : s.Current) (hu : ∀ c, (s.cluster.jtables c).Uncommitted) {top : Led}
    (ht : s.cluster.led ino = some top) :
    Current { s with
      cluster := FuseOps.topped s.cluster ino top
      removed := ino :: s.removed } := by
  have hother : ∀ {d x}, d ≠ ino → s.Leaves d x → Leaves { s with
      cluster := FuseOps.topped s.cluster ino top
      removed := ino :: s.removed } d x := by
    intro d x hd hx
    refine hx.untold rfl rfl ?_
    rw [tx_topped ht, if_neg hd]
  refine ⟨fun d t hd => ?_, fun d hd => ?_⟩
  · obtain ⟨hne, hd⟩ := update_none_eq_some hd
    rcases update_eq_some hd with ⟨heq, -⟩ | ⟨-, hd⟩
    · exact absurd heq hne
    · exact hother hne (h.led d t hd)
  · by_cases hi : d = ino
    · subst hi
      refine leaves_of_own ?_
      rw [tx_topped ht, if_pos rfl]
      refine own_of_deleted ?_
      have hopen : (s.cluster.tx d).committed = false := hu _ d
      rw [Transaction.rmself_eq hopen]
    · exact hother hi (h.removed d ((List.mem_cons.mp hd).resolve_left hi))

/-- A new directory's transaction has its inode. -/
theorem Current.founded (h : s.Current) (hu : ∀ c, (s.cluster.jtables c).Uncommitted) (me : C)
    {i : Inode} (hr : i.ino ∉ s.removed) :
    Current { s with cluster := FuseOps.founded me i s.cluster } := by
  have hself : ((FuseOps.founded me i s.cluster).tx i.ino).own = some (some i.copy) := by
    have htx : (FuseOps.founded me i s.cluster).tx i.ino =
        (Transaction.mkself ((s.cluster.jtables me).getEntry i.ino) i).2 := by
      show ((FuseOps.founded me i s.cluster).jtables
        (Function.update s.cluster.leader i.ino me i.ino)).getEntry i.ino = _
      rw [Function.update_self, jtables_founded, if_pos rfl, JournalTable.getEntry_record]
      rfl
    rw [htx, Transaction.mkself_eq (hu me i.ino)]
    exact own_of_kept (by simp)
  have hother : ∀ {d x}, d ≠ i.ino → s.Leaves d x →
      Leaves { s with cluster := FuseOps.founded me i s.cluster } d x := by
    intro d x hd hx
    have hleader : (FuseOps.founded me i s.cluster).leader d = s.cluster.leader d :=
      Function.update_of_ne hd _ _
    refine hx.untold ?_ rfl ?_
    · unfold taken waiting
      dsimp only
      rw [hleader]
    · unfold Cluster.tx
      dsimp only
      rw [hleader, jtables_founded]
      split
      · rw [JournalTable.getEntry_record_ne _ _ _ hd]
      · rfl
  refine ⟨fun d t hd => ?_, fun d hd => hother (fun heq => hr (heq ▸ hd)) (h.removed d hd)⟩
  rcases update_eq_some hd with ⟨rfl, ht⟩ | ⟨hne, hd⟩
  · cases ht
    exact leaves_of_own hself
  · exact hother hne (h.led d t hd)

/-- An operation at the leader, where the journal hears of the times that it sets. -/
theorem Current.perform (h : s.Current) (hr : s.Regular) (hl : s.cluster.led dir = some led)
    {o : Refinement.Operation} (ho : OperationLegal s led o) (ht : Sections.TimesTold led o)
    (us : List Uuid) :
    Current { s with cluster := s.cluster.put dir (o.perform led).2, used := us } := by
  obtain ⟨htable, hj, -⟩ := led_eq_some.mp hl
  have hs := hr.tidy.settled dir led.table htable
  have hok : TxOk (fun _ => True) dir (led.jtable.getEntry dir) :=
    hj ▸ (hr.told _).1.getEntry dir
  refine h.put hl (perform_tells hr.tidy hl ho) hok (hr.tidy.led dir _ htable).2 hs.self ?_ us
  exact Sections.operation_inStep (h.told hl hs.self) ⟨hj ▸ hr.tidy.uncommitted _, .inr ⟨rfl, rfl⟩⟩
    hs.selfDir (perform_fair hr.tidy hl ho) ht

theorem Current.mkdir (h : s.Current) (hr : s.Regular) {me : C} {env : Env} {name : Bytes}
    {mode : UInt32} {born : Timespec} (hname : Refinement.IsName name) (hf : env.newIno ∉ s.used)
    (hturns : (s.cluster.tables dir).isSome → (s.cluster.tx dir).Turns name true) (us : List Uuid) :
    Current { s with
      cluster := (FuseOps.mkdirIn me env dir name mode born s.cluster).2
      used := us } := by
  cases hl : s.cluster.led dir with
  | none =>
      rw [FuseOps.mkdirIn_absent hl]
      exact ⟨h.led, h.removed⟩
  | some led =>
      obtain ⟨htable, hj, -⟩ := led_eq_some.mp hl
      have hs := hr.tidy.settled dir led.table htable
      have hturns' : led.tx.Turns name true := by
        rw [tx_of_led hl hs.self]
        exact hturns (by rw [htable]; rfl)
      have hin : Sections.InStep led.table.thisDirInode led.tx.sInode
          (FuseOps.mkdirSection (s.cluster.leader dir = me) env name mode led).2 := by
        have hbefore : Sections.InStep led.table.thisDirInode led.tx.sInode led :=
          ⟨hj ▸ hr.tidy.uncommitted _, .inr ⟨rfl, rfl⟩⟩
        unfold FuseOps.mkdirSection
        split
        · exact Sections.inStep_recordMkdir (h.told hl hs.self) led ⟨hbefore, hturns'⟩
        · refine Sections.then_inStep (Sections.inStep_mkdirHandler (h.told hl hs.self))
            (fun _ => Op.Keeps.pure _) led ⟨hbefore, hturns'⟩
      have hok : TxOk (fun _ => True) dir (led.jtable.getEntry dir) :=
        hj ▸ (hr.told _).1.getEntry dir
      obtain ⟨born', heq⟩ := @FuseOps.mkdirIn_eq C _ s.cluster me dir led env name mode born hl
      have htells := mkdirSection_tells hr.tidy hl hname.1 hf (s.cluster.leader dir = me) mode
      have hput := h.put hl htells hok (hr.tidy.led dir _ htable).2 hs.self hin us
      have htidy := hr.tidy.put hl htells fun u hu => by
        rw [List.mem_singleton.mp hu]
        exact hr.tidy.fresh hf
      rw [heq]
      revert hput htidy
      generalize FuseOps.mkdirSection (s.cluster.leader dir = me) env name mode led = r
      obtain ⟨r, led'⟩ := r
      intro hput htidy
      cases r with
      | error e => exact hput
      | ok u => exact hput.founded htidy.uncommitted me (hr.tidy.fresh hf).2

theorem Current.rmdir (h : s.Current) (hr : s.Regular) {me : C} {name : Bytes} {ts : Timespec}
    (hname : Refinement.IsName name)
    (hturns : (s.cluster.entries dir name).isSome → (s.cluster.tx dir).Turns name false)
    (hs : step s (.rmdir me dir name ts) = some s') : s'.Current := by
  obtain rfl := Option.some.inj hs
  have hrmdirs : FuseOps.Rmdirs dir name ts s.cluster (FuseOps.rmdirIn me dir name ts s.cluster).2 :=
    FuseOps.rmdirIn_rmdirs
  rcases Cluster.Tidy.rmdirs hr.tidy hname hrmdirs with heq | ⟨ino, led, top, led', hrem⟩
  · rw [heq, lost_of_same]
    exact h
  rw [lost_of_removes hrem]
  have htop := h.topped hr.tidy.uncommitted hrem.child
  have htidy := Cluster.Tidy.topped hr.tidy ino hrem.child
  obtain ⟨htable, hj, -⟩ := led_eq_some.mp hrem.next
  have hset := htidy.settled dir led'.table htable
  -- the parent's transaction is another one than the child's
  have htx : led'.tx = s.cluster.tx dir := by
    rw [tx_of_led (s := { s with cluster := FuseOps.topped s.cluster ino top }) hrem.next hset.self]
    exact (tx_topped hrem.child dir).trans (if_neg hrem.ne)
  have hok : TxOk (fun _ => True) dir (led'.jtable.getEntry dir) := by
    have hentry : led'.jtable.getEntry dir = led'.tx := by
      unfold Led.tx
      rw [hset.self]
    rw [hentry, htx]
    exact (hr.told _).1.getEntry dir
  have htold := htop.told hrem.next hset.self
  have hin : Sections.InStep led'.table.thisDirInode led'.tx.sInode
      (DirectoryOps.rmdirDown ts ino name led').2 := by
    refine Sections.inStep_rmdirDown htold led' ⟨⟨hj ▸ htidy.uncommitted _, .inr ⟨rfl, rfl⟩⟩, ?_⟩
    rw [htx]
    exact hturns (by rw [entries_of_led hrem.parent, hrem.listed]; rfl)
  have htells : (DirectoryOps.rmdirDown ts ino name led').2.Tells (Has led' []) dir led'.jtable :=
    Sections.tells_rmdirDown hname.1 led' (htidy.tells hrem.next fun n u hn => .inl ⟨n, hn⟩)
  have hdir : dir ∉ ino :: s.removed :=
    List.not_mem_cons_of_ne_of_not_mem hrem.ne
      (hr.tidy.of_isSome (FuseOps.isSome_of_led hrem.parent)).2
  have hput := htop.put hrem.next htells hok hdir hset.self hin s.used
  rw [hrem.eq]
  exact hput

theorem own_handled (hu : ∀ c, (s.cluster.jtables c).Uncommitted) {i : Inode} {pIno : Uuid}
    {change : Refinement.InodeChange} (hv : change.Valid i) (ho : s.Open i pIno change)
    (hlate : Inode.isDir i.core.iMode = true → change.Records i →
      (s.cluster.tx i.ino).status = .S_DELETED) (d : Uuid) :
    ((handled s.cluster i pIno change).tx d).own = (s.cluster.tx d).own := by
  show (JournalTable.getEntry (Function.update s.cluster.jtables _ _ (s.cluster.leader d)) d).own = _
  by_cases hc : s.cluster.leader d = s.cluster.leader (home i pIno)
  rotate_left
  · rw [Function.update_of_ne hc]
    rfl
  rw [hc, Function.update_self]
  have hsame : s.cluster.tx d = (s.cluster.jtables (s.cluster.leader (home i pIno))).getEntry d := by
    rw [← hc]
    rfl
  rw [hsame]
  by_cases hrec : change.Records i
  rotate_left
  · rw [Refinement.InodeChange.quiet hrec]
  have hopen := hu (s.cluster.leader (home i pIno))
  have hhandle := handle_records hv ho (s.cluster.jtables (s.cluster.leader (home i pIno)))
    s.cluster.dataPool
  revert hhandle
  generalize (change.perform ⟨i, pIno, s.cluster.dataPool, _⟩).jtable = jtable'
  intro hhandle
  cases hhandle with
  | quiet => rfl
  | file hi hino =>
      by_cases hp : d = pIno
      · subst hp
        rw [JournalTable.getEntry_record]
        show (Transaction.chreg _ _).2.own = _
        rw [Transaction.chreg_eq (hopen d)]
        exact own_congr rfl rfl
      · rw [JournalTable.getEntry_record_ne _ _ _ hp]
  | directory hi hino =>
      by_cases hp : d = i.ino
      · subst hp
        have hdel : (s.cluster.tx i.ino).status = .S_DELETED := hlate hi hrec
        rw [hsame] at hdel
        rw [JournalTable.getEntry_record, own_of_deleted hdel]
        show (Transaction.chself _ _).2.own = _
        rw [Transaction.chself_eq (hopen _)]
        exact own_of_deleted hdel
      · rw [JournalTable.getEntry_record_ne _ _ _ hp]

/-- A change of a file says nothing of the directory, and once the directory's last transaction has
    `rmself`, it does not matter what else it has. -/
theorem Current.handle (h : s.Current) (hr : s.Regular) {i : Inode} {pIno : Uuid}
    {change : Refinement.InodeChange} (hv : change.Valid i) (ho : s.Open i pIno change)
    (hlate : Inode.isDir i.core.iMode = true → change.Records i →
      (s.cluster.tx i.ino).status = .S_DELETED) :
    Current { s with cluster := handled s.cluster i pIno change } := by
  have hown := own_handled hr.tidy.uncommitted hv ho hlate
  exact ⟨fun d t hd => (h.led d t hd).untold rfl rfl (hown d),
    fun d hd => (h.removed d hd).untold rfl rfl (hown d)⟩

/-! ## The commit threads -/

theorem Current.replace (h : s.Current) {me : C} (hs : step s (.replace me) = some s') :
    s'.Current := by
  have hline := line_replace hs
  obtain ⟨-, rfl⟩ := replace_of_step hs
  have hleaves : ∀ {d x}, s.Leaves d x → Leaves { s with
      cluster := { s.cluster with jtables := Function.update s.cluster.jtables me ∅ }
      cycle := Function.update s.cycle me (s.cluster.jtables me) } d x :=
    fun hx => hx.frame (by rw [hline]) id
  exact ⟨fun d t hd => hleaves (h.led d t hd), fun d hd => hleaves (h.removed d hd)⟩

/-- A commit writes the JOURNAL object only. -/
theorem Current.commit (h : s.Current) {tx : Transaction} (hc : Commits s dir tx s') :
    s'.Current := by
  obtain ⟨hold, hnew, hother⟩ := hc.line
  have hline : ∀ d, lastOwn (s'.line d) = lastOwn (s.line d) := by
    intro d
    by_cases hd : d = dir
    · subst hd
      rw [hold, hnew, lastOwn_append, lastOwn_append, lastOwn_append, lastOwn_append]
      rfl
    · rw [hother d hd]
  have hleaves : ∀ {d x}, s.Leaves d x → s'.Leaves d x :=
    fun hx => hx.frame (hline _) fun hx => hc.pool ▸ hx.journal _ _ _
  refine ⟨fun d t hd => ?_, fun d hd => ?_⟩
  · rw [hc.cluster] at hd
    exact hleaves (h.led d t hd)
  · rw [hc.history.2.1] at hd
    exact hleaves (h.removed d hd)

omit [DecidableEq C] in
/-- What is left of the line of `u` once the first transaction of `dir` is written. -/
def behind (s : Volume C) (dir u : Uuid) : List Transaction :=
  if u = dir then (s.line u).tail else s.line u

omit [DecidableEq C] in
theorem Checkpoints.behind {tx : Transaction} (h : Checkpoints s dir tx s') (u : Uuid) :
    s'.line u = s.behind dir u := by
  obtain ⟨hself, hother⟩ := h.line
  unfold Volume.behind
  by_cases hu : u = dir
  · rw [if_pos hu, hu, hself]
    rfl
  · rw [if_neg hu, hother u hu]

omit [DecidableEq C] in
/-- What comes last in the directory's own line counts, unless another directory's transaction has
    the inode and nothing is left in the line. -/
theorem Leaves.checkpoint {tx : Transaction} {u : Uuid} {x : Option Inode} (h : s.Leaves u x)
    (hr : s.Regular) (hc : Checkpoints s dir tx s') (hsync : (tx.sync s.pool).1 = .ok ())
    (hfile : tx.status ≠ .S_DELETED → lastOwn (s.behind dir u) = none →
      ∀ i, tx.fInodes.lookup u = some (some i) → x = some i) : s'.Leaves u x := by
  obtain ⟨hself, hother⟩ := hc.line
  obtain ⟨queue, hq, -⟩ := hc.head
  have hok : TxOk (fun _ => True) dir tx := hr.queued dir tx (hq ▸ List.mem_cons_self)
  unfold Leaves at h
  rw [← hc.behind] at hfile
  cases hlast : lastOwn (s'.line u) with
  | some y =>
      have hline : lastOwn (s.line u) = some y := by
        by_cases hu : u = dir
        · rw [hu, hself]
          show (lastOwn (s'.line dir)).or tx.own = _
          rw [← hu, hlast, Option.some_or]
        · rw [← hother u hu, hlast]
      rw [hline] at h
      rcases h with h | ⟨h, -⟩
      · exact .inl (hlast.trans h)
      · cases h
  | none =>
      refine .inr ⟨hlast, ?_⟩
      rw [hc.pool]
      refine InodeIs.journal ?_ _ _ _
      have hline : lastOwn (s.line u) = if u = dir then tx.own else none := by
        by_cases hu : u = dir
        · rw [if_pos hu, hu, hself]
          show (lastOwn (s'.line dir)).or tx.own = _
          rw [← hu, hlast, Option.none_or]
        · rw [if_neg hu, ← hother u hu, hlast]
      rw [hline] at h
      by_cases hdel : tx.status = .S_DELETED
      · by_cases hu : u = dir
        · subst hu
          rw [if_pos rfl, own_of_deleted hdel] at h
          rcases h with h | ⟨h, -⟩
          · cases h
            exact inodeIs_deleted hok hr.stored hdel
          · cases h
        · rw [if_neg hu] at h
          rcases h with h | ⟨-, h⟩
          · cases h
          · exact h.deleted hok hdel hu
      · rcases h with h | ⟨h, object, ho, hx⟩
        · -- it is the first transaction that says what the inode is
          obtain ⟨object, ho⟩ := hr.stored .inode u.toStr
          refine inodeIs_written hok hdel hsync ho ?_ (hfile hdel hlast)
          by_cases hu : u = dir
          · rw [if_pos hu, own_of_kept hdel] at h
            obtain ⟨i, hi, rfl⟩ := Option.map_eq_some_iff.mp h
            rw [if_pos hu, hi]
            exact shows_imprint object i
          · rw [if_neg hu] at h
            cases h
        · refine inodeIs_written hok hdel hsync ho ?_ (hfile hdel hlast)
          by_cases hu : u = dir
          · rw [if_pos hu, own_of_kept hdel] at h
            rw [if_pos hu, Option.map_eq_none_iff.mp h]
            exact hx
          · rw [if_neg hu]
            exact hx

/-- Where a transaction has the inode of a directory among its files, as a rename in the parent puts
    it there, the directory's own line has a later word, or the inode is the one in memory. -/
def Superseded (s : Volume C) (dir : Uuid) (tx : Transaction) : Prop :=
  ∀ u i, tx.fInodes.lookup u = some (some i) → lastOwn (s.behind dir u) = none →
    (∀ t, s.cluster.tables u = some t → i = t.thisDirInode.copy) ∧ u ∉ s.removed

omit [DecidableEq C] in
theorem Current.checkpoint (h : s.Current) (hr : s.Regular) {tx : Transaction}
    (hc : Checkpoints s dir tx s') (hsync : (tx.sync s.pool).1 = .ok ())
    (hsup : tx.status ≠ .S_DELETED → s.Superseded dir tx) : s'.Current := by
  refine ⟨fun d t hd => ?_, fun d hd => ?_⟩
  · rw [hc.cluster.1] at hd
    refine (h.led d t hd).checkpoint hr hc hsync fun hdel hlast i hi => ?_
    rw [((hsup hdel) d i hi hlast).1 t hd]
  · rw [hc.history.2] at hd
    refine (h.removed d hd).checkpoint hr hc hsync fun hdel hlast i hi => ?_
    exact absurd hd ((hsup hdel) d i hi hlast).2

/-! ## Steps -/

theorem synced_of_step {tx : Transaction} {queue : List Transaction}
    (hs : step s (.checkpoint dir) = some s') (hq : s.queues dir = tx :: queue) :
    (tx.sync s.pool).1 = .ok () := by
  rw [← checkpoint_fst]
  unfold step at hs
  dsimp only at hs
  rw [hq] at hs
  dsimp only at hs
  cases hc : tx.checkpoint s.pool with
  | mk r pool =>
      rw [hc] at hs
      cases r with
      | error e => cases hs
      | ok u => rfl

omit [DecidableEq C] in
theorem TxOk.committed {live : Uuid → Prop} {tx : Transaction} (h : TxOk live dir tx)
    (offset : Nat) : TxOk live dir { tx with committed := true, offset } :=
  ⟨h.sIno, h.nameOk, h.self, h.files⟩

theorem Regular.moved (h : s.Regular) {a : Action C} (hs : step s a = some s') :
    WellStored s'.pool ∧ ∀ d, ∀ tx ∈ s'.queues d, TxOk (fun _ => True) d tx := by
  cases moves_of_step hs with
  | kept hpool hqueues =>
      rw [hpool, hqueues]
      exact ⟨h.stored, h.queued⟩
  | @commit dir tx hc =>
      refine ⟨?_, fun d t ht => ?_⟩
      · rw [hc.pool]
        exact (h.stored.journal _ (List.length_pos_iff.mp
          (Nat.zero_lt_of_lt (Journal.serialize_pos tx))) _).1
      · rw [hc.queues] at ht
        by_cases hd : d = dir
        · subst hd
          rw [Function.update_self, List.mem_append, List.mem_singleton] at ht
          rcases ht with ht | rfl
          · exact h.queued d t ht
          · exact ((h.told _).2 d tx hc.waiting).committed _
        · rw [Function.update_of_ne hd] at ht
          exact h.queued d t ht
  | @checkpoint dir tx hc =>
      obtain ⟨queue, hq, hq'⟩ := hc.head
      refine ⟨?_, fun d t ht => ?_⟩
      · rw [hc.pool]
        exact ((sync_wellStored h.stored).journal _ (by simp) _).1
      · rw [hq'] at ht
        by_cases hd : d = dir
        · subst hd
          rw [Function.update_self] at ht
          exact h.queued d t (hq ▸ List.mem_cons_of_mem tx ht)
        · rw [Function.update_of_ne hd] at ht
          exact h.queued d t ht

theorem Regular.step (h : s.Regular) {a : Action C} (ha : Legal s a) (hs : step s a = some s') :
    s'.Regular := by
  obtain ⟨hstored, hqueued⟩ := h.moved hs
  refine ⟨h.tidy.step ha hs, hstored, fun c => ⟨?_, ?_⟩, hqueued⟩
  · exact told_step (fun c => (h.told c).1) h.tidy ha hs c
  · exact told_cycle_step (fun c => (h.told c).1) (fun c => (h.told c).2) hs c

/-- The condition, at each step. Where a client sets the times of a directory, the journal does not
    refuse the name that comes next. A change through a handle on a directory that is gone comes
    before the transaction with its `rmself` is taken. What a checkpoint writes of another directory
    is superseded. -/
def InTurn (s : Volume C) : Action C → Prop
  | .perform dir o => ∀ led, s.cluster.led dir = some led → Sections.TimesTold led o
  | .mkdir _ _ dir name _ _ =>
    (s.cluster.tables dir).isSome → (s.cluster.tx dir).Turns name true
  | .rmdir _ dir name _ =>
    (s.cluster.entries dir name).isSome → (s.cluster.tx dir).Turns name false
  | .handle i _ change => Inode.isDir i.core.iMode = true → change.Records i →
    (s.cluster.tx i.ino).status = .S_DELETED
  | .checkpoint dir => ∀ tx queue, s.queues dir = tx :: queue → tx.status ≠ .S_DELETED →
    s.Superseded dir tx
  | .replace _ | .commit _ => True

/-- What a step keeps, where it meets the condition. -/
theorem Current.step (h : s.Current) (hr : s.Regular) {a : Action C} (ha : Legal s a)
    (ht : s.InTurn a) (hs : step s a = some s') : s'.Current := by
  cases a with
  | perform dir o =>
      obtain ⟨led, hl, rfl⟩ := Option.map_eq_some_iff.mp hs
      exact h.perform hr hl (ha led hl) (ht led hl) _
  | mkdir me env dir name mode born =>
      cases hs
      exact h.mkdir hr ha.1 ha.2.2 ht _
  | rmdir me dir name ts => exact h.rmdir hr ha ht hs
  | handle i pIno change =>
      cases hs
      exact h.handle hr ha.1 ha.2 ht
  | replace me => exact h.replace hs
  | commit dir =>
      obtain ⟨tx, hc⟩ := commits_of_step hs
      exact h.commit hc
  | checkpoint dir =>
      obtain ⟨tx, hc⟩ := checkpoints_of_step hs
      obtain ⟨queue, hq, -⟩ := hc.head
      exact h.checkpoint hr hc (synced_of_step hs hq) (ht tx queue hq)

end Volume

end Nmfs
