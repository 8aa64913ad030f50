import Nmfs.Fs.CrashPoints
import Nmfs.Fs.CurrentInode
import Nmfs.Fs.NameSections
import Nmfs.Lib.Namespace

/-
  What the pool will say of the names. A directory has its names in the table of its leader, in the
  transaction that is pending, in those that wait for their commit or for their checkpoint, and in
  the DENTRY object. The older places are behind, and the transactions make up for it.
-/

namespace Nmfs

open Lib

/-! ## What the transactions make of the names -/

namespace Transaction

variable {tx : Transaction} {stored : Bytes → Option Uuid}

/-- What the checkpoint of the transaction makes of the names in the DENTRY object. -/
def names (tx : Transaction) (stored : Bytes → Option Uuid) : Bytes → Option Uuid :=
  if tx.status = .S_DELETED then fun _ => none
  else overlay tx.dentries (if tx.status = .S_CREATED then fun _ => none else stored)

/-- The checkpoints come in the order of the commits. -/
def namesAll (txs : List Transaction) (stored : Bytes → Option Uuid) : Bytes → Option Uuid :=
  txs.foldl (fun f tx => tx.names f) stored

theorem names_deleted (h : tx.status = .S_DELETED) : tx.names stored = fun _ => none := if_pos h

theorem names_kept (h : tx.status ≠ .S_DELETED) : tx.names stored =
    overlay tx.dentries (if tx.status = .S_CREATED then fun _ => none else stored) := if_neg h

theorem names_congr {tx' : Transaction} (hs : tx'.status = tx.status)
    (hd : tx'.dentries = tx.dentries) : tx'.names stored = tx.names stored := by
  unfold names
  rw [hs, hd]

theorem namesAll_append (txs txs' : List Transaction) :
    namesAll (txs ++ txs') stored = namesAll txs' (namesAll txs stored) := List.foldl_append

end Transaction

namespace Volume

open Transaction Refinement Cluster

variable {C : Type}

/-- The names of the directory as the pool will have them. -/
def settling (s : Volume C) (dir : Uuid) : Bytes → Option Uuid :=
  namesAll (s.line dir) (namesIn s.pool dir)

/-- The same without the transaction that is pending. -/
def taking (s : Volume C) (dir : Uuid) : Bytes → Option Uuid :=
  namesAll (s.taken dir) (namesIn s.pool dir)

/-- What the pending transaction of the directory is laid over. -/
def under (s : Volume C) (dir : Uuid) : Bytes → Option Uuid :=
  if (s.cluster.tx dir).status = .S_CREATED then fun _ => none else s.taking dir

/-- The names of a directory: those at its leader, or those that it had in the pool before, if nobody
    leads it. -/
def naming (s : Volume C) (stored : Uuid → Bytes → Option Uuid) (dir : Uuid) :
    Bytes → Option Uuid :=
  match s.cluster.tables dir with
  | some table => table.listed
  | none => if dir ∈ s.removed then fun _ => none else stored dir

/-- The names of the directory are those that the pool will have. -/
structure Kept (stored : Uuid → Bytes → Option Uuid) (s : Volume C) (dir : Uuid) : Prop where
  led : ∀ led, s.cluster.led dir = some led →
    Names led (s.under dir) ∧ (s.cluster.tx dir).status ≠ .S_DELETED
  absent : s.cluster.tables dir = none → s.settling dir = s.naming stored dir

/-- The tables are of the directories that they are found under. -/
def Selves (s : Volume C) : Prop :=
  ∀ dir led, s.cluster.led dir = some led → led.table.thisDirInode.ino = dir

section

variable {s s' : Volume C} {dir : Uuid} {led led' : Led} {stored : Uuid → Bytes → Option Uuid}

theorem settling_eq : s.settling dir = (s.cluster.tx dir).names (s.taking dir) := by
  unfold settling line taking
  rw [namesAll_append]
  unfold pending Cluster.tx JournalTable.getEntry
  cases (s.cluster.jtables (s.cluster.leader dir)).lookup dir <;> rfl

theorem settling_of_led (hs : (s.cluster.tx dir).status ≠ .S_DELETED) :
    s.settling dir = overlay (s.cluster.tx dir).dentries (s.under dir) := by
  rw [settling_eq, names_kept hs]
  rfl

theorem selves_of_tidy {used removed : List Uuid} (h : s.cluster.Tidy used removed) : s.Selves :=
  fun dir led hl => (h.settled dir led.table (led_eq_some.mp hl).1).self

theorem Kept.settling (h : Kept stored s dir) (hs : s.Selves) :
    s.settling dir = s.naming stored dir := by
  cases hl : s.cluster.led dir with
  | none => exact h.absent (Option.map_eq_none_iff.mp hl)
  | some led =>
      obtain ⟨hn, hdel⟩ := h.led led hl
      unfold naming
      rw [settling_of_led hdel, (led_eq_some.mp hl).1, ← tx_of_led hl (hs dir led hl)]
      exact hn.listed

theorem under_congr (ht : s'.taking dir = s.taking dir)
    (hs : (s'.cluster.tx dir).status = (s.cluster.tx dir).status) :
    s'.under dir = s.under dir := by
  unfold under
  rw [ht, hs]

/-- Nothing has been done to the directory. -/
theorem Kept.frame (h : Kept stored s dir) (hs : s.Selves)
    (htables : s'.cluster.tables dir = s.cluster.tables dir)
    (hr : dir ∈ s'.removed ↔ dir ∈ s.removed) (htx : s'.cluster.tx dir = s.cluster.tx dir)
    (ht : s'.taking dir = s.taking dir) : Kept stored s' dir := by
  have hunder := under_congr ht (congrArg _ htx)
  refine ⟨fun led' hl' => ?_, fun hnone => ?_⟩
  · obtain ⟨htable', -, -⟩ := led_eq_some.mp hl'
    rw [htables] at htable'
    obtain ⟨led, hl, heq⟩ : ∃ led, s.cluster.led dir = some led ∧ led.table = led'.table :=
      ⟨_, Option.map_eq_some_iff.mpr ⟨led'.table, htable', rfl⟩, rfl⟩
    obtain ⟨hn, hdel⟩ := h.led led hl
    have hself := hs dir led hl
    rw [hunder, htx]
    refine ⟨hn.congr heq.symm ?_, hdel⟩
    rw [tx_of_led hl' (heq ▸ hself), tx_of_led hl hself, htx]
  · rw [settling_eq, ht, htx, ← settling_eq, h.absent (htables ▸ hnone)]
    unfold naming
    rw [htables]
    simp only [hr]

end

/-! ## What the clients do -/

/-- The journals know of no number that has not been used. -/
def Unheard (s : Volume C) : Prop :=
  ∀ c u, u ∉ s.used → (s.cluster.jtables c).lookup u = none

variable [DecidableEq C] {s s' : Volume C} {dir ino : Uuid} {led led' : Led}
  {stored : Uuid → Bytes → Option Uuid}

/-- A section on a directory is over. -/
theorem Kept.put (h : ∀ d, Kept stored s d) (hs : s.Selves) (hl : s.cluster.led dir = some led)
    (hh : Heard (fun _ => True) dir led.jtable led'.jtable)
    (hself : led'.table.thisDirInode.ino = dir) (hn : Names led' (s.under dir)) (us : List Uuid)
    (d : Uuid) : Kept stored { s with cluster := s.cluster.put dir led', used := us } d := by
  by_cases hd : d = dir
  rotate_left
  · refine (h d).frame hs ?_ Iff.rfl (tx_put hl hh hd) rfl
    exact Function.update_of_ne hd _ _
  subst hd
  obtain ⟨-, hdel⟩ := (h d).led led hl
  have htx : (s.cluster.put d led').tx d = led'.tx := tx_put_self hself
  have hstatus : ((s.cluster.put d led').tx d).status = (s.cluster.tx d).status := by
    rw [htx, ← tx_of_led hl (hs d led hl)]
    unfold Led.tx
    rw [hself, hs d led hl]
    exact hh.status
  have hunder : under { s with cluster := s.cluster.put d led', used := us } d = s.under d :=
    under_congr rfl hstatus
  have htable : (s.cluster.put d led').tables d = some led'.table := Function.update_self _ _ _
  refine ⟨fun led'' hl'' => ?_, fun hnone => ?_⟩
  · obtain ⟨htable', -, -⟩ := led_eq_some.mp hl''
    have heq : led''.table = led'.table := Option.some.inj (htable'.symm.trans htable)
    rw [hunder]
    refine ⟨hn.congr heq ?_, fun hdead => hdel (hstatus ▸ hdead)⟩
    exact (tx_of_led hl'' (heq ▸ hself)).trans htx
  · cases htable.symm.trans hnone

theorem Unheard.put (h : s.Unheard) (hl : s.cluster.led dir = some led)
    (hh : Heard (fun _ => True) dir led.jtable led'.jtable) (hdir : dir ∈ s.used)
    (us : List Uuid) (hus : ∀ u ∈ s.used, u ∈ us) :
    Unheard { s with cluster := s.cluster.put dir led', used := us } := by
  obtain ⟨-, hj, -⟩ := led_eq_some.mp hl
  intro c u hu
  show (Function.update s.cluster.jtables (s.cluster.leader dir) led'.jtable c).lookup u = none
  have hold : ∀ c, (s.cluster.jtables c).lookup u = none :=
    fun c => h c u fun hused => hu (hus u hused)
  by_cases hc : c = s.cluster.leader dir
  · rw [hc, Function.update_self, hh.other u fun heq => hu (hus u (heq ▸ hdir)), hj]
    exact hold _
  · rw [Function.update_of_ne hc]
    exact hold c

/-- `rmdir_top`: whatever the directory had, the pool will have nothing. -/
theorem Kept.topped (h : ∀ d, Kept stored s d) (ht : s.Tidy) {top : Led}
    (hl : s.cluster.led ino = some top) (d : Uuid) : Kept stored { s with
      cluster := FuseOps.topped s.cluster ino top
      removed := ino :: s.removed } d := by
  by_cases hd : d = ino
  rotate_left
  · refine (h d).frame (selves_of_tidy ht) ?_ ?_ ?_ rfl
    · exact (Function.update_of_ne hd _ _).trans (Function.update_of_ne hd _ _)
    · show d ∈ ino :: s.removed ↔ _
      simp [hd]
    · exact (tx_topped hl d).trans (if_neg hd)
  subst hd
  have hnone : (FuseOps.topped s.cluster d top).tables d = none := Function.update_self _ _ _
  refine ⟨fun led hled => ?_, fun _ => ?_⟩
  · obtain ⟨htable, -, -⟩ := led_eq_some.mp hled
    rw [hnone] at htable
    cases htable
  · have hopen : (s.cluster.tx d).committed = false := ht.uncommitted _ d
    have hdel : ((FuseOps.topped s.cluster d top).tx d).status = .S_DELETED := by
      rw [tx_topped hl, if_pos rfl, Transaction.rmself_eq hopen]
    rw [settling_eq, names_deleted hdel]
    unfold naming
    dsimp only
    rw [hnone]
    exact (if_pos List.mem_cons_self).symm

theorem Unheard.topped (h : s.Unheard) {top : Led} (hl : s.cluster.led ino = some top)
    (hino : ino ∈ s.used) : Unheard { s with
      cluster := FuseOps.topped s.cluster ino top
      removed := ino :: s.removed } := by
  intro c u hu
  show ((FuseOps.topped s.cluster ino top).jtables c).lookup u = none
  rw [jtables_topped hl]
  split
  · refine (AList.lookup_insert_ne fun heq => hu ?_).trans (h c u hu)
    exact heq ▸ hino
  · exact h c u hu

/-- A new directory has no names, whatever there is under its number in the pool. -/
theorem Kept.founded (h : ∀ d, Kept stored s d) (hs : s.Selves) (me : C) {i : Inode}
    (hnew : (s.cluster.jtables me).lookup i.ino = none) (d : Uuid) :
    Kept stored { s with cluster := FuseOps.founded me i s.cluster } d := by
  by_cases hd : d = i.ino
  rotate_left
  · have hleader : (FuseOps.founded me i s.cluster).leader d = s.cluster.leader d :=
      Function.update_of_ne hd _ _
    refine (h d).frame hs (Function.update_of_ne hd _ _) Iff.rfl ?_ ?_
    · unfold Cluster.tx
      dsimp only
      rw [hleader, jtables_founded]
      split
      · rw [JournalTable.getEntry_record_ne _ _ _ hd]
      · rfl
    · unfold taking taken waiting
      dsimp only
      rw [hleader]
  subst hd
  have hentry : (s.cluster.jtables me).getEntry i.ino = Transaction.new i.ino := by
    unfold JournalTable.getEntry
    rw [hnew]
    rfl
  have htx : (FuseOps.founded me i s.cluster).tx i.ino =
      (Transaction.mkself (Transaction.new i.ino) i).2 := by
    show ((FuseOps.founded me i s.cluster).jtables
      (Function.update s.cluster.leader i.ino me i.ino)).getEntry i.ino = _
    rw [Function.update_self, jtables_founded, if_pos rfl, JournalTable.getEntry_record, hentry]
    rfl
  have htable : (FuseOps.founded me i s.cluster).tables i.ino = some (.ofNew i) :=
    Function.update_self _ _ _
  have hunder : under { s with cluster := FuseOps.founded me i s.cluster } i.ino = fun _ => none := by
    unfold under
    dsimp only
    rw [htx]
    rfl
  refine ⟨fun led hled => ?_, fun hnone => ?_⟩
  · obtain ⟨htable', -, -⟩ := led_eq_some.mp hled
    have heq : led.table = .ofNew i := Option.some.inj (htable'.symm.trans htable)
    have hself : led.table.thisDirInode.ino = i.ino := by rw [heq]; rfl
    have hnames := Names.of_new i (s.cluster.jtables me) s.cluster.dataPool hentry
    rw [hunder]
    refine ⟨hnames.congr heq ?_, fun hdel => ?_⟩
    · rw [tx_of_led hled hself]
      refine htx.trans ?_
      show _ = JournalTable.getEntry ((s.cluster.jtables me).record i.ino (.mkself i)).2 i.ino
      rw [JournalTable.getEntry_record, hentry]
      rfl
    · have hcreated : ((FuseOps.founded me i s.cluster).tx i.ino).status = .S_CREATED := by
        rw [htx]
        rfl
      cases hcreated.symm.trans hdel
  · cases htable.symm.trans hnone

theorem Unheard.founded (h : s.Unheard) (me : C) {i : Inode} (hi : i.ino ∈ s.used) :
    Unheard { s with cluster := FuseOps.founded me i s.cluster } := by
  intro c u hu
  show ((FuseOps.founded me i s.cluster).jtables c).lookup u = none
  rw [jtables_founded]
  split
  · refine (AList.lookup_insert_ne fun heq => hu ?_).trans (h c u hu)
    exact heq ▸ hi
  · exact h c u hu

theorem jtables_handled (i : Inode) (pIno : Uuid) (change : InodeChange) (c : C) :
    (handled s.cluster i pIno change).jtables c = if c = s.cluster.leader (home i pIno) then
      (change.perform ⟨i, pIno, s.cluster.dataPool, s.cluster.jtables c⟩).jtable
    else s.cluster.jtables c := by
  unfold handled
  dsimp only
  by_cases hc : c = s.cluster.leader (home i pIno)
  · rw [hc, Function.update_self, if_pos rfl]
  · rw [Function.update_of_ne hc, if_neg hc]

/-- A change through a handle: the transaction has the same names, and no file in it dies. -/
structure SameNames (tx tx' : Transaction) : Prop where
  dentries : tx'.dentries = tx.dentries
  status : tx'.status = tx.status
  open_ : tx'.committed = tx.committed
  dead : ∀ u, tx'.fInodes.lookup u = some none → tx.fInodes.lookup u = some none

omit [DecidableEq C] in
theorem SameNames.refl (tx : Transaction) : SameNames tx tx := ⟨rfl, rfl, rfl, fun _ h => h⟩

omit [DecidableEq C] in
theorem sameNames_of_records {i : Inode} {pIno : Uuid} {jtable jtable' : JournalTable}
    (hu : jtable.Uncommitted) (h : HandleRecords i pIno jtable jtable') (d : Uuid) :
    SameNames (jtable.getEntry d) (jtable'.getEntry d) := by
  cases h with
  | quiet => exact .refl _
  | @file f hi hino =>
      by_cases hd : d = pIno
      · subst hd
        rw [JournalTable.getEntry_record]
        show SameNames _ (Transaction.chreg _ f).2
        rw [Transaction.chreg_eq (hu d)]
        refine ⟨rfl, rfl, rfl, fun u hdead => ?_⟩
        have hdead' : (((jtable.getEntry d).fInodes.insert f.ino (some f.copy)).lookup u) =
          some none := hdead
        rcases lookup_insert_eq_some hdead' with ⟨-, hv⟩ | ⟨-, hold⟩
        · cases hv
        · exact hold
      · rw [JournalTable.getEntry_record_ne _ _ _ hd]
        exact .refl _
  | @directory f hi hino =>
      by_cases hd : d = i.ino
      · subst hd
        rw [JournalTable.getEntry_record]
        show SameNames _ (Transaction.chself _ f).2
        rw [Transaction.chself_eq (hu _)]
        exact ⟨rfl, rfl, rfl, fun _ h => h⟩
      · rw [JournalTable.getEntry_record_ne _ _ _ hd]
        exact .refl _

theorem Kept.handle (h : ∀ d, Kept stored s d) (ht : s.Tidy) {i : Inode} {pIno : Uuid}
    {change : InodeChange} (hv : change.Valid i) (ho : s.Open i pIno change) (d : Uuid) :
    Kept stored { s with cluster := handled s.cluster i pIno change } d := by
  have htx : SameNames (s.cluster.tx d) ((handled s.cluster i pIno change).tx d) := by
    show SameNames _ (((handled s.cluster i pIno change).jtables (s.cluster.leader d)).getEntry d)
    rw [jtables_handled]
    split
    · exact sameNames_of_records (ht.uncommitted _) (handle_records hv ho _ _) d
    · exact .refl _
  have hunder : under { s with cluster := handled s.cluster i pIno change } d = s.under d :=
    under_congr rfl htx.status
  refine ⟨fun led' hl' => ?_, fun hnone => ?_⟩
  · obtain ⟨htable, -, -⟩ := led_eq_some.mp hl'
    obtain ⟨led, hl, heq⟩ : ∃ led, s.cluster.led d = some led ∧ led.table = led'.table :=
      ⟨_, Option.map_eq_some_iff.mpr ⟨led'.table, htable, rfl⟩, rfl⟩
    obtain ⟨hn, hdel⟩ := (h d).led led hl
    have hself := selves_of_tidy ht d led hl
    have hold := tx_of_led hl hself
    have hnew : led'.tx = (handled s.cluster i pIno change).tx d :=
      tx_of_led hl' (heq ▸ hself)
    rw [hunder]
    refine ⟨hn.heard heq.symm ?_ ?_ ?_, fun hdead => hdel (htx.status ▸ hdead)⟩
    · rw [hnew, htx.dentries, hold]
    · rw [hnew, htx.open_]
      exact ht.uncommitted _ d
    · rw [hnew, hold]
      exact htx.dead
  · refine Eq.trans ?_ ((h d).absent hnone)
    rw [settling_eq, settling_eq]
    exact names_congr htx.status htx.dentries

omit [DecidableEq C] in
theorem used_of_open (ht : s.Tidy) {i : Inode} {pIno : Uuid} {change : InodeChange}
    (ho : s.Open i pIno change) : home i pIno ∈ s.used := by
  unfold home
  cases ho with
  | file hi hused hnodir hdir =>
      rw [if_neg (by rw [hi]; decide)]
      exact hdir.elim (fun hsome => (ht.of_isSome hsome).1) (ht.removed pIno)
  | directory hi hd hremoved =>
      rw [if_pos hi]
      exact ht.removed _ hremoved

theorem Unheard.handle (h : s.Unheard) (ht : s.Tidy) {i : Inode} {pIno : Uuid}
    {change : InodeChange} (hv : change.Valid i) (ho : s.Open i pIno change) :
    Unheard { s with cluster := handled s.cluster i pIno change } := by
  intro c u hu
  show ((handled s.cluster i pIno change).jtables c).lookup u = none
  have hhome : u ≠ home i pIno := fun heq => hu (heq ▸ used_of_open ht ho)
  rw [jtables_handled]
  split
  · rw [← h c u hu]
    refine (handled_calls hv ho).invariant (I := fun j => j.lookup u = (s.cluster.jtables c).lookup u)
      (fun j dir m hj hm => ?_) rfl
    obtain ⟨rfl, -⟩ := hm.mono fun _ hp => hp
    exact (AList.lookup_insert_ne hhome).trans hj
  · exact h c u hu

/-! ## The commit threads -/

/-- What is taken is what the next transaction of the directory is laid over. -/
theorem Kept.replace (h : ∀ d, Kept stored s d) (ht : s.Selves) {me : C}
    (hs : step s (.replace me) = some s') (d : Uuid) : Kept stored s' d := by
  have hline := congrFun (line_replace hs) d
  obtain ⟨-, rfl⟩ := replace_of_step hs
  by_cases hd : s.cluster.leader d = me
  rotate_left
  · refine (h d).frame ht rfl Iff.rfl ?_ ?_
    · unfold Cluster.tx
      dsimp only
      rw [Function.update_of_ne hd]
    · unfold taking taken waiting
      dsimp only
      rw [Function.update_of_ne hd]
  subst hd
  let s' : Volume C := { s with
    cluster := { s.cluster with
      jtables := Function.update s.cluster.jtables (s.cluster.leader d) ∅ }
    cycle := Function.update s.cycle (s.cluster.leader d) (s.cluster.jtables (s.cluster.leader d)) }
  show Kept stored s' d
  have hpending : (s'.cluster.jtables (s'.cluster.leader d)) = ∅ := Function.update_self _ _ _
  have htx : s'.cluster.tx d = Transaction.new d := by
    unfold Cluster.tx
    rw [hpending]
    rfl
  have hunder : s'.under d = s.settling d := by
    have hsettling : s'.settling d = s.settling d := congrArg (namesAll · _) hline
    rw [← hsettling, settling_eq, htx]
    unfold under
    rw [htx]
    rfl
  refine ⟨fun led' hl' => ?_, fun hnone => ?_⟩
  · obtain ⟨htable, -, -⟩ := led_eq_some.mp hl'
    obtain ⟨led, hl, heq⟩ : ∃ led, s.cluster.led d = some led ∧ led.table = led'.table :=
      ⟨_, Option.map_eq_some_iff.mpr ⟨led'.table, htable, rfl⟩, rfl⟩
    obtain ⟨hn, hdel⟩ := (h d).led led hl
    have hself := ht d led hl
    have hempty : led'.tx = Transaction.new led.table.thisDirInode.ino := by
      rw [tx_of_led hl' (heq ▸ hself), htx, hself]
    rw [hunder, settling_of_led hdel, ← tx_of_led hl hself]
    refine ⟨hn.emptied heq.symm hempty, fun hdead => ?_⟩
    rw [htx] at hdead
    cases hdead
  · refine Eq.trans ?_ ((h d).absent hnone)
    exact congrArg (namesAll · _) hline

omit [DecidableEq C] in
/-- A name stays what it is when only the JOURNAL object is written. -/
theorem namesIn_journal {pool : Pool} (hw : WellStored pool) (key : Str) (value : Bytes)
    (offset : Nat) (d : Uuid) :
    namesIn (RadosIo.write pool .journal key value offset).2 d = namesIn pool d :=
  namesIn_frame hw fun _ hx =>
    (RadosIo.frame_write_file _ _).storedAs (fun heq => nomatch (Prod.mk.inj heq).1) hx

theorem Commits.taken {tx : Transaction} (h : Commits s dir tx s') :
    s.taken dir = s.queues dir ++ [tx] ∧
    s'.taken dir = s.queues dir ++ [{ tx with
      committed := true
      offset := (RadosIo.stat s.pool .journal tx.sIno.toStr).2 }] ∧
    ∀ d, d ≠ dir → s'.taken d = s.taken d := by
  obtain ⟨hold, hnew, hother⟩ := h.line
  have hpending : s'.pending = s.pending := by
    unfold Volume.pending
    rw [h.cluster]
  unfold Volume.line at hold hnew hother
  rw [hpending] at hnew hother
  exact ⟨List.append_cancel_right hold, List.append_cancel_right hnew,
    fun d hd => List.append_cancel_right (hother d hd)⟩

/-- A commit writes the JOURNAL object only. -/
theorem Kept.commit (h : ∀ d, Kept stored s d) (hr : s.Regular) {tx : Transaction}
    (hc : Commits s dir tx s') (d : Uuid) : Kept stored s' d := by
  obtain ⟨hold, hnew, hother⟩ := hc.taken
  have hpool : namesIn s'.pool d = namesIn s.pool d := by
    rw [hc.pool]
    exact namesIn_journal hr.stored _ _ _ d
  refine (h d).frame (selves_of_tidy hr.tidy) (by rw [hc.cluster]) (by rw [hc.history.2.1])
    (by rw [hc.cluster]) ?_
  unfold taking
  rw [hpool]
  by_cases hd : d = dir
  · rw [hd, hold, hnew, namesAll_append, namesAll_append]
    exact names_congr rfl rfl
  · rw [hother d hd]

omit [DecidableEq C] in
theorem Checkpoints.taken {tx : Transaction} (h : Checkpoints s dir tx s') :
    s.taken dir = tx :: s'.taken dir ∧ ∀ d, d ≠ dir → s'.taken d = s.taken d := by
  obtain ⟨hself, hother⟩ := h.line
  have hpending : s'.pending = s.pending := by
    unfold Volume.pending
    rw [h.cluster.1]
  unfold Volume.line at hself hother
  rw [hpending] at hself hother
  exact ⟨List.append_cancel_right hself, fun d hd => List.append_cancel_right (hother d hd)⟩

omit [DecidableEq C] in
/-- A transaction that does not raise has read the DENTRY object, where it needs it. -/
theorem load_of_sync_ok {tx : Transaction} {pool : Pool} (hok : TxOk (fun _ => True) dir tx)
    (hw : WellStored pool) (hsync : (tx.sync pool).1 = .ok ()) (hs : tx.status ≠ .S_DELETED) :
    ∃ d, Dentry.load pool dir (tx.status = .S_CREATED) = .ok d := by
  cases hload : Dentry.load pool dir (tx.status = .S_CREATED) with
  | ok d => exact ⟨d, rfl⟩
  | error e =>
      rw [sync_of_load_error hok.sIno hs ((load_selfSynced hok.self hw _).trans hload)] at hsync
      cases hsync

/-- What is written can be read again: a DENTRY object is read in one piece, of 4 MiB. -/
def Fits (s : Volume C) (dir : Uuid) (tx : Transaction) : Prop :=
  ∀ d, Dentry.load s.pool dir (tx.status = .S_CREATED) = .ok d →
    (Transaction.applyDentries tx.dentries.entries d).serialize.length ≤ Dentry.MAX_DENTRY_OBJ_SIZE

omit [DecidableEq C] in
/-- A checkpoint moves the names of one transaction into the DENTRY object. -/
theorem Kept.checkpoint (h : ∀ d, Kept stored s d) (hr : s.Regular) {tx : Transaction}
    (hc : Checkpoints s dir tx s') (hsync : (tx.sync s.pool).1 = .ok ()) (hfits : s.Fits dir tx)
    (d : Uuid) : Kept stored s' d := by
  obtain ⟨hself, hother⟩ := hc.taken
  obtain ⟨queue, hq, -⟩ := hc.head
  have hok : TxOk (fun _ => True) dir tx := hr.queued dir tx (hq ▸ List.mem_cons_self)
  have hpool : namesIn s'.pool d = namesIn (tx.sync s.pool).2 d := by
    rw [hc.pool]
    exact namesIn_journal (sync_wellStored hr.stored) _ _ _ d
  refine (h d).frame (selves_of_tidy hr.tidy) (by rw [hc.cluster.1]) (by rw [hc.history.2])
    (by rw [hc.cluster.1]) ?_
  unfold taking
  rw [hpool]
  by_cases hd : d = dir
  · have hload : tx.status = .S_DELETED ∨
        ∃ d, Dentry.load s.pool dir (tx.status = .S_CREATED) = .ok d :=
      (em _).imp_right (load_of_sync_ok hok hr.stored hsync)
    rw [hd, hself, namesIn_sync hok hr.stored hload hfits]
    show _ = namesAll (s'.taken dir) (tx.names (namesIn s.pool dir))
    unfold namesAfter
    rw [hok.sIno]
    rfl
  · rw [hother d hd, namesIn_sync_ne hok hr.stored hd]

/-! ## Steps -/

/-- The condition, at each step. The journal takes what the operation tells it, or the operation does
    nothing. What is written can be read again. -/
def Ready (s : Volume C) : Action C → Prop
  | .perform dir o => ∀ led, s.cluster.led dir = some led → (o.perform led).2 = led ∨ o.Valid led
  | .mkdir _ env dir name _ _ => ∀ led, s.cluster.led dir = some led → NewName led env name
  | .checkpoint dir => ∀ tx queue, s.queues dir = tx :: queue → s.Fits dir tx
  | .rmdir _ _ _ _ | .handle _ _ _ | .replace _ | .commit _ => True

/-- The volume and its names. -/
structure Matched (stored : Uuid → Bytes → Option Uuid) (s : Volume C) : Prop where
  regular : s.Regular
  unheard : s.Unheard
  kept : ∀ dir, Kept stored s dir

omit [DecidableEq C] in
theorem heard_of_tells {jtable : JournalTable} (hok : TxOk (fun _ => True) dir (jtable.getEntry dir))
    {P : Uuid → Prop} (ht : led'.Tells P dir jtable) :
    Heard (fun _ => True) dir jtable led'.jtable :=
  heard_of_records hok (fun _ _ => trivial) ht.records

omit [DecidableEq C] in
theorem Regular.entry_ok (hr : s.Regular) (hl : s.cluster.led dir = some led) :
    TxOk (fun _ => True) dir (led.jtable.getEntry dir) := by
  obtain ⟨-, hj, -⟩ := led_eq_some.mp hl
  exact hj ▸ (hr.told _).1.getEntry dir

theorem Matched.perform (h : Matched stored s) (hl : s.cluster.led dir = some led) {o : Operation}
    (ho : OperationLegal s led o) (hready : (o.perform led).2 = led ∨ o.Valid led) :
    let t : Volume C := { s with
      cluster := s.cluster.put dir (o.perform led).2
      used := brought o ++ s.used }
    t.Unheard ∧ ∀ d, Kept stored t d := by
  have htidy := h.regular.tidy
  have htells := perform_tells htidy hl ho
  have hheard := heard_of_tells (h.regular.entry_ok hl) htells
  have hnames : Names (o.perform led).2 (s.under dir) := by
    have hn := ((h.kept dir).led led hl).1
    rcases hready with hsame | hv
    · rw [hsame]
      exact hn
    · exact hn.performed (htidy.settled dir led.table (led_eq_some.mp hl).1).selfDir hv
  refine ⟨h.unheard.put hl hheard ?_ _ fun u hu => List.mem_append_right _ hu, ?_⟩
  · exact (htidy.of_isSome (FuseOps.isSome_of_led hl)).1
  · exact Kept.put h.kept (selves_of_tidy htidy) hl hheard htells.within.self hnames _

theorem Matched.mkdir (h : Matched stored s) {me : C} {env : Env} {name : Bytes} {mode : UInt32}
    {born : Timespec} (hf : env.newIno ∉ s.used)
    (hnew : ∀ led, s.cluster.led dir = some led → NewName led env name) :
    let t : Volume C := { s with
      cluster := (FuseOps.mkdirIn me env dir name mode born s.cluster).2
      used := env.newIno :: s.used }
    t.Unheard ∧ ∀ d, Kept stored t d := by
  have htidy := h.regular.tidy
  cases hl : s.cluster.led dir with
  | none =>
      rw [FuseOps.mkdirIn_absent hl]
      refine ⟨fun c u hu => h.unheard c u fun hused => hu (List.mem_cons_of_mem _ hused), fun d => ?_⟩
      exact (h.kept d).frame (selves_of_tidy htidy) rfl Iff.rfl rfl rfl
  | some led =>
      have hname := hnew led hl
      obtain ⟨born', heq⟩ := @FuseOps.mkdirIn_eq C _ s.cluster me dir led env name mode born hl
      have htells := mkdirSection_tells htidy hl hname.isName.1 hf (s.cluster.leader dir = me) mode
      obtain ⟨led', hsec, hn⟩ := ((h.kept dir).led led hl).1.mkdirSection hname mode
        (s.cluster.leader dir = me)
      rw [hsec] at htells heq
      have hheard := heard_of_tells (h.regular.entry_ok hl) htells
      have hdir := (htidy.of_isSome (FuseOps.isSome_of_led hl)).1
      have hput := Kept.put h.kept (selves_of_tidy htidy) hl hheard htells.within.self hn
        (env.newIno :: s.used)
      have hunheard := h.unheard.put hl hheard hdir (env.newIno :: s.used)
        fun u hu => List.mem_cons_of_mem _ hu
      have hputTidy := htidy.put hl htells fun u hu => by
        rw [List.mem_singleton.mp hu]
        exact htidy.fresh hf
      -- the new number has been told to nobody but the parent
      have hnone : ((s.cluster.put dir led').jtables me).lookup env.newIno = none := by
        refine h.unheard.put hl hheard hdir s.used (fun u hu => hu) me env.newIno hf
      rw [heq]
      refine ⟨hunheard.founded me List.mem_cons_self, ?_⟩
      exact Kept.founded hput (selves_of_tidy hputTidy) me hnone

theorem Matched.rmdir (h : Matched stored s) {me : C} {name : Bytes} {ts : Timespec}
    (hname : IsName name) (hs : step s (.rmdir me dir name ts) = some s') :
    s'.Unheard ∧ ∀ d, Kept stored s' d := by
  have htidy := h.regular.tidy
  obtain rfl := Option.some.inj hs
  have hrmdirs : FuseOps.Rmdirs dir name ts s.cluster (FuseOps.rmdirIn me dir name ts s.cluster).2 :=
    FuseOps.rmdirIn_rmdirs
  rcases Cluster.Tidy.rmdirs htidy hname hrmdirs with heq | ⟨ino, led, top, led', hrem⟩
  · rw [heq, lost_of_same]
    exact ⟨h.unheard, h.kept⟩
  rw [lost_of_removes hrem]
  let t : Volume C := { s with
    cluster := FuseOps.topped s.cluster ino top
    removed := ino :: s.removed }
  have hino := htidy.of_isSome (FuseOps.isSome_of_led hrem.child)
  have hdir := htidy.of_isSome (FuseOps.isSome_of_led hrem.parent)
  have htop : t.cluster.Tidy s.used s.removed := Cluster.Tidy.topped htidy ino hrem.child
  have hkept : ∀ d, Kept stored t d := Kept.topped h.kept htidy hrem.child
  have hunheard : t.Unheard := h.unheard.topped hrem.child hino.1
  have hnext : t.cluster.led dir = some led' := hrem.next
  have hself := selves_of_tidy htop dir led' hnext
  -- the parent's transaction is another one than the child's
  have htx : led'.tx = s.cluster.tx dir := by
    rw [tx_of_led hnext hself]
    exact (tx_topped hrem.child dir).trans (if_neg hrem.ne)
  have hok : TxOk (fun _ => True) dir (led'.jtable.getEntry dir) := by
    have hentry : led'.jtable.getEntry dir = led'.tx := by
      unfold Led.tx
      rw [hself]
    rw [hentry, htx]
    exact (h.regular.told _).1.getEntry dir
  have htells : (DirectoryOps.rmdirDown ts ino name led').2.Tells (Has led' []) dir led'.jtable :=
    Sections.tells_rmdirDown hname.1 led' (htop.tells hnext fun n u hn => .inl ⟨n, hn⟩)
  have hheard := heard_of_tells hok htells
  have hnames : Names (DirectoryOps.rmdirDown ts ino name led').2 (t.under dir) :=
    ((hkept dir).led led' hnext).1.rmdirDown (hrem.same ▸ hrem.listed)
  have hput := Kept.put hkept (selves_of_tidy htop) hnext hheard htells.within.self hnames s.used
  rw [hrem.eq]
  exact ⟨hunheard.put hnext hheard hdir.1 s.used fun u hu => hu, hput⟩

/-- What a step keeps, where it meets the condition. -/
theorem Matched.step (h : Matched stored s) {a : Action C} (ha : Legal s a) (hready : Ready s a)
    (hs : step s a = some s') : Matched stored s' := by
  have hregular := h.regular.step ha hs
  have htidy := h.regular.tidy
  suffices s'.Unheard ∧ ∀ d, Kept stored s' d from ⟨hregular, this.1, this.2⟩
  cases a with
  | perform dir o =>
      obtain ⟨led, hl, rfl⟩ := Option.map_eq_some_iff.mp hs
      exact h.perform hl (ha led hl) (hready led hl)
  | mkdir me env dir name mode born =>
      cases hs
      exact h.mkdir ha.2.2 hready
  | rmdir me dir name ts => exact h.rmdir ha hs
  | handle i pIno change =>
      cases hs
      exact ⟨h.unheard.handle htidy ha.1 ha.2, Kept.handle h.kept htidy ha.1 ha.2⟩
  | replace me =>
      refine ⟨?_, Kept.replace h.kept (selves_of_tidy htidy) hs⟩
      obtain ⟨-, rfl⟩ := replace_of_step hs
      intro c u hu
      dsimp only
      by_cases hc : c = me
      · rw [hc, Function.update_self]
        exact AList.lookup_empty u
      · rw [Function.update_of_ne hc]
        exact h.unheard c u hu
  | commit dir =>
      obtain ⟨tx, hc⟩ := commits_of_step hs
      refine ⟨fun c u hu => ?_, Kept.commit h.kept h.regular hc⟩
      rw [hc.cluster]
      rw [hc.history.1] at hu
      exact h.unheard c u hu
  | checkpoint dir =>
      obtain ⟨tx, hc⟩ := checkpoints_of_step hs
      obtain ⟨queue, hq, -⟩ := hc.head
      refine ⟨fun c u hu => ?_, Kept.checkpoint h.kept h.regular hc (synced_of_step hs hq)
        (hready tx queue hq)⟩
      rw [hc.cluster.1]
      rw [hc.history.1] at hu
      exact h.unheard c u hu

/-! ## Runs -/

/-- Nothing has been done yet, and what the clients have in memory is what they have read. -/
structure Readable (s : Volume C) : Prop where
  start : s.Start
  names : ∀ dir led, s.cluster.led dir = some led → Names led (namesIn s.pool dir)

omit [DecidableEq C] in
theorem Readable.matched (h : s.Readable) : Matched (namesIn s.pool) s := by
  have hs := h.start
  have htx : ∀ dir, s.cluster.tx dir = Transaction.new dir := by
    intro dir
    unfold Cluster.tx
    rw [(hs.idle _).1]
    rfl
  have htaking : ∀ dir, s.taking dir = namesIn s.pool dir := by
    intro dir
    unfold taking taken waiting
    rw [hs.queues, (hs.idle _).2]
    rfl
  have hempty : Told ∅ := fun _ _ hl => (nomatch hl)
  refine ⟨⟨hs.tidy, hs.stored, fun c => ?_, fun dir tx htx => ?_⟩, fun c u _ => ?_, fun dir => ?_⟩
  · rw [(hs.idle c).1, (hs.idle c).2]
    exact ⟨hempty, hempty⟩
  · rw [hs.queues] at htx
    cases htx
  · rw [(hs.idle c).1]
    exact AList.lookup_empty u
  · refine ⟨fun led hl => ⟨?_, ?_⟩, fun hnone => ?_⟩
    · have hunder : s.under dir = namesIn s.pool dir := by
        unfold under
        rw [htx, htaking]
        rfl
      rw [hunder]
      exact h.names dir led hl
    · rw [htx]
      exact fun h => (nomatch h)
    · rw [settling_eq, htx, htaking]
      unfold naming
      rw [hnone, hs.history.1]
      rfl

theorem run_matched {as : List (Action C)} (h : s.Readable) (hlegal : StepsMeet step Legal s as)
    (hready : StepsMeet step Ready s as) (hr : run step s as = some s') :
    Matched (namesIn s.pool) s' :=
  run_invariant_of_stepsMeet (fun _ _ _ hm ha hs => hm.step ha.1 ha.2 hs) h.matched
    (hlegal.and hready) hr

omit [DecidableEq C] in
/-- What is read from the DENTRY object are the names that are there. -/
theorem listed_of_pull {pool : Pool} {t : DentryTable} (h : DentryTable.pull pool dir = .ok t) :
    t.listed = namesIn pool dir := by
  funext name
  unfold namesIn
  rw [(DentryTable.pull_ok h).dentries]
  rfl

/-- What the pool will say is what the clients say now: of a directory that everything has been
    checkpointed of, whoever reads it next gets the names that its leader has, and once all is
    checkpointed, every path leads where it leads in memory. -/
theorem names_durable {as : List (Action C)} (h : s.Readable)
    (hlegal : StepsMeet step Legal s as) (hready : StepsMeet step Ready s as)
    (hr : run step s as = some s') :
    (∀ dir, s'.settling dir = s'.naming (namesIn s.pool) dir) ∧
    (∀ dir t, s'.line dir = [] → DentryTable.pull s'.pool dir = .ok t →
      t.listed = s'.naming (namesIn s.pool) dir) ∧
    ((∀ dir, s'.line dir = []) → ∀ path,
      Namespace.walk (namesIn s'.pool) Uuid.rootIno path =
        Namespace.walk (s'.naming (namesIn s.pool)) Uuid.rootIno path) := by
  have hm := run_matched h hlegal hready hr
  have hall : ∀ dir, s'.settling dir = s'.naming (namesIn s.pool) dir :=
    fun dir => (hm.kept dir).settling (selves_of_tidy hm.regular.tidy)
  have hdone : ∀ dir, s'.line dir = [] →
      namesIn s'.pool dir = s'.naming (namesIn s.pool) dir := by
    intro dir hline
    rw [← hall]
    unfold settling
    rw [hline]
    rfl
  refine ⟨hall, fun dir t hline ht => (listed_of_pull ht).trans (hdone dir hline),
    fun hlines path => ?_⟩
  rw [show namesIn s'.pool = s'.naming (namesIn s.pool) from funext fun dir => hdone dir (hlines dir)]

open Placement

theorem fresh_readable : fresh.Readable := by
  refine ⟨fresh_start, fun dir led hl => ?_⟩
  obtain ⟨htable, hj, -⟩ := led_eq_some.mp hl
  obtain ⟨rfl, ht⟩ := fresh_tables htable
  obtain ⟨d, hd, hnil⟩ := Moving.load_fresh
  have hnone : namesIn fresh.pool Uuid.rootIno = fun _ => none := by
    funext name
    unfold namesIn
    rw [hd]
    unfold AList.lookup
    dsimp only
    rw [hnil]
    rfl
  have htx : led.tx = Transaction.new Uuid.rootIno := by
    unfold Led.tx
    rw [ht, hj]
    rfl
  rw [hnone]
  refine ⟨?_, ?_, ?_, ?_, ?_, ?_, ?_, ?_⟩
  · rw [ht]
    rfl
  · rw [htx]
    rfl
  · rw [ht]
    exact fun _ => rfl
  · rw [htx, ht]
    rfl
  · rw [ht]
    exact fun _ _ _ h => (nomatch h)
  · rw [ht]
    exact fun _ _ h => (nomatch h)
  · rw [ht]
    exact fun _ _ h => (nomatch h)
  · rw [ht]
    exact fun _ _ h => (nomatch h)

/-- "/a" and "/a/f" are made, and what has been done in "/a" is committed and checkpointed. -/
def settled : List (Action Bool) :=
  [.mkdir false (envOf 1) Uuid.rootIno [97] 0x41ED clock,
    .perform lateDir (.request (.localCreate (envOf 2) [102] 0x1A4)),
    .replace false,
    .commit lateDir,
    .checkpoint lateDir]

theorem settled_run : ∃ s, run step fresh settled = some s ∧ s.line lateDir = [] ∧
    s.naming (namesIn fresh.pool) lateDir [102] = some (envOf 2).newIno :=
  ⟨_, rfl, rfl, rfl⟩

theorem settled_legal : StepsMeet step Legal fresh settled := by
  refine .cons ?_ rfl (.cons ?_ rfl ?_)
  · exact ⟨⟨⟨by decide, by decide⟩, by decide⟩, by decide, by decide⟩
  · rintro led -
    refine ⟨⟨by decide, by decide⟩, ?_⟩
    rintro ino ⟨⟩
    decide
  · exact ⟨trivial, fun _ _ => ⟨trivial, fun _ _ => ⟨trivial, fun _ _ => trivial⟩⟩⟩

theorem settled_ready : StepsMeet step Ready fresh settled := by
  refine .cons ?_ rfl (.cons ?_ rfl (.cons trivial rfl (.cons trivial rfl
    ⟨fun tx queue hq d hd => ?_, fun _ _ => trivial⟩)))
  · rintro led ⟨⟩
    exact ⟨⟨⟨by decide, by decide⟩, by decide⟩, rfl, by decide, by decide, fun n hn => (nomatch hn),
      by decide⟩
  · rintro led ⟨⟩
    exact .inr ⟨⟨⟨⟨by decide, by decide⟩, by decide⟩, rfl, by decide, by decide,
      fun n hn => (nomatch hn), by decide⟩, by decide⟩
  · -- the directory is new: nothing is read
    cases hq
    cases hd
    show _ ≤ RadosIo.objSize
    rw [RadosIo.objSize_eq]
    decide

/-- Whoever reads "/a" next finds "f" in it. -/
theorem names_durable_settled : ∃ s, run step fresh settled = some s ∧ s.line lateDir = [] ∧
    (∀ dir, s.settling dir = s.naming (namesIn fresh.pool) dir) ∧
    ∀ t, DentryTable.pull s.pool lateDir = .ok t → t.listed [102] = some (envOf 2).newIno := by
  obtain ⟨s, hr, hline, hname⟩ := settled_run
  obtain ⟨hall, hpull, -⟩ := names_durable fresh_readable settled_legal settled_ready hr
  refine ⟨s, hr, hline, hall, fun t ht => ?_⟩
  rw [hpull lateDir t hline ht]
  exact hname

end Volume

end Nmfs
