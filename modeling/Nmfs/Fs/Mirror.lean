import Nmfs.Fs.Creation
import Nmfs.Meta.StoredInode
import Nmfs.Journal.Recovery

/-
  What the leader of a directory has in memory, and what the meta pool will have once everything that
  is committed is checkpointed. `Stored` is the latter. The pending transaction is the difference:
  where it has no file, the INODE object spells the inode in memory, and where it has one, that one
  is a copy.
-/

namespace Nmfs

open Lib

namespace Mirror

/-- The directory's own inode. -/
def SelfRecorded (m : Stored) (s : Led) : Prop :=
  match s.tx.sInode with
  | none => Inode.Spells (m.inodes s.table.dirIno) s.table.thisDirInode
  | some i => i = s.table.thisDirInode.copy

/-- What the transaction has of the directory's own inode, if anything, is a copy of it. -/
def SelfCopied (s : Led) : Prop := ∀ i, s.tx.sInode = some i → i = s.table.thisDirInode.copy

/-- The next change of the directory records its inode. -/
def SelfTouched (s : Led) : Prop :=
  (s.tx.touchSelf s.table.thisDirInode).sInode = some s.table.thisDirInode.copy

def FileRecorded (m : Stored) (fInodes : AList (fun _ : Uuid => Option Inode)) (i : Inode) : Prop :=
  match fInodes.lookup i.ino with
  | none => Inode.Spells (m.inodes i.ino) i
  | some none => False
  | some (some j) => j = i.copy

/-- What is not a directory. -/
def IsFile (i : Inode) : Prop := Inode.isDir i.core.iMode = false

/-- A directory, which has no link target. -/
def IsDirectory (i : Inode) : Prop :=
  Inode.isDir i.core.iMode = true ∧ i.core.linkTargetLen = 0

/-- Memory is what is stored, overlaid with the pending transaction, up to the directory's own
    inode. `d` is the DENTRY object. -/
structure Recorded (m : Stored) (d : Dentry) (s : Led) : Prop where
  names : Names s d.childList.lookup
  load : m.load s.table.dirIno (s.tx.status = .S_CREATED) = .ok d
  sIno : s.tx.sIno = s.table.dirIno
  exists_ : s.tx.status ≠ .S_DELETED
  nameOk : ∀ e ∈ s.tx.dentries.entries, Dentry.NameOk e.1
  files : ∀ n c, s.table.child n = some c → IsFile c.inode →
    FileRecorded m s.tx.fInodes c.inode
  wellFormed : ∀ n c, s.table.child n = some c → c.inode.WellFormed
  live : ∀ u i, s.tx.fInodes.lookup u = some (some i) → i.ino = u ∧ u ≠ s.table.dirIno
  apart : Lacks s.table.listed s.table.dirIno
  selfDir : IsDirectory s.table.thisDirInode

structure Mirrors (m : Stored) (d : Dentry) (s : Led) : Prop where
  recorded : Recorded m d s
  self : SelfRecorded m s

/-! ## The directory's own inode -/

section

variable {m : Stored} {d : Dentry} {s : Led} {name : Bytes} {i : MemInode} {ino : Uuid}

theorem SelfCopied.touched (h : SelfCopied s) : SelfTouched s := by
  unfold SelfTouched Transaction.touchSelf
  split
  · rename_i i hi
    rw [h i hi]
    rfl
  · rfl

theorem SelfCopied.touched_withTimes (h : SelfCopied s) (ts : Timespec) :
    SelfTouched (s.withTimes ts) := by
  unfold SelfTouched Transaction.touchSelf
  rw [Led.tx_withTimes]
  split
  · rename_i i hi
    rw [h i hi]
    rfl
  · rfl

theorem SelfRecorded.copied (h : SelfRecorded m s) : SelfCopied s := by
  intro i hi
  unfold SelfRecorded at h
  rw [hi] at h
  exact h

theorem SelfRecorded.touched (h : SelfRecorded m s) : SelfTouched s := h.copied.touched

theorem SelfRecorded.touched_withTimes (h : SelfRecorded m s) (ts : Timespec) :
    SelfTouched (s.withTimes ts) := h.copied.touched_withTimes ts

/-- Any entry touches the directory. -/
theorem SelfTouched.entry (h : SelfTouched s) {led : Led} {tx : Transaction}
    (hled : led.table.thisDirInode = s.table.thisDirInode) {alive : Bool}
    (htx : tx.sInode = (s.tx.withEntry s.table.thisDirInode name alive ino).sInode) :
    SelfRecorded m (led.withTx tx) := by
  have hself : tx.sInode = some s.table.thisDirInode.copy := by
    rw [htx, Transaction.withEntry_sInode]
    exact h
  unfold SelfRecorded
  rw [Led.tx_withTx, hself, Led.table_withTx, hled]

theorem SelfTouched.inserted (h : SelfTouched s) : SelfRecorded m (s.inserted name i) :=
  h.entry Led.thisDirInode_created rfl

theorem SelfTouched.insertedDir (h : SelfTouched s) : SelfRecorded m (s.insertedDir name i) :=
  h.entry Led.thisDirInode_created rfl

theorem SelfTouched.removed (h : SelfTouched s) : SelfRecorded m (s.removed name ino) :=
  h.entry Led.thisDirInode_deleted rfl

theorem SelfTouched.removedDir (h : SelfTouched s) : SelfRecorded m (s.removedDir name ino) :=
  h.entry Led.thisDirInode_deleted rfl

/-! ## Names -/

theorem insert_nameOk {dentries : AList (fun _ : Bytes => Bool × Uuid)} {e : Bool × Uuid}
    (h : ∀ e ∈ dentries.entries, Dentry.NameOk e.1) (hname : Dentry.NameOk name) :
    ∀ e' ∈ (dentries.insert name e).entries, Dentry.NameOk e'.1 := by
  intro e' he'
  rw [AList.entries_insert] at he'
  rcases List.mem_cons.mp he' with rfl | hold
  · exact hname
  · exact h e' ((List.kerase_sublist name dentries.entries).subset hold)

theorem FileRecorded.congr {fInodes fInodes' : AList (fun _ : Uuid => Option Inode)} {f : Inode}
    (h : FileRecorded m fInodes f) (hl : fInodes'.lookup f.ino = fInodes.lookup f.ino) :
    FileRecorded m fInodes' f := by
  unfold FileRecorded at h ⊢
  rw [hl]
  exact h

theorem fileRecorded_insert (fInodes : AList (fun _ : Uuid => Option Inode)) (f : Inode) :
    FileRecorded m (fInodes.insert f.ino (some f.copy)) f := by
  unfold FileRecorded
  rw [AList.lookup_insert]

/-- An entry in the transaction, with the table and the files as they are to be. -/
theorem Recorded.entered (h : Recorded m d s) {led : Led} {self : Inode} {alive : Bool}
    {fInodes : AList (fun _ : Uuid => Option Inode)}
    (hnames : Names (led.withTx { s.tx.withEntry self name alive ino with fInodes })
      d.childList.lookup)
    (hdir : led.table.dirIno = s.table.dirIno)
    (hself : led.table.thisDirInode = s.table.thisDirInode) (hname : Dentry.NameOk name)
    (hfiles : ∀ n c, led.table.child n = some c → IsFile c.inode → FileRecorded m fInodes c.inode)
    (hw : ∀ n c, led.table.child n = some c → c.inode.WellFormed)
    (hlive : ∀ u j, fInodes.lookup u = some (some j) → j.ino = u ∧ u ≠ s.table.dirIno)
    (hapart : Lacks led.table.listed s.table.dirIno) :
    Recorded m d (led.withTx { s.tx.withEntry self name alive ino with fInodes }) := by
  refine ⟨hnames, ?_, ?_, ?_, ?_, ?_, ?_, ?_, ?_, ?_⟩
  · rw [Led.tx_withTx, Led.table_withTx, hdir]
    dsimp only
    rw [Transaction.withEntry_status]
    exact h.load
  · rw [Led.tx_withTx, Led.table_withTx, hdir]
    exact Transaction.withEntry_sIno.trans h.sIno
  · rw [Led.tx_withTx]
    dsimp only
    rw [Transaction.withEntry_status]
    exact h.exists_
  · rw [Led.tx_withTx]
    dsimp only
    rw [Transaction.withEntry_dentries]
    exact insert_nameOk h.nameOk hname
  · rw [Led.table_withTx, Led.tx_withTx]
    exact hfiles
  · rw [Led.table_withTx]
    exact hw
  · rw [Led.tx_withTx, Led.table_withTx, hdir]
    exact hlive
  · rw [Led.table_withTx, hdir]
    exact hapart
  · rw [Led.table_withTx, hself]
    exact h.selfDir

/-- A name is added, and what the transaction has of other files stays. -/
theorem Recorded.added (h : Recorded m d s) {fInodes : AList (fun _ : Uuid => Option Inode)}
    (hnames : Names ((s.created name i).withTx
      { s.tx.withEntry s.table.thisDirInode name true i.inode.ino with fInodes })
      d.childList.lookup)
    (hl : s.table.listed name = none) (hname : Dentry.NameOk name) (hw : i.inode.WellFormed)
    (hself : i.inode.ino ≠ s.table.dirIno) (hnew : Lacks s.table.listed i.inode.ino)
    (hfile : IsFile i.inode → FileRecorded m fInodes i.inode)
    (hkeep : ∀ u, u ≠ i.inode.ino → fInodes.lookup u = s.tx.fInodes.lookup u)
    (hlive : ∀ j, fInodes.lookup i.inode.ino = some (some j) → j.ino = i.inode.ino) :
    Recorded m d ((s.created name i).withTx
      { s.tx.withEntry s.table.thisDirInode name true i.inode.ino with fInodes }) := by
  have hchild : (s.created name i).table.child =
      Function.update s.table.child name (some i) :=
    DentryTable.child_create (h.names.child_none hl)
  have hlist : (s.created name i).table.listed =
      Function.update s.table.listed name (some i.inode.ino) :=
    DentryTable.listed_create (h.names.child_none hl)
  refine h.entered hnames DentryTable.dirIno_create Led.thisDirInode_created hname ?_ ?_ ?_ ?_
  · intro n c hn hf
    rw [hchild] at hn
    rcases update_eq_some hn with ⟨-, hc⟩ | ⟨-, hn⟩
    · cases hc
      exact hfile hf
    · refine (h.files n c hn hf).congr (hkeep _ ?_)
      intro heq
      exact hnew n ((h.names.listed_of_child hn).trans (congrArg some heq))
  · intro n c hn
    rw [hchild] at hn
    rcases update_eq_some hn with ⟨-, hc⟩ | ⟨-, hn⟩
    · cases hc
      exact hw
    · exact h.wellFormed n c hn
  · intro u j hu
    by_cases hui : u = i.inode.ino
    · subst hui
      exact ⟨hlive j hu, hself⟩
    · rw [hkeep u hui] at hu
      exact h.live u j hu
  · rw [hlist]
    intro n hn
    rcases update_eq_some hn with ⟨-, hu⟩ | ⟨-, hn⟩
    · exact hself (Option.some.inj hu)
    · exact h.apart n hn

/-- A name is removed, and what the transaction has of other files stays. -/
theorem Recorded.taken (h : Recorded m d s) {fInodes : AList (fun _ : Uuid => Option Inode)}
    (hnames : Names ((s.deleted name).withTx
      { s.tx.withEntry s.table.thisDirInode name false ino with fInodes }) d.childList.lookup)
    (hl : s.table.listed name = some ino) (hname : Dentry.NameOk name)
    (hkeep : ∀ u, u ≠ ino → fInodes.lookup u = s.tx.fInodes.lookup u)
    (hlive : ∀ j, fInodes.lookup ino = some (some j) → s.tx.fInodes.lookup ino = some (some j)) :
    Recorded m d ((s.deleted name).withTx
      { s.tx.withEntry s.table.thisDirInode name false ino with fInodes }) := by
  obtain ⟨c, hc, -⟩ : ∃ c, s.table.child name = some c ∧ c.inode.ino = ino := by
    rw [h.names.sound] at hl
    exact Option.map_eq_some_iff.mp hl
  have hchild : (s.deleted name).table.child = Function.update s.table.child name none :=
    DentryTable.child_delete
  have hlist : (s.deleted name).table.listed = Function.update s.table.listed name none :=
    DentryTable.listed_delete hc
  refine h.entered hnames DentryTable.dirIno_delete Led.thisDirInode_deleted hname ?_ ?_ ?_ ?_
  · intro n c hn hf
    rw [hchild] at hn
    obtain ⟨hne, hn⟩ := update_none_eq_some hn
    refine (h.files n c hn hf).congr (hkeep _ ?_)
    intro heq
    exact hne (h.names.distinct n name ino
      ((h.names.listed_of_child hn).trans (congrArg some heq)) hl)
  · intro n c hn
    rw [hchild] at hn
    exact h.wellFormed n c (update_none_eq_some hn).2
  · intro u j hu
    by_cases hui : u = ino
    · subst hui
      exact h.live u j (hlive j hu)
    · rw [hkeep u hui] at hu
      exact h.live u j hu
  · rw [hlist]
    exact h.apart.erase

/-- A listed name is stored, or in the transaction. -/
theorem Recorded.nameOk_listed (h : Recorded m d s) {u : Uuid} (hl : s.table.listed name = some u) :
    Dentry.NameOk name := by
  rw [← h.names.listed] at hl
  unfold overlay at hl
  split at hl
  · obtain ⟨hnames, -⟩ := load_ok h.load
    exact hnames ⟨name, u⟩ (AList.mem_lookup_iff.mp hl)
  · rename_i ino htx
    exact h.nameOk ⟨name, (true, ino)⟩ (AList.mem_lookup_iff.mp htx)
  · cases hl

/-- What a new child must have. -/
structure NewChild (s : Led) (name : Bytes) (i : MemInode) : Prop where
  absent : s.table.listed name = none
  nameOk : Dentry.NameOk name
  notNil : i.inode.ino ≠ Uuid.nil
  notSelf : i.inode.ino ≠ s.table.dirIno
  unlisted : Lacks s.table.listed i.inode.ino
  parent : i.pIno = s.table.dirIno
  wellFormed : i.inode.WellFormed

theorem NewChild.withTimes (h : NewChild s name i) (ts : Timespec) :
    NewChild (s.withTimes ts) name i :=
  ⟨h.absent, h.nameOk, h.notNil, h.notSelf, h.unlisted, h.parent, h.wellFormed⟩

theorem Recorded.inserted (h : Recorded m d s) (hi : NewChild s name i) :
    Recorded m d (s.inserted name i) := by
  have hnames := h.names.inserted hi.absent hi.notNil hi.unlisted hi.parent
  unfold Led.inserted Transaction.withFile at hnames ⊢
  rw [Transaction.withEntry_fInodes] at hnames ⊢
  refine h.added hnames hi.absent hi.nameOk hi.wellFormed hi.notSelf hi.unlisted
    (fun _ => fileRecorded_insert _ _) (fun u hu => AList.lookup_insert_ne hu) ?_
  intro j hj
  rw [AList.lookup_insert] at hj
  cases hj
  rfl

theorem Recorded.insertedDir (h : Recorded m d s) (hi : NewChild s name i)
    (hdir : ¬ IsFile i.inode) (hunknown : s.tx.fInodes.lookup i.inode.ino = none) :
    Recorded m d (s.insertedDir name i) := by
  have hnames := h.names.insertedDir hi.absent hi.notNil hi.unlisted hi.parent
    (by rw [hunknown]; exact fun h => (nomatch h))
  have hadd := @Recorded.added m d s name i h s.tx.fInodes
  rw [← @Transaction.withEntry_fInodes s.tx s.table.thisDirInode name i.inode.ino true] at hadd
  refine hadd hnames hi.absent hi.nameOk hi.wellFormed hi.notSelf hi.unlisted
    (fun hf => absurd hf hdir) ?_ ?_
  · intro u _
    rw [Transaction.withEntry_fInodes]
  · intro j hj
    rw [Transaction.withEntry_fInodes, hunknown] at hj
    cases hj

theorem Recorded.removed (h : Recorded m d s) (hl : s.table.listed name = some ino)
    (hname : Dentry.NameOk name) : Recorded m d (s.removed name ino) := by
  have hnames := h.names.removed hl
  unfold Led.removed Transaction.withFile at hnames ⊢
  rw [Transaction.withEntry_fInodes] at hnames ⊢
  refine h.taken hnames hl hname (fun u hu => AList.lookup_insert_ne hu) ?_
  intro j hj
  rw [AList.lookup_insert] at hj
  cases hj

theorem Recorded.removedDir (h : Recorded m d s) (hl : s.table.listed name = some ino)
    (hname : Dentry.NameOk name) : Recorded m d (s.removedDir name ino) := by
  have hnames := h.names.removedDir hl
  have htaken := @Recorded.taken m d s name ino h s.tx.fInodes
  rw [← @Transaction.withEntry_fInodes s.tx s.table.thisDirInode name ino false] at htaken
  exact htaken hnames hl hname (fun _ _ => rfl) fun _ hj => hj

theorem Recorded.withTimes (h : Recorded m d s) (ts : Timespec) : Recorded m d (s.withTimes ts) :=
  ⟨h.names.withTimes ts, h.load, h.sIno, h.exists_, h.nameOk, h.files, h.wellFormed, h.live,
    h.apart, h.selfDir⟩

theorem Mirrors.withData (h : Mirrors m d s) (dataPool : Pool) :
    Mirrors m d { s with dataPool } :=
  ⟨⟨⟨h.recorded.names.self, h.recorded.names.uncommitted, h.recorded.names.sound,
    h.recorded.names.listed, h.recorded.names.distinct, h.recorded.names.live,
    h.recorded.names.notNil, h.recorded.names.parent⟩, h.recorded.load, h.recorded.sIno,
    h.recorded.exists_, h.recorded.nameOk, h.recorded.files, h.recorded.wellFormed,
    h.recorded.live, h.recorded.apart, h.recorded.selfDir⟩, h.self⟩

/-- A setter of a child's inode, before the journal hears of it. -/
theorem Recorded.withChild (h : Recorded m d s) {f : Inode} (hw : f.WellFormed)
    (hfile : FileRecorded m s.tx.fInodes f ∨ ¬ IsFile f) :
    Recorded m d (s.withChild name f) := by
  have hdir : (s.withChild name f).table.dirIno = s.table.dirIno := DentryTable.dirIno_setChild
  have hlist : (s.withChild name f).table.listed = s.table.listed := DentryTable.listed_setChild
  refine ⟨h.names.withChild name f, ?_, ?_, ?_, ?_, ?_, ?_, ?_, ?_, ?_⟩
  · rw [Led.tx_withChild, hdir]
    exact h.load
  · rw [Led.tx_withChild, hdir]
    exact h.sIno
  · rw [Led.tx_withChild]
    exact h.exists_
  · rw [Led.tx_withChild]
    exact h.nameOk
  · intro n c hc hf
    rw [Led.tx_withChild]
    obtain ⟨c', hc', rfl⟩ :=
      Option.map_eq_some_iff.mp ((DentryTable.child_setChild n).symm.trans hc)
    split
    · rename_i hn
      rw [if_pos hn] at hf
      rcases hfile with hfile | hd
      · exact hfile
      · exact absurd hf hd
    · rename_i hn
      rw [if_neg hn] at hf
      exact h.files n c' hc' hf
  · intro n c hc
    obtain ⟨c', hc', rfl⟩ :=
      Option.map_eq_some_iff.mp ((DentryTable.child_setChild n).symm.trans hc)
    split
    · exact hw
    · exact h.wellFormed n c' hc'
  · rw [Led.tx_withChild, hdir]
    exact h.live
  · rw [hlist, hdir]
    exact h.apart
  · rw [Led.thisDirInode_withChild]
    exact h.selfDir

theorem Recorded.started (h : Recorded m d s) {f : Inode} (hf : f.ino ≠ s.table.dirIno) :
    Recorded m d (s.started f) := by
  have htx := h.names.tx_started hf
  refine ⟨h.names.started hf, ?_, ?_, ?_, ?_, ?_, h.wellFormed, ?_, h.apart, h.selfDir⟩
  · rw [htx]
    exact h.load
  · rw [htx]
    exact h.sIno
  · rw [htx]
    exact h.exists_
  · rw [htx]
    exact h.nameOk
  · rw [htx]
    exact h.files
  · rw [htx]
    exact h.live

theorem SelfRecorded.congr {led : Led} (h : SelfRecorded m s) (htx : led.tx.sInode = s.tx.sInode)
    (hself : led.table.thisDirInode = s.table.thisDirInode)
    (hdir : led.table.dirIno = s.table.dirIno) : SelfRecorded m led := by
  unfold SelfRecorded at h ⊢
  rw [htx, hself, hdir]
  exact h

/-- A file is changed, in memory and in the transaction. -/
theorem Mirrors.rewritten (h : Mirrors m d s) {c : MemInode} (hc : s.table.child name = some c)
    {f : Inode} (hf : f.ino = c.inode.ino) (hw : f.WellFormed) :
    Mirrors m d ((s.withChild name f).changed s.table.dirIno f) := by
  have hr := h.recorded
  have hdir : (s.withChild name f).table.dirIno = s.table.dirIno := DentryTable.dirIno_setChild
  have hlist : (s.withChild name f).table.listed = s.table.listed := DentryTable.listed_setChild
  have hset := hr.names.withChild name f
  have htx := hset.tx_changed f
  have hnames := hset.changed f
  rw [hdir] at htx hnames
  rw [Led.tx_withChild] at htx
  have hl := hr.names.listed_of_child hc
  constructor
  · refine ⟨hnames, ?_, ?_, ?_, ?_, ?_, ?_, ?_, ?_, ?_⟩
    · rw [htx]
      show m.load (s.withChild name f).table.dirIno _ = _
      rw [hdir]
      exact hr.load
    · rw [htx]
      show s.tx.sIno = (s.withChild name f).table.dirIno
      rw [hdir]
      exact hr.sIno
    · rw [htx]
      exact hr.exists_
    · rw [htx]
      exact hr.nameOk
    · intro n c' hc' hfile
      rw [htx]
      show FileRecorded m (s.tx.fInodes.insert f.ino (some f.copy)) _
      obtain ⟨b, hb, rfl⟩ :=
        Option.map_eq_some_iff.mp ((DentryTable.child_setChild n).symm.trans hc')
      split
      · exact fileRecorded_insert _ _
      · rename_i hn
        rw [if_neg hn] at hfile
        refine (hr.files n b hb hfile).congr (AList.lookup_insert_ne ?_)
        intro heq
        refine hn ⟨hr.names.distinct n name c.inode.ino ?_ hl, heq⟩
        exact (hr.names.listed_of_child hb).trans (congrArg some (heq.trans hf))
    · intro n c' hc'
      obtain ⟨b, hb, rfl⟩ :=
        Option.map_eq_some_iff.mp ((DentryTable.child_setChild n).symm.trans hc')
      split
      · exact hw
      · exact hr.wellFormed n b hb
    · intro u j hu
      rw [htx] at hu
      show j.ino = u ∧ u ≠ (s.withChild name f).table.dirIno
      rw [hdir]
      by_cases huf : u = f.ino
      · subst huf
        rw [show (s.tx.withFile f.ino (some f.copy)).fInodes.lookup f.ino = some (some f.copy) from
          AList.lookup_insert _] at hu
        cases hu
        refine ⟨rfl, ?_⟩
        intro heq
        exact hr.apart name (hl.trans (congrArg some (hf.symm.trans heq)))
      · rw [show (s.tx.withFile f.ino (some f.copy)).fInodes.lookup u = s.tx.fInodes.lookup u from
          AList.lookup_insert_ne huf] at hu
        exact hr.live u j hu
    · show Lacks (s.withChild name f).table.listed (s.withChild name f).table.dirIno
      rw [hlist, hdir]
      exact hr.apart
    · show IsDirectory (s.withChild name f).table.thisDirInode
      rw [Led.thisDirInode_withChild]
      exact hr.selfDir
  · apply h.self.congr
    · rw [htx]
      rfl
    · exact Led.thisDirInode_withChild
    · exact hdir

/-- The directory's own inode is changed, in memory and in the transaction. -/
theorem Mirrors.rewrittenSelf (h : Mirrors m d s) {f : Inode} (hf : f.ino = s.table.dirIno)
    (hdir : IsDirectory f) :
    Mirrors m d ⟨{ s.table with thisDirInode := f }, (s.jtable.record f.ino (.chself f)).2,
      s.dataPool⟩ := by
  have hr := h.recorded
  have htx : Led.tx ⟨{ s.table with thisDirInode := f },
      (s.jtable.record f.ino (.chself f)).2, s.dataPool⟩ = { s.tx with sInode := some f.copy } := by
    have hchself : s.tx.chself f = _ := Transaction.chself_eq hr.names.uncommitted
    unfold Led.tx at hchself ⊢
    rw [hr.names.self] at hchself ⊢
    rw [hf, JournalTable.getEntry_record]
    show (Transaction.chself _ f).2 = _
    rw [hchself]
  refine ⟨⟨⟨hf, ?_, hr.names.sound, ?_, hr.names.distinct, ?_, hr.names.notNil, hr.names.parent⟩,
    ?_, ?_, ?_, ?_, ?_, hr.wellFormed, ?_, hr.apart, hdir⟩, ?_⟩
  · rw [htx]
    exact hr.names.uncommitted
  · rw [htx]
    exact hr.names.listed
  · rw [htx]
    exact hr.names.live
  · rw [htx]
    exact hr.load
  · rw [htx]
    exact hr.sIno
  · rw [htx]
    exact hr.exists_
  · rw [htx]
    exact hr.nameOk
  · rw [htx]
    exact hr.files
  · rw [htx]
    exact hr.live
  · unfold SelfRecorded
    rw [htx]

end

/-! ## A commit -/

section

/-- What `sync` of an existing directory's transaction writes. -/
theorem sync_written {m : Stored} {tx : Transaction} {d : Dentry} (hs : tx.status ≠ .S_DELETED)
    (hload : m.load tx.sIno (tx.status = .S_CREATED) = .ok d)
    (hself : ∀ i, tx.sInode = some i → i.ino = tx.sIno)
    (hlive : ∀ u i, tx.fInodes.lookup u = some (some i) → i.ino = u) :
    ∃ m', m.sync tx = .ok m' ∧
      m'.dentry = some (overwrite 0 (m.dentry.getD []) 0
        (Transaction.applyDentries tx.dentries.entries d).serialize) ∧
      (∀ u i, tx.fInodes.lookup u = some (some i) →
        ∃ old, m'.inodes u = overwrite 0 old 0 i.serialize) ∧
      (∀ u, (tx.fInodes.lookup u).join = none → u ≠ tx.sIno → m'.inodes u = m.inodes u) ∧
      ((tx.fInodes.lookup tx.sIno).join = none → m'.inodes tx.sIno =
        match tx.sInode with
        | none => m.inodes tx.sIno
        | some i => overwrite 0 (m.inodes tx.sIno) 0 i.serialize) := by
  generalize hm : (tx.sInode.map m.write).getD m = m₁
  have hdentry : m₁.dentry = m.dentry := by
    rw [← hm]
    cases tx.sInode <;> rfl
  have hload₁ : m₁.load tx.sIno (tx.status = .S_CREATED) = .ok d := by
    unfold Stored.load at hload ⊢
    rw [hdentry]
    exact hload
  have hinodes : ∀ u, ((m₁.writeDentry (Transaction.applyDentries tx.dentries.entries d)).writeFiles
      tx.fInodes.entries).inodes u = match (tx.fInodes.lookup u).join with
        | none => m₁.inodes u
        | some i => overwrite 0 (m₁.inodes u) 0 i.serialize := by
    apply writeFiles_inodes _ _ tx.fInodes.nodupKeys
    intro u i hi
    exact hlive u i (AList.mem_lookup_iff.mpr hi)
  refine ⟨(m₁.writeDentry (Transaction.applyDentries tx.dentries.entries d)).writeFiles
    tx.fInodes.entries, ?_, ?_, ?_, ?_, ?_⟩
  · unfold Stored.sync
    rw [if_neg hs]
    dsimp only
    rw [hm, hload₁]
  · rw [writeFiles_dentry, ← hdentry]
    rfl
  · intro u i hi
    rw [hinodes, hi]
    exact ⟨_, rfl⟩
  · intro u hu hne
    rw [hinodes, hu, ← hm]
    cases hi : tx.sInode with
    | none => rfl
    | some i =>
        apply Function.update_of_ne
        rw [hself i hi]
        exact hne
  · intro hu
    rw [hinodes, hu, ← hm]
    cases hi : tx.sInode with
    | none => rfl
    | some i =>
        have hino := hself i hi
        show (Function.update m.inodes i.ino _) tx.sIno = _
        rw [← hino, Function.update_self]

variable {m : Stored} {d : Dentry} {s : Led}

/-- What is left of the pending transaction after a commit. -/
def committed (s : Led) : Led :=
  { s with jtable := s.jtable.erase s.table.thisDirInode.ino }

theorem tx_committed (s : Led) : (committed s).tx = Transaction.new s.table.thisDirInode.ino :=
  JournalTable.getEntry_erase _ _

theorem childNum_le_serialize (d : Dentry) : d.getChildNum ≤ d.serialize.length := by
  unfold Dentry.serialize Dentry.getChildNum
  rw [List.length_append]
  have hall := length_le_flatMap (f := Dentry.childBytes)
    (fun e => by rw [Dentry.childBytes_length]; omega) d.childList.entries
  omega

/-- The children that a checkpoint writes read back as the children in memory. -/
theorem Recorded.children_written (h : Recorded m d s)
    (hfit : s.table.dentries.serialize.length ≤ Dentry.MAX_DENTRY_OBJ_SIZE) {m' : Stored}
    {old : Bytes} (hm' : m'.dentry = some (overwrite 0 old 0
      (Transaction.applyDentries s.tx.dentries.entries d).serialize)) :
    ∃ d', m'.load s.table.dirIno false = .ok d' ∧ d'.childList.lookup = s.table.listed := by
  obtain ⟨hnames, -⟩ := load_ok h.load
  have hlookup : (Transaction.applyDentries s.tx.dentries.entries d).childList.lookup =
      s.table.dentries.childList.lookup := by
    rw [applyDentries_lookup]
    exact h.names.listed
  have hlen := Journal.serialize_length_of_lookup hlookup
  have hino : (Transaction.applyDentries s.tx.dentries.entries d).thisIno = s.table.dirIno :=
    (applyDentries_thisIno _ _).trans (load_thisIno h.load)
  have hcount := childNum_le_serialize (Transaction.applyDentries s.tx.dentries.entries d)
  have hsize : Dentry.MAX_DENTRY_OBJ_SIZE < 2 ^ 64 := by
    show RadosIo.objSize < _
    rw [RadosIo.objSize_eq]
    decide
  have hchildren := Journal.children_written hm' (applyDentries_nameOk _ d h.nameOk hnames) (by omega)
  rw [if_pos (by omega), hino] at hchildren
  obtain ⟨d', hd', hl'⟩ := Journal.load_of_children hchildren
  exact ⟨d', hd', hl'.trans hlookup⟩

/-- The pool once the pending transaction is checkpointed too. -/
theorem Mirrors.commit (h : Mirrors m d s)
    (hfit : s.table.dentries.serialize.length ≤ Dentry.MAX_DENTRY_OBJ_SIZE) :
    ∃ m' d', m.sync s.tx = .ok m' ∧ Mirrors m' d' (committed s) := by
  have hr := h.recorded
  have hdir : s.table.thisDirInode.ino = s.table.dirIno := hr.names.self
  have hnolive : (s.tx.fInodes.lookup s.table.dirIno).join = none := by
    cases hj : (s.tx.fInodes.lookup s.table.dirIno).join with
    | none => rfl
    | some j => exact absurd rfl (hr.live _ j (Option.join_eq_some_iff.mp hj)).2
  obtain ⟨m', hsync, hdentry, hfiles, hkeep, hself⟩ := @sync_written m s.tx d hr.exists_
    (by rw [hr.sIno]; exact hr.load)
    (by
      intro i hi
      have hs := h.self
      unfold SelfRecorded at hs
      rw [hi] at hs
      rw [hr.sIno, hs]
      exact hdir)
    (fun u i hu => (hr.live u i hu).1)
  obtain ⟨d', hload', hl'⟩ := hr.children_written hfit hdentry
  have htx := tx_committed s
  refine ⟨m', d', hsync, ⟨?_, ?_, ?_, ?_, ?_, ?_, hr.wellFormed, ?_, hr.apart, hr.selfDir⟩, ?_⟩
  · have hnames := Creation.names_commit hr.names
    rw [hr.names.listed, ← hl'] at hnames
    exact hnames
  · rw [htx]
    exact hload'
  · rw [htx]
    exact hdir
  · rw [htx]
    exact fun hc => (nomatch hc)
  · rw [htx]
    exact fun e he => (nomatch he)
  · intro n c hc hf
    rw [htx]
    show Inode.Spells (m'.inodes c.inode.ino) c.inode
    have hrec := hr.files n c hc hf
    have hne : c.inode.ino ≠ s.tx.sIno := by
      rw [hr.sIno]
      intro heq
      exact hr.apart n ((hr.names.listed_of_child hc).trans (congrArg some heq))
    unfold FileRecorded at hrec
    split at hrec
    · rename_i hn
      rw [hkeep _ (by rw [hn]; rfl) hne]
      exact hrec
    · exact hrec.elim
    · rename_i j hj
      obtain ⟨old, hold⟩ := hfiles _ j hj
      rw [hold, hrec, Inode.serialize_copy]
      exact Inode.spells_overwrite old c.inode
  · intro u i hu
    rw [htx] at hu
    cases hu
  · unfold SelfRecorded
    rw [htx]
    show Inode.Spells (m'.inodes s.table.dirIno) s.table.thisDirInode
    have hs := h.self
    rw [hr.sIno] at hself
    rw [hself hnolive]
    unfold SelfRecorded at hs
    split at hs
    · exact hs
    · rw [hs, Inode.serialize_copy]
      exact Inode.spells_overwrite _ _

end

end Mirror

end Nmfs
