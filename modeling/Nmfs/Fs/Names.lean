import Nmfs.Fs.DirectoryOps
import Nmfs.Journal.Sync
import Nmfs.Lib.PartialMap

/-
  The names of a directory at its leader: what its table and its pending transaction have to do with
  each other, and that the changes of a section keep it.
-/

namespace Nmfs

open Lib

/-- The names of the table are those of `base`, overlaid with the transaction, and the transaction
    will take what the table is ready for. -/
structure Names (s : Led) (base : Bytes → Option Uuid) : Prop where
  self : s.table.thisDirInode.ino = s.table.dirIno
  uncommitted : s.tx.committed = false
  sound : s.table.Sound
  listed : overlay s.tx.dentries base = s.table.listed
  distinct : Distinct s.table.listed
  live : ∀ n u, s.table.listed n = some u → s.tx.fInodes.lookup u ≠ some none
  notNil : ∀ n u, s.table.listed n = some u → u ≠ Uuid.nil
  parent : ∀ n c, s.table.child n = some c → c.pIno = s.table.dirIno

namespace Names

variable {s s' : Led} {base : Bytes → Option Uuid} {name : Bytes} {i : MemInode} {ino : Uuid}

theorem listed_of_child (h : Names s base) {c : MemInode} (hc : s.table.child name = some c) :
    s.table.listed name = some c.inode.ino := by
  rw [h.sound, hc]
  rfl

theorem child_none (h : Names s base) (hl : s.table.listed name = none) :
    s.table.child name = none := by
  rw [h.sound] at hl
  exact Option.map_eq_none_iff.mp hl

theorem listed_none (h : Names s base) (hc : s.table.child name = none) :
    s.table.listed name = none := by
  rw [h.sound, hc]
  rfl

theorem listed_of_check (h : Names s base) (hc : s.table.checkChildInode name = Uuid.nil) :
    s.table.listed name = none := by
  unfold DentryTable.checkChildInode at hc
  split at hc
  · exact absurd hc (by decide)
  · cases hl : s.table.listed name with
    | none => rfl
    | some u =>
        refine absurd ?_ (h.notNil name u hl)
        unfold Dentry.getChildIno at hc
        rw [show s.table.dentries.childList.lookup name = some u from hl] at hc
        exact hc

theorem turns_new (h : Names s base) (hl : s.table.listed name = none) :
    s.tx.Turns name true := by
  intro u hu
  rw [← h.listed] at hl
  unfold overlay at hl
  rw [hu] at hl
  cases hl

theorem turns_removal (h : Names s base) (hl : s.table.listed name = some ino) :
    s.tx.Turns name false := by
  intro u hu
  rw [← h.listed] at hl
  unfold overlay at hl
  rw [hu] at hl
  cases hl

theorem takesNew (h : Names s base) (hl : s.table.listed name = none)
    (hf : ∀ g, s.tx.fInodes.lookup ino ≠ some (some g)) : s.tx.TakesNew name ino :=
  ⟨h.uncommitted, h.turns_new hl, hf⟩

theorem takesRemoval (h : Names s base) (hl : s.table.listed name = some ino) :
    s.tx.TakesRemoval name ino :=
  ⟨h.uncommitted, h.turns_removal hl, h.live name ino hl⟩

/-- A name is added to the table and to the transaction. -/
theorem added (h : Names s base) (fInodes : AList (fun _ : Uuid => Option Inode))
    (hl : s.table.listed name = none) (hi : i.inode.ino ≠ Uuid.nil)
    (hnew : Lacks s.table.listed i.inode.ino) (hp : i.pIno = s.table.dirIno)
    (hlive : fInodes.lookup i.inode.ino ≠ some none)
    (hkeep : ∀ u, u ≠ i.inode.ino → fInodes.lookup u = s.tx.fInodes.lookup u) :
    Names ((s.created name i).withTx { s.tx.withEntry s.table.thisDirInode name true i.inode.ino with
      fInodes }) base := by
  have hc := h.child_none hl
  have hlist : (s.created name i).table.listed =
      Function.update s.table.listed name (some i.inode.ino) := DentryTable.listed_create hc
  have hchild : (s.created name i).table.child =
      Function.update s.table.child name (some i) := DentryTable.child_create hc
  have hdir : (s.created name i).table.dirIno = s.table.dirIno := DentryTable.dirIno_create
  constructor
  · rw [Led.table_withTx, Led.thisDirInode_created, hdir]
    exact h.self
  · rw [Led.tx_withTx]
    exact Transaction.withEntry_committed.trans h.uncommitted
  · exact h.sound.create name i
  · rw [Led.tx_withTx, Led.table_withTx, hlist, ← h.listed]
    dsimp only
    rw [Transaction.withEntry_dentries, overlay_insert]
    rfl
  · rw [Led.table_withTx, hlist]
    exact h.distinct.insert hnew
  · intro n u hn
    rw [Led.tx_withTx]
    rw [Led.table_withTx, hlist] at hn
    by_cases hu : u = i.inode.ino
    · rw [hu]
      exact hlive
    · rcases update_eq_some hn with ⟨-, hu'⟩ | ⟨-, hn⟩
      · exact absurd (Option.some.inj hu').symm hu
      · dsimp only
        rw [hkeep u hu]
        exact h.live n u hn
  · intro n u hn
    rw [Led.table_withTx, hlist] at hn
    rcases update_eq_some hn with ⟨-, hu⟩ | ⟨-, hn⟩
    · cases hu
      exact hi
    · exact h.notNil n u hn
  · intro n c hn
    rw [Led.table_withTx, hchild] at hn
    rw [Led.table_withTx, hdir]
    rcases update_eq_some hn with ⟨-, hc⟩ | ⟨-, hn⟩
    · cases hc
      exact hp
    · exact h.parent n c hn

/-- A name is taken from the table and, in the transaction, removed. -/
theorem taken (h : Names s base) (fInodes : AList (fun _ : Uuid => Option Inode))
    (hl : s.table.listed name = some ino)
    (hkeep : ∀ u, u ≠ ino → fInodes.lookup u = s.tx.fInodes.lookup u) :
    Names ((s.deleted name).withTx { s.tx.withEntry s.table.thisDirInode name false ino with
      fInodes }) base := by
  obtain ⟨c, hc, -⟩ : ∃ c, s.table.child name = some c ∧ c.inode.ino = ino := by
    rw [h.sound] at hl
    exact Option.map_eq_some_iff.mp hl
  have hlist : (s.deleted name).table.listed = Function.update s.table.listed name none :=
    DentryTable.listed_delete hc
  have hchild : (s.deleted name).table.child = Function.update s.table.child name none :=
    DentryTable.child_delete
  have hdir : (s.deleted name).table.dirIno = s.table.dirIno := DentryTable.dirIno_delete
  constructor
  · rw [Led.table_withTx, Led.thisDirInode_deleted, hdir]
    exact h.self
  · rw [Led.tx_withTx]
    exact Transaction.withEntry_committed.trans h.uncommitted
  · exact h.sound.delete name
  · rw [Led.tx_withTx, Led.table_withTx, hlist, ← h.listed]
    dsimp only
    rw [Transaction.withEntry_dentries, overlay_insert]
    rfl
  · rw [Led.table_withTx, hlist]
    exact h.distinct.erase
  · intro n u hn
    rw [Led.tx_withTx]
    rw [Led.table_withTx, hlist] at hn
    dsimp only
    rw [hkeep u]
    · exact h.live n u (update_none_eq_some hn).2
    · rintro rfl
      exact h.distinct.lacks_erase hl n hn
  · intro n u hn
    rw [Led.table_withTx, hlist] at hn
    exact h.notNil n u (update_none_eq_some hn).2
  · intro n c hn
    rw [Led.table_withTx, hchild] at hn
    rw [Led.table_withTx, hdir]
    exact h.parent n c (update_none_eq_some hn).2

theorem inserted (h : Names s base) (hl : s.table.listed name = none)
    (hi : i.inode.ino ≠ Uuid.nil) (hnew : Lacks s.table.listed i.inode.ino)
    (hp : i.pIno = s.table.dirIno) : Names (s.inserted name i) base := by
  have hadd := h.added (s.tx.fInodes.insert i.inode.ino (some i.inode.copy)) hl hi hnew hp
    (by rw [AList.lookup_insert]; exact fun h => (nomatch h)) fun u hu => AList.lookup_insert_ne hu
  unfold Led.inserted Transaction.withFile
  rw [Transaction.withEntry_fInodes]
  exact hadd

theorem insertedDir (h : Names s base) (hl : s.table.listed name = none)
    (hi : i.inode.ino ≠ Uuid.nil) (hnew : Lacks s.table.listed i.inode.ino)
    (hp : i.pIno = s.table.dirIno) (hlive : s.tx.fInodes.lookup i.inode.ino ≠ some none) :
    Names (s.insertedDir name i) base := by
  have hadd := h.added s.tx.fInodes hl hi hnew hp hlive fun u _ => rfl
  rw [← @Transaction.withEntry_fInodes s.tx s.table.thisDirInode name i.inode.ino true] at hadd
  exact hadd

theorem removed (h : Names s base) (hl : s.table.listed name = some ino) :
    Names (s.removed name ino) base := by
  have htaken := h.taken (s.tx.fInodes.insert ino none) hl
    fun u hu => AList.lookup_insert_ne hu
  unfold Led.removed Transaction.withFile
  rw [Transaction.withEntry_fInodes]
  exact htaken

theorem removedDir (h : Names s base) (hl : s.table.listed name = some ino) :
    Names (s.removedDir name ino) base := by
  have htaken := h.taken s.tx.fInodes hl fun u _ => rfl
  rw [← @Transaction.withEntry_fInodes s.tx s.table.thisDirInode name ino false] at htaken
  exact htaken

theorem congr (h : Names s base) (ht : s'.table = s.table) (hx : s'.tx = s.tx) : Names s' base := by
  constructor
  · rw [ht]
    exact h.self
  · rw [hx]
    exact h.uncommitted
  · rw [ht]
    exact h.sound
  · rw [ht, hx]
    exact h.listed
  · rw [ht]
    exact h.distinct
  · rw [ht, hx]
    exact h.live
  · rw [ht]
    exact h.notNil
  · rw [ht]
    exact h.parent

theorem withTimes (h : Names s base) (ts : Timespec) : Names (s.withTimes ts) base :=
  ⟨h.self, h.uncommitted, h.sound, h.listed, h.distinct, h.live, h.notNil, h.parent⟩

theorem withoutData (h : Names s base) (ino : Uuid) : Names (s.withoutData ino) base :=
  ⟨h.self, h.uncommitted, h.sound, h.listed, h.distinct, h.live, h.notNil, h.parent⟩

theorem withChild (h : Names s base) (name : Bytes) (f : Inode) :
    Names (s.withChild name f) base := by
  have hlist : (s.withChild name f).table.listed = s.table.listed := DentryTable.listed_setChild
  have hdir : (s.withChild name f).table.dirIno = s.table.dirIno := DentryTable.dirIno_setChild
  refine ⟨?_, ?_, h.sound.setChild name f, ?_, ?_, ?_, ?_, ?_⟩
  · rw [Led.thisDirInode_withChild, hdir]
    exact h.self
  · rw [Led.tx_withChild]
    exact h.uncommitted
  · rw [Led.tx_withChild, hlist]
    exact h.listed
  · rw [hlist]
    exact h.distinct
  · rw [Led.tx_withChild, hlist]
    exact h.live
  · rw [hlist]
    exact h.notNil
  · intro n c hc
    rw [hdir]
    obtain ⟨c', hc', rfl⟩ := Option.map_eq_some_iff.mp ((DentryTable.child_setChild n).symm.trans hc)
    have hp := h.parent n c' hc'
    split <;> exact hp

theorem tx_changed (h : Names s base) (f : Inode) :
    (s.changed s.table.dirIno f).tx = s.tx.withFile f.ino (some f.copy) := by
  have hchreg : s.tx.chreg f = _ := Transaction.chreg_eq h.uncommitted
  unfold Led.tx at hchreg ⊢
  rw [h.self] at hchreg ⊢
  show JournalTable.getEntry (s.jtable.record s.table.dirIno (.chreg f)).2
    s.table.thisDirInode.ino = _
  rw [h.self, JournalTable.getEntry_record]
  show (Transaction.chreg _ f).2 = _
  rw [hchreg]

theorem changed (h : Names s base) (f : Inode) : Names (s.changed s.table.dirIno f) base := by
  have htx := h.tx_changed f
  refine ⟨h.self, ?_, h.sound, ?_, h.distinct, ?_, h.notNil, h.parent⟩
  · rw [htx]
    exact h.uncommitted
  · rw [htx]
    exact h.listed
  · intro n u hn
    rw [htx]
    show (s.tx.fInodes.insert f.ino _).lookup u ≠ _
    by_cases hu : u = f.ino
    · subst hu
      rw [AList.lookup_insert]
      exact fun h => (nomatch h)
    · rw [AList.lookup_insert_ne hu]
      exact h.live n u hn

theorem tx_started (h : Names s base) {f : Inode} (hf : f.ino ≠ s.table.dirIno) :
    (s.started f).tx = s.tx := by
  show JournalTable.getEntry (s.jtable.record f.ino (.mkself f)).2 s.table.thisDirInode.ino = _
  rw [JournalTable.getEntry_record_ne]
  · rfl
  · rw [h.self]
    exact Ne.symm hf

theorem started (h : Names s base) {f : Inode} (hf : f.ino ≠ s.table.dirIno) :
    Names (s.started f) base := by
  have htx := h.tx_started hf
  refine ⟨h.self, ?_, h.sound, ?_, h.distinct, ?_, h.notNil, h.parent⟩
  · rw [htx]
    exact h.uncommitted
  · rw [htx]
    exact h.listed
  · rw [htx]
    exact h.live

/-! ## How a client comes to lead a directory -/

/-- It has made the directory, and written it to the journal. -/
theorem of_new (self : Inode) (jtable : JournalTable) (dataPool : Pool)
    (hnew : JournalTable.getEntry jtable self.ino = Transaction.new self.ino) :
    Names ((Led.mk (.ofNew self) jtable dataPool).started self) fun _ => none := by
  have htx : ((Led.mk (.ofNew self) jtable dataPool).started self).tx =
      { Transaction.new self.ino with sInode := some self.copy, status := .S_CREATED } := by
    show JournalTable.getEntry (jtable.record self.ino (.mkself self)).2 self.ino = _
    rw [JournalTable.getEntry_record, hnew]
    rfl
  refine ⟨rfl, ?_, fun name => rfl, ?_, ?_, ?_, ?_, ?_⟩
  · rw [htx]
    rfl
  · rw [htx]
    rfl
  · exact fun n n' u hn => (nomatch hn)
  · exact fun n u hn => (nomatch hn)
  · exact fun n u hn => (nomatch hn)
  · exact fun n c hc => (nomatch hc)

/-- It has pulled the directory from a pool whose INODE objects have the inode numbers they are
    stored under, and nothing of it is in the journal. -/
theorem of_pulled {pool : Pool} {dir : Uuid} {t : DentryTable} (hp : DentryTable.Pulled pool dir t)
    {jtable : JournalTable} (dataPool : Pool)
    (hj : JournalTable.getEntry jtable dir = Transaction.new dir)
    (hself : t.thisDirInode.ino = dir) (hd : Distinct t.listed)
    (hino : ∀ n u i, t.listed n = some u → Inode.pull pool u = .ok i → i.ino = u ∧ u ≠ Uuid.nil) :
    Names ⟨t, jtable, dataPool⟩ t.listed := by
  have htx : (Led.mk t jtable dataPool).tx = Transaction.new dir := by
    show JournalTable.getEntry jtable t.thisDirInode.ino = _
    rw [hself, hj]
  refine ⟨hself.trans hp.dirIno.symm, ?_, ?_, ?_, hd, ?_, ?_, ?_⟩
  · rw [htx]
    rfl
  · intro name
    cases hl : t.listed name with
    | none =>
        rw [hp.absent name hl]
        rfl
    | some u =>
        obtain ⟨i, hpull, hc⟩ := hp.present name u hl
        rw [hc]
        exact congrArg some (hino name u i hl hpull).1.symm
  · rw [htx]
    rfl
  · intro n u _
    rw [htx]
    exact fun h => (nomatch h)
  · intro n u hl
    obtain ⟨i, hpull, -⟩ := hp.present n u hl
    exact (hino n u i hl hpull).2
  · intro n c hc
    show c.pIno = t.dirIno
    rw [hp.dirIno]
    cases hl : t.listed n with
    | none =>
        have hc' : t.child n = some c := hc
        rw [hp.absent n hl] at hc'
        cases hc'
    | some u =>
        obtain ⟨i, -, hc'⟩ := hp.present n u hl
        have hceq : t.child n = some c := hc
        rw [hc'] at hceq
        cases hceq
        rfl

end Names

end Nmfs
