import Nmfs.Fs.Creation
import Nmfs.Fs.Effects
import Nmfs.Lib.FileTree

/-
  The namespace as a file tree: the directories are the inodes that have a table. Where the tables
  and the pending transactions go together, what a section does to a directory is a change of its
  entries.
-/

namespace Nmfs

open Lib

namespace Led

variable {s : Led} {name : Bytes} {i : MemInode} {ino : Uuid}

theorem fInodes_inserted :
    (s.inserted name i).tx.fInodes = s.tx.fInodes.insert i.inode.ino (some i.inode.copy) := by
  unfold inserted
  rw [tx_withTx]
  unfold Transaction.withFile
  rw [Transaction.withEntry_fInodes]

theorem fInodes_insertedDir : (s.insertedDir name i).tx.fInodes = s.tx.fInodes := by
  unfold insertedDir
  rw [tx_withTx, Transaction.withEntry_fInodes]

theorem fInodes_removedDir : (s.removedDir name ino).tx.fInodes = s.tx.fInodes := by
  unfold removedDir
  rw [tx_withTx, Transaction.withEntry_fInodes]

end Led

namespace View

variable {v v' : View} {dir : Uuid} {led led' : Led} {names : Bytes → Option Uuid} {name : Bytes}
  {i : MemInode} {ino : Uuid}

def tree (v : View) : FileTree Uuid Bytes where
  entries := fun dir name => (v.tables dir).bind fun table => table.listed name
  isDir := fun dir => (v.tables dir).isSome

/-- A directory's inode has a directory's mode, and a file's inode has one link. -/
def Kind (v : View) (i : Inode) : Prop :=
  Inode.isDir i.core.iMode = v.tree.isDir i.ino ∧
    (v.tree.isDir i.ino = false → i.core.iNlink - 1 = 0)

/-- What the leader of a directory has of it. -/
def At (v : View) (dir : Uuid) (led : Led) : Prop :=
  v.tables dir = some led.table ∧ v.tx dir = led.tx

/-- A transaction of the directory has the file. -/
def Pending (v : View) (dir ino : Uuid) : Prop :=
  v.tree.isDir dir = true ∧ ∃ g, (v.tx dir).fInodes.lookup ino = some (some g)

structure Sound (v : View) : Prop where
  root : v.tree.isDir Uuid.rootIno = true
  forest : Namespace.Forest v.tree.entries Uuid.rootIno
  names : ∀ dir, v.tree.isDir dir = true →
    ∃ led base, v.At dir led ∧ led.table.dirIno = dir ∧ Names led base
  kinds : ∀ dir led name c, v.At dir led → led.table.child name = some c → v.Kind c.inode
  files : ∀ dir ino, v.Pending dir ino → ∀ d name, v.tree.entries d name = some ino → d = dir

theorem At.isDir (h : v.At dir led) : v.tree.isDir dir = true := by
  show (v.tables dir).isSome = true
  rw [h.1]
  rfl

theorem At.entries (h : v.At dir led) : v.tree.entries dir = led.table.listed := by
  funext name
  show (v.tables dir).bind _ = _
  rw [h.1]
  rfl

theorem at_set : (v.set dir led).At dir led :=
  ⟨Function.update_self .., Function.update_self ..⟩

theorem At.set_of_ne (h : v.At dir led) {d : Uuid} (hne : dir ≠ d) : (v.set d led').At dir led :=
  ⟨(Function.update_of_ne hne _ _).trans h.1, (Function.update_of_ne hne _ _).trans h.2⟩

theorem at_of_set_of_ne {d : Uuid} (hne : dir ≠ d) (h : (v.set d led').At dir led) :
    v.At dir led :=
  ⟨(Function.update_of_ne hne _ _).symm.trans h.1, (Function.update_of_ne hne _ _).symm.trans h.2⟩

theorem set_set : (v.set dir led).set dir led' = v.set dir led' := by
  unfold set
  rw [Function.update_idem, Function.update_idem]

theorem set_comm {d : Uuid} (h : dir ≠ d) :
    (v.set dir led).set d led' = (v.set d led').set dir led := by
  unfold set
  rw [Function.update_comm h.symm, Function.update_comm h.symm]

theorem isDir_set (h : v.tree.isDir dir = true) : (v.set dir led).tree.isDir = v.tree.isDir := by
  funext d
  show (Function.update v.tables dir (some led.table) d).isSome = (v.tables d).isSome
  by_cases hd : d = dir
  · subst hd
    rw [Function.update_self]
    exact h.symm
  · rw [Function.update_of_ne hd]

theorem entries_set :
    (v.set dir led).tree.entries = Function.update v.tree.entries dir led.table.listed := by
  funext d
  by_cases hd : d = dir
  · subst hd
    rw [Function.update_self]
    exact at_set.entries
  · rw [Function.update_of_ne hd]
    funext name
    exact congrArg (Option.bind · _) (Function.update_of_ne hd _ _)

/-- What the leader has is in step with itself. -/
theorem Sound.names_at (h : v.Sound) (hat : v.At dir led) :
    led.table.dirIno = dir ∧ ∃ base, Names led base := by
  obtain ⟨led', base, hat', hdir, hn⟩ := h.names dir hat.isDir
  have ht : led.table = led'.table := Option.some.inj (hat.1.symm.trans hat'.1)
  exact ⟨ht ▸ hdir, base, hn.congr ht (hat.2.symm.trans hat'.2)⟩

theorem Sound.self (h : v.Sound) (hat : v.At dir led) : led.table.thisDirInode.ino = dir := by
  obtain ⟨hdir, base, hn⟩ := h.names_at hat
  exact hn.self.trans hdir

/-- What a section makes of a directory. -/
structure Becomes (v : View) (dir : Uuid) (led : Led) : Prop where
  dirIno : led.table.dirIno = dir
  names : ∃ base, Names led base
  kinds : ∀ name c, led.table.child name = some c → v.Kind c.inode
  /-- a file that the transaction has is in the directory, or the transaction had it before -/
  files : ∀ ino g, led.tx.fInodes.lookup ino = some (some g) →
    (∃ name, led.table.listed name = some ino) ∨ v.Pending dir ino
  /-- and what is in the directory was there before, or no other one has it -/
  news : ∀ name ino, led.table.listed name = some ino →
    (∃ name, v.tree.entries dir name = some ino) ∨ ∀ d, d ≠ dir → ¬ v.Pending d ino

theorem Sound.set (h : v.Sound) (hdir : v.tree.isDir dir = true) (hb : v.Becomes dir led)
    (hf : Namespace.Forest (Function.update v.tree.entries dir led.table.listed) Uuid.rootIno) :
    (v.set dir led).Sound := by
  have hkind : ∀ i, (v.set dir led).Kind i ↔ v.Kind i := by
    intro i
    unfold Kind
    rw [isDir_set hdir]
  have hpending : ∀ d u, d ≠ dir → ((v.set dir led).Pending d u ↔ v.Pending d u) := by
    intro d u hd
    unfold Pending
    rw [isDir_set hdir, show (v.set dir led).tx d = v.tx d from Function.update_of_ne hd _ _]
  refine ⟨?_, ?_, fun d hd => ?_, fun d l n c hat hc => ?_, fun d u hpend e n he => ?_⟩
  · rw [isDir_set hdir]
    exact h.root
  · rw [entries_set]
    exact hf
  · by_cases hne : d = dir
    · subst hne
      obtain ⟨base, hn⟩ := hb.names
      exact ⟨led, base, at_set, hb.dirIno, hn⟩
    · rw [isDir_set hdir] at hd
      obtain ⟨led', base, hat, hself, hn⟩ := h.names d hd
      exact ⟨led', base, hat.set_of_ne hne, hself, hn⟩
  · rw [hkind]
    by_cases hne : d = dir
    · subst hne
      have ht : led.table = l.table := Option.some.inj (at_set.1.symm.trans hat.1)
      exact hb.kinds n c (ht ▸ hc)
    · exact h.kinds d l n c (at_of_set_of_ne hne hat) hc
  · have he' := he
    rw [entries_set] at he'
    by_cases hd : d = dir
    · subst hd
      obtain ⟨-, g, hg⟩ := hpend
      rw [show (v.set d led).tx d = led.tx from at_set.2] at hg
      rcases hb.files u g hg with ⟨k, hk⟩ | hold
      · have hk' : Function.update v.tree.entries d led.table.listed d k = some u := by
          rw [Function.update_self]
          exact hk
        exact (hf.unique _ _ _ _ _ hk' he').1.symm
      · by_contra hne
        rw [Function.update_of_ne hne] at he'
        exact hne (h.files d u hold e n he')
    · have hold := (hpending d u hd).mp hpend
      by_cases hne : e = dir
      · subst hne
        rw [Function.update_self] at he'
        rcases hb.news n u he' with ⟨k, hk⟩ | hno
        · exact h.files d u hold e k hk
        · exact absurd hold (hno d hd)
      · rw [Function.update_of_ne hne] at he'
        exact h.files d u hold e n he'

/-! ## Changes of one directory -/

theorem tree_set (hat : v.At dir led) : (v.set dir led').tree =
    { v.tree with entries := Function.update v.tree.entries dir led'.table.listed } :=
  FileTree.ext entries_set (isDir_set hat.isDir)

/-- The names are what they were, and so are the files of the transaction. -/
theorem Sound.keeps (h : v.Sound) (hat : v.At dir led) {base : Bytes → Option Uuid}
    (hn : Names led' base) (hdir : led'.table.dirIno = led.table.dirIno)
    (hl : led'.table.listed = led.table.listed) (hx : led'.tx.fInodes = led.tx.fInodes)
    (hk : ∀ name c, led'.table.child name = some c → v.Kind c.inode) :
    (v.set dir led').Sound ∧ (v.set dir led').tree = v.tree := by
  have he : Function.update v.tree.entries dir led'.table.listed = v.tree.entries := by
    rw [hl, ← hat.entries, Function.update_eq_self]
  constructor
  · apply h.set hat.isDir
    · refine ⟨hdir.trans (h.names_at hat).1, ⟨base, hn⟩, hk, fun u g hg => ?_, fun n u hu => ?_⟩
      · rw [hx, ← hat.2] at hg
        exact .inr ⟨hat.isDir, g, hg⟩
      · rw [hl, ← hat.entries] at hu
        exact .inl ⟨n, hu⟩
    · rw [he]
      exact h.forest
  · rw [tree_set hat, he]

theorem Sound.withTimes (h : v.Sound) (hat : v.At dir led) (ts : Timespec) :
    (v.set dir (led.withTimes ts)).Sound ∧ (v.set dir (led.withTimes ts)).tree = v.tree := by
  obtain ⟨-, base, hn⟩ := h.names_at hat
  exact h.keeps hat (hn.withTimes ts) rfl rfl (by rw [Led.tx_withTimes])
    fun name c hc => h.kinds dir led name c hat hc

/-- A child's inode is changed in what the tree does not look at. -/
theorem Sound.withChild (h : v.Sound) (hat : v.At dir led) {c : MemInode} {f : Inode}
    (hc : led.table.child name = some c) (hino : f.ino = c.inode.ino)
    (hmode : Inode.isDir f.core.iMode = Inode.isDir c.inode.core.iMode)
    (hlink : f.core.iNlink = c.inode.core.iNlink) :
    (v.set dir (led.withChild name f)).Sound ∧
      (v.set dir (led.withChild name f)).tree = v.tree := by
  obtain ⟨-, base, hn⟩ := h.names_at hat
  refine h.keeps hat (hn.withChild name f) DentryTable.dirIno_setChild DentryTable.listed_setChild
    (by rw [Led.tx_withChild]) fun n c' hc' => ?_
  obtain ⟨c₀, hc₀, rfl⟩ := Option.map_eq_some_iff.mp ((DentryTable.child_setChild n).symm.trans hc')
  split
  · rename_i heq
    obtain ⟨rfl, -⟩ := heq
    obtain ⟨hm, hl⟩ := h.kinds dir led n c hat hc
    unfold Kind
    rw [hino, hmode, hlink]
    exact ⟨hm, hl⟩
  · exact h.kinds dir led n c₀ hat hc₀

/-- A name is gone, and what the transaction has of its inode. -/
theorem Sound.taken (h : v.Sound) (hat : v.At dir led) {base : Bytes → Option Uuid}
    (hn : Names led' base) (hdir : led'.table.dirIno = led.table.dirIno)
    (hl : led'.table.listed = Function.update led.table.listed name none)
    (hc : led'.table.child = Function.update led.table.child name none)
    (hx : ∀ u g, led'.tx.fInodes.lookup u = some (some g) →
      led.tx.fInodes.lookup u = some (some g)) :
    (v.set dir led').Sound ∧ (v.set dir led').tree = v.tree.removed dir name := by
  have he : Function.update v.tree.entries dir led'.table.listed =
      Namespace.set v.tree.entries dir name none := by
    rw [hl, ← hat.entries, FuseOps.update_set]
  constructor
  · apply h.set hat.isDir
    · refine ⟨hdir.trans (h.names_at hat).1, ⟨base, hn⟩, fun n c hn => ?_, fun u g hg => ?_,
        fun n u hu => ?_⟩
      · rw [hc] at hn
        exact h.kinds dir led n c hat (update_none_eq_some hn).2
      · refine .inr ⟨hat.isDir, g, ?_⟩
        rw [hat.2]
        exact hx u g hg
      · rw [hl] at hu
        refine .inl ⟨n, ?_⟩
        rw [hat.entries]
        exact (update_none_eq_some hu).2
    · rw [he]
      exact h.forest.subset fun _ _ _ => Namespace.set_none_subset
  · rw [tree_set hat, he]
    rfl

theorem Sound.removed (h : v.Sound) (hat : v.At dir led) (hl : led.table.listed name = some ino) :
    (v.set dir (led.removed name ino)).Sound ∧
      (v.set dir (led.removed name ino)).tree = v.tree.removed dir name := by
  obtain ⟨-, base, hn⟩ := h.names_at hat
  obtain ⟨c, hc, -⟩ : ∃ c, led.table.child name = some c ∧ c.inode.ino = ino := by
    rw [hn.sound] at hl
    exact Option.map_eq_some_iff.mp hl
  refine h.taken hat (hn.removed hl) DentryTable.dirIno_delete (DentryTable.listed_delete hc)
    DentryTable.child_delete fun u g hg => ?_
  rw [Led.fInodes_removed] at hg
  by_cases hu : u = ino
  · subst hu
    rw [AList.lookup_insert] at hg
    cases hg
  · rwa [AList.lookup_insert_ne hu] at hg

theorem Sound.removedDir (h : v.Sound) (hat : v.At dir led)
    (hl : led.table.listed name = some ino) :
    (v.set dir (led.removedDir name ino)).Sound ∧
      (v.set dir (led.removedDir name ino)).tree = v.tree.removed dir name := by
  obtain ⟨-, base, hn⟩ := h.names_at hat
  obtain ⟨c, hc, -⟩ : ∃ c, led.table.child name = some c ∧ c.inode.ino = ino := by
    rw [hn.sound] at hl
    exact Option.map_eq_some_iff.mp hl
  refine h.taken hat (hn.removedDir hl) DentryTable.dirIno_delete (DentryTable.listed_delete hc)
    DentryTable.child_delete fun u g hg => ?_
  rwa [Led.fInodes_removedDir] at hg

/-- An inode that can be given a name in the directory. -/
structure Nameless (v : View) (dir : Uuid) (i : MemInode) : Prop where
  notNil : i.inode.ino ≠ Uuid.nil
  notRoot : i.inode.ino ≠ Uuid.rootIno
  unlisted : ∀ d n, v.tree.entries d n ≠ some i.inode.ino
  parent : i.pIno = dir
  kind : v.Kind i.inode
  notPending : ∀ d, d ≠ dir → ¬ v.Pending d i.inode.ino

theorem Nameless.lacks (hi : v.Nameless dir i) (hat : v.At dir led) :
    Lacks led.table.listed i.inode.ino := by
  intro n hn
  rw [← hat.entries] at hn
  exact hi.unlisted dir n hn

/-- There is a name more, and the transaction may have its inode. -/
theorem Sound.added (h : v.Sound) (hat : v.At dir led) (hi : v.Nameless dir i)
    {base : Bytes → Option Uuid} (hn : Names led' base)
    (hdir : led'.table.dirIno = led.table.dirIno)
    (hl : led'.table.listed = Function.update led.table.listed name (some i.inode.ino))
    (hc : led'.table.child = Function.update led.table.child name (some i))
    (hx : ∀ u g, led'.tx.fInodes.lookup u = some (some g) →
      u = i.inode.ino ∨ led.tx.fInodes.lookup u = some (some g)) :
    (v.set dir led').Sound ∧ (v.set dir led').tree =
      { v.tree with entries := Namespace.set v.tree.entries dir name (some i.inode.ino) } := by
  have he : Function.update v.tree.entries dir led'.table.listed =
      Namespace.set v.tree.entries dir name (some i.inode.ino) := by
    rw [hl, ← hat.entries, FuseOps.update_set]
  constructor
  · apply h.set hat.isDir
    · refine ⟨hdir.trans (h.names_at hat).1, ⟨base, hn⟩, fun n c hn => ?_, fun u g hg => ?_,
        fun n u hu => ?_⟩
      · rw [hc] at hn
        rcases update_eq_some hn with ⟨-, hic⟩ | ⟨-, hold⟩
        · cases hic
          exact hi.kind
        · exact h.kinds dir led n c hat hold
      · rcases hx u g hg with rfl | hold
        · refine .inl ⟨name, ?_⟩
          rw [hl, Function.update_self]
        · refine .inr ⟨hat.isDir, g, ?_⟩
          rw [hat.2]
          exact hold
      · rw [hl] at hu
        rcases update_eq_some hu with ⟨-, hiu⟩ | ⟨-, hold⟩
        · cases hiu
          exact .inr hi.notPending
        · refine .inl ⟨n, ?_⟩
          rw [hat.entries]
          exact hold
    · rw [he]
      exact h.forest.add hi.unlisted hi.notRoot
  · rw [tree_set hat, he]

theorem Sound.inserted (h : v.Sound) (hat : v.At dir led) (hi : v.Nameless dir i)
    (hl : led.table.listed name = none) :
    (v.set dir (led.inserted name i)).Sound ∧ (v.set dir (led.inserted name i)).tree =
      { v.tree with entries := Namespace.set v.tree.entries dir name (some i.inode.ino) } := by
  obtain ⟨hdir, base, hn⟩ := h.names_at hat
  have hc := hn.child_none hl
  have hins : Names (led.inserted name i) base :=
    hn.inserted hl hi.notNil (hi.lacks hat) (hi.parent.trans hdir.symm)
  refine h.added hat hi hins DentryTable.dirIno_create (DentryTable.listed_create hc)
    (DentryTable.child_create hc) fun u g hg => ?_
  rw [Led.fInodes_inserted] at hg
  by_cases hu : u = i.inode.ino
  · exact .inl hu
  · rw [AList.lookup_insert_ne hu] at hg
    exact .inr hg

theorem Sound.insertedDir (h : v.Sound) (hat : v.At dir led) (hi : v.Nameless dir i)
    (hl : led.table.listed name = none) (hlive : led.tx.fInodes.lookup i.inode.ino ≠ some none) :
    (v.set dir (led.insertedDir name i)).Sound ∧ (v.set dir (led.insertedDir name i)).tree =
      { v.tree with entries := Namespace.set v.tree.entries dir name (some i.inode.ino) } := by
  obtain ⟨hdir, base, hn⟩ := h.names_at hat
  have hc := hn.child_none hl
  have hins : Names (led.insertedDir name i) base :=
    hn.insertedDir hl hi.notNil (hi.lacks hat) (hi.parent.trans hdir.symm) hlive
  refine h.added hat hi hins DentryTable.dirIno_create (DentryTable.listed_create hc)
    (DentryTable.child_create hc) fun u g hg => ?_
  rw [Led.fInodes_insertedDir] at hg
  exact .inr hg

/-! ## Directories that come and go -/

/-- A new directory without entries, before it has a name. -/
theorem Sound.founded (h : v.Sound) (hnew : v.tree.isDir dir = false)
    (hnone : ∀ d n, v.tree.entries d n ≠ some dir) (hdir : led.table.dirIno = dir)
    {base : Bytes → Option Uuid} (hn : Names led base) (hc : ∀ n, led.table.child n = none)
    (hx : ∀ u g, led.tx.fInodes.lookup u ≠ some (some g)) :
    (v.set dir led).Sound ∧
      (v.set dir led).tree = { v.tree with isDir := Function.update v.tree.isDir dir true } := by
  have hdirs : (v.set dir led).tree.isDir = Function.update v.tree.isDir dir true := by
    funext d
    show (Function.update v.tables dir (some led.table) d).isSome = _
    by_cases hd : d = dir
    · subst hd
      rw [Function.update_self, Function.update_self]
      rfl
    · rw [Function.update_of_ne hd, Function.update_of_ne hd]
      rfl
  have hentries : (v.set dir led).tree.entries = v.tree.entries := by
    rw [entries_set]
    apply Function.update_eq_self_iff.mpr
    funext n
    rw [hn.listed_none (hc n)]
    show none = (v.tables dir).bind _
    rw [Option.not_isSome_iff_eq_none.mp (Bool.eq_false_iff.mp hnew)]
    rfl
  have hkind : ∀ i : Inode, i.ino ≠ dir → ((v.set dir led).Kind i ↔ v.Kind i) := by
    intro i hi
    unfold Kind
    rw [hdirs, Function.update_of_ne hi]
  have hroot : Uuid.rootIno ≠ dir := by
    rintro rfl
    rw [h.root] at hnew
    cases hnew
  refine ⟨⟨?_, ?_, fun d hd => ?_, fun d l n c hat hchild => ?_, fun d u hpend e n he => ?_⟩,
    FileTree.ext hentries hdirs⟩
  · rw [hdirs, Function.update_of_ne hroot]
    exact h.root
  · rw [hentries]
    exact h.forest
  · by_cases hne : d = dir
    · subst hne
      exact ⟨led, base, at_set, hdir, hn⟩
    · rw [hdirs, Function.update_of_ne hne] at hd
      obtain ⟨led', base', hat, hself, hn'⟩ := h.names d hd
      exact ⟨led', base', hat.set_of_ne hne, hself, hn'⟩
  · by_cases hne : d = dir
    · subst hne
      have ht : led.table = l.table := Option.some.inj (at_set.1.symm.trans hat.1)
      rw [← ht, hc n] at hchild
      cases hchild
    · have hold := at_of_set_of_ne hne hat
      obtain ⟨-, base', hn'⟩ := h.names_at hold
      refine (hkind c.inode ?_).mpr (h.kinds d l n c hold hchild)
      intro heq
      apply hnone d n
      rw [hold.entries, ← heq]
      exact hn'.listed_of_child hchild
  · rw [hentries] at he
    by_cases hne : d = dir
    · subst hne
      obtain ⟨-, g, hg⟩ := hpend
      rw [show (v.set d led).tx d = led.tx from at_set.2] at hg
      exact absurd hg (hx u g)
    · refine h.files d u ⟨?_, ?_⟩ e n he
      · have hd := hpend.1
        rwa [hdirs, Function.update_of_ne hne] at hd
      · obtain ⟨g, hg⟩ := hpend.2
        rw [show (v.set dir led).tx d = v.tx d from Function.update_of_ne hne _ _] at hg
        exact ⟨g, hg⟩

/-- A directory without entries and without a name is gone. -/
theorem Sound.dropped (h : v.Sound) (hempty : ∀ n, v.tree.entries dir n = none)
    (hnone : ∀ d n, v.tree.entries d n ≠ some dir) (hroot : Uuid.rootIno ≠ dir)
    (ht : v'.tables = Function.update v.tables dir none) (hx : ∀ d, d ≠ dir → v'.tx d = v.tx d) :
    v'.Sound ∧ v'.tree = { v.tree with isDir := Function.update v.tree.isDir dir false } := by
  have hdirs : v'.tree.isDir = Function.update v.tree.isDir dir false := by
    funext d
    show (v'.tables d).isSome = _
    rw [ht]
    by_cases hd : d = dir
    · subst hd
      rw [Function.update_self, Function.update_self]
      rfl
    · rw [Function.update_of_ne hd, Function.update_of_ne hd]
      rfl
  have hentries : v'.tree.entries = v.tree.entries := by
    funext d n
    show (v'.tables d).bind _ = _
    rw [ht]
    by_cases hd : d = dir
    · subst hd
      rw [Function.update_self]
      exact (hempty n).symm
    · rw [Function.update_of_ne hd]
      rfl
  have hother : ∀ {d}, v'.tree.isDir d = true → d ≠ dir := by
    rintro d hd rfl
    rw [hdirs, Function.update_self] at hd
    cases hd
  have hat_iff : ∀ {d l}, d ≠ dir → (v'.At d l ↔ v.At d l) := by
    intro d l hd
    unfold At
    rw [ht, Function.update_of_ne hd, hx d hd]
  refine ⟨⟨?_, ?_, fun d hd => ?_, fun d l n c hat hchild => ?_, fun d u hpend e n he => ?_⟩,
    FileTree.ext hentries hdirs⟩
  · rw [hdirs, Function.update_of_ne hroot]
    exact h.root
  · rw [hentries]
    exact h.forest
  · have hne := hother hd
    rw [hdirs, Function.update_of_ne hne] at hd
    obtain ⟨led, base, hat, hself, hn⟩ := h.names d hd
    exact ⟨led, base, (hat_iff hne).mpr hat, hself, hn⟩
  · have hold := (hat_iff (hother hat.isDir)).mp hat
    obtain ⟨-, base, hn⟩ := h.names_at hold
    have hne : c.inode.ino ≠ dir := by
      intro heq
      apply hnone d n
      rw [hold.entries, ← heq]
      exact hn.listed_of_child hchild
    have hk := h.kinds d l n c hold hchild
    unfold Kind at hk ⊢
    rw [hdirs, Function.update_of_ne hne]
    exact hk
  · rw [hentries] at he
    have hne := hother hpend.1
    refine h.files d u ⟨?_, ?_⟩ e n he
    · have hd := hpend.1
      rwa [hdirs, Function.update_of_ne hne] at hd
    · obtain ⟨g, hg⟩ := hpend.2
      exact ⟨g, by rwa [hx d hne] at hg⟩

/-- The commit thread has taken some of the transactions. -/
theorem Sound.emptied (h : v.Sound) (ht : v'.tables = v.tables)
    (hx : ∀ d, v'.tx d = v.tx d ∨ v'.tx d = Transaction.new d) :
    v'.Sound ∧ v'.tree = v.tree := by
  have htree : v'.tree = v.tree := by
    unfold tree
    rw [ht]
  refine ⟨⟨?_, ?_, fun d hd => ?_, fun d l n c hat hchild => ?_, fun d u hpend e n he => ?_⟩, htree⟩
  · rw [htree]
    exact h.root
  · rw [htree]
    exact h.forest
  · rw [htree] at hd
    obtain ⟨led, base, hat, hself, hn⟩ := h.names d hd
    rcases hx d with hold | hnew
    · exact ⟨led, base, ⟨ht ▸ hat.1, hold.trans hat.2⟩, hself, hn⟩
    · refine ⟨{ led with jtable := led.jtable.erase led.table.thisDirInode.ino }, _,
        ⟨ht ▸ hat.1, hnew.trans ?_⟩, hself, Creation.names_commit hn⟩
      refine Eq.trans ?_ (JournalTable.getEntry_erase _ _).symm
      rw [hn.self, hself]
  · have hold := h.names d (htree ▸ hat.isDir)
    obtain ⟨led, base, hat', -, -⟩ := hold
    have heq : l.table = led.table := Option.some.inj ((ht ▸ hat.1).symm.trans hat'.1)
    have hk := h.kinds d led n c hat' (heq ▸ hchild)
    unfold Kind at hk ⊢
    rw [htree]
    exact hk
  · rw [htree] at he
    rcases hx d with hold | hnew
    · refine h.files d u ⟨htree ▸ hpend.1, ?_⟩ e n he
      obtain ⟨g, hg⟩ := hpend.2
      exact ⟨g, hold ▸ hg⟩
    · obtain ⟨g, hg⟩ := hpend.2
      rw [hnew] at hg
      cases hg

end View

end Nmfs
