import Nmfs.Fs.Cluster
import Nmfs.Fs.Names

/-
  A cluster without regard to who leads its directories: their tables and pending transactions. A
  section on one directory changes its own of both, and leaves every other directory as it is.
-/

namespace Nmfs

open Lib

/-- A namespace without regard to who leads its directories. -/
structure View where
  tables : Uuid → Option DentryTable
  tx : Uuid → Transaction
  dataPool : Pool

namespace View

def set (v : View) (dir : Uuid) (led : Led) : View where
  tables := Function.update v.tables dir (some led.table)
  tx := Function.update v.tx dir led.tx
  dataPool := v.dataPool

theorem set_congr {v : View} {dir : Uuid} {led led' : Led} (ht : led.table = led'.table)
    (hx : led.tx = led'.tx) : v.set dir led = v.set dir led' := by
  unfold set
  rw [ht, hx]

end View

/-- The directory has no table any more. -/
def View.drop (v : View) (dir : Uuid) : View :=
  { v with tables := Function.update v.tables dir none }

namespace Led

/-- `rmself`. -/
def ended (s : Led) (dir : Uuid) : Led :=
  { s with jtable := (s.jtable.record dir .rmself).2 }

theorem rmself_ended {s : Led} {dir : Uuid} : journalAt dir .rmself s = (.ok (), s.ended dir) := by
  unfold journalAt
  rw [JournalTable.record_rmself]
  rfl

/-- A change of a directory, and of no other directory's transaction. -/
structure Changes (dir : Uuid) (led led' : Led) : Prop where
  self : led'.table.thisDirInode.ino = dir
  others : ∀ d, d ≠ dir → led'.jtable.getEntry d = led.jtable.getEntry d
  dataPool : led'.dataPool = led.dataPool

section

variable {dir : Uuid} {led led' led'' : Led} {name : Bytes} {i : MemInode} {ino : Uuid}
  {tx : Transaction}

theorem Changes.refl (h : led.table.thisDirInode.ino = dir) : Changes dir led led :=
  ⟨h, fun _ _ => rfl, rfl⟩

theorem Changes.trans (h : Changes dir led led') (h' : Changes dir led' led'') :
    Changes dir led led'' :=
  ⟨h'.self, fun d hd => (h'.others d hd).trans (h.others d hd), h'.dataPool.trans h.dataPool⟩

theorem Changes.withTx (h : Changes dir led led') (tx : Transaction) :
    Changes dir led (led'.withTx tx) := by
  refine ⟨h.self, fun d hd => ?_, h.dataPool⟩
  show JournalTable.getEntry (led'.jtable.insert led'.table.thisDirInode.ino tx) d = _
  rw [JournalTable.getEntry_insert_ne _ _ (by rw [h.self]; exact hd)]
  exact h.others d hd

theorem changes_removed (h : led.table.thisDirInode.ino = dir) :
    Changes dir led (led.removed name ino) := by
  have hd : Changes dir led (led.deleted name) :=
    ⟨(congrArg Inode.ino thisDirInode_deleted).trans h, fun _ _ => rfl, rfl⟩
  exact hd.withTx _

theorem changes_inserted (h : led.table.thisDirInode.ino = dir) :
    Changes dir led (led.inserted name i) := by
  have hd : Changes dir led (led.created name i) :=
    ⟨(congrArg Inode.ino thisDirInode_created).trans h, fun _ _ => rfl, rfl⟩
  exact hd.withTx _

theorem changes_removedDir (h : led.table.thisDirInode.ino = dir) :
    Changes dir led (led.removedDir name ino) := by
  have hd : Changes dir led (led.deleted name) :=
    ⟨(congrArg Inode.ino thisDirInode_deleted).trans h, fun _ _ => rfl, rfl⟩
  exact hd.withTx _

theorem changes_ended (h : led.table.thisDirInode.ino = dir) :
    Changes dir led (led.ended dir) :=
  ⟨h, fun _ hd => JournalTable.getEntry_record_ne led.jtable dir .rmself hd, rfl⟩

theorem ended_congr (h : led.table.thisDirInode.ino = dir) (ht : led.table = led'.table)
    (hx : led.tx = led'.tx) :
    (led.ended dir).table = (led'.ended dir).table ∧ (led.ended dir).tx = (led'.ended dir).tx := by
  have htx : ∀ l : Led, l.table.thisDirInode.ino = dir → (l.ended dir).tx = l.tx.rmself.2 := by
    intro l hl
    show JournalTable.getEntry (l.jtable.record dir .rmself).2 l.table.thisDirInode.ino = _
    rw [hl, JournalTable.getEntry_record]
    unfold Led.tx
    rw [hl]
    rfl
  rw [htx led h, htx led' (ht ▸ h), hx]
  exact ⟨ht, rfl⟩

/-- The name is made free. -/
def freed (s : Led) (name : Bytes) : Led :=
  match s.table.child name with
  | none => s
  | some c => s.removed name c.inode.ino

theorem changes_freed (h : led.table.thisDirInode.ino = dir) :
    Changes dir led (led.freed name) := by
  unfold freed
  split
  · exact .refl h
  · exact changes_removed h

theorem freed_congr (ht : led.table = led'.table) (hx : led.tx = led'.tx) :
    (led.freed name).table = (led'.freed name).table ∧ (led.freed name).tx = (led'.freed name).tx := by
  unfold freed
  rw [ht]
  split
  · exact ⟨ht, hx⟩
  · unfold removed deleted
    rw [tx_withTx, tx_withTx, table_withTx, table_withTx, ht, hx]
    exact ⟨rfl, rfl⟩

theorem inserted_congr (ht : led.table = led'.table) (hx : led.tx = led'.tx) :
    (led.inserted name i).table = (led'.inserted name i).table ∧
      (led.inserted name i).tx = (led'.inserted name i).tx := by
  unfold inserted created
  rw [tx_withTx, tx_withTx, table_withTx, table_withTx, ht, hx]
  exact ⟨rfl, rfl⟩

theorem removed_congr (ht : led.table = led'.table) (hx : led.tx = led'.tx) :
    (led.removed name ino).table = (led'.removed name ino).table ∧
      (led.removed name ino).tx = (led'.removed name ino).tx := by
  unfold removed deleted
  rw [tx_withTx, tx_withTx, table_withTx, table_withTx, ht, hx]
  exact ⟨rfl, rfl⟩

theorem removedDir_congr (ht : led.table = led'.table) (hx : led.tx = led'.tx) :
    (led.removedDir name ino).table = (led'.removedDir name ino).table ∧
      (led.removedDir name ino).tx = (led'.removedDir name ino).tx := by
  unfold removedDir deleted
  rw [tx_withTx, tx_withTx, table_withTx, table_withTx, ht, hx]
  exact ⟨rfl, rfl⟩

theorem withTimes_congr {ts : Timespec} (ht : led.table = led'.table) (hx : led.tx = led'.tx) :
    (led.withTimes ts).table = (led'.withTimes ts).table ∧
      (led.withTimes ts).tx = (led'.withTimes ts).tx := by
  rw [tx_withTimes, tx_withTimes, hx]
  unfold withTimes
  rw [ht]
  exact ⟨rfl, rfl⟩

end

end Led

namespace Cluster

variable {C : Type} [DecidableEq C] {s s' : Cluster C} {dir dir' : Uuid} {led led' : Led}
  {base : Bytes → Option Uuid} {name : Bytes}

def view (s : Cluster C) : View := ⟨s.tables, s.tx, s.dataPool⟩

/-- The directory is led, and its table and pending transaction agree. -/
structure InStep (s : Cluster C) (dir : Uuid) (led : Led) (base : Bytes → Option Uuid) : Prop where
  leads : s.led dir = some led
  dirIno : led.table.dirIno = dir
  names : Names led base

omit [DecidableEq C] in
theorem InStep.self (h : s.InStep dir led base) : led.table.thisDirInode.ino = dir :=
  h.names.self.trans h.dirIno

omit [DecidableEq C] in
theorem led_eq_some : s.led dir = some led ↔
    s.tables dir = some led.table ∧ led.jtable = s.jtables (s.leader dir) ∧
      led.dataPool = s.dataPool := by
  unfold Cluster.led
  rw [Option.map_eq_some_iff]
  constructor
  · intro ⟨table, ht, he⟩
    rw [← he]
    exact ⟨ht, rfl, rfl⟩
  · intro ⟨ht, hj, hd⟩
    refine ⟨led.table, ht, ?_⟩
    rw [← hj, ← hd]

omit [DecidableEq C] in
theorem tx_of_led (h : s.led dir = some led) (hself : led.table.thisDirInode.ino = dir) :
    led.tx = s.tx dir := by
  unfold Led.tx Cluster.tx
  rw [hself, (led_eq_some.mp h).2.1]

theorem put_led (h : s.led dir = some led) : s.put dir led = s := by
  obtain ⟨ht, hj, hd⟩ := led_eq_some.mp h
  unfold put
  rw [← ht, hj, hd, Function.update_eq_self, Function.update_eq_self]

theorem led_put_self : (s.put dir led).led dir = some led := by
  apply led_eq_some.mpr
  unfold put
  dsimp only
  rw [Function.update_self, Function.update_self]
  exact ⟨rfl, rfl, rfl⟩

theorem view_put (h : s.led dir = some led) (hc : Led.Changes dir led led') :
    (s.put dir led').view = s.view.set dir led' := by
  obtain ⟨-, hj, hd⟩ := led_eq_some.mp h
  have htx : (s.put dir led').tx = Function.update s.tx dir led'.tx := by
    funext d
    show JournalTable.getEntry (Function.update s.jtables (s.leader dir) led'.jtable
      (s.leader d)) d = _
    by_cases hdd : d = dir
    · subst hdd
      rw [Function.update_self, Function.update_self]
      unfold Led.tx
      rw [hc.self]
    · rw [Function.update_of_ne hdd]
      by_cases hl : s.leader d = s.leader dir
      · rw [hl, Function.update_self, hc.others d hdd, hj]
        unfold tx
        rw [hl]
      · rw [Function.update_of_ne hl]
        rfl
  unfold view View.set
  rw [htx]
  show View.mk _ _ led'.dataPool = _
  rw [hc.dataPool, hd]
  rfl

omit [DecidableEq C] in
/-- A directory is in step in every cluster with the same tables and transactions. -/
theorem InStep.of_view (h : s.InStep dir led base) (ht : s'.tables dir = s.tables dir)
    (hx : s'.tx dir = s.tx dir) :
    ∃ led', s'.InStep dir led' base ∧ led'.table = led.table ∧ led'.tx = led.tx := by
  obtain ⟨htable, -, -⟩ := led_eq_some.mp h.leads
  have hl : s'.led dir = some ⟨led.table, s'.jtables (s'.leader dir), s'.dataPool⟩ :=
    led_eq_some.mpr ⟨ht.trans htable, rfl, rfl⟩
  have htx := (tx_of_led hl h.self).trans (hx.trans (tx_of_led h.leads h.self).symm)
  exact ⟨_, ⟨hl, h.dirIno, h.names.congr rfl htx⟩, rfl, htx⟩

/-- Another directory stays as it is. -/
theorem InStep.put_of_ne (h : s.InStep dir led base) (hne : dir ≠ dir') {led₁ led₁' : Led}
    (hl : s.led dir' = some led₁) (hc : Led.Changes dir' led₁ led₁') :
    ∃ led', (s.put dir' led₁').InStep dir led' base ∧ led'.table = led.table ∧
      led'.tx = led.tx := by
  have hview := view_put hl hc
  apply h.of_view
  · rw [show (s.put dir' led₁').tables = _ from congrArg View.tables hview]
    exact Function.update_of_ne hne _ _
  · rw [show (s.put dir' led₁').tx = _ from congrArg View.tx hview]
    exact Function.update_of_ne hne _ _

omit [DecidableEq C] in
theorem entries_of_led (h : s.led dir = some led) : s.entries dir = led.table.listed := by
  funext name
  unfold entries
  rw [(led_eq_some.mp h).1]
  rfl

/-- A way down through directories that have tables. In each table before, the child list and the
    inode agree about the name. -/
def Resolves (s : Cluster C) : List Bytes → Uuid → Uuid → Prop
  | [], dir, dir' => dir = dir'
  | name :: names, dir, dir' => ∃ c, s.child dir name = some c ∧
      s.entries dir name = some c.inode.ino ∧ c.inode.ino ≠ Uuid.nil ∧
      Inode.isDir c.inode.core.iMode = true ∧ (s.tables c.inode.ino).isSome = true ∧
      s.Resolves names c.inode.ino dir'

/-- The directory lets the client search it. -/
def Admits (s : Cluster C) (c : C) (dir : Uuid) : Prop :=
  ∀ table, s.tables dir = some table →
    table.thisDirInode.permissionCheck (s.ids c) Inode.X_OK = .ok ()

/-- The directories that the names lead into. -/
def entered (s : Cluster C) : List Bytes → Uuid → List Uuid
  | [], _ => []
  | name :: names, dir =>
    match s.child dir name with
    | none => []
    | some c => c.inode.ino :: s.entered names c.inode.ino

/-- Each of them lets the client search it that leads it. -/
def Opens (s : Cluster C) (names : List Bytes) (dir : Uuid) : Prop :=
  ∀ d ∈ s.entered names dir, s.Admits (s.leader d) d

omit [DecidableEq C] in
theorem entered_cons {names : List Bytes} {c : MemInode} (h : s.child dir name = some c) :
    s.entered (name :: names) dir = c.inode.ino :: s.entered names c.inode.ino := by
  show (match s.child dir name with
    | none => []
    | some c => c.inode.ino :: s.entered names c.inode.ino) = _
  rw [h]

omit [DecidableEq C] in
theorem opens_nil : s.Opens [] dir := fun _ hd => nomatch hd

omit [DecidableEq C] in
theorem opens_cons {names : List Bytes} {c : MemInode} (h : s.child dir name = some c) :
    s.Opens (name :: names) dir ↔
      s.Admits (s.leader c.inode.ino) c.inode.ino ∧ s.Opens names c.inode.ino := by
  unfold Opens
  rw [entered_cons h, List.forall_mem_cons]

omit [DecidableEq C] in
theorem Resolves.unique {names : List Bytes} {d d' : Uuid} (h : s.Resolves names dir d)
    (h' : s.Resolves names dir d') : d = d' := by
  induction names generalizing dir with
  | nil => exact Eq.trans (Eq.symm h) h'
  | cons name names ih =>
      obtain ⟨c, hc, -, -, -, -, hrest⟩ := h
      obtain ⟨c', hc', -, -, -, -, hrest'⟩ := h'
      rw [hc] at hc'
      cases hc'
      exact ih hrest hrest'

omit [DecidableEq C] in
theorem entered_of_tables (ht : s'.tables = s.tables) (names : List Bytes) :
    s'.entered names dir = s.entered names dir := by
  induction names generalizing dir with
  | nil => rfl
  | cons name names ih =>
      have hc : s'.child dir name = s.child dir name := by
        unfold child
        rw [ht]
      unfold entered
      rw [hc]
      cases s.child dir name with
      | none => rfl
      | some c => exact congrArg (c.inode.ino :: ·) ih

omit [DecidableEq C] in
theorem Resolves.of_tables (ht : s'.tables = s.tables) {names : List Bytes} {d : Uuid}
    (h : s.Resolves names dir d) : s'.Resolves names dir d := by
  induction names generalizing dir with
  | nil => exact h
  | cons name names ih =>
      obtain ⟨c, hc, he, hnil, hdir, htable, hrest⟩ := h
      refine ⟨c, ?_, ?_, hnil, hdir, ?_, ih hrest⟩
      · unfold child
        rw [ht]
        exact hc
      · unfold entries
        rw [ht]
        exact he
      · rw [ht]
        exact htable

end Cluster

end Nmfs
