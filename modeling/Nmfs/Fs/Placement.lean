import Nmfs.Fs.Creation
import Nmfs.Fs.Moves

/-
  Whether it shows who leads the directories. Two clusters with the same view have the same
  directories, wherever they are led; a client finds each of them LOCAL in one and REMOTE in the
  other, or the other way round. The clients run under the same ids, and the clocks may differ.
-/

namespace Nmfs

open Lib

/-- Without the times of the directory's own inode. -/
def DentryTable.untimed (t : DentryTable) : DentryTable :=
  { t with thisDirInode := t.thisDirInode.setTimes ⟨0, 0⟩ }

def Transaction.untimed (tx : Transaction) : Transaction :=
  { tx with sInode := tx.sInode.map fun self => self.setTimes ⟨0, 0⟩ }

namespace View

def untimed (v : View) : View where
  tables := fun dir => (v.tables dir).map DentryTable.untimed
  tx := fun dir => (v.tx dir).untimed
  dataPool := v.dataPool

theorem untimed_set (v : View) (dir : Uuid) (led : Led) : (v.set dir led).untimed =
    ⟨Function.update v.untimed.tables dir (some led.table.untimed),
      Function.update v.untimed.tx dir led.tx.untimed, v.dataPool⟩ := by
  have htables := Function.comp_update (Option.map DentryTable.untimed) v.tables dir
    (some led.table)
  have htx := Function.comp_update Transaction.untimed v.tx dir led.tx
  unfold untimed set
  congr 1

theorem untimed_set_congr {v : View} {dir : Uuid} {led led' : Led}
    (ht : led.table.untimed = led'.table.untimed) (hx : led.tx.untimed = led'.tx.untimed) :
    (v.set dir led).untimed = (v.set dir led').untimed := by
  rw [untimed_set, untimed_set, ht, hx]

end View

namespace Placement

open FuseOps

variable {C : Type} [DecidableEq C]

/-- An rmdir, or a rename from one directory to another, by their names. -/
inductive Request where
  | rmdir (names : List Bytes) (targetName : Bytes)
  | rename (p : RenamePaths)

def Request.perform (me : C) (ts : Timespec) : Request → ClientOp C Int
  | .rmdir names targetName => FuseOps.rmdir me (Path.text (names ++ [targetName])) ts
  | .rename p => FuseOps.rename me p.oldPath p.newPath 0 ts

/-- The directory of the rmdir, or the source of the rename, exists. -/
def Request.Proper (s : Cluster C) : Request → Prop
  | .rmdir names targetName => ∃ parent lp lt bp bt c,
    RmdirTarget s names targetName parent lp lt bp bt c
  | .rename p => ∃ src dst ls ld bs bd x, CrossRename s p src dst ls ld bs bd x

/-- The ways to the parents, which are searched. -/
def Request.ways : Request → List (List Bytes)
  | .rmdir names _ => [names]
  | .rename p => [p.srcNames, p.dstNames]

def Request.Opens (s : Cluster C) (r : Request) : Prop :=
  ∀ names ∈ r.ways, s.Opens names Uuid.rootIno

/-- Every directory on the ways admits all clients. -/
def Request.OpenToAll (s : Cluster C) (r : Request) : Prop :=
  ∀ names ∈ r.ways, ∀ dir ∈ s.entered names Uuid.rootIno, ∀ c, s.Admits c dir

/-- One of them admits none. -/
def Request.ClosedToAll (s : Cluster C) (r : Request) : Prop :=
  ∃ names ∈ r.ways, ∃ dir ∈ s.entered names Uuid.rootIno, ∀ c, ¬ s.Admits c dir

/-- The same return value, the same directories and the same journals, up to times. -/
def Agree (out out' : Except Err Int × Cluster C) : Prop :=
  out.1 = out'.1 ∧ out.2.view.untimed = out'.2.view.untimed

/-- The journal of the destination has no pending file of the number that is moved there, other than
    the one that is replaced. -/
def Request.Unhindered (s : Cluster C) : Request → Prop
  | .rmdir _ _ => True
  | .rename p => ∀ src dst x, s.Resolves p.srcNames Uuid.rootIno src →
    s.Resolves p.dstNames Uuid.rootIno dst → s.child src p.oldName = some x →
    ∀ g, (s.tx dst).fInodes.lookup x.inode.ino = some (some g) →
      s.entries dst p.newName = some x.inode.ino

section

variable {s s' : Cluster C} {p : RenamePaths} {src dst : Uuid} {ls ld : Led}
  {bs bd : Bytes → Option Uuid} {x : MemInode} {names : List Bytes} {targetName : Bytes}
  {parent : Uuid} {lp lt : Led} {bp bt : Bytes → Option Uuid} {c : MemInode}

/-! ## Other placements -/

omit [DecidableEq C] in
theorem crossRename_of_view (h : CrossRename s p src dst ls ld bs bd x) (hv : s'.view = s.view) :
    ∃ ls' ld', CrossRename s' p src dst ls' ld' bs bd x ∧
      (ls'.table = ls.table ∧ ls'.tx = ls.tx) ∧ ld'.table = ld.table ∧ ld'.tx = ld.tx := by
  have htables : s'.tables = s.tables := congrArg View.tables hv
  have htx : s'.tx = s.tx := congrArg View.tx hv
  obtain ⟨ls', hs, hst, hsx⟩ := h.src.of_view (congrFun htables src) (congrFun htx src)
  obtain ⟨ld', hd, hdt, hdx⟩ := h.dst.of_view (congrFun htables dst) (congrFun htx dst)
  refine ⟨ls', ld', ?_, ⟨hst, hsx⟩, hdt, hdx⟩
  refine ⟨h.components, ?_, h.srcPath.of_tables htables, h.dstPath.of_tables htables, h.ne, hs, hd,
    ?_, h.sendable⟩
  · rw [htables]
    exact h.root
  · rw [hst]
    exact h.present

omit [DecidableEq C] in
theorem rmdirTarget_of_view (h : RmdirTarget s names targetName parent lp lt bp bt c)
    (hv : s'.view = s.view) :
    ∃ lp' lt', RmdirTarget s' names targetName parent lp' lt' bp bt c ∧
      (lp'.table = lp.table ∧ lp'.tx = lp.tx) ∧ lt'.table = lt.table ∧ lt'.tx = lt.tx := by
  have htables : s'.tables = s.tables := congrArg View.tables hv
  have htx : s'.tx = s.tx := congrArg View.tx hv
  obtain ⟨lp', hp, hpt, hpx⟩ := h.parent.of_view (congrFun htables _) (congrFun htx _)
  obtain ⟨lt', ht, htt, htx'⟩ := h.target.of_view (congrFun htables _) (congrFun htx _)
  refine ⟨lp', lt', ?_, ⟨hpt, hpx⟩, htt, htx'⟩
  refine ⟨h.components, ?_, h.parentPath.of_tables htables, h.ne, hp, ht, ?_, h.isDir⟩
  · rw [htables]
    exact h.root
  · rw [hpt]
    exact h.present

section

variable {r : Request}

omit [DecidableEq C] in
theorem entered_of_view (hv : s'.view = s.view) (names : List Bytes) :
    s'.entered names Uuid.rootIno = s.entered names Uuid.rootIno :=
  Cluster.entered_of_tables (congrArg View.tables hv) names

omit [DecidableEq C] in
theorem admits_iff (hv : s'.view = s.view) (hids : s'.ids = s.ids) (c : C) (dir : Uuid) :
    s'.Admits c dir ↔ s.Admits c dir := by
  unfold Cluster.Admits
  rw [hids, show s'.tables = s.tables from congrArg View.tables hv]

omit [DecidableEq C] in
theorem Request.OpenToAll.opens (h : r.OpenToAll s) (hv : s'.view = s.view) (hids : s'.ids = s.ids) :
    r.Opens s' := by
  intro names hn dir hdir
  rw [entered_of_view hv] at hdir
  rw [admits_iff hv hids]
  exact h names hn dir hdir _

omit [DecidableEq C] in
theorem Request.ClosedToAll.not_opens (h : r.ClosedToAll s) (hv : s'.view = s.view)
    (hids : s'.ids = s.ids) : ¬ r.Opens s' := by
  obtain ⟨names, hn, dir, hdir, hall⟩ := h
  intro ho
  rw [← entered_of_view hv] at hdir
  exact hall _ ((admits_iff hv hids _ _).mp (ho names hn dir hdir))

/-- Another client leads the directory, and has its pending transaction. -/
def relocated (s : Cluster C) (dir : Uuid) (c : C) : Cluster C :=
  { s with
    leader := Function.update s.leader dir c
    jtables := Function.update s.jtables c ((s.jtables c).insert dir (s.tx dir)) }

theorem view_relocated (s : Cluster C) (dir : Uuid) (c : C) :
    (relocated s dir c).view = s.view := by
  have htx : (relocated s dir c).tx = s.tx := by
    funext d
    show JournalTable.getEntry (Function.update s.jtables c ((s.jtables c).insert dir (s.tx dir))
      (Function.update s.leader dir c d)) d = s.tx d
    by_cases hd : d = dir
    · subst hd
      rw [Function.update_self, Function.update_self]
      exact JournalTable.getEntry_insert _ _
    · rw [Function.update_of_ne hd]
      by_cases hc : s.leader d = c
      · rw [hc, Function.update_self, JournalTable.getEntry_insert_ne _ _ hd, ← hc]
        rfl
      · rw [Function.update_of_ne hc]
        rfl
  unfold Cluster.view
  rw [htx]
  rfl

/-- Any of the directories may be led by any client. -/
theorem exists_placement (s : Cluster C) (dirs : List Uuid) (leads : Uuid → C) :
    ∃ s' : Cluster C, s'.view = s.view ∧ s'.ids = s.ids ∧ ∀ dir ∈ dirs, s'.leader dir = leads dir := by
  induction dirs with
  | nil => exact ⟨s, rfl, rfl, fun _ hdir => nomatch hdir⟩
  | cons dir dirs ih =>
      obtain ⟨s', hv, hids, hleads⟩ := ih
      refine ⟨relocated s' dir (leads dir), (view_relocated s' dir _).trans hv, hids, ?_⟩
      intro d hd
      show Function.update s'.leader dir (leads dir) d = leads d
      by_cases hdd : d = dir
      · subst hdd
        exact Function.update_self _ _ _
      · rw [Function.update_of_ne hdd]
        exact hleads d ((List.mem_cons.mp hd).resolve_left hdd)

/-- Somewhere the search is denied, unless all clients are let in. -/
theorem exists_closed (h : ¬ r.OpenToAll s) :
    ∃ s' : Cluster C, s'.view = s.view ∧ s'.ids = s.ids ∧ ¬ r.Opens s' := by
  unfold Request.OpenToAll at h
  push Not at h
  obtain ⟨names, hn, dir, hdir, c, hc⟩ := h
  obtain ⟨s', hv, hids, hleads⟩ := exists_placement s [dir] fun _ => c
  refine ⟨s', hv, hids, fun ho => hc ?_⟩
  have hadmits := ho names hn dir (by rw [entered_of_view hv]; exact hdir)
  rw [hleads dir (List.mem_singleton.mpr rfl)] at hadmits
  exact (admits_iff hv hids c dir).mp hadmits

/-- Somewhere it is granted, unless a directory lets no client in. -/
theorem exists_open (h : ¬ r.ClosedToAll s) :
    ∃ s' : Cluster C, s'.view = s.view ∧ s'.ids = s.ids ∧ r.Opens s' := by
  unfold Request.ClosedToAll at h
  push Not at h
  classical
  let leads : Uuid → C := fun dir => if hc : ∃ c, s.Admits c dir then hc.choose else s.leader dir
  obtain ⟨s', hv, hids, hleads⟩ := exists_placement s
    (r.ways.flatMap fun names => s.entered names Uuid.rootIno) leads
  refine ⟨s', hv, hids, fun names hn dir hdir => ?_⟩
  rw [entered_of_view hv] at hdir
  have hc : ∃ c, s.Admits c dir := h names hn dir hdir
  rw [hleads dir (List.mem_flatMap.mpr ⟨names, hn, hdir⟩), admits_iff hv hids,
    show leads dir = hc.choose from dif_pos hc]
  exact hc.choose_spec

end

omit [DecidableEq C] in
theorem unhindered_iff (h : CrossRename s p src dst ls ld bs bd x) :
    (Request.rename p).Unhindered s ↔ NotPending ld p.newName x.inode.ino := by
  have htx := Cluster.tx_of_led h.dst.leads h.dst.self
  have hentries := Cluster.entries_of_led h.dst.leads
  have hchild : s.child src p.oldName = some x := by
    rw [Cluster.child_of_led h.src.leads]
    exact h.present
  unfold NotPending
  rw [htx, ← hentries]
  constructor
  · exact fun hu => hu src dst x h.srcPath h.dstPath hchild
  · intro hn src' dst' x' hsrc hdst hx
    rw [← h.srcPath.unique hsrc, hchild] at hx
    cases hx
    rw [← h.dstPath.unique hdst]
    exact hn

/-! ## The same request elsewhere -/

theorem rename_agree (h : CrossRename s p src dst ls ld bs bd x)
    (ho : p.Opens s) (ho' : p.Opens s') (hi : NotPending ld p.newName x.inode.ino)
    (hv : s'.view = s.view) (me me' : C) (ts ts' : Timespec) :
    Agree (rename me p.oldPath p.newPath 0 ts s) (rename me' p.oldPath p.newPath 0 ts' s') := by
  obtain ⟨ls', ld', h', ⟨hst, hsx⟩, hdt, hdx⟩ := crossRename_of_view h hv
  have hi' : NotPending ld' p.newName x.inode.ino := by
    unfold NotPending
    rw [hdt, hdx]
    exact hi
  obtain ⟨out, hout, -, hview⟩ := rename_cross me ts h ho hi
  obtain ⟨out', hout', -, hview'⟩ := rename_cross me' ts' h' ho' hi'
  rw [hout, hout']
  refine ⟨rfl, ?_⟩
  obtain ⟨hrt, hrx⟩ := @Led.removed_congr _ _ p.oldName x.inode.ino hst hsx
  obtain ⟨hft, hfx⟩ := @Led.freed_congr _ _ p.newName hdt hdx
  obtain ⟨hit, hix⟩ := @Led.inserted_congr _ _ p.newName ⟨x.inode, dst⟩ hft hfx
  dsimp only
  rw [hview, hview', hv, View.set_congr hrt hrx, View.set_congr hit hix]

/-- Up to times, the clock does not matter. -/
theorem untimed_removedDir (led : Led) (name : Bytes) (ino : Uuid) (ts : Timespec) :
    ((led.withTimes ts).removedDir name ino).table.untimed = (led.deleted name).table.untimed ∧
      ((led.withTimes ts).removedDir name ino).tx.untimed =
        (led.tx.withEntry led.table.thisDirInode name false ino).untimed := by
  constructor
  · unfold Led.removedDir
    rw [Led.table_withTx, ← Led.deleted_withTimes]
    rfl
  · unfold Led.removedDir
    rw [Led.tx_withTx, Led.tx_withTimes]
    unfold Transaction.untimed Transaction.withEntry Transaction.touchSelf
    dsimp only
    split <;> rfl

theorem rmdir_agree (h : RmdirTarget s names targetName parent lp lt bp bt c)
    (ho : s.Opens names Uuid.rootIno) (ho' : s'.Opens names Uuid.rootIno) (hv : s'.view = s.view)
    (me me' : C) (ts ts' : Timespec) :
    Agree (rmdir me (Path.text (names ++ [targetName])) ts s)
      (rmdir me' (Path.text (names ++ [targetName])) ts' s') := by
  obtain ⟨lp', lt', h', ⟨hpt, hpx⟩, htt, htx⟩ := rmdirTarget_of_view h hv
  by_cases hn : 0 < lt.table.getChildNum
  · rw [rmdir_full me ts h ho hn, rmdir_full me' ts' h' ho' (by rw [htt]; exact hn)]
    exact ⟨rfl, by rw [hv]⟩
  · obtain ⟨out, hout, -, hview⟩ := rmdir_empty me ts h ho hn
    obtain ⟨out', hout', -, hview'⟩ := rmdir_empty me' ts' h' ho' (by rw [htt]; exact hn)
    rw [hout, hout']
    refine ⟨rfl, ?_⟩
    obtain ⟨het, hex⟩ := Led.ended_congr h'.target.self htt htx
    obtain ⟨hwt, hwx⟩ := @Led.withTimes_congr _ _ ts' hpt hpx
    obtain ⟨hrt, hrx⟩ := @Led.removedDir_congr _ _ targetName c.inode.ino hwt hwx
    dsimp only
    rw [hview, hview', hv, View.set_congr het hex, View.set_congr hrt hrx]
    obtain ⟨ht, hx⟩ := untimed_removedDir lp targetName c.inode.ino ts
    obtain ⟨ht', hx'⟩ := untimed_removedDir lp targetName c.inode.ino ts'
    exact View.untimed_set_congr (ht.trans ht'.symm) (hx.trans hx'.symm)

end

section

variable {s s' : Cluster C} {r : Request}

omit [DecidableEq C] in
theorem Request.Opens.rename {p : RenamePaths} (h : (Request.rename p).Opens s) : p.Opens s :=
  ⟨h _ List.mem_cons_self, h _ (List.mem_cons_of_mem _ List.mem_cons_self)⟩

omit [DecidableEq C] in
theorem Request.Opens.rmdir {names : List Bytes} {targetName : Bytes}
    (h : (Request.rmdir names targetName).Opens s) : s.Opens names Uuid.rootIno :=
  h _ List.mem_cons_self

omit [DecidableEq C] in
theorem Request.Proper.of_view (h : r.Proper s) (hv : s'.view = s.view) : r.Proper s' := by
  cases r with
  | rmdir names targetName =>
      obtain ⟨parent, lp, lt, bp, bt, c, h⟩ := h
      obtain ⟨lp', lt', h', -⟩ := rmdirTarget_of_view h hv
      exact ⟨parent, lp', lt', bp, bt, c, h'⟩
  | rename p =>
      obtain ⟨src, dst, ls, ld, bs, bd, x, h⟩ := h
      obtain ⟨ls', ld', h', -⟩ := crossRename_of_view h hv
      exact ⟨src, dst, ls', ld', bs, bd, x, h'⟩

theorem perform_denied (h : r.Proper s) (ho : ¬ r.Opens s) (me : C) (ts : Timespec) :
    r.perform me ts s = (.ok (-EACCES), s) := by
  cases r with
  | rmdir names targetName =>
      obtain ⟨parent, lp, lt, bp, bt, c, h⟩ := h
      refine rmdir_denied me ts h fun hopen => ho fun names' hn => ?_
      rw [List.mem_singleton.mp hn]
      exact hopen
  | rename p =>
      obtain ⟨src, dst, ls, ld, bs, bd, x, h⟩ := h
      refine rename_denied h.components (h.components.paths_ne h.parents_ne) h.root h.srcPath
        h.dstPath (isSome_of_led h.src.leads) fun hopen => ho ?_
      exact List.forall_mem_cons.mpr ⟨hopen.src, List.forall_mem_singleton.mpr hopen.dst⟩

/-- `-EACCES` is for nothing else. -/
theorem perform_granted (h : r.Proper s) (ho : r.Opens s) (me : C) (ts : Timespec) :
    (r.perform me ts s).1 ≠ .ok (-EACCES) := by
  cases r with
  | rmdir names targetName =>
      obtain ⟨parent, lp, lt, bp, bt, c, h⟩ := h
      by_cases hn : 0 < lt.table.getChildNum
      · show (FuseOps.rmdir me (Path.text (names ++ [targetName])) ts s).1 ≠ _
        rw [rmdir_full me ts h ho.rmdir hn]
        exact fun heq => absurd (Except.ok.inj heq) (by decide)
      · obtain ⟨out, hout, -, -⟩ := rmdir_empty me ts h ho.rmdir hn
        show (FuseOps.rmdir me (Path.text (names ++ [targetName])) ts s).1 ≠ _
        rw [hout]
        exact fun heq => absurd (Except.ok.inj heq) (by decide)
  | rename p =>
      obtain ⟨src, dst, ls, ld, bs, bd, x, h⟩ := h
      show (FuseOps.rename me p.oldPath p.newPath 0 ts s).1 ≠ _
      by_cases hi : NotPending ld p.newName x.inode.ino
      · obtain ⟨out, hout, -, -⟩ := rename_cross me ts h ho.rename hi
        rw [hout]
        exact fun heq => absurd (Except.ok.inj heq) (by decide)
      · rw [rename_pending me ts h ho.rename hi]
        split
        · exact nofun
        · exact fun heq => absurd (Except.ok.inj heq) (by decide)

/-- Where all clients are let in, only the journal of the destination makes a difference. -/
theorem agree_of_open (h : r.Proper s) (ho : r.OpenToAll s) (hu : r.Unhindered s)
    (hv : s'.view = s.view) (hids : s'.ids = s.ids) (me me' : C) (ts ts' : Timespec) :
    Agree (r.perform me ts s) (r.perform me' ts' s') := by
  have hopen : r.Opens s := ho.opens rfl rfl
  have hopen' : r.Opens s' := ho.opens hv hids
  cases r with
  | rmdir names targetName =>
      obtain ⟨parent, lp, lt, bp, bt, c, h⟩ := h
      exact rmdir_agree h hopen.rmdir hopen'.rmdir hv me me' ts ts'
  | rename p =>
      obtain ⟨src, dst, ls, ld, bs, bd, x, h⟩ := h
      exact rename_agree h hopen.rename hopen'.rename ((unhindered_iff h).mp hu) hv me me' ts ts'

theorem unhindered_of_agree [Nontrivial C] (h : r.Proper s) (ho : r.Opens s)
    (hall : ∀ me me', (r.perform me ⟨0, 0⟩ s).1 = (r.perform me' ⟨0, 0⟩ s).1) :
    r.Unhindered s := by
  cases r with
  | rmdir names targetName => exact trivial
  | rename p =>
      obtain ⟨src, dst, ls, ld, bs, bd, x, h⟩ := h
      rw [unhindered_iff h]
      by_contra hi
      -- the leader of the destination is told something else than any other client
      obtain ⟨other, hother⟩ := exists_ne (s.leader dst)
      have hhere := rename_pending (s.leader dst) ⟨0, 0⟩ h ho.rename hi
      have hthere := rename_pending other ⟨0, 0⟩ h ho.rename hi
      rw [if_pos rfl] at hhere
      rw [if_neg (Ne.symm hother)] at hthere
      have heq := hhere.symm.trans ((hall (s.leader dst) other).trans hthere)
      cases heq

end

def clock : Timespec := ⟨1, 0⟩

def rootInode : Inode :=
  ⟨⟨0x41ED, 0, 0, Uuid.rootIno, 1, 4096, ⟨0, 0⟩, ⟨0, 0⟩, ⟨0, 0⟩, 0⟩, none⟩

def envOf (n : UInt8) : Env := ⟨0, 0, (Creation.envOf n).newIno, clock, clock⟩

/-- The client `false` leads the root, and runs under the ids that own it. -/
def rootOnly : Cluster Bool where
  ids := fun c => if c then ⟨1000, 1000⟩ else ⟨0, 0⟩
  leader := fun _ => false
  tables := Function.update (fun _ => none) Uuid.rootIno (some (.ofNew rootInode))
  jtables := Function.update (fun _ => ∅) false
    (JournalTable.record ∅ Uuid.rootIno (.mkself rootInode)).2
  dataPool := ∅

/-- The client `true` makes "/b", and `false` creates "/a". -/
def made : Cluster Bool :=
  (onDir Uuid.rootIno (LocalOps.localCreate (envOf 2) [97] 0x1A4)
    (mkdir true (envOf 1) (Path.text [[98]]) 0x1ED clock rootOnly).2).2

/-- Each of the two leads what the other led. -/
def elsewhere : Cluster Bool :=
  { made with leader := fun dir => !made.leader dir, jtables := fun c => made.jtables !c }

/-- From "/a" to "/b/a", and back. -/
def moveInto : RenamePaths := ⟨[], [97], [[98]], [97]⟩
def moveBack : RenamePaths := ⟨[[98]], [97], [], [97]⟩

def file : Inode := Inode.make (envOf 2) (0x1A4 ||| Inode.S_IFREG)

/-- The file is open at `false` when it is moved, and is changed through the handle afterwards:
    `p_ino` of the inode that the handle has is still the root. -/
def staleChmod : Cluster Bool :=
  let moved := (rename false moveInto.oldPath moveInto.newPath 0 clock made).2
  let changed := LocalOps.localChmod ⟨file, Uuid.rootIno, moved.dataPool, moved.jtables false⟩ 0x180
  { moved with jtables := Function.update moved.jtables false changed.jtable }

/-- The root at its leader: after the mkdir, the creation, the rename and the change. -/
def rootNew : Led := (Led.mk (.ofNew rootInode) ∅ ∅).started rootInode

def rootWithDir : Led :=
  ((rootNew.withTimes clock).insertedDir [98] (DirectoryOps.newDir rootNew (envOf 1) 0x1ED)).withChild
    [98] (DirectoryOps.sizedDir (envOf 1) 0x1ED)

def rootWithFile : Led := (rootWithDir.withTimes clock).inserted [97] ⟨file, Uuid.rootIno⟩

def rootWithout : Led := rootWithFile.removed [97] file.ino

def rootChanged : Led := rootWithout.changed Uuid.rootIno
  { file with core := { file.core with iMode := 0x180 ||| Inode.S_IFREG } }

/-- "/b" at its leader: after the mkdir and the rename. -/
def dirNew : Led :=
  let self := newDirInode (envOf 1) 0x1ED clock
  (Led.mk (.ofNew self) ∅ ∅).started self

def dirWithFile : Led := dirNew.inserted [97] ⟨file, (envOf 1).newIno⟩

theorem rootNew_names : Names rootNew fun _ => none := Names.of_new rootInode ∅ ∅ rfl

theorem dirNew_names : Names dirNew fun _ => none := Names.of_new _ ∅ ∅ rfl

theorem rootWithFile_names : Names rootWithFile fun _ => none := by
  have hdir : Names rootWithDir fun _ => none :=
    ((rootNew_names.withTimes clock).insertedDir rfl (by decide) (fun n h => (nomatch h)) rfl
      (by decide)).withChild _ _
  refine (hdir.withTimes clock).inserted rfl (by decide) ?_ rfl
  intro n hn
  have hn' : rootWithDir.table.listed n = some file.ino := hn
  unfold rootWithDir Led.withChild at hn'
  rw [DentryTable.listed_setChild] at hn'
  have hlist : ((rootNew.withTimes clock).insertedDir [98]
      (DirectoryOps.newDir rootNew (envOf 1) 0x1ED)).table.listed =
      Function.update rootNew.table.listed [98] (some (envOf 1).newIno) :=
    DentryTable.listed_create rfl
  rw [hlist] at hn'
  rcases update_eq_some hn' with ⟨-, hu⟩ | ⟨-, hu⟩
  · exact absurd hu (by decide)
  · exact (nomatch hu)

theorem file_sendable : file.Sendable := by
  unfold Inode.Sendable
  rw [if_neg (by decide)]
  rfl

theorem moveInto_proper : (Request.rename moveInto).Proper made :=
  ⟨Uuid.rootIno, (envOf 1).newIno, rootWithFile, dirNew, fun _ => none, fun _ => none,
    ⟨file, Uuid.rootIno⟩, {
      components := ⟨by decide, by decide⟩
      root := rfl
      srcPath := rfl
      dstPath := ⟨_, rfl, rfl, by decide, by decide, rfl, rfl⟩
      ne := by decide
      src := ⟨rfl, rfl, rootWithFile_names⟩
      dst := ⟨rfl, rfl, dirNew_names⟩
      present := rfl
      sendable := file_sendable }⟩

theorem moveBack_proper : (Request.rename moveBack).Proper staleChmod :=
  ⟨(envOf 1).newIno, Uuid.rootIno, dirWithFile, rootChanged, fun _ => none, fun _ => none,
    ⟨file, (envOf 1).newIno⟩, {
      components := ⟨by decide, by decide⟩
      root := rfl
      srcPath := ⟨_, rfl, rfl, by decide, by decide, rfl, rfl⟩
      dstPath := rfl
      ne := by decide
      src := ⟨rfl, rfl, dirNew_names.inserted rfl (by decide) (fun n h => (nomatch h)) rfl⟩
      dst := ⟨rfl, rfl, (rootWithFile_names.removed rfl).changed _⟩
      present := rfl
      sendable := file_sendable }⟩

/-- "/b" and "/b/c", where only the owner may search "/b". -/
def privateMade : Cluster Bool :=
  (mkdir false (envOf 2) (Path.text [[98], [99]]) 0x1ED clock
    (mkdir false (envOf 1) (Path.text [[98]]) 0x1C0 clock rootOnly).2).2

/-- The client that asks is not the owner, and is let through if the owner leads "/b". -/
example :
    ((Request.rmdir [[98]] [99]).perform true clock privateMade).1 = .ok 0 ∧
    ((Request.rmdir [[98]] [99]).perform true clock
      (relocated privateMade (envOf 1).newIno true)).1 = .ok (-EACCES) := ⟨rfl, rfl⟩

end Placement

end Nmfs
