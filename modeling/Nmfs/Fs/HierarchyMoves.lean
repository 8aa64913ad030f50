import Nmfs.Fs.HierarchyCalls
import Nmfs.Fs.Rmdir
import Nmfs.Fs.VolumeSteps

/-
  mkdir, rmdir and rename against the file tree. They go over two directories, which need not have
  one leader.
-/

namespace Nmfs

open Lib

namespace Hierarchy

open FuseOps DirectoryOps NamespaceCalls

variable {C : Type} [DecidableEq C] {s s' : Cluster C} {me : C} {dir : Uuid} {led led' : Led}
  {env : Env} {name path oldPath newPath : Bytes} {mode : UInt32} {born ts : Timespec}

/-! ## mkdir -/

/-- The parent, with the new directory. -/
def withDir (led : Led) (env : Env) (name : Bytes) (mode : UInt32) : Led :=
  ((led.withTimes env.now).insertedDir name (newDir led env mode)).withChild name
    (sizedDir env mode)

theorem mkdirIn_new (me : C) (env : Env) (mode : UInt32) (born : Timespec)
    (hl : s.led dir = some led) (ho : led.tx.committed = false)
    (ht : led.tx.Turns name true) :
    ∃ born', mkdirIn me env dir name mode born s =
      (.ok 0, founded me (newDirInode env mode born') (s.put dir (withDir led env name mode))) := by
  unfold mkdirIn whereLed
  by_cases hme : s.leader dir = me
  · refine ⟨env.born, ?_⟩
    have hs : onDir dir (LocalOps.localMkdir env name mode) s =
        (.ok ⟨0, some env.newIno⟩,
          s.put dir ((withDir led env name mode).started (sizedDir env mode))) := by
      rw [onDir_led hl, localMkdir_new ho ht]
      rfl
    rw [Op.bind_apply, if_pos hme, Op.bind_ok hs]
    unfold founded
    rw [mkself_put hme]
    rfl
  · refine ⟨born, ?_⟩
    have hs : onDir dir (RpcServer.mkdirHandler env name mode) s =
        (.ok ⟨0, some env.newIno⟩, s.put dir (withDir led env name mode)) := by
      rw [onDir_led hl, mkdirHandler_new ho ht]
      rfl
    rw [Op.bind_apply, if_neg hme, Op.bind_ok (remotely_ok hs)]
    rfl

/-- The new directory, at who has made it. -/
def newLed (s : Cluster C) (me : C) (i : Inode) : Led :=
  (Led.mk (.ofNew i) (s.jtables me) s.dataPool).started i

theorem view_founded (me : C) (i : Inode) :
    (founded me i s).view = s.view.set i.ino (newLed s me i) := by
  have htx : (founded me i s).tx = Function.update s.tx i.ino (newLed s me i).tx := by
    funext d
    show ((founded me i s).jtables (Function.update s.leader i.ino me d)).getEntry d = _
    by_cases hd : d = i.ino
    · subst hd
      rw [Function.update_self, Function.update_self, Volume.jtables_founded, if_pos rfl]
      rfl
    · rw [Function.update_of_ne hd, Function.update_of_ne hd, Volume.jtables_founded]
      split
      · rename_i hl
        rw [JournalTable.getEntry_record_ne _ _ _ hd]
        rfl
      · rfl
  unfold Cluster.view
  rw [htx]
  rfl

omit [DecidableEq C] in
theorem changes_withDir (env : Env) (name : Bytes) (mode : UInt32)
    (h : led.table.thisDirInode.ino = dir) :
    Led.Changes dir led (withDir led env name mode) := by
  have hcreated : Led.Changes dir led
      ((led.withTimes env.now).created name (newDir led env mode)) :=
    ⟨(congrArg Inode.ino Led.thisDirInode_created).trans h, fun _ _ => rfl, rfl⟩
  have hinserted : Led.Changes dir led
      ((led.withTimes env.now).insertedDir name (newDir led env mode)) := hcreated.withTx _
  exact ⟨(congrArg Inode.ino Led.thisDirInode_withChild).trans hinserted.self, hinserted.others,
    hinserted.dataPool⟩

theorem founded_refines (me : C) (born : Timespec) (h : s.view.Sound)
    (hl : s.led dir = some led) (hat : s.view.At dir led)
    (hlist : led.table.listed name = none) (hn : NewIno s env)
    (hmode : Inode.isDir (mode ||| Inode.S_IFDIR) = true) :
    let s' := founded me (newDirInode env mode born) (s.put dir (withDir led env name mode))
    s'.view.Sound ∧ tree s' = (tree s).made dir name env.newIno true := by
  obtain ⟨hnil, hroot, htable, hnone⟩ := hn.fresh
  have hnew : s.view.tree.isDir env.newIno = false := by
    show (s.tables env.newIno).isSome = false
    rw [htable]
    rfl
  have hne : dir ≠ env.newIno := by
    rintro rfl
    rw [hat.isDir] at hnew
    cases hnew
  have hchanges := changes_withDir env name mode (h.self hat)
  have hself := h.self hat
  obtain ⟨-, base, hnames⟩ := h.names_at hat
  -- the new directory comes first, so that its inode may get a name
  let i := newDirInode env mode born
  let led₁ := newLed (s.put dir (withDir led env name mode)) me i
  have huntold : ((s.put dir (withDir led env name mode)).jtables me).getEntry i.ino =
      Transaction.new i.ino := by
    show JournalTable.getEntry (Function.update s.jtables (s.leader dir) _ me) env.newIno = _
    by_cases hme : me = s.leader dir
    · rw [hme, Function.update_self, hchanges.others _ (Ne.symm hne),
        (Cluster.led_eq_some.mp hl).2.1]
      exact hn.untold _
    · rw [Function.update_of_ne hme]
      exact hn.untold me
  have hself₁ : led₁.table.dirIno = env.newIno := rfl
  have hnames₁ : Names led₁ fun _ => none := Names.of_new i _ _ huntold
  have hfiles : ∀ u g, led₁.tx.fInodes.lookup u ≠ some (some g) := by
    intro u g
    have htx : led₁.tx.fInodes = (Transaction.new i.ino).fInodes := by
      show (JournalTable.getEntry (JournalTable.record _ i.ino (.mkself i)).2 i.ino).fInodes = _
      rw [JournalTable.getEntry_record, huntold]
      rfl
    rw [htx]
    exact nofun
  obtain ⟨h₁, ht₁⟩ := h.founded hnew hnone hself₁ hnames₁ (fun _ => rfl) hfiles
  obtain ⟨h₂, ht₂⟩ := h₁.withTimes (hat.set_of_ne hne) env.now
  have hdirs : ((s.view.set env.newIno led₁).set dir (led.withTimes env.now)).tree.isDir env.newIno =
      true := by
    rw [ht₂, ht₁]
    exact Function.update_self ..
  have hnameless : ((s.view.set env.newIno led₁).set dir (led.withTimes env.now)).Nameless dir
      (newDir led env mode) := by
    refine ⟨hnil, hroot, fun d n => ?_, hself, ⟨hmode.trans hdirs.symm, fun hfile => ?_⟩,
      fun d hd hpend => ?_⟩
    · rw [ht₂, ht₁]
      exact hnone d n
    · exact absurd (hdirs.symm.trans hfile) (by decide)
    · obtain ⟨-, g, hg⟩ := hpend
      rw [show ((s.view.set env.newIno led₁).set dir (led.withTimes env.now)).tx d =
        (s.view.set env.newIno led₁).tx d from Function.update_of_ne hd _ _] at hg
      by_cases hdn : d = env.newIno
      · rw [hdn, show (s.view.set env.newIno led₁).tx env.newIno = led₁.tx from View.at_set.2] at hg
        exact hfiles _ g hg
      · rw [show (s.view.set env.newIno led₁).tx d = s.tx d from Function.update_of_ne hdn _ _,
          show (newDir led env mode).inode.ino = env.newIno from rfl, hn.unknown d] at hg
        cases hg
  have hlive : (led.withTimes env.now).tx.fInodes.lookup env.newIno ≠ some none := by
    rw [Led.tx_withTimes, ← hat.2]
    exact fun hdead => nomatch (hn.unknown dir).symm.trans hdead
  have hfree : (led.withTimes env.now).table.listed name = none := hlist
  obtain ⟨h₃, ht₃⟩ := h₂.insertedDir View.at_set hnameless hfree hlive
  rw [View.set_set] at h₃ ht₃
  have hchild : ((led.withTimes env.now).insertedDir name (newDir led env mode)).table.child name =
      some (newDir led env mode) := by
    have hnone : (led.withTimes env.now).table.child name = none := hnames.child_none hlist
    exact (congrFun (DentryTable.child_create hnone) name).trans (Function.update_self ..)
  obtain ⟨h₄, ht₄⟩ := h₃.withChild (f := sizedDir env mode) View.at_set hchild
    rfl rfl rfl
  rw [View.set_set] at h₄ ht₄
  have hview : (founded me i (s.put dir (withDir led env name mode))).view =
      (s.view.set env.newIno led₁).set dir (withDir led env name mode) := by
    rw [view_founded, Cluster.view_put hl hchanges]
    exact View.set_comm hne
  refine ⟨?_, ?_⟩
  · rw [hview]
    exact h₄
  · show (founded me i (s.put dir (withDir led env name mode))).view.tree = _
    rw [hview]
    refine ht₄.trans (ht₃.trans ?_)
    rw [ht₂, ht₁]
    rfl

theorem mkdir_refines (h : s.view.Sound) (ha : Asked s (.onDirs (.mkdir me env path mode born))) :
    Refines s (.onDirs (.mkdir me env path mode born)) := by
  obtain ⟨hkernel, hn, hmode⟩ := ha.meant
  have hp := hkernel.normal.parts
  have hblock : mkdirBlock me env path mode born s =
      goOn ((tree s).find Uuid.rootIno (front path))
        (fun dir => mkdirIn me env dir (last path) mode born) s := by
    rw [mkdirBlock_eq, Op.bind_ok (Op.lift_ok hp.file), Op.bind_ok (Op.lift_ok hp.parent)]
    exact found h hkernel _
  cases hf : (tree s).find Uuid.rootIno (front path) with
  | error e =>
      rw [hf] at hblock
      exact refines_refused h (FileTree.perform_lost hf) (handle_caught .noEntry hblock rfl)
  | ok dir =>
      obtain ⟨led, base, hl, hat, hdir, hnames⟩ := leads h (FileTree.isDir_of_find hf)
      rw [hf] at hblock
      have hperform : perform s (.onDirs (.mkdir me env path mode born)) = _ :=
        FileTree.perform_make hf
      have he : (tree s).entries dir (last path) = led.table.listed (last path) :=
        congrFun hat.entries _
      cases hlist : led.table.listed (last path) with
      | some x =>
          rw [he, hlist] at hperform
          exact absurd (List.mem_singleton.mp (ha.refused .taken hperform)) (by decide)
      | none =>
          rw [he, hlist] at hperform
          obtain ⟨born', hmkdir⟩ := mkdirIn_new me env mode born hl
            hnames.uncommitted (hnames.turns_new hlist)
          exact refines_done hperform (Op.handle_ok (hblock.trans hmkdir))
            (founded_refines me born' h hl hat hlist hn hmode)

/-! ## rmdir -/

theorem getMode_absent (me : C) (hl : s.led dir = some led) (hc : led.table.child name = none) :
    getMode me dir name s = (if s.leader dir = me then .error .noEntry
      else .error (.runtimeError "rpc_client::get_mode() failed"), s) := by
  have hs : onDir dir (Led.getChildInode name) s =
      ((.error .noEntry, s) : Except Err MemInode × Cluster C) := by
    rw [onDir_led hl, Led.getChildInode_absent hc]
    dsimp only
    rw [Cluster.put_led hl]
  unfold getMode whereLed
  by_cases hme : s.leader dir = me
  · rw [Op.bind_apply, if_pos hme, hs, if_pos hme]
  · rw [Op.bind_apply, if_neg hme, remotely_error hs, if_neg hme]

theorem rmdirIn_absent (me : C) (ts : Timespec) (hl : s.led dir = some led)
    (hc : led.table.child name = none) :
    rmdirIn me dir name ts s = (if s.leader dir = me then .error .noEntry
      else .error (.runtimeError "rpc_client::get_mode() failed"), s) := by
  have hmode := getMode_absent me hl hc
  unfold rmdirIn
  rw [Op.bind_ok (checkChildInode_led hl)]
  by_cases hme : s.leader dir = me
  · rw [if_pos hme] at hmode ⊢
    exact Op.bind_error hmode
  · rw [if_neg hme] at hmode ⊢
    exact Op.bind_error hmode

theorem rmdirIn_file (me : C) (ts : Timespec) {c : MemInode} (hl : s.led dir = some led)
    (hc : led.table.child name = some c)
    (hfile : Inode.isDir c.inode.core.iMode = false) :
    rmdirIn me dir name ts s = (.ok (-LocalOps.ENOTDIR), s) := by
  unfold rmdirIn
  rw [Op.bind_ok (checkChildInode_led hl), Op.bind_ok (getMode_led hl hc),
    if_pos (by rw [hfile]; decide)]
  rfl

omit [DecidableEq C] in
theorem filled_iff {x : Uuid} (hat : s.view.At x led) :
    0 < led.table.getChildNum ↔ ∃ k, (tree s).entries x k ≠ none := by
  have he : (tree s).entries x = led.table.listed := hat.entries
  rw [he]
  constructor
  · intro hn
    obtain ⟨e, he⟩ := List.exists_mem_of_length_pos hn
    refine ⟨e.1, fun hnone => AList.lookup_eq_none.mp hnone ?_⟩
    exact List.mem_map_of_mem he
  · rintro ⟨k, hk⟩
    exact Rmdir.filled_of_listed hk

omit [DecidableEq C] in
/-- The entry goes, and what it names. -/
theorem dropped_refines (h : s.view.Sound) (hat : s.view.At dir led) {x : Uuid} {lt : Led}
    (hl : led.table.listed name = some x) (hempty : ∀ k, (tree s).entries x k = none)
    (hne : x ≠ dir) {v : View}
    (hv : v = ((s.view.set x (lt.ended x)).drop x).set dir ((led.withTimes ts).removedDir name x)) :
    v.Sound ∧ v.tree = (tree s).removedDir dir name x := by
  have he : (tree s).entries dir name = some x := (congrFun hat.entries name).trans hl
  have hgone := ((Midway.start h hat).withTimes ts).removedDir hl
  have hleaf : ∀ k, (s.view.set dir ((led.withTimes ts).removedDir name x)).tree.entries x k =
      none := by
    intro k
    rw [hgone.tree]
    exact (Namespace.set_of_ne fun hk => hne hk.1).trans (hempty k)
  have hno : ∀ d n, (s.view.set dir ((led.withTimes ts).removedDir name x)).tree.entries d n ≠
      some x := by
    intro d n
    rw [hgone.tree]
    exact h.forest.set_none_ne he
  have hroot : Uuid.rootIno ≠ x := by
    rintro rfl
    exact h.forest.rooted dir name he
  have ht : v.tables = Function.update
      (s.view.set dir ((led.withTimes ts).removedDir name x)).tables x none := by
    rw [hv]
    show Function.update (Function.update (Function.update s.tables x _) x none) dir _ = _
    rw [Function.update_idem, Function.update_comm hne]
    rfl
  have hx : ∀ d, d ≠ x → v.tx d = (s.view.set dir ((led.withTimes ts).removedDir name x)).tx d := by
    intro d hd
    rw [hv]
    show Function.update (Function.update s.tx x _) dir _ d = Function.update s.tx dir _ d
    by_cases hdd : d = dir
    · rw [hdd, Function.update_self, Function.update_self]
    · rw [Function.update_of_ne hdd, Function.update_of_ne hdd, Function.update_of_ne hd]
  obtain ⟨hsound, htree⟩ := hgone.sound.dropped hleaf hno hroot ht hx
  refine ⟨hsound, htree.trans ?_⟩
  rw [hgone.tree]
  rfl

theorem rmdir_refines (h : s.view.Sound) (ha : Asked s (.onDirs (.rmdir me path ts))) :
    Refines s (.onDirs (.rmdir me path ts)) := by
  have hkernel : FromKernel s path := ha.meant
  have hp := hkernel.normal.parts
  have hblock : rmdirBlock me path ts s =
      goOn ((tree s).find Uuid.rootIno (front path))
        (fun dir => rmdirIn me dir (last path) ts) s := by
    rw [rmdirBlock_eq, Op.bind_ok (Op.lift_ok hp.file), Op.bind_ok (Op.lift_ok hp.parent)]
    exact found h hkernel _
  cases hf : (tree s).find Uuid.rootIno (front path) with
  | error e =>
      rw [hf] at hblock
      refine refines_refused h (FileTree.perform_lost hf) ?_
      rw [rmdir_absent_here (not_elsewhere hf)]
      exact handle_caught .noEntry hblock rfl
  | ok dir =>
      obtain ⟨led, base, hl, hat, hdir, hnames⟩ := leads h (FileTree.isDir_of_find hf)
      rw [hf] at hblock
      have hperform : perform s (.onDirs (.rmdir me path ts)) = _ := FileTree.perform_removeDir hf
      have he : (tree s).entries dir (last path) = led.table.listed (last path) :=
        congrFun hat.entries _
      cases hlist : led.table.listed (last path) with
      | none =>
          rw [hlist] at he
          rw [FileTree.entry_none he] at hperform
          have habsent := rmdirIn_absent me ts hl (hnames.child_none hlist)
          exact refines_absent h hperform rfl (hblock.trans habsent)
            (fun hme => rmdir_absent_here fun hno => (elsewhere_iff hf).mp hno hme)
            fun hme => rmdir_absent_there ((elsewhere_iff hf).mpr hme)
      | some x =>
          rw [hlist] at he
          rw [FileTree.entry_some he] at hperform
          obtain ⟨c, hc, rfl⟩ := child_of_entry hat hnames he
          have hmode := (h.kinds dir led _ c hat hc).1
          cases hdirx : (tree s).isDir c.inode.ino with
          | false =>
              have hfile := rmdirIn_file me ts hl hc (hmode.trans hdirx)
              exact refines_refused h (hperform.trans (if_pos hdirx)) (Op.handle_ok (hblock.trans hfile))
          | true =>
              have hperform' := hperform.trans (if_neg (by rw [hdirx]; decide))
              obtain ⟨lt, bt, hlt, hatt, hdirt, hnamest⟩ := leads h hdirx
              have hne : c.inode.ino ≠ dir := by
                intro heq
                rw [heq] at he
                exact h.forest.acyclic_of_reach (FileTree.reach_of_find hf) (.single ⟨_, he⟩)
              have htarget : RmdirTarget s (front path) (last path) dir led lt base bt c :=
                ⟨hp.components, h.root, resolves h hf, hne, ⟨hl, hdir, hnames⟩,
                  ⟨hlt, hdirt, hnamest⟩, hc, hmode.trans hdirx⟩
              have hpath : ∀ {r}, FuseOps.rmdir me (Path.text (front path ++ [last path])) ts s = r →
                  (Request.onDirs (.rmdir me path ts)).perform s = r := by
                intro r hr
                rw [← hp.path] at hr
                exact hr
              by_cases hn : 0 < lt.table.getChildNum
              · have hfull := (filled_iff hatt).mp hn
                exact refines_refused h (hperform'.trans (if_pos hfull))
                  (hpath (rmdir_full me ts htarget hkernel.opens hn))
              · have hempty : ¬ ∃ k, (tree s).entries c.inode.ino k ≠ none := by
                  rw [← filled_iff hatt]
                  exact hn
                obtain ⟨s', hr, -, hview⟩ := rmdir_empty me ts htarget hkernel.opens hn
                refine refines_done (hperform'.trans (if_neg hempty)) (hpath hr)
                  (dropped_refines h hat hlist (fun k => ?_) hne hview)
                exact not_not.mp (not_exists.mp hempty k)

/-! ## rename -/

section

variable {base : Bytes → Option Uuid} {c : MemInode} {oldName newName : Bytes} {flags : UInt32}

theorem child_freed (hc : led.table.child oldName = some c) (hne : oldName ≠ newName) :
    (led.freed newName).table.child oldName = some c := by
  unfold Led.freed
  split
  · exact hc
  · refine (congrFun DentryTable.child_delete oldName).trans ?_
    rw [Function.update_of_ne hne]
    exact hc

/-- The entry moved within the directory. -/
def moved (led : Led) (oldName newName : Bytes) (c : MemInode) : Led :=
  ((led.freed newName).removed oldName c.inode.ino).inserted newName c

/-- The new name is still free after the old one is. -/
theorem listed_removed_freed (hn : Names led base) (hc : led.table.child oldName = some c)
    (hne : oldName ≠ newName) :
    ((led.freed newName).removed oldName c.inode.ino).table.listed newName = none := by
  have hlist : ((led.freed newName).removed oldName c.inode.ino).table.listed =
      Function.update (led.freed newName).table.listed oldName none :=
    DentryTable.listed_delete (child_freed hc hne)
  rw [hlist, Function.update_of_ne (Ne.symm hne), listed_freed hn, Function.update_self]

theorem moveEntry_ok (hn : Names led base) (hc : led.table.child oldName = some c)
    (hne : oldName ≠ newName) (hnew : Path.IsComponent newName) :
    moveEntry (led.table.checkChildInode newName) oldName newName c led =
      (.ok ⟨0, none⟩, moved led oldName newName c) := by
  have hfreed : Names (led.freed newName) base := freed_names hn
  have hl := hfreed.listed_of_child (child_freed hc hne)
  have hdead : ((led.freed newName).removed oldName c.inode.ino).tx.fInodes.lookup c.inode.ino =
      some none := by
    rw [Led.fInodes_removed]
    exact AList.lookup_insert _
  have htakes : ((led.freed newName).removed oldName c.inode.ino).tx.TakesNew newName c.inode.ino :=
    (hfreed.removed hl).takesNew (listed_removed_freed hn hc hne) (by rw [hdead]; exact nofun)
  unfold moveEntry
  rw [check_of_listed hnew, Op.bind_ok (removeDst_freed hn),
    Op.bind_ok (removeSrc_ok (hfreed.takesRemoval hl)), Op.bind_ok (insertTarget_ok htakes)]
  rfl

/-- Only the leader sets the times. -/
theorem renameSameParent_moved (me : C) (ts : Timespec) (hl : s.led dir = some led)
    (hn : Names led base) (hc : led.table.child oldName = some c) (hne : oldName ≠ newName)
    (hold : Path.getFilenameFromPath oldPath = .ok oldName)
    (hnew : Path.getFilenameFromPath newPath = .ok newName) (hname : Path.IsComponent newName)
    (hparadox : paradoxCheck oldPath newPath = .ok false) :
    ∃ led₀, (led₀ = led.withTimes ts ∨ led₀ = led) ∧
      renameSameParent me dir oldPath newPath 0 ts s =
        (.ok 0, s.put dir (moved led₀ oldName newName c)) := by
  unfold renameSameParent whereLed
  by_cases hme : s.leader dir = me
  · refine ⟨led.withTimes ts, .inl rfl, ?_⟩
    have hsection : LocalOps.localRenameSameParent ts oldName newName 0 led =
        (.ok ⟨0, none⟩, moved (led.withTimes ts) oldName newName c) := by
      unfold LocalOps.localRenameSameParent
      rw [Op.bind_ok (Led.getChildInode_present hc), Op.bind_ok Led.checkChildInode_apply,
        Op.bind_ok Led.setParentTimes_apply, if_pos rfl]
      exact moveEntry_ok (hn.withTimes ts) hc hne hname
    have hs : onDir dir (LocalOps.localRenameSameParent ts oldName newName 0) s =
        (.ok ⟨0, none⟩, s.put dir (moved (led.withTimes ts) oldName newName c)) := by
      rw [onDir_led hl, hsection]
    rw [if_pos hme, Op.bind_ok (Op.lift_ok hparadox), if_neg (by decide),
      Op.bind_ok (Op.lift_ok hold), Op.bind_ok (Op.lift_ok hnew)]
    exact Op.bind_ok hs
  · refine ⟨led, .inr rfl, ?_⟩
    have hsection : RpcServer.renameSameParentHandler oldName newName 0 led =
        (.ok ⟨0, none⟩, moved led oldName newName c) := by
      unfold RpcServer.renameSameParentHandler
      rw [Op.bind_ok (Led.getChildInode_present hc), Op.bind_ok Led.checkChildInode_apply,
        if_pos rfl]
      exact moveEntry_ok hn hc hne hname
    have hs : onDir dir (RpcServer.renameSameParentHandler oldName newName 0) s =
        (.ok ⟨0, none⟩, s.put dir (moved led oldName newName c)) := by
      rw [onDir_led hl, hsection]
    rw [if_neg hme]
    apply remotely_ok
    rw [Op.bind_ok (Op.lift_ok hold), Op.bind_ok (Op.lift_ok hnew)]
    exact Op.bind_ok hs

theorem renameSameParent_absent (me : C) (ts : Timespec) (hl : s.led dir = some led)
    (hc : led.table.child oldName = none) (hold : Path.getFilenameFromPath oldPath = .ok oldName)
    (hnew : Path.getFilenameFromPath newPath = .ok newName)
    (hparadox : paradoxCheck oldPath newPath = .ok false) :
    renameSameParent me dir oldPath newPath 0 ts s = (if s.leader dir = me then .error .noEntry
      else .error (.runtimeError needRecovery), s) := by
  have hs : ∀ f : MemInode → Section Reply,
      onDir dir (Led.getChildInode oldName >>= f) s = (.error .noEntry, s) := by
    intro f
    rw [onDir_led hl, Op.bind_error (Led.getChildInode_absent hc)]
    dsimp only
    rw [Cluster.put_led hl]
  unfold renameSameParent whereLed
  by_cases hme : s.leader dir = me
  · rw [if_pos hme, if_pos hme, Op.bind_ok (Op.lift_ok hparadox), if_neg (by decide),
      Op.bind_ok (Op.lift_ok hold), Op.bind_ok (Op.lift_ok hnew)]
    exact Op.bind_error (hs _)
  · rw [if_neg hme, if_neg hme]
    apply remotely_error
    rw [Op.bind_ok (Op.lift_ok hold), Op.bind_ok (Op.lift_ok hnew)]
    exact Op.bind_error (hs _)

omit [DecidableEq C] in
/-- The moved inode between its two names; `a` is where it was. -/
theorem nameless (h : s.view.Sound) {a b : Uuid} (hat : s.view.At a led)
    (hc : led.table.child oldName = some c) {v : View} {i : MemInode}
    (hcore : i.inode.core = c.inode.core) (hp : i.pIno = b) (hdirs : v.tree.isDir = (tree s).isDir)
    (hgone : ∀ d n, v.tree.entries d n ≠ some c.inode.ino)
    (hpending : ∀ d, d ≠ b → v.Pending d c.inode.ino → d ≠ a ∧ s.view.Pending d c.inode.ino) :
    v.Nameless b i := by
  obtain ⟨-, base, hn⟩ := h.names_at hat
  have hino : i.inode.ino = c.inode.ino := congrArg Inode.Core.iIno hcore
  have hl := hn.listed_of_child hc
  have he : (tree s).entries a oldName = some c.inode.ino := (congrFun hat.entries _).trans hl
  refine ⟨?_, ?_, fun d n => ?_, hp, ?_, fun d hd hpend => ?_⟩
  · rw [hino]
    exact hn.notNil _ _ hl
  · rw [hino]
    intro hroot
    exact h.forest.rooted a oldName (hroot ▸ he)
  · rw [hino]
    exact hgone d n
  · unfold View.Kind
    rw [hcore, hino, hdirs]
    exact h.kinds a led oldName c hat hc
  · rw [hino] at hpend
    obtain ⟨hne, hold⟩ := hpending d hd hpend
    exact hne (h.files d _ hold a oldName he).symm

omit [DecidableEq C] in
theorem Midway.moved {led₀ : Led} (hm : Midway s dir led led₀ (Hierarchy.tree s)) (h : s.view.Sound)
    (hat : s.view.At dir led) (hc : led.table.child oldName = some c)
    (hc₀ : led₀.table.child oldName = some c) (hne : oldName ≠ newName) :
    Midway s dir led (Hierarchy.moved led₀ oldName newName c)
      ((Hierarchy.tree s).moved dir oldName dir newName) := by
  obtain ⟨base, hn₀⟩ := hm.inStep
  obtain ⟨hdir, base', hn⟩ := h.names_at hat
  have he : (Hierarchy.tree s).entries dir oldName = some c.inode.ino :=
    (congrFun hat.entries _).trans (hn.listed_of_child hc)
  have hremoved := (hm.freed newName).removed
    ((freed_names hn₀).listed_of_child (child_freed hc₀ hne))
  have hi : (s.view.set dir ((led₀.freed newName).removed oldName c.inode.ino)).Nameless dir c := by
    refine nameless h hat hc rfl ((hn.parent _ c hc).trans hdir) ?_ (fun d n hd => ?_)
      fun d hd hpend => ⟨hd, ?_⟩
    · rw [hremoved.tree]
      rfl
    · rw [hremoved.tree] at hd
      have hd' : Namespace.set (Namespace.set (Hierarchy.tree s).entries dir newName none) dir oldName
          none d n = some c.inode.ino := hd
      rw [Namespace.set_comm fun heq => hne heq.2.symm] at hd'
      exact h.forest.set_none_ne he (Namespace.set_none_subset hd')
    · obtain ⟨hdir', g, hg⟩ := hpend
      have htx : (s.view.set dir ((led₀.freed newName).removed oldName c.inode.ino)).tx d =
          s.view.tx d := Function.update_of_ne hd _ _
      rw [hremoved.tree] at hdir'
      rw [htx] at hg
      exact ⟨hdir', g, hg⟩
  have hinserted := hremoved.inserted hi (listed_removed_freed hn₀ hc₀ hne)
  rw [FileTree.moved_within he (Ne.symm hne)] at hinserted
  exact hinserted

theorem renameNotSameParentSrc_absent (me : C) (hl : s.led dir = some led)
    (hc : led.table.child oldName = none) (hold : Path.getFilenameFromPath oldPath = .ok oldName) :
    renameNotSameParentSrc me dir oldPath 0 s = (if s.leader dir = me then .error .noEntry
      else .error (.runtimeError needRecovery), s) := by
  have hs : ∀ {α : Type} (f : MemInode → Section α),
      onDir dir (Led.getChildInode oldName >>= f) s = (.error .noEntry, s) := by
    intro α f
    rw [onDir_led hl, Op.bind_error (Led.getChildInode_absent hc)]
    dsimp only
    rw [Cluster.put_led hl]
  unfold renameNotSameParentSrc whereLed
  by_cases hme : s.leader dir = me
  · rw [if_pos hme, if_pos hme, Op.bind_ok (Op.lift_ok hold)]
    exact Op.bind_error (hs _)
  · rw [if_neg hme, if_neg hme]
    apply Op.bind_error
    apply remotely_error
    rw [Op.bind_ok (Op.lift_ok hold)]
    exact hs _

/-- The second part, after the first one has taken the old name. The inode comes as it was or as it
    has been sent. -/
theorem renameNotSameParentDst_refines (me : C) (h : s.view.Sound) {a b : Uuid}
    (hl : s.led a = some led) (hat : s.view.At a led) (hc : led.table.child oldName = some c)
    (hne : a ≠ b) (hb : (tree s).isDir b = true) {j : Inode} (hj : j.core = c.inode.core)
    (hnew : Path.getFilenameFromPath newPath = .ok newName) :
    ∃ s', renameNotSameParentDst me b j (((tree s).entries b newName).getD Uuid.nil) newPath 0
        (s.put a (led.removed oldName c.inode.ino)) = (.ok 0, s') ∧
      s'.view.Sound ∧ tree s' = (tree s).moved a oldName b newName := by
  obtain ⟨-, base, hn⟩ := h.names_at hat
  have hlist := hn.listed_of_child hc
  have he : (tree s).entries a oldName = some c.inode.ino := (congrFun hat.entries _).trans hlist
  let s₁ := s.put a (led.removed oldName c.inode.ino)
  obtain ⟨h₁, ht₁⟩ : s₁.view.Sound ∧ tree s₁ = (tree s).removed a oldName :=
    ((Midway.start h hat).removed hlist).put hl
  have hview : s₁.view = s.view.set a (led.removed oldName c.inode.ino) :=
    Cluster.view_put hl (Led.changes_removed (h.self hat))
  obtain ⟨lb, bb, hlb, hatb, -, hnb⟩ := leads h₁ (show (tree s₁).isDir b = true by rw [ht₁]; exact hb)
  have hentry : lb.table.listed newName = (tree s).entries b newName := by
    rw [← hatb.entries]
    show (tree s₁).entries b newName = _
    rw [ht₁]
    exact Namespace.set_of_ne fun heq => hne heq.1.symm
  have htx : ∀ d, d ≠ a → s₁.view.tx d = s.view.tx d := by
    intro d hd
    rw [hview]
    exact Function.update_of_ne hd _ _
  have hnot : NotPending lb newName c.inode.ino := by
    intro g hg
    rw [← hatb.2, htx b (Ne.symm hne)] at hg
    exact absurd (h.files b _ ⟨hb, g, hg⟩ a oldName he) hne
  have hdone : ∀ i : Inode, i.core = c.inode.core →
      (s₁.put b ((lb.freed newName).inserted newName ⟨i, b⟩)).view.Sound ∧
        tree (s₁.put b ((lb.freed newName).inserted newName ⟨i, b⟩)) =
          (tree s).moved a oldName b newName := by
    intro i hi
    have hfreed := (Midway.start h₁ hatb).freed newName
    have hnameless : (s₁.view.set b (lb.freed newName)).Nameless b ⟨i, b⟩ := by
      refine nameless h hat hc hi rfl ?_ (fun d n hd => ?_) fun d hd hpend => ?_
      · rw [hfreed.tree, ht₁]
        rfl
      · rw [hfreed.tree, ht₁] at hd
        exact h.forest.set_none_ne he (Namespace.set_none_subset hd)
      · obtain ⟨hdir, g, hg⟩ := hpend
        rw [hfreed.tree, ht₁] at hdir
        rw [show (s₁.view.set b (lb.freed newName)).tx d = s₁.view.tx d from
          Function.update_of_ne hd _ _] at hg
        have hda : d ≠ a := by
          rintro rfl
          rw [hview, show (s.view.set d (led.removed oldName c.inode.ino)).tx d =
            (led.removed oldName c.inode.ino).tx from View.at_set.2, Led.fInodes_removed,
            AList.lookup_insert] at hg
          cases hg
        rw [htx d hda] at hg
        exact ⟨hda, hdir, g, hg⟩
    have hfree : (lb.freed newName).table.listed newName = none := by
      rw [listed_freed hnb, Function.update_self]
    have hinserted := hfreed.inserted hnameless hfree
    rw [ht₁] at hinserted
    have hmoved := hinserted.put hlb
    rw [show (⟨i, b⟩ : MemInode).inode.ino = c.inode.ino from congrArg Inode.Core.iIno hi,
      FileTree.moved_across he] at hmoved
    exact hmoved
  have hsection : ∀ i : Inode, i.core = c.inode.core →
      dstSection ⟨i, b⟩ (((tree s).entries b newName).getD Uuid.nil) newName lb =
        (.ok ⟨0, none⟩, (lb.freed newName).inserted newName ⟨i, b⟩) := by
    intro i hi
    rw [← hentry]
    apply dstSection_ok hnb
    rw [show (⟨i, b⟩ : MemInode).inode.ino = c.inode.ino from congrArg Inode.Core.iIno hi]
    exact hnot
  by_cases hme : s₁.leader b = me
  · exact ⟨_, renameNotSameParentDst_here hnew hme hlb (h₁.self hatb) (hsection j hj), hdone j hj⟩
  · have hsent : (Inode.ofFields j.toFields).core = c.inode.core :=
      (Inode.core_ofFields_toFields j).trans hj
    exact ⟨_, renameNotSameParentDst_sent hnew hme hlb (h₁.self hatb) (hsection _ hsent),
      hdone _ hsent⟩

theorem rename_absent (h : renameBlock me oldPath newPath 0 ts s =
      (if s.leader dir = me then .error .noEntry else .error (.runtimeError needRecovery), s))
    (hf : (tree s).find Uuid.rootIno (front oldPath) = .ok dir) {b : Uuid}
    (hb : (tree s).find Uuid.rootIno (front newPath) = .ok b) :
    (renameBlock me oldPath newPath 0 ts).handle renameCatch s =
      (answer s (.onDirs (.rename me oldPath newPath 0 ts)) (.error .absent), s) := by
  by_cases hme : s.leader dir = me
  · rw [if_pos hme] at h
    rw [rename_absent_here fun hno => (elsewhere_iff hf).mp hno.1 hme]
    exact handle_caught _ h rfl
  · rw [if_neg hme] at h
    rw [rename_absent_there ((elsewhere_iff hf).mpr hme) hb]
    exact handle_caught _ h rfl

/-- A rename with two parents, from where they are found. -/
def crossIn (me : C) (src dst : Uuid) (oldPath newPath : Bytes) : ClientOp C Int := do
  let newName ← Op.lift (Path.getFilenameFromPath newPath)
  let checkDstIno ← checkChildInode me dst newName
  let target ← renameNotSameParentSrc me src oldPath 0
  renameNotSameParentDst me dst target checkDstIno newPath 0

theorem perform_rename (hpaths : oldPath ≠ newPath) {r : Except Err Int × Cluster C}
    (h : (renameBlock me oldPath newPath flags ts).handle renameCatch s = r) :
    (Request.onDirs (.rename me oldPath newPath flags ts)).perform s = r := by
  show (if _ then _ else _ : ClientOp C Int) s = _
  rw [if_neg hpaths]
  exact h

theorem rename_within (h : s.view.Sound) (hkernel : FromKernel s oldPath)
    (hkernel' : FromKernel s newPath) (hpaths : oldPath ≠ newPath)
    (honly : ∀ e, perform s (.onDirs (.rename me oldPath newPath 0 ts)) = .error e → e = .absent)
    (hfront : front oldPath = front newPath) :
    Refines s (.onDirs (.rename me oldPath newPath 0 ts)) := by
  have hp := hkernel.normal.parts
  have hp' := hkernel'.normal.parts
  have hblock : renameBlock me oldPath newPath 0 ts s =
      goOn ((tree s).find Uuid.rootIno (front oldPath))
        (fun dir => renameSameParent me dir oldPath newPath 0 ts) s := by
    unfold renameBlock
    rw [Op.bind_ok (Op.lift_ok hp.parent), Op.bind_ok (Op.lift_ok hp'.parent),
      if_pos (congrArg Path.text hfront)]
    exact found h hkernel _
  have hne : last oldPath ≠ last newPath := by
    intro heq
    apply hpaths
    rw [hp.path, hp'.path, hfront, heq]
  have hparadox : paradoxCheck oldPath newPath = .ok false := by
    rw [hp.path, hp'.path, hfront]
    exact paradoxCheck_siblings hp'.last hne
  cases hf : (tree s).find Uuid.rootIno (front oldPath) with
  | error e =>
      rw [hf] at hblock
      refine refines_refused h (FileTree.perform_lost hf) (perform_rename hpaths ?_)
      rw [rename_absent_here fun hno => not_elsewhere hf hno.1]
      exact handle_caught .noEntry hblock rfl
  | ok dir =>
      have hf' := hf
      rw [hfront] at hf'
      rw [hf] at hblock
      obtain ⟨led, base, hl, hat, -, hn⟩ := leads h (FileTree.isDir_of_find hf)
      cases hc : led.table.child (last oldPath) with
      | none =>
          have he : (tree s).entries dir (last oldPath) = none :=
            (congrFun hat.entries _).trans (hn.listed_none hc)
          exact refines_refused h (FileTree.perform_move_absent hf hf' he) (perform_rename hpaths
            (rename_absent (hblock.trans (renameSameParent_absent me ts hl hc hp.file hp'.file hparadox))
              hf hf'))
      | some c =>
          have he : (tree s).entries dir (last oldPath) = some c.inode.ino :=
            (congrFun hat.entries _).trans (hn.listed_of_child hc)
          obtain ⟨led₀, hled₀, hmoved⟩ :=
            renameSameParent_moved me ts hl hn hc hne hp.file hp'.file hp'.last hparadox
          have hstart := Midway.start h hat
          have hm : Midway s dir led led₀ (tree s) ∧ led₀.table.child (last oldPath) = some c := by
            rcases hled₀ with rfl | rfl
            · exact ⟨hstart.withTimes ts, hc⟩
            · exact ⟨hstart, hc⟩
          exact refines_done (FileTree.perform_move_done hf hf' he honly)
            (perform_rename hpaths (Op.handle_ok (hblock.trans hmoved)))
            ((hm.1.moved h hat hc hm.2 hne).put hl)

theorem rename_across (h : s.view.Sound) (hkernel : FromKernel s oldPath)
    (hkernel' : FromKernel s newPath) (hpaths : oldPath ≠ newPath)
    (honly : ∀ e, perform s (.onDirs (.rename me oldPath newPath 0 ts)) = .error e → e = .absent)
    (hfront : front oldPath ≠ front newPath) :
    Refines s (.onDirs (.rename me oldPath newPath 0 ts)) := by
  have hp := hkernel.normal.parts
  have hp' := hkernel'.normal.parts
  have hparents : Path.text (front oldPath) ≠ Path.text (front newPath) :=
    fun heq => hfront (Path.text_inj hp.front hp'.front heq)
  have hblock : renameBlock me oldPath newPath 0 ts s =
      goOn ((tree s).find Uuid.rootIno (front oldPath)) (fun src =>
        goOn ((tree s).find Uuid.rootIno (front newPath)) fun dst =>
          crossIn me src dst oldPath newPath) s := by
    unfold renameBlock
    rw [Op.bind_ok (Op.lift_ok hp.parent), Op.bind_ok (Op.lift_ok hp'.parent), if_neg hparents]
    refine (found h hkernel _).trans ?_
    cases (tree s).find Uuid.rootIno (front oldPath) with
    | ok src => exact found h hkernel' fun dst => crossIn me src dst oldPath newPath
    | error e => rfl
  cases hf : (tree s).find Uuid.rootIno (front oldPath) with
  | error e =>
      rw [hf] at hblock
      refine refines_refused h (FileTree.perform_lost hf) (perform_rename hpaths ?_)
      rw [rename_absent_here fun hno => not_elsewhere hf hno.1]
      exact handle_caught .noEntry hblock rfl
  | ok a =>
      rw [hf] at hblock
      cases hf' : (tree s).find Uuid.rootIno (front newPath) with
      | error e =>
          rw [hf'] at hblock
          refine refines_refused h (FileTree.perform_move_lost hf hf') (perform_rename hpaths ?_)
          rw [rename_absent_here fun ⟨_, d, hd⟩ => nomatch hf'.symm.trans hd]
          exact handle_caught .noEntry hblock rfl
      | ok b =>
          rw [hf'] at hblock
          obtain ⟨la, base, hl, hat, -, hn⟩ := leads h (FileTree.isDir_of_find hf)
          obtain ⟨lb, bb, hlb, hatb, -, -⟩ := leads h (FileTree.isDir_of_find hf')
          have hcheck : lb.table.checkChildInode (last newPath) =
              ((tree s).entries b (last newPath)).getD Uuid.nil := by
            rw [check_of_listed hp'.last, ← hatb.entries]
            rfl
          have hcross : renameBlock me oldPath newPath 0 ts s = (do
              let target ← renameNotSameParentSrc me a oldPath 0
              renameNotSameParentDst me b target
                (((tree s).entries b (last newPath)).getD Uuid.nil) newPath 0 :
              ClientOp C Int) s := by
            refine hblock.trans ?_
            show crossIn me a b oldPath newPath s = _
            unfold crossIn
            rw [Op.bind_ok (Op.lift_ok hp'.file), Op.bind_ok (checkChildInode_led hlb), hcheck]
          cases hc : la.table.child (last oldPath) with
          | none =>
              have he : (tree s).entries a (last oldPath) = none :=
                (congrFun hat.entries _).trans (hn.listed_none hc)
              have habsent := renameNotSameParentSrc_absent me hl hc hp.file
              refine refines_refused h (FileTree.perform_move_absent hf hf' he) (perform_rename hpaths
                (rename_absent (hcross.trans ?_) hf hf'))
              by_cases hme : s.leader a = me
              · rw [if_pos hme] at habsent ⊢
                exact Op.bind_error habsent
              · rw [if_neg hme] at habsent ⊢
                exact Op.bind_error habsent
          | some c =>
              have hlist := hn.listed_of_child hc
              have he : (tree s).entries a (last oldPath) = some c.inode.ino :=
                (congrFun hat.entries _).trans hlist
              have hne : a ≠ b := by
                rintro rfl
                exact hfront (h.forest.walk_inj (FileTree.find_eq_ok.mp hf).1
                  (FileTree.find_eq_ok.mp hf').1)
              obtain ⟨i, hi, hsrc⟩ :=
                renameNotSameParentSrc_sent me hp.file hl hc (hn.takesRemoval hlist)
              have hcore : i.core = c.inode.core := by
                rcases hi with rfl | rfl
                · rfl
                · exact Inode.core_ofFields_toFields _
              obtain ⟨s', hdst, hs'⟩ := renameNotSameParentDst_refines me h hl hat hc hne
                (FileTree.isDir_of_find hf') hcore hp'.file
              exact refines_done (FileTree.perform_move_done hf hf' he honly)
                (perform_rename hpaths (Op.handle_ok (hcross.trans ((Op.bind_ok hsrc).trans hdst)))) hs'

theorem rename_refines (h : s.view.Sound)
    (ha : Asked s (.onDirs (.rename me oldPath newPath flags ts))) :
    Refines s (.onDirs (.rename me oldPath newPath flags ts)) := by
  obtain ⟨hkernel, hkernel', hpaths, rfl⟩ := ha.meant
  have honly : ∀ e, perform s (.onDirs (.rename me oldPath newPath 0 ts)) = .error e → e = .absent :=
    fun e he => List.mem_singleton.mp (ha.refused e he)
  by_cases hfront : front oldPath = front newPath
  · exact rename_within h hkernel hkernel' hpaths honly hfront
  · exact rename_across h hkernel hkernel' hpaths honly hfront

end

end Hierarchy

end Nmfs
