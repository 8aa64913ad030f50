import Nmfs.Fs.View

/-
  What the operations over several directories come to, where the directories are in step with their
  journals. None of it depends on who leads them: the tables and the pending transactions afterwards
  are a matter of those before.
-/

namespace Nmfs

open Lib

namespace FuseOps

open DirectoryOps

variable {C α : Type} [DecidableEq C] {s s' : Cluster C} {me : C} {dir dir' : Uuid} {led led' : Led}
  {base : Bytes → Option Uuid} {name : Bytes}

/-! ## Looking up -/

omit [DecidableEq C] in
theorem getDentryTable_present (h : (s.tables dir).isSome = true) :
    getDentryTable dir s = (.ok (), s) := by
  obtain ⟨table, ht⟩ := Option.isSome_iff_exists.mp h
  unfold getDentryTable
  rw [ht]

theorem whereLed_eq {here there : ClientOp C α} {r : Except Err α × Cluster C}
    (h : here s = r) (h' : there s = r) : whereLed me dir here there s = r := by
  unfold whereLed
  split
  · exact h
  · exact h'

theorem checkChildInode_led (h : s.led dir = some led) :
    checkChildInode me dir name s = (.ok (led.table.checkChildInode name), s) := by
  have hs : onDir dir (Led.checkChildInode name) s =
      (.ok (led.table.checkChildInode name), s) := by
    rw [onDir_led h, Led.checkChildInode_apply]
    dsimp only
    rw [Cluster.put_led h]
  exact whereLed_eq hs (remotely_ok hs)

theorem getMode_led (h : s.led dir = some led) {c : MemInode}
    (hc : led.table.child name = some c) :
    getMode me dir name s = (.ok c.inode.core.iMode, s) := by
  have hs : onDir dir (Led.getChildInode name) s = (.ok c, s) := by
    rw [onDir_led h, Led.getChildInode_present hc]
    dsimp only
    rw [Cluster.put_led h]
  unfold getMode
  rw [Op.bind_ok (whereLed_eq hs (remotely_ok hs))]
  rfl

/-- The ids that are compared are those of the leader, also where it is the client itself. -/
theorem permissionCheck_led (h : s.led dir = some led) (mask : UInt32) :
    permissionCheck me dir mask s =
      (led.table.thisDirInode.permissionCheck (s.ids (s.leader dir)) mask, s) := by
  unfold permissionCheck whereLed
  by_cases hme : s.leader dir = me
  · have hsection : (do
        let i ← RpcServer.targetInode true []
        Op.lift (i.permissionCheck (s.ids me) mask) : Section Unit) led =
        (led.table.thisDirInode.permissionCheck (s.ids me) mask, led) :=
      Op.bind_ok RpcServer.targetInode_self
    rw [if_pos hme, onDir_led h, hsection, hme]
    dsimp only
    rw [Cluster.put_led h]
  · rw [if_neg hme]
    by_cases hok : led.table.thisDirInode.permissionCheck (s.ids (s.leader dir)) mask = .ok ()
    · have hhandler : RpcServer.permissionCheckHandler (s.ids (s.leader dir))
          { mask, targetIsParent := true } led = (.ok 0, led) := by
        unfold RpcServer.permissionCheckHandler
        rw [Op.bind_ok RpcServer.targetInode_self, hok]
        rfl
      have hs := onDir_led (m := RpcServer.permissionCheckHandler (s.ids (s.leader dir))
        { mask, targetIsParent := true }) h
      rw [hhandler] at hs
      dsimp only at hs
      rw [Cluster.put_led h] at hs
      rw [Op.bind_ok (remotely_ok hs), hok]
      rfl
    · have hdenied := Inode.permissionCheck_denied hok
      have hhandler : RpcServer.permissionCheckHandler (s.ids (s.leader dir))
          { mask, targetIsParent := true } led = (.ok (-EACCES), led) := by
        unfold RpcServer.permissionCheckHandler
        rw [Op.bind_ok RpcServer.targetInode_self, hdenied]
        rfl
      have hs := onDir_led (m := RpcServer.permissionCheckHandler (s.ids (s.leader dir))
        { mask, targetIsParent := true }) h
      rw [hhandler] at hs
      dsimp only at hs
      rw [Cluster.put_led h] at hs
      rw [Op.bind_ok (remotely_ok hs), hdenied]
      rfl

theorem permissionCheck_admits (h : s.Admits (s.leader dir) dir)
    (ht : (s.tables dir).isSome = true) : permissionCheck me dir Inode.X_OK s = (.ok (), s) := by
  obtain ⟨table, ht⟩ := Option.isSome_iff_exists.mp ht
  have hled : s.led dir = some ⟨table, s.jtables (s.leader dir), s.dataPool⟩ :=
    Cluster.led_eq_some.mpr ⟨ht, rfl, rfl⟩
  rw [permissionCheck_led hled, h table ht]

theorem permissionCheck_refuses (h : ¬ s.Admits (s.leader dir) dir) :
    permissionCheck me dir Inode.X_OK s = (.error .permissionDenied, s) := by
  unfold Cluster.Admits at h
  push Not at h
  obtain ⟨table, ht, hne⟩ := h
  have hled : s.led dir = some ⟨table, s.jtables (s.leader dir), s.dataPool⟩ :=
    Cluster.led_eq_some.mpr ⟨ht, rfl, rfl⟩
  rw [permissionCheck_led hled, Inode.permissionCheck_denied hne]

theorem check_of_listed (hname : Path.IsComponent name) :
    led.table.checkChildInode name = (led.table.listed name).getD Uuid.nil := by
  unfold DentryTable.checkChildInode
  rw [if_neg]
  · rfl
  · intro h
    apply hname.2
    rw [h]
    exact List.mem_singleton.mpr rfl

/-- The way down is taken to its end, or as far as the first directory that does not let itself be
    searched. -/
theorem traverse_resolves {names : List Bytes} (hnames : ∀ name ∈ names, Path.IsComponent name)
    (h : s.Resolves names dir dir') :
    (s.Opens names dir → traverse me names dir dir s = (.ok dir', s)) ∧
    (¬ s.Opens names dir → traverse me names dir dir s = (.error .permissionDenied, s)) := by
  induction names generalizing dir with
  | nil =>
      obtain rfl : dir = dir' := h
      exact ⟨fun _ => rfl, fun ho => absurd Cluster.opens_nil ho⟩
  | cons name names ih =>
      obtain ⟨c, hc, he, hnil, hdir, htable, hrest⟩ := h
      obtain ⟨led, hled, hchild⟩ := Cluster.led_of_child hc
      have hcheck : led.table.checkChildInode name = c.inode.ino := by
        rw [check_of_listed (hnames name List.mem_cons_self), ← Cluster.entries_of_led hled, he]
        rfl
      have hstep : traverse me (name :: names) dir dir s =
          (do
            permissionCheck me c.inode.ino Inode.X_OK
            traverse me names c.inode.ino c.inode.ino : ClientOp C Uuid) s := by
        conv_lhs => unfold traverse
        rw [Op.bind_ok (checkChildInode_led hled), hcheck, if_neg hnil]
        refine (Op.bind_ok (getMode_led hled hchild)).trans ?_
        rw [if_pos hdir, Op.bind_ok (getDentryTable_present htable)]
      obtain ⟨hopen, hclosed⟩ := ih (fun name hn => hnames name (List.mem_cons_of_mem _ hn)) hrest
      rw [hstep, Cluster.opens_cons hc]
      by_cases hadmits : s.Admits (s.leader c.inode.ino) c.inode.ino
      · rw [Op.bind_ok (permissionCheck_admits hadmits htable)]
        exact ⟨fun ho => hopen ho.2, fun ho => hclosed fun hrest => ho ⟨hadmits, hrest⟩⟩
      · rw [Op.bind_error (permissionCheck_refuses hadmits)]
        exact ⟨fun ho => absurd ho.1 hadmits, fun _ => rfl⟩

section

variable {names : List Bytes} (hnames : ∀ name ∈ names, Path.IsComponent name)
  (hroot : (s.tables Uuid.rootIno).isSome = true) (h : s.Resolves names Uuid.rootIno dir)

include hnames hroot h

theorem pathTraversal_resolves (ho : s.Opens names Uuid.rootIno) :
    pathTraversal me (Path.text names) s = (.ok dir, s) := by
  unfold pathTraversal
  rw [Op.bind_ok (getDentryTable_present hroot), Path.names_text hnames]
  exact (traverse_resolves hnames h).1 ho

theorem pathTraversal_denied (ho : ¬ s.Opens names Uuid.rootIno) :
    pathTraversal me (Path.text names) s = (.error .permissionDenied, s) := by
  unfold pathTraversal
  rw [Op.bind_ok (getDentryTable_present hroot), Path.names_text hnames]
  exact (traverse_resolves hnames h).2 ho

end

/-! ## The two parts of a rename -/

/-- The inode is given back as it is, or as it has been sent. -/
theorem renameNotSameParentSrc_sent (me : C) {path : Bytes}
    (hp : Path.getFilenameFromPath path = .ok name)
    (h : s.led dir = some led) {x : MemInode} (hx : led.table.child name = some x)
    (ht : led.tx.TakesRemoval name x.inode.ino) :
    ∃ i, (i = x.inode ∨ i = Inode.ofFields x.inode.toFields) ∧
      renameNotSameParentSrc me dir path 0 s =
        (.ok i, s.put dir (led.removed name x.inode.ino)) := by
  have hremove : removeSrc name x led = (.ok (), led.removed name x.inode.ino) :=
    removeSrc_ok ht
  have hlocal : LocalOps.localRenameNotSameParentSrc name 0 led =
      (.ok x, led.removed name x.inode.ino) := by
    unfold LocalOps.localRenameNotSameParentSrc
    rw [Op.bind_ok (Led.getChildInode_present hx), if_pos rfl, Op.bind_ok hremove]
    rfl
  have hremote : RpcServer.renameNotSameParentSrcHandler name 0 led =
      (.ok (0, some x.inode), led.removed name x.inode.ino) := by
    unfold RpcServer.renameNotSameParentSrcHandler
    rw [Op.bind_ok (Led.getChildInode_present hx), if_pos rfl, Op.bind_ok hremove]
    rfl
  unfold renameNotSameParentSrc whereLed
  by_cases hme : s.leader dir = me
  · refine ⟨x.inode, .inl rfl, ?_⟩
    have hs : onDir dir (LocalOps.localRenameNotSameParentSrc name 0) s =
        (.ok x, s.put dir (led.removed name x.inode.ino)) := by
      rw [onDir_led h, hlocal]
    rw [if_pos hme, Op.bind_ok (Op.lift_ok hp), Op.bind_ok hs]
    rfl
  · refine ⟨Inode.ofFields x.inode.toFields, .inr rfl, ?_⟩
    have hs : onDir dir (RpcServer.renameNotSameParentSrcHandler name 0) s =
        (.ok (0, some x.inode), s.put dir (led.removed name x.inode.ino)) := by
      rw [onDir_led h, hremote]
    rw [if_neg hme]
    refine (Op.bind_ok (remotely_ok ((Op.bind_ok (Op.lift_ok hp)).trans hs))).trans ?_
    rfl

theorem renameNotSameParentSrc_eq {path : Bytes} (hp : Path.getFilenameFromPath path = .ok name)
    (h : s.led dir = some led) {x : MemInode} (hx : led.table.child name = some x)
    (ht : led.tx.TakesRemoval name x.inode.ino) (hsend : x.inode.Sendable) :
    renameNotSameParentSrc me dir path 0 s =
      (.ok x.inode, s.put dir (led.removed name x.inode.ino)) := by
  obtain ⟨i, rfl | rfl, hs⟩ := renameNotSameParentSrc_sent me hp h hx ht
  · exact hs
  · rw [Inode.ofFields_toFields hsend] at hs
    exact hs

/-- The replaced child makes room, if there is one. -/
theorem removeDst_freed (h : Names led base) :
    removeDst ((led.table.listed name).getD Uuid.nil) name led = (.ok (), led.freed name) := by
  unfold Led.freed
  cases hc : led.table.child name with
  | none =>
      rw [h.listed_none hc]
      exact removeDst_absent rfl
  | some c =>
      have hl := h.listed_of_child hc
      rw [hl, Option.getD_some]
      exact removeDst_present (h.notNil name _ hl) hc (h.takesRemoval hl)

theorem freed_names (h : Names led base) : Names (led.freed name) base := by
  unfold Led.freed
  split
  · exact h
  · rename_i c hc
    exact h.removed (h.listed_of_child hc)

theorem listed_freed (h : Names led base) : (led.freed name).table.listed =
    Function.update led.table.listed name none := by
  unfold Led.freed
  split
  · rename_i hc
    exact (Function.update_eq_self_iff.mpr (h.listed_none hc).symm).symm
  · rename_i c hc
    exact DentryTable.listed_delete hc

/-- The file of the moved inode is not pending yet, unless it is the one that is replaced. -/
def NotPending (led : Led) (name : Bytes) (ino : Uuid) : Prop :=
  ∀ g, led.tx.fInodes.lookup ino = some (some g) → led.table.listed name = some ino

theorem freed_takesNew_iff (h : Names led base) {ino : Uuid} :
    (led.freed name).tx.TakesNew name ino ↔ NotPending led name ino := by
  have hnames : Names (led.freed name) base := freed_names h
  have hfree : (led.freed name).table.listed name = none := by
    rw [listed_freed h, Function.update_self]
  have hiff : (led.freed name).tx.TakesNew name ino ↔
      ∀ g, (led.freed name).tx.fInodes.lookup ino ≠ some (some g) :=
    ⟨fun ht => ht.file, hnames.takesNew hfree⟩
  rw [hiff]
  unfold Led.freed NotPending
  split
  · rename_i hc
    rw [h.listed_none hc]
    exact forall_congr' fun g => ⟨fun hne he => absurd he hne, fun hi he => (nomatch hi he)⟩
  · rename_i c hc
    rw [h.listed_of_child hc, Led.fInodes_removed]
    by_cases hi : ino = c.inode.ino
    · subst hi
      rw [AList.lookup_insert]
      exact ⟨fun _ _ _ => rfl, fun _ g hg => (nomatch hg)⟩
    · rw [AList.lookup_insert_ne hi]
      exact forall_congr' fun g => ⟨fun hne he => absurd he hne,
        fun himp he => hi (Option.some.inj (himp he)).symm⟩

/-- What both destination sections do. -/
def dstSection (target : MemInode) (checkDstIno : Uuid) (newName : Bytes) : Section Reply := do
  removeDst checkDstIno newName
  insertTarget newName target
  return ⟨0, none⟩

theorem localRenameNotSameParentDst_eq {i : Inode} {ino : Uuid}
    (hself : led.table.thisDirInode.ino = dir) :
    LocalOps.localRenameNotSameParentDst i ino name 0 led = dstSection ⟨i, dir⟩ ino name led := by
  unfold LocalOps.localRenameNotSameParentDst
  rw [Op.bind_ok Led.parentIno_apply, if_pos rfl, hself]
  rfl

theorem renameNotSameParentDstHandler_eq {i : Inode} {ino : Uuid}
    (hself : led.table.thisDirInode.ino = dir) :
    RpcServer.renameNotSameParentDstHandler i ino name 0 led = dstSection ⟨i, dir⟩ ino name led := by
  unfold RpcServer.renameNotSameParentDstHandler
  rw [Op.bind_ok Led.parentIno_apply, if_pos rfl, hself]
  rfl

theorem dstSection_ok (h : Names led base) {i : MemInode} (hi : NotPending led name i.inode.ino) :
    dstSection i ((led.table.listed name).getD Uuid.nil) name led =
      (.ok ⟨0, none⟩, (led.freed name).inserted name i) := by
  unfold dstSection
  rw [Op.bind_ok (removeDst_freed h), Op.bind_ok (insertTarget_ok ((freed_takesNew_iff h).mpr hi))]
  rfl

theorem dstSection_pending (h : Names led base) {i : MemInode}
    (hi : ¬ NotPending led name i.inode.ino) :
    (dstSection i ((led.table.listed name).getD Uuid.nil) name led).1 =
      .error (.logicError "transaction::mkreg() failed (file already exists)") := by
  have hnames : Names (led.freed name) base := freed_names h
  have hfree : (led.freed name).table.listed name = none := by
    rw [listed_freed h, Function.update_self]
  obtain ⟨g, hg⟩ : ∃ g, (led.freed name).tx.fInodes.lookup i.inode.ino = some (some g) := by
    by_contra hno
    apply hi
    rw [← freed_takesNew_iff h]
    exact hnames.takesNew hfree fun g hg => hno ⟨g, hg⟩
  have hinsert := insertTarget_pending (c := i) hnames.uncommitted (hnames.turns_new hfree) hg
  unfold dstSection
  rw [Op.bind_ok (removeDst_freed h), Op.bind_apply, hinsert]

section

variable {i : Inode} {path : Bytes}

theorem renameNotSameParentDst_here (hp : Path.getFilenameFromPath path = .ok name)
    (hme : s.leader dir = me) {ino : Uuid} (hl : s.led dir = some led)
    (hself : led.table.thisDirInode.ino = dir) {result : Except Err Reply} {led' : Led}
    (h : dstSection ⟨i, dir⟩ ino name led = (result, led')) :
    renameNotSameParentDst me dir i ino path 0 s =
      (result.map fun reply => reply.ret, s.put dir led') := by
  have hs : onDir dir (LocalOps.localRenameNotSameParentDst i ino name 0) s =
      (result, s.put dir led') := by
    rw [onDir_led hl, localRenameNotSameParentDst_eq hself, h]
  unfold renameNotSameParentDst whereLed
  rw [if_pos hme, Op.bind_ok (Op.lift_ok hp), Op.bind_apply, hs]
  cases result <;> rfl

theorem renameNotSameParentDst_sent (hp : Path.getFilenameFromPath path = .ok name)
    (hme : s.leader dir ≠ me) {ino : Uuid} (hl : s.led dir = some led)
    (hself : led.table.thisDirInode.ino = dir) {result : Except Err Reply} {led' : Led}
    (h : dstSection ⟨Inode.ofFields i.toFields, dir⟩ ino name led = (result, led')) :
    renameNotSameParentDst me dir i ino path 0 s =
      ((result.map fun reply => reply.ret).mapError fun _ => .runtimeError needRecovery,
        s.put dir led') := by
  have hs : onDir dir (RpcServer.renameNotSameParentDstHandler (Inode.ofFields i.toFields) ino name
      0) s = (result, s.put dir led') := by
    rw [onDir_led hl, renameNotSameParentDstHandler_eq hself, h]
  have hblock : (do
      let newName ← Op.lift (Path.getFilenameFromPath path)
      let reply ← onDir dir (RpcServer.renameNotSameParentDstHandler (Inode.ofFields i.toFields) ino
        newName 0)
      return reply.ret : ClientOp C Int) s =
      (result.map fun reply => reply.ret, s.put dir led') := by
    rw [Op.bind_ok (Op.lift_ok hp), Op.bind_apply, hs]
    cases result <;> rfl
  unfold renameNotSameParentDst whereLed
  rw [if_neg hme, Uuid.splice_prefix_postfix]
  unfold remotely Op.mapError
  exact congrArg (fun out : Except Err Int × Cluster C =>
    (out.1.mapError fun _ => Err.runtimeError needRecovery, out.2)) hblock

theorem renameNotSameParentDst_there (hp : Path.getFilenameFromPath path = .ok name)
    (hme : s.leader dir ≠ me) {ino : Uuid} (hl : s.led dir = some led)
    (hself : led.table.thisDirInode.ino = dir) (hsend : i.Sendable) {result : Except Err Reply}
    {led' : Led} (h : dstSection ⟨i, dir⟩ ino name led = (result, led')) :
    renameNotSameParentDst me dir i ino path 0 s =
      ((result.map fun reply => reply.ret).mapError fun _ => .runtimeError needRecovery,
        s.put dir led') := by
  rw [← Inode.ofFields_toFields hsend] at h
  exact renameNotSameParentDst_sent hp hme hl hself h

end

/-! ## A whole rename -/

/-- The names on the two paths of a rename. -/
structure RenamePaths where
  srcNames : List Bytes
  oldName : Bytes
  dstNames : List Bytes
  newName : Bytes

namespace RenamePaths

def oldPath (p : RenamePaths) : Bytes := Path.text (p.srcNames ++ [p.oldName])
def newPath (p : RenamePaths) : Bytes := Path.text (p.dstNames ++ [p.newName])

structure Components (p : RenamePaths) : Prop where
  old : ∀ name ∈ p.srcNames ++ [p.oldName], Path.IsComponent name
  new : ∀ name ∈ p.dstNames ++ [p.newName], Path.IsComponent name

variable {p : RenamePaths}

theorem Components.oldName (h : p.Components) : Path.IsComponent p.oldName :=
  h.old _ (List.mem_append_right _ (List.mem_singleton.mpr rfl))

theorem Components.newName (h : p.Components) : Path.IsComponent p.newName :=
  h.new _ (List.mem_append_right _ (List.mem_singleton.mpr rfl))

theorem Components.srcNames (h : p.Components) : ∀ name ∈ p.srcNames, Path.IsComponent name :=
  fun name hn => h.old name (List.mem_append_left _ hn)

theorem Components.dstNames (h : p.Components) : ∀ name ∈ p.dstNames, Path.IsComponent name :=
  fun name hn => h.new name (List.mem_append_left _ hn)

theorem Components.parents_ne (h : p.Components) (hne : p.srcNames ≠ p.dstNames) :
    Path.text p.srcNames ≠ Path.text p.dstNames :=
  fun heq => hne (Path.text_inj h.srcNames h.dstNames heq)

theorem Components.paths_ne (h : p.Components) (hne : p.srcNames ≠ p.dstNames) :
    p.oldPath ≠ p.newPath := by
  intro heq
  exact hne (List.append_inj_left' (Path.text_inj h.old h.new heq) rfl)

theorem Components.oldParent (h : p.Components) :
    Path.getParentDirPath p.oldPath = .ok (Path.text p.srcNames) :=
  Path.getParentDirPath_text h.oldName

theorem Components.newParent (h : p.Components) :
    Path.getParentDirPath p.newPath = .ok (Path.text p.dstNames) :=
  Path.getParentDirPath_text h.newName

theorem Components.oldFile (h : p.Components) :
    Path.getFilenameFromPath p.oldPath = .ok p.oldName :=
  Path.getFilenameFromPath_text h.oldName

theorem Components.newFile (h : p.Components) :
    Path.getFilenameFromPath p.newPath = .ok p.newName :=
  Path.getFilenameFromPath_text h.newName

end RenamePaths

/-- The search permissions on the way to both parents. -/
structure RenamePaths.Opens (p : RenamePaths) (s : Cluster C) : Prop where
  src : s.Opens p.srcNames Uuid.rootIno
  dst : s.Opens p.dstNames Uuid.rootIno

/-- One name may begin with the other. -/
theorem paradoxCheck_siblings {names : List Bytes} {oldName newName : Bytes}
    (hnew : Path.IsComponent newName) (hne : oldName ≠ newName) :
    paradoxCheck (Path.text (names ++ [oldName])) (Path.text (names ++ [newName])) = .ok false := by
  unfold paradoxCheck
  rw [Path.text_snoc, Path.text_snoc]
  split
  · rename_i hpre
    obtain ⟨rest, hrest⟩ := hpre
    rw [List.append_assoc, List.append_right_inj] at hrest
    have hname : oldName ++ rest = newName := (List.cons.inj hrest).2
    cases rest with
    | nil =>
        rw [List.append_nil] at hname
        exact absurd hname hne
    | cons b rest =>
        have hb : b ≠ Path.delimiter := by
          rintro rfl
          apply hnew.2
          rw [← hname]
          exact List.mem_append_right _ List.mem_cons_self
        have hget : ((names.flatMap fun name => Path.delimiter :: name) ++
            Path.delimiter :: newName)[((names.flatMap fun name => Path.delimiter :: name) ++
              Path.delimiter :: oldName).length]? = some b := by
          rw [← hname, show Path.delimiter :: (oldName ++ b :: rest) =
            (Path.delimiter :: oldName) ++ b :: rest from rfl, ← List.append_assoc]
          exact List.getElem?_append_right (Nat.le_refl _) |>.trans (by rw [Nat.sub_self]; rfl)
        rw [hget]
        exact congrArg Except.ok (decide_eq_false hb)
  · rfl

section

variable {p : RenamePaths} {src dst : Uuid} {flags : UInt32} {ts : Timespec}

omit [DecidableEq C] in
theorem isSome_of_led (h : s.led dir = some led) : (s.tables dir).isSome = true := by
  rw [(Cluster.led_eq_some.mp h).1]
  rfl

/-- With two parents, a rename comes down to the source and the destination. -/
theorem renameBlock_parts (hc : p.Components) (hne : p.srcNames ≠ p.dstNames)
    (hroot : (s.tables Uuid.rootIno).isSome = true)
    (hsrc : s.Resolves p.srcNames Uuid.rootIno src) (hdst : s.Resolves p.dstNames Uuid.rootIno dst)
    (ho : p.Opens s) (hl : (s.tables src).isSome = true) (hl' : s.led dst = some led) :
    renameBlock me p.oldPath p.newPath flags ts s =
      (do
        let target ← renameNotSameParentSrc me src p.oldPath flags
        renameNotSameParentDst me dst target (led.table.checkChildInode p.newName) p.newPath
          flags : ClientOp C Int) s := by
  unfold renameBlock
  rw [Op.bind_ok (Op.lift_ok hc.oldParent), Op.bind_ok (Op.lift_ok hc.newParent),
    if_neg (hc.parents_ne hne), Op.bind_ok (pathTraversal_resolves hc.srcNames hroot hsrc ho.src),
    Op.bind_ok (getDentryTable_present hl),
    Op.bind_ok (pathTraversal_resolves hc.dstNames hroot hdst ho.dst),
    Op.bind_ok (getDentryTable_present (isSome_of_led hl')), Op.bind_ok (Op.lift_ok hc.newFile),
    Op.bind_ok (checkChildInode_led hl')]

/-- Where a directory on the way denies the search, nothing happens. -/
theorem rename_denied (hc : p.Components) (hne : p.oldPath ≠ p.newPath)
    (hroot : (s.tables Uuid.rootIno).isSome = true)
    (hsrc : s.Resolves p.srcNames Uuid.rootIno src) (hdst : s.Resolves p.dstNames Uuid.rootIno dst)
    (hl : (s.tables src).isSome = true) (ho : ¬ p.Opens s) :
    rename me p.oldPath p.newPath flags ts s = (.ok (-EACCES), s) := by
  have hblock : renameBlock me p.oldPath p.newPath flags ts s = (.error .permissionDenied, s) := by
    unfold renameBlock
    rw [Op.bind_ok (Op.lift_ok hc.oldParent), Op.bind_ok (Op.lift_ok hc.newParent)]
    by_cases hopen : s.Opens p.srcNames Uuid.rootIno
    · have hclosed : ¬ s.Opens p.dstNames Uuid.rootIno := fun h => ho ⟨hopen, h⟩
      have hparents : p.srcNames ≠ p.dstNames := fun heq => hclosed (heq ▸ hopen)
      rw [if_neg (hc.parents_ne hparents),
        Op.bind_ok (pathTraversal_resolves hc.srcNames hroot hsrc hopen),
        Op.bind_ok (getDentryTable_present hl),
        Op.bind_error (pathTraversal_denied hc.dstNames hroot hdst hclosed)]
    · have hfirst : pathTraversal me (Path.text p.srcNames) s = (.error .permissionDenied, s) :=
        pathTraversal_denied hc.srcNames hroot hsrc hopen
      split
      · rw [Op.bind_error hfirst]
      · rw [Op.bind_error hfirst]
  unfold rename Op.handle
  rw [if_neg hne, hblock]
  rfl

end

/-- The two parents, at their leaders, are in step, and the object is there. -/
structure CrossRename (s : Cluster C) (p : RenamePaths) (src dst : Uuid) (ls ld : Led)
    (bs bd : Bytes → Option Uuid) (x : MemInode) : Prop where
  components : p.Components
  root : (s.tables Uuid.rootIno).isSome = true
  srcPath : s.Resolves p.srcNames Uuid.rootIno src
  dstPath : s.Resolves p.dstNames Uuid.rootIno dst
  ne : src ≠ dst
  src : s.InStep src ls bs
  dst : s.InStep dst ld bd
  present : ls.table.child p.oldName = some x
  sendable : x.inode.Sendable

section

variable {p : RenamePaths} {src dst : Uuid} {ls ld : Led} {bs bd : Bytes → Option Uuid}
  {x : MemInode} {ts : Timespec}

omit [DecidableEq C] in
theorem CrossRename.parents_ne (h : CrossRename s p src dst ls ld bs bd x) :
    p.srcNames ≠ p.dstNames := by
  intro heq
  have hd := h.dstPath
  rw [← heq] at hd
  exact h.ne (h.srcPath.unique hd)

theorem renameBlock_cross (h : CrossRename s p src dst ls ld bs bd x) (ho : p.Opens s) :
    renameBlock me p.oldPath p.newPath 0 ts s =
      renameNotSameParentDst me dst x.inode ((ld.table.listed p.newName).getD Uuid.nil) p.newPath 0
        (s.put src (ls.removed p.oldName x.inode.ino)) := by
  rw [renameBlock_parts h.components h.parents_ne h.root h.srcPath h.dstPath ho
      (isSome_of_led h.src.leads) h.dst.leads, check_of_listed h.components.newName,
    Op.bind_ok (renameNotSameParentSrc_eq h.components.oldFile h.src.leads h.present
      (h.src.names.takesRemoval (h.src.names.listed_of_child h.present)) h.sendable)]

/-- The destination, once the source has been done. -/
theorem CrossRename.dst_put (h : CrossRename s p src dst ls ld bs bd x) :
    ∃ ld', (s.put src (ls.removed p.oldName x.inode.ino)).InStep dst ld' bd ∧
      ld'.table = ld.table ∧ ld'.tx = ld.tx :=
  h.dst.put_of_ne (Ne.symm h.ne) h.src.leads (Led.changes_removed h.src.self)

/-- Both directories afterwards. -/
theorem rename_cross (me : C) (ts : Timespec) (h : CrossRename s p src dst ls ld bs bd x)
    (ho : p.Opens s) (hi : NotPending ld p.newName x.inode.ino) :
    ∃ s', rename me p.oldPath p.newPath 0 ts s = (.ok 0, s') ∧ s'.leader = s.leader ∧
      s'.view = (s.view.set src (ls.removed p.oldName x.inode.ino)).set dst
        ((ld.freed p.newName).inserted p.newName ⟨x.inode, dst⟩) := by
  obtain ⟨ld', hd, ht, hx⟩ := h.dst_put
  have hi' : NotPending ld' p.newName x.inode.ino := by
    unfold NotPending
    rw [ht, hx]
    exact hi
  have hsection : dstSection ⟨x.inode, dst⟩ ((ld.table.listed p.newName).getD Uuid.nil) p.newName
      ld' = (.ok ⟨0, none⟩, (ld'.freed p.newName).inserted p.newName ⟨x.inode, dst⟩) := by
    rw [← ht]
    exact dstSection_ok hd.names hi'
  have hblock : renameBlock me p.oldPath p.newPath 0 ts s = (.ok 0,
      (s.put src (ls.removed p.oldName x.inode.ino)).put dst
        ((ld'.freed p.newName).inserted p.newName ⟨x.inode, dst⟩)) := by
    rw [renameBlock_cross h ho]
    by_cases hme : (s.put src (ls.removed p.oldName x.inode.ino)).leader dst = me
    · exact renameNotSameParentDst_here h.components.newFile hme hd.leads hd.self hsection
    · exact renameNotSameParentDst_there h.components.newFile hme hd.leads hd.self h.sendable
        hsection
  refine ⟨(s.put src (ls.removed p.oldName x.inode.ino)).put dst
    ((ld'.freed p.newName).inserted p.newName ⟨x.inode, dst⟩), ?_, rfl, ?_⟩
  · unfold rename
    rw [if_neg (h.components.paths_ne h.parents_ne)]
    exact Op.handle_ok hblock
  · have hfreed : Led.Changes dst ld' (ld'.freed p.newName) := Led.changes_freed hd.self
    rw [Cluster.view_put hd.leads (hfreed.trans (Led.changes_inserted hfreed.self)),
      Cluster.view_put h.src.leads (Led.changes_removed h.src.self)]
    obtain ⟨hft, hfx⟩ := @Led.freed_congr _ _ p.newName ht hx
    obtain ⟨hit, hix⟩ := @Led.inserted_congr _ _ p.newName ⟨x.inode, dst⟩ hft hfx
    exact View.set_congr hit hix

theorem rename_pending (me : C) (ts : Timespec) (h : CrossRename s p src dst ls ld bs bd x)
    (ho : p.Opens s) (hi : ¬ NotPending ld p.newName x.inode.ino) :
    (rename me p.oldPath p.newPath 0 ts s).1 = if s.leader dst = me then
      .error (.logicError "transaction::mkreg() failed (file already exists)")
    else .ok (-ENOSYS) := by
  obtain ⟨ld', hd, ht, hx⟩ := h.dst_put
  have hi' : ¬ NotPending ld' p.newName x.inode.ino := by
    unfold NotPending
    rw [ht, hx]
    exact hi
  have hsection : dstSection ⟨x.inode, dst⟩ ((ld.table.listed p.newName).getD Uuid.nil) p.newName
      ld' = (.error (.logicError "transaction::mkreg() failed (file already exists)"),
        (dstSection ⟨x.inode, dst⟩ ((ld.table.listed p.newName).getD Uuid.nil) p.newName ld').2) := by
    rw [← ht]
    exact Prod.ext (dstSection_pending hd.names hi') rfl
  unfold rename Op.handle
  rw [if_neg (h.components.paths_ne h.parents_ne), renameBlock_cross h ho]
  by_cases hme : s.leader dst = me
  · have hhere := renameNotSameParentDst_here h.components.newFile
      (s := s.put src (ls.removed p.oldName x.inode.ino)) hme hd.leads hd.self hsection
    rw [hhere, if_pos hme]
    rfl
  · have hthere := renameNotSameParentDst_there h.components.newFile
      (s := s.put src (ls.removed p.oldName x.inode.ino)) hme hd.leads hd.self h.sendable hsection
    rw [hthere, if_neg hme]
    rfl

end

/-! ## A whole rmdir -/

/-- The parent and the directory, at their leaders, are in step. -/
structure RmdirTarget (s : Cluster C) (names : List Bytes) (targetName : Bytes) (parent : Uuid)
    (lp lt : Led) (bp bt : Bytes → Option Uuid) (c : MemInode) : Prop where
  components : ∀ name ∈ names ++ [targetName], Path.IsComponent name
  root : (s.tables Uuid.rootIno).isSome = true
  parentPath : s.Resolves names Uuid.rootIno parent
  ne : c.inode.ino ≠ parent
  parent : s.InStep parent lp bp
  target : s.InStep c.inode.ino lt bt
  present : lp.table.child targetName = some c
  isDir : Inode.isDir c.inode.core.iMode = true

section

variable {names : List Bytes} {targetName : Bytes} {parent : Uuid} {lp lt : Led}
  {bp bt : Bytes → Option Uuid} {c : MemInode} {ts : Timespec}

theorem rmdirTop_full (h : s.led dir = some led) (hn : 0 < led.table.getChildNum) :
    FuseOps.rmdirTop me dir s = (.ok (-ENOTEMPTY), s) := by
  have hsection : DirectoryOps.rmdirTop dir led = (.ok ⟨-ENOTEMPTY, none⟩, led) := by
    have hread : (Op.read fun s : Led => s.table.getChildNum) led =
        ((.ok led.table.getChildNum, led) : Except Err Nat × Led) := rfl
    unfold DirectoryOps.rmdirTop
    rw [Op.bind_ok hread, if_pos hn]
    rfl
  have hs : onDir dir (DirectoryOps.rmdirTop dir) s = (.ok ⟨-ENOTEMPTY, none⟩, s) := by
    rw [onDir_led h, hsection]
    dsimp only
    rw [Cluster.put_led h]
  unfold FuseOps.rmdirTop
  refine (Op.bind_ok (whereLed_eq hs (remotely_ok hs))).trans ?_
  rfl

theorem rmdirTop_empty (h : s.led dir = some led) (hn : ¬ 0 < led.table.getChildNum) :
    FuseOps.rmdirTop me dir s = (.ok 0, { s.put dir (led.ended dir) with
      tables := Function.update (s.put dir (led.ended dir)).tables dir none }) := by
  have hsection : DirectoryOps.rmdirTop dir led = (.ok ⟨0, none⟩, led.ended dir) := by
    have hread : (Op.read fun s : Led => s.table.getChildNum) led =
        ((.ok led.table.getChildNum, led) : Except Err Nat × Led) := rfl
    unfold DirectoryOps.rmdirTop
    rw [Op.bind_ok hread, if_neg hn]
    exact Op.bind_ok Led.rmself_ended
  have hs : onDir dir (DirectoryOps.rmdirTop dir) s =
      (.ok ⟨0, none⟩, s.put dir (led.ended dir)) := by
    rw [onDir_led h, hsection]
  unfold FuseOps.rmdirTop
  refine (Op.bind_ok (whereLed_eq hs (remotely_ok hs))).trans ?_
  rfl

theorem rmdirDown_eq (h : s.InStep dir led base) {ino : Uuid}
    (hl : led.table.listed name = some ino) :
    FuseOps.rmdirDown me dir ino name ts s =
      (.ok 0, s.put dir ((led.withTimes ts).removedDir name ino)) := by
  have hs : onDir dir (DirectoryOps.rmdirDown ts ino name) s =
      (.ok ⟨0, none⟩, s.put dir ((led.withTimes ts).removedDir name ino)) := by
    rw [onDir_led h.leads, rmdirDown_ok h.names.uncommitted (h.names.turns_removal hl)]
  have hhere : (do
      let _ ← onDir dir (LocalOps.localRmdirDown ts ino name)
      return 0 : ClientOp C Int) s = (.ok 0, s.put dir ((led.withTimes ts).removedDir name ino)) :=
    Op.bind_ok hs
  have hthere : (do
      let reply ← onDir dir (RpcServer.rmdirDownHandler ts ino name)
      return reply.ret : ClientOp C Int) s =
      (.ok 0, s.put dir ((led.withTimes ts).removedDir name ino)) := Op.bind_ok hs
  exact whereLed_eq hhere (remotely_ok hthere)

/-- Up to the first part. -/
theorem rmdirBlock_target (h : RmdirTarget s names targetName parent lp lt bp bt c)
    (ho : s.Opens names Uuid.rootIno) :
    rmdirBlock me (Path.text (names ++ [targetName])) ts s =
      (do
        let ret ← FuseOps.rmdirTop me c.inode.ino
        if ret = 0 then FuseOps.rmdirDown me parent c.inode.ino targetName ts
        else return ret : ClientOp C Int) s := by
  have hname : Path.IsComponent targetName :=
    h.components _ (List.mem_append_right _ (List.mem_singleton.mpr rfl))
  have hcheck : lp.table.checkChildInode targetName = c.inode.ino := by
    rw [check_of_listed hname, h.parent.names.listed_of_child h.present]
    rfl
  unfold rmdirBlock
  rw [Op.bind_ok (Op.lift_ok (Path.getFilenameFromPath_text hname)),
    Op.bind_ok (Op.lift_ok (Path.getParentDirPath_text hname)),
    Op.bind_ok (pathTraversal_resolves
      (fun name hn => h.components name (List.mem_append_left _ hn)) h.root h.parentPath ho),
    Op.bind_ok (getDentryTable_present (isSome_of_led h.parent.leads)),
    Op.bind_ok (checkChildInode_led h.parent.leads), hcheck,
    Op.bind_ok (getMode_led h.parent.leads h.present), if_neg (not_not.mpr h.isDir)]
  exact Op.bind_ok (getDentryTable_present (isSome_of_led h.target.leads))

theorem rmdir_denied (me : C) (ts : Timespec)
    (h : RmdirTarget s names targetName parent lp lt bp bt c)
    (ho : ¬ s.Opens names Uuid.rootIno) :
    rmdir me (Path.text (names ++ [targetName])) ts s = (.ok (-EACCES), s) := by
  have hname : Path.IsComponent targetName :=
    h.components _ (List.mem_append_right _ (List.mem_singleton.mpr rfl))
  have hblock : rmdirBlock me (Path.text (names ++ [targetName])) ts s =
      (.error .permissionDenied, s) := by
    unfold rmdirBlock
    rw [Op.bind_ok (Op.lift_ok (Path.getFilenameFromPath_text hname)),
      Op.bind_ok (Op.lift_ok (Path.getParentDirPath_text hname)),
      Op.bind_error (pathTraversal_denied
        (fun name hn => h.components name (List.mem_append_left _ hn)) h.root h.parentPath ho)]
  unfold rmdir Op.handle
  rw [hblock]
  rfl

theorem rmdir_full (me : C) (ts : Timespec)
    (h : RmdirTarget s names targetName parent lp lt bp bt c) (ho : s.Opens names Uuid.rootIno)
    (hn : 0 < lt.table.getChildNum) :
    rmdir me (Path.text (names ++ [targetName])) ts s = (.ok (-ENOTEMPTY), s) := by
  apply Op.handle_ok
  rw [rmdirBlock_target h ho, Op.bind_ok (rmdirTop_full h.target.leads hn)]
  rfl

theorem rmdir_empty (me : C) (ts : Timespec)
    (h : RmdirTarget s names targetName parent lp lt bp bt c) (ho : s.Opens names Uuid.rootIno)
    (hn : ¬ 0 < lt.table.getChildNum) :
    ∃ s', rmdir me (Path.text (names ++ [targetName])) ts s = (.ok 0, s') ∧
      s'.leader = s.leader ∧
      s'.view = (((s.view.set c.inode.ino (lt.ended c.inode.ino)).drop c.inode.ino).set parent
        ((lp.withTimes ts).removedDir targetName c.inode.ino)) := by
  have hended := Led.changes_ended h.target.self
  have hview := Cluster.view_put h.target.leads hended
  let s₁ : Cluster C := { s.put c.inode.ino (lt.ended c.inode.ino) with
    tables := Function.update (s.put c.inode.ino (lt.ended c.inode.ino)).tables c.inode.ino none }
  have hview₁ : s₁.view = (s.view.set c.inode.ino (lt.ended c.inode.ino)).drop c.inode.ino := by
    rw [← hview]
    rfl
  obtain ⟨lp', hp, ht, hx⟩ : ∃ lp', s₁.InStep parent lp' bp ∧ lp'.table = lp.table ∧
      lp'.tx = lp.tx := by
    apply h.parent.of_view
    · rw [show s₁.tables = _ from congrArg View.tables hview₁]
      show Function.update (Function.update s.tables _ _) _ _ parent = _
      rw [Function.update_of_ne (Ne.symm h.ne), Function.update_of_ne (Ne.symm h.ne)]
    · rw [show s₁.tx = _ from congrArg View.tx hview₁]
      show Function.update s.tx _ _ parent = _
      rw [Function.update_of_ne (Ne.symm h.ne)]
  have hl : lp'.table.listed targetName = some c.inode.ino := by
    rw [ht]
    exact h.parent.names.listed_of_child h.present
  refine ⟨s₁.put parent ((lp'.withTimes ts).removedDir targetName c.inode.ino), ?_, rfl, ?_⟩
  · apply Op.handle_ok
    rw [rmdirBlock_target h ho, Op.bind_ok (rmdirTop_empty h.target.leads hn), if_pos rfl]
    exact rmdirDown_eq hp hl
  · have htimes : Led.Changes parent lp' (lp'.withTimes ts) := ⟨hp.self, fun _ _ => rfl, rfl⟩
    rw [Cluster.view_put hp.leads (htimes.trans (Led.changes_removedDir htimes.self)), hview₁]
    obtain ⟨htt, htx⟩ := @Led.withTimes_congr _ _ ts ht hx
    obtain ⟨hrt, hrx⟩ := @Led.removedDir_congr _ _ targetName c.inode.ino htt htx
    exact View.set_congr hrt hrx

end

end FuseOps

end Nmfs
