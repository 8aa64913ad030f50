import Nmfs.Fs.Ancestry
import Nmfs.Fs.RenameSteps

/-
  What a rename replaces. Neither of the two kinds of rename looks at what has the new name before
  it is deleted from the directory, and the one between two directories does not look whether the
  new directory is below the old name. On the way to the two parents the search can be denied, and
  then nothing is replaced.
-/

namespace Nmfs

open Lib

namespace Replacing

open DirectoryOps FuseOps RenameSteps Ancestry

variable {C : Type} [DecidableEq C]

/-- The paths' parents are directories. -/
structure Parents (s : Cluster C) (p : RenamePaths) (src dst : Uuid) : Prop where
  components : p.Components
  root : (s.tables Uuid.rootIno).isSome = true
  srcPath : s.Resolves p.srcNames Uuid.rootIno src
  dstPath : s.Resolves p.dstNames Uuid.rootIno dst
  src : (s.tables src).isSome = true
  dst : (s.tables dst).isSome = true

/-- Where the rename returns 0, everything is at its path, rewritten, but a replaced object without
    entries: a file or an empty directory. With entries under the new name it is refused and changes
    nothing. -/
def ReplacesOnly (s : Cluster C) (p : RenamePaths) (out : Except Err Int × Cluster C) : Prop :=
  (out.1 = .ok 0 → ∀ path u, Namespace.walk s.entries Uuid.rootIno path = some u →
    (path = p.dstNames ++ [p.newName] → ∃ k c, s.entries u k = some c) →
    Namespace.walk out.2.entries Uuid.rootIno
      (Namespace.rewritten (p.srcNames ++ [p.oldName]) (p.dstNames ++ [p.newName]) path) = some u) ∧
  ∀ t k c, Namespace.walk s.entries Uuid.rootIno (p.dstNames ++ [p.newName]) = some t →
    s.entries t k = some c → out.1 ≠ .ok 0 ∧ out.2.entries = s.entries

/-- The pending transactions of the two parents take what the rename records. -/
structure Accepts (s : Cluster C) (p : RenamePaths) (src dst ino : Uuid) : Prop where
  source : ∀ led, s.led src = some led → led.tx.TakesRemoval p.oldName ino
  replaced : ∀ led c, s.led dst = some led → led.table.child p.newName = some c →
    led.tx.TakesRemoval p.newName c.inode.ino
  new : ∀ led, s.led dst = some led → (led.freed p.newName).tx.TakesNew p.newName ino

/-- Where the object is there under another path, and no directory on the way denies the search to
    its leader: what is replaced has no entries, and the object is not moved below itself, unless the
    journal refuses that. -/
def MayReplace (s : Cluster C) (p : RenamePaths) (src dst : Uuid) : Prop :=
  p.oldPath ≠ p.newPath → p.Opens s → ∀ x, s.entries src p.oldName = some x →
    (∀ t, s.entries dst p.newName = some t → ∀ k, s.entries t k = none) ∧
      (src ≠ dst → Namespace.Reach s.entries x dst → ¬ Accepts s p src dst x)

section

variable {s : Cluster C} {p : RenamePaths} {src dst : Uuid} {me : C} {ts : Timespec}

omit [DecidableEq C] in
theorem walk_of_resolves {names : List Bytes} {d d' : Uuid} (h : s.Resolves names d d') :
    Namespace.walk s.entries d names = some d' := by
  induction names generalizing d with
  | nil => exact congrArg some h
  | cons name names ih =>
      obtain ⟨c, -, he, -, -, -, hrest⟩ := h
      exact Namespace.walk_cons.mpr ⟨_, he, ih hrest⟩

theorem Parents.old (h : Parents s p src dst) (ho : p.Opens s) :
    LeadsTo s me p.oldPath src p.oldName := by
  have hpath : pathTraversal me (Path.text p.srcNames) s = (.ok src, s) :=
    pathTraversal_resolves h.components.srcNames h.root h.srcPath ho.src
  exact ⟨⟨_, h.components.oldParent, by rw [hpath]⟩, h.components.oldFile⟩

theorem Parents.new (h : Parents s p src dst) (ho : p.Opens s) :
    LeadsTo s me p.newPath dst p.newName := by
  have hpath : pathTraversal me (Path.text p.dstNames) s = (.ok dst, s) :=
    pathTraversal_resolves h.components.dstNames h.root h.dstPath ho.dst
  exact ⟨⟨_, h.components.newParent, by rw [hpath]⟩, h.components.newFile⟩

theorem Parents.ready (h : Parents s p src dst) (ho : p.Opens s) (hne : p.oldPath ≠ p.newPath) :
    Ready s me p.oldPath p.newPath src p.oldName dst p.newName where
  old := h.old ho
  new := h.new ho
  srcTable := h.src
  dstTable := h.dst
  ne := hne
  clear := by
    intro heq
    rw [h.components.oldParent, h.components.newParent] at heq
    have hnames := Path.text_inj h.components.srcNames h.components.dstNames (Except.ok.inj heq)
    unfold RenamePaths.oldPath RenamePaths.newPath at hne ⊢
    rw [hnames] at hne ⊢
    refine paradoxCheck_siblings h.components.newName fun hn => hne ?_
    rw [hn]

omit [DecidableEq C] in
/-- Two paths to one entry are the same. -/
theorem Parents.entries_ne (h : Parents s p src dst) (hs : IsTree s) (hne : p.oldPath ≠ p.newPath) :
    ¬ (src = dst ∧ p.oldName = p.newName) := by
  rintro ⟨hd, hn⟩
  have hdst := walk_of_resolves h.dstPath
  rw [← hd] at hdst
  have hnames := hs.forest.walk_inj (walk_of_resolves h.srcPath) hdst
  unfold RenamePaths.oldPath RenamePaths.newPath at hne
  rw [hnames, hn] at hne
  exact hne rfl

omit [DecidableEq C] in
theorem handle_ok_iff {m : ClientOp C Int} : (m.handle renameCatch s).1 = .ok 0 ↔ (m s).1 = .ok 0 :=
  ⟨fun h => by_contra fun hne => handle_renameCatch_ne hne h,
    fun h => by rw [Op.handle_ok (Prod.ext h rfl)]⟩

end

/-! ## When a rename between two directories returns 0 -/

section

variable {s : Cluster C} {p : RenamePaths} {src dst : Uuid} {me : C} {ts : Timespec} {ls ld led : Led}
  {x : MemInode} {name : Bytes} {i : MemInode}

/-- The destination's section answers 0 if and only if it takes the file. -/
theorem dstSection_ok_iff {k : Uuid} {dir : Uuid} (hw : led.Within (· ≠ i.inode.ino) dir)
    (hk : k = Uuid.nil ↔ led.table.child name = none) :
    (∃ reply, (dstSection i k name led).1 = .ok reply ∧ reply.ret = 0) ↔
      Takes led k name i.inode.ino := by
  constructor
  · rintro ⟨reply, hr, -⟩
    have hw' : led.Within (fun _ => True) dir := ⟨hw.self, hw.sound, fun _ _ _ => trivial, hw.uncommitted⟩
    have hfree : k = Uuid.nil → led.table.listed name = none := by
      intro hnil
      rw [hw.sound, hk.mp hnil]
      rfl
    obtain ⟨names, hl, rfl | ⟨-, e, he⟩⟩ :=
      Sections.lists_dstSection (P := fun _ => True) trivial hfree led ⟨hw', rfl⟩
    · refine takes_of_dstSection i hw (Prod.ext hr rfl) ?_
      rw [hl.listed, Function.update_self]
    · rw [hr] at he
      cases he
  · intro ht
    exact ⟨⟨0, none⟩, by rw [dstSection_takes i ht], rfl⟩

/-- What the destination's leader finds does not depend on the source step. -/
theorem takes_congr {led' : Led} {k ino : Uuid} (ht : led'.table = led.table) (hx : led'.tx = led.tx) :
    Takes led' k name ino ↔ Takes led k name ino := by
  have hfreed : (led'.freed name).tx = (led.freed name).tx := (Led.freed_congr ht hx).2
  constructor
  · rintro ⟨hl, hr, hn⟩
    rw [ht] at hl hr
    rw [hx] at hr
    rw [hfreed] at hn
    exact ⟨hl, hr, hn⟩
  · rintro ⟨hl, hr, hn⟩
    rw [← ht] at hl hr
    rw [← hx] at hr
    rw [← hfreed] at hn
    exact ⟨hl, hr, hn⟩

theorem ret_ok_iff {result : Except Err Reply} {f : Err → Err} :
    ((result.map fun reply => reply.ret).mapError f) = .ok 0 ↔
      ∃ reply, result = .ok reply ∧ reply.ret = 0 := by
  cases result with
  | error e => exact ⟨nofun, fun ⟨_, h, _⟩ => (nomatch h)⟩
  | ok reply =>
      constructor
      · exact fun h => ⟨reply, rfl, Except.ok.inj h⟩
      · rintro ⟨reply', h, hret⟩
        cases h
        exact congrArg Except.ok hret

theorem dst_ok_iff (hc : p.Components) {k : Uuid} {target : Inode} (hl : s.led dst = some led)
    (hw : led.Within (· ≠ target.ino) dst) (hk : k = Uuid.nil ↔ led.table.child p.newName = none) :
    (renameNotSameParentDst me dst target k p.newPath 0 s).1 = .ok 0 ↔
      Takes led k p.newName target.ino := by
  by_cases hme : s.leader dst = me
  · have hw' : led.Within (· ≠ (⟨target, dst⟩ : MemInode).inode.ino) dst := hw
    rcases hd : dstSection ⟨target, dst⟩ k p.newName led with ⟨result, led'⟩
    have hmap : (result.map fun reply => reply.ret) =
        ((result.map fun reply => reply.ret).mapError id) := by
      cases result <;> rfl
    rw [renameNotSameParentDst_here hc.newFile hme hl hw.self hd]
    show (result.map fun reply => reply.ret) = .ok 0 ↔ _
    rw [hmap, ret_ok_iff, ← dstSection_ok_iff hw' hk, hd]
  · have hino : (Inode.ofFields target.toFields).ino = target.ino :=
      Inode.ino_ofFields_toFields target
    have hw' : led.Within
        (· ≠ (⟨Inode.ofFields target.toFields, dst⟩ : MemInode).inode.ino) dst := by
      rw [show (⟨Inode.ofFields target.toFields, dst⟩ : MemInode).inode.ino = target.ino from hino]
      exact hw
    rcases hd : dstSection ⟨Inode.ofFields target.toFields, dst⟩ k p.newName led with ⟨result, led'⟩
    have hiff := dstSection_ok_iff hw' hk
    rw [hd, show (⟨Inode.ofFields target.toFields, dst⟩ : MemInode).inode.ino = target.ino from hino]
      at hiff
    rw [renameNotSameParentDst_sent hc.newFile hme hl hw.self hd]
    exact ret_ok_iff.trans hiff

omit [DecidableEq C] in
/-- The destination does not have the object yet. -/
theorem within_ne (hs : IsTree s) (hne : src ≠ dst) {ino : Uuid}
    (hx : s.entries src p.oldName = some ino) (hl : s.led dst = some ld) :
    ld.Within (· ≠ ino) dst := by
  have hw := hs.lists.tables dst ld hl
  refine ⟨hw.self, hw.sound, fun n c hc hi => ?_, hw.uncommitted⟩
  have he : s.entries dst n = some ino := by
    rw [Cluster.entries_of_led hl, hw.sound, hc]
    exact congrArg some hi
  exact hne (hs.forest.unique _ _ _ _ _ hx he).1

theorem cross_ok_iff (me : C) (ts : Timespec) (hs : IsTree s) (h : Parents s p src dst)
    (ho : p.Opens s) (hne : src ≠ dst) {ino : Uuid} (hx : s.entries src p.oldName = some ino) :
    (rename me p.oldPath p.newPath 0 ts s).1 = .ok 0 ↔ Accepts s p src dst ino := by
  obtain ⟨ts', hts⟩ := Option.isSome_iff_exists.mp h.src
  obtain ⟨td, htd⟩ := Option.isSome_iff_exists.mp h.dst
  have hls : s.led src = some ⟨ts', s.jtables (s.leader src), s.dataPool⟩ :=
    Cluster.led_eq_some.mpr ⟨hts, rfl, rfl⟩
  have hld : s.led dst = some ⟨td, s.jtables (s.leader dst), s.dataPool⟩ :=
    Cluster.led_eq_some.mpr ⟨htd, rfl, rfl⟩
  generalize Led.mk ts' (s.jtables (s.leader src)) s.dataPool = ls at hls
  generalize Led.mk td (s.jtables (s.leader dst)) s.dataPool = ld at hld
  have hnames : p.srcNames ≠ p.dstNames := by
    intro heq
    have hd := h.dstPath
    rw [← heq] at hd
    exact hne (h.srcPath.unique hd)
  obtain ⟨x, hchild, rfl⟩ := Sections.Lists.child_some (hs.lists.of_led hls) hx
  have hws := hs.lists.tables src ls hls
  have hwd := within_ne hs hne hx hld
  have haccepts : Accepts s p src dst x.inode.ino ↔ ls.tx.TakesRemoval p.oldName x.inode.ino ∧
      (∀ c, ld.table.child p.newName = some c → ld.tx.TakesRemoval p.newName c.inode.ino) ∧
      (ld.freed p.newName).tx.TakesNew p.newName x.inode.ino := by
    constructor
    · exact fun ha => ⟨ha.source ls hls, fun c hc => ha.replaced ld c hld hc, ha.new ld hld⟩
    · rintro ⟨hsource, hreplaced, hnew⟩
      refine ⟨fun led hl => ?_, fun led c hl hc => ?_, fun led hl => ?_⟩
      · cases hls.symm.trans hl
        exact hsource
      · cases hld.symm.trans hl
        exact hreplaced c hc
      · cases hld.symm.trans hl
        exact hnew
  unfold rename
  rw [if_neg (h.components.paths_ne hnames), handle_ok_iff,
    renameBlock_parts h.components hnames h.root h.srcPath h.dstPath ho h.src hld, haccepts]
  by_cases ht : ls.tx.TakesRemoval p.oldName x.inode.ino
  · obtain ⟨i, hi, hsource⟩ := renameNotSameParentSrc_sent me h.components.oldFile hls hchild ht
    have hino : i.ino = x.inode.ino := by
      rcases hi with rfl | rfl
      · rfl
      · exact Inode.ino_ofFields_toFields x.inode
    rw [Op.bind_ok hsource]
    have hremoved : (ls.removed p.oldName x.inode.ino).Within (· ≠ Uuid.nil) src := by
      have hkeep : (removeSrc p.oldName x ls).2.Within (· ≠ Uuid.nil) src :=
        Sections.keeps_removeSrc p.oldName x ls hws
      rw [removeSrc_ok ht] at hkeep
      exact hkeep
    obtain ⟨ld', hl', hwd', htable⟩ := within_put_of_ne hld hwd (Ne.symm hne) hremoved
    have htx : ld'.tx = ld.tx := by
      have hchanges : Led.Changes src ls (ls.removed p.oldName x.inode.ino) :=
        Led.changes_removed hws.self
      have hview := Cluster.view_put hls hchanges
      rw [Cluster.tx_of_led hl' hwd'.self, Cluster.tx_of_led hld hwd.self,
        show (s.put src (ls.removed p.oldName x.inode.ino)).tx = _ from congrArg View.tx hview]
      exact Function.update_of_ne (Ne.symm hne) _ _
    have hcheck : ld.table.checkChildInode p.newName = Uuid.nil ↔
        ld'.table.child p.newName = none := by
      have hlists := hs.lists.of_led hld
      rw [htable]
      constructor
      · exact fun hnil => Sections.Lists.child_none hlists
          (Sections.Lists.free_of_check (fun _ hu => hu) hlists hnil)
      · intro hc
        rw [check_of_listed h.components.newName, hwd.sound, hc]
        rfl
    rw [← hino] at hwd'
    rw [dst_ok_iff h.components hl' hwd' hcheck, hino, takes_congr htable htx]
    rw [htable] at hcheck
    exact ⟨fun htakes => ⟨ht, htakes.removal, htakes.new⟩,
      fun haccept => ⟨hcheck, haccept.2.1, haccept.2.2⟩⟩
  · obtain ⟨e, led', hfail, -⟩ := source_fails me h.components.oldFile hls hws hchild ht
    rw [Op.bind_error hfail]
    exact ⟨nofun, fun haccept => absurd haccept.1 ht⟩

end

/-! ## What is replaced -/

section

variable {s : Cluster C} {p : RenamePaths} {src dst : Uuid} {out : Except Err Int × Cluster C}

omit [DecidableEq C] in
/-- A rename that does nothing and does not return 0. -/
theorem replacesOnly_of_nothing (hr : out.1 ≠ .ok 0) (he : out.2.entries = s.entries) :
    ReplacesOnly s p out :=
  ⟨fun hzero => absurd hzero hr, fun _ _ _ _ _ => ⟨hr, he⟩⟩

/-- With an object under the new name, what a rename does is not nothing. -/
theorem moved_ne {f f' : Uuid → Bytes → Option Uuid} {oldName newName : Bytes} {x t : Uuid}
    {r : Except Err Int} (hf : Namespace.Forest f Uuid.rootIno) (hx : f src oldName = some x)
    (ht : f dst newName = some t) (hne : ¬ (src = dst ∧ oldName = newName))
    (hm : Moved f src oldName dst newName r f') : f' ≠ f := by
  rintro rfl
  rcases hm with hm | ⟨hm | hm | hm, -⟩
  · have hmoved : f' dst newName = some x := by
      rw [hm]
      unfold Namespace.move
      rw [Namespace.set_self, hx]
    exact hne (hf.unique _ _ _ _ _ hx hmoved)
  · rw [hm, Namespace.set_self] at hx
    cases hx
  · rw [hm, Namespace.set_self] at ht
    cases ht
  · rw [hm, Namespace.set_self] at ht
    cases ht

/-- Exactly when a rename replaces only what it may. -/
theorem replacesOnly_iff (hs : IsTree s) (h : Parents s p src dst) (me : C) (ts : Timespec) :
    ReplacesOnly s p (rename me p.oldPath p.newPath 0 ts s) ↔ MayReplace s p src dst := by
  by_cases hpaths : p.oldPath = p.newPath
  · refine iff_of_true ?_ fun hne => absurd hpaths hne
    unfold rename
    rw [if_pos hpaths]
    exact replacesOnly_of_nothing (fun hr => absurd (Except.ok.inj hr) (by decide)) rfl
  by_cases ho : p.Opens s
  swap
  · refine iff_of_true ?_ fun _ hopen => absurd hopen ho
    rw [rename_denied h.components hpaths h.root h.srcPath h.dstPath h.src ho]
    exact replacesOnly_of_nothing (fun hr => absurd (Except.ok.inj hr) (by decide)) rfl
  obtain ⟨f', hl, heff⟩ := rename_leaves me (fun _ hu => hu) hs.lists p.oldPath p.newPath 0 ts
  have hpa := walk_of_resolves h.srcPath
  have hpb := walk_of_resolves h.dstPath
  have hapart := h.entries_ne hs hpaths
  cases hx : s.entries src p.oldName with
  | none =>
      refine iff_of_true ?_ fun _ _ x hx' => nomatch hx.symm.trans hx'
      rcases heff with ⟨rfl, hr, -⟩ | ⟨-, src', oldName', dst', newName', x', hold, -, hx', -⟩
      · exact replacesOnly_of_nothing hr hl.entries
      · obtain ⟨rfl, rfl⟩ := (h.old ho : LeadsTo s me _ _ _).unique hold
        cases hx.symm.trans hx'
  | some x =>
      have hm : Moved s.entries src p.oldName dst p.newName
          (rename me p.oldPath p.newPath 0 ts s).1 f' := by
        rcases heff with ⟨-, -, hno⟩ | ⟨-, src', oldName', dst', newName', x', hold, hnew, -, hm⟩
        · cases hx.symm.trans (hno _ _ _ _ (h.ready ho hpaths) rfl)
        · obtain ⟨rfl, rfl⟩ := (h.old ho : LeadsTo s me _ _ _).unique hold
          obtain ⟨rfl, rfl⟩ := (h.new ho : LeadsTo s me _ _ _).unique hnew
          exact hm
      have hmove : (rename me p.oldPath p.newPath 0 ts s).1 = .ok 0 →
          (rename me p.oldPath p.newPath 0 ts s).2.entries =
            Namespace.move s.entries src p.oldName dst p.newName := by
        intro hzero
        rcases hm with rfl | ⟨-, hr⟩
        · exact hl.entries
        · exact absurd hzero hr
      have hkept := hs.forest.walk_rewritten_iff hpa hpb hx hapart
      constructor
      · intro ⟨hkeeps, hrefused⟩ _ _ x' hx'
        cases hx.symm.trans hx'
        constructor
        · intro t ht k
          by_contra hk
          obtain ⟨c, hc⟩ := Option.ne_none_iff_exists'.mp hk
          have hsame := (hrefused t k c (Namespace.walk_snoc.mpr ⟨dst, hpb, ht⟩) hc).2
          rw [hl.entries] at hsame
          exact moved_ne hs.forest hx ht hapart hm hsame
        · intro hne hinto haccepts
          have hzero := (cross_ok_iff me ts hs h ho hne hx).mpr haccepts
          have hall := hkeeps hzero
          rw [hmove hzero] at hall
          exact (hkept.mp hall).1 hinto
      · intro hmay
        obtain ⟨hempty, hbelow⟩ := hmay hpaths ho x hx
        constructor
        · intro hzero
          rw [hmove hzero]
          refine hkept.mpr ⟨fun hinto => ?_, hempty⟩
          by_cases hne : src = dst
          · rw [← hne] at hinto
            exact hs.acyclic src (.head' ⟨p.oldName, hx⟩ hinto)
          · exact hbelow hne hinto ((cross_ok_iff me ts hs h ho hne hx).mp hzero)
        · intro t k c ht hc
          obtain ⟨d, hd, ht⟩ := Namespace.walk_snoc.mp ht
          cases hpb.symm.trans hd
          cases (hempty t ht k).symm.trans hc

end

/-! ## A directory and a full one -/

open Placement

def secondMade : Cluster Bool :=
  (mkdir true (envOf 2) (Path.text [[97], [98]]) 0x1ED clock firstMade).2

/-- "/a", "/a/b" and "/c". -/
def full : Cluster Bool := (mkdir false (envOf 3) (Path.text [[99]]) 0x1ED clock secondMade).2

theorem full_isTree : IsTree full := by
  have hfirst : IsTree firstMade := mkdir_isTree rootOnly_isTree (fresh_first _)
  have hfresh : Fresh firstMade (.mkdir true (envOf 2) (Path.text [[97], [98]]) 0x1ED clock) :=
    fresh_of_entries firstMade_entries (by decide) rfl (by decide) _ _
  have hsecond : IsTree secondMade := mkdir_isTree hfirst hfresh
  refine mkdir_isTree hsecond ?_
  exact fresh_of_entries (entries_mkdir hfirst firstMade_entries hfresh) (by decide) rfl (by decide)
    _ _

/-- From "/c" to "/a", and from "/c" to "/a/c". -/
def ontoFull : RenamePaths := ⟨[], [99], [], [97]⟩
def intoFull : RenamePaths := ⟨[], [99], [[97]], [99]⟩

theorem replacesOnly_iff_intoFull :
    ReplacesOnly full intoFull (rename false intoFull.oldPath intoFull.newPath 0 clock full) ∧
      (rename false intoFull.oldPath intoFull.newPath 0 clock full).1 = .ok 0 := by
  have hparents : Parents full intoFull Uuid.rootIno (envOf 1).newIno :=
    ⟨⟨by decide, by decide⟩, rfl, rfl, ⟨_, rfl, rfl, by decide, by decide, rfl, rfl⟩, rfl, rfl⟩
  refine ⟨(replacesOnly_iff full_isTree hparents false clock).mpr fun _ _ x hx => ⟨nofun, ?_⟩, rfl⟩
  obtain rfl : (envOf 3).newIno = x := Option.some.inj hx
  intro _ hreach
  rcases Relation.ReflTransGen.cases_head hreach with heq | ⟨d, ⟨k, hk⟩, -⟩
  · exact absurd heq (by decide)
  · cases hk

/-- It returns 0, and "/a/b" is not below the root any more. -/
theorem ontoFull_cutsOff : IsTree full ∧ Parents full ontoFull Uuid.rootIno Uuid.rootIno ∧
    (rename false ontoFull.oldPath ontoFull.newPath 0 clock full).1 = .ok 0 ∧
    Namespace.walk full.entries Uuid.rootIno [[97], [98]] = some (envOf 2).newIno ∧
    Namespace.walk (rename false ontoFull.oldPath ontoFull.newPath 0 clock full).2.entries
      Uuid.rootIno [[97], [98]] = none ∧
    ¬ ReplacesOnly full ontoFull
      (rename false ontoFull.oldPath ontoFull.newPath 0 clock full) := by
  refine ⟨full_isTree, ⟨⟨by decide, by decide⟩, rfl, rfl, rfl, rfl, rfl⟩, rfl, rfl, rfl, ?_⟩
  intro h
  exact (h.2 (envOf 1).newIno [98] (envOf 2).newIno rfl rfl).1 rfl

end Replacing

end Nmfs
