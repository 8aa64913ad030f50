import Nmfs.Fs.Moves
import Nmfs.InMemory.PathTraversal
import Nmfs.InMemory.ChildMaps

/-
  What `path_traversal` should come to. `resolve` follows a path through directories only, and
  `AncestorDenies` asks each directory that the path leads out of for the search permission. The
  operations that go over several directories look a path up by its names, and reach the same.
-/

namespace Nmfs

open Lib

namespace PathTraversal

open Inode Nmfs.Path

variable {C : Type} [DecidableEq C]

/-- The namespace that the tables hold: the two halves of a table agree, a child has a number, and
    where it is a directory its table is there. -/
structure Linked (s : Cluster C) : Prop where
  root : (s.tables Uuid.rootIno).isSome
  sound : ∀ dir t, s.tables dir = some t → t.Sound
  numbered : ∀ dir name c, s.child dir name = some c → c.inode.ino ≠ Uuid.nil
  held : ∀ dir name c, s.child dir name = some c → isDir c.inode.core.iMode = true →
    (s.tables c.inode.ino).isSome

/-- A directory's own inode. -/
def dirInode (s : Cluster C) (dir : Uuid) : Option Inode :=
  (s.tables dir).map DentryTable.thisDirInode

/-- The inode that a path names; only the last name may be something else than a directory's. -/
def resolve (s : Cluster C) : Uuid → List Bytes → Option Inode
  | dir, [] => dirInode s dir
  | dir, name :: path =>
    match s.child dir name with
    | none => none
    | some c =>
      if isDir c.inode.core.iMode then resolve s c.inode.ino path
      else if path = [] then some c.inode else none

/-- The inode of the path, or an error where there is none. -/
def Exact (s : Cluster C) (me : C) (path : List Bytes) : Prop :=
  match resolve s Uuid.rootIno path with
  | some i => pathTraversal s me (text path) = .ok (.local i)
  | none => ∃ e, pathTraversal s me (text path) = .error e

/-- The directory does not let the client search it. -/
def Denies (s : Cluster C) (client : Ids) (dir : Uuid) : Prop :=
  ∃ i, dirInode s dir = some i ∧ i.permissionCheck client X_OK ≠ .ok ()

/-- A directory denies that the path leads out of. -/
def AncestorDenies (s : Cluster C) (client : Ids) : Uuid → List Bytes → Prop
  | _, [] => False
  | dir, name :: path => Denies s client dir ∨
    match s.child dir name with
    | none => False
    | some c => isDir c.inode.core.iMode = true ∧ AncestorDenies s client c.inode.ino path

/-- Who is denied by an ancestor gets `permission_denied`, and nobody else reaches the target. -/
def Enforces (s : Cluster C) (me : C) (path : List Bytes) : Prop :=
  (∀ target, pathTraversal s me (text path) = .ok target →
    ¬ AncestorDenies s (s.ids me) Uuid.rootIno path) ∧
  (AncestorDenies s (s.ids me) Uuid.rootIno path →
    pathTraversal s me (text path) = .error .permissionDenied)

/-! ## The conditions -/

/-- A name is missing where it is looked up, which is in the last directory that was entered. -/
def Misses (s : Cluster C) : Uuid → List Bytes → Prop
  | _, [] => False
  | dir, name :: path =>
    match s.child dir name with
    | none => True
    | some c => Misses s (if isDir c.inode.core.iMode then c.inode.ino else dir) path

/-- Every name but the last is that of a directory, or one is missing later on. -/
def Straight (s : Cluster C) : Uuid → List Bytes → Prop
  | _, [] => True
  | dir, name :: path =>
    match s.child dir name with
    | none => True
    | some c =>
      if isDir c.inode.core.iMode then Straight s c.inode.ino path
      else path = [] ∨ Misses s dir path

/-- Before a name is missing, a directory is entered that denies the client that leads it. -/
def Stopped (s : Cluster C) : Uuid → List Bytes → Prop
  | _, [] => False
  | dir, name :: path =>
    match s.child dir name with
    | none => False
    | some c =>
      if isDir c.inode.core.iMode then
        Denies s (s.ids (s.leader c.inode.ino)) c.inode.ino ∨ Stopped s c.inode.ino path
      else Stopped s dir path

/-! ## One name -/

section

variable {s : Cluster C} {me : C} {dir : Uuid} {t : DentryTable} {name : Bytes}
  {c : MemInode}

omit [DecidableEq C] in
theorem child_eq (ht : s.tables dir = some t) : s.child dir = t.child := by
  unfold Cluster.child
  rw [ht]
  rfl

omit [DecidableEq C] in
theorem getDentryTable_eq (ht : s.tables dir = some t) : getDentryTable s dir = .ok t := by
  unfold getDentryTable
  rw [ht]

omit [DecidableEq C] in
theorem Linked.checkChildInode (h : Linked s) (ht : s.tables dir = some t)
    (hname : IsComponent name) :
    t.checkChildInode name = ((s.child dir name).map fun c => c.inode.ino).getD Uuid.nil := by
  have hroot : name ≠ [47] := fun heq => hname.2 (heq ▸ List.mem_singleton_self _)
  unfold DentryTable.checkChildInode Dentry.getChildIno
  rw [if_neg hroot, child_eq ht, ← h.sound dir t ht name]
  rfl

theorem lookUp_absent (h : Linked s) (ht : s.tables dir = some t) (hname : IsComponent name)
    (hc : s.child dir name = none) : lookUp s me dir name = .error .noEntry := by
  have hnil : t.checkChildInode name = Uuid.nil := by
    rw [h.checkChildInode ht hname, hc]
    rfl
  unfold lookUp
  rw [getDentryTable_eq ht]
  dsimp only [bind, Except.bind]
  rw [if_pos hnil]
  rfl

/-- What the child is to the client. -/
def childFound (s : Cluster C) (me : C) (dir : Uuid) (name : Bytes) (c : MemInode) : Found :=
  if s.leader dir = me then .local c.inode else .remote ⟨⟨dir, name, c.inode.ino⟩, false⟩

theorem getChildInode_eq (ht : s.tables dir = some t) (hc : s.child dir name = some c) :
    getChildInode s me dir t name c.inode.ino = .ok (childFound s me dir name c) := by
  rw [child_eq ht] at hc
  unfold getChildInode childFound
  by_cases hl : s.leader dir = me
  · rw [if_pos hl, if_pos hl, DentryTable.get_present hc]
  · rw [if_neg hl, if_neg hl]

theorem getMode_eq (ht : s.tables dir = some t) (hc : s.child dir name = some c) :
    getMode s (childFound s me dir name c) = .ok c.inode.core.iMode := by
  rw [child_eq ht] at hc
  unfold childFound
  by_cases hl : s.leader dir = me
  · rw [if_pos hl]
    rfl
  · rw [if_neg hl]
    have hled : s.led dir = some ⟨t, s.jtables (s.leader dir), s.dataPool⟩ := by
      unfold Cluster.led
      rw [ht]
      rfl
    have hhandler : RpcServer.getModeHandler { filename := name }
        ⟨t, s.jtables (s.leader dir), s.dataPool⟩ = (.ok c.inode.core.iMode, _) :=
      Op.bind_ok (Led.getChildInode_present hc)
    show ask s dir (RpcClient.getMode name) = _
    unfold ask RpcClient.getMode
    rw [hled]
    dsimp only
    rw [Op.bind_ok (RpcClient.call_ok hhandler)]
    rfl

/-- A directory is asked as its leader. -/
theorem permissionCheck_dir (ht : s.tables dir = some t) :
    permissionCheck s me X_OK (getThisDirInode s me dir t) =
      t.thisDirInode.permissionCheck (s.ids (s.leader dir)) X_OK := by
  unfold getThisDirInode
  by_cases hl : s.leader dir = me
  · rw [if_pos hl, hl]
    rfl
  · rw [if_neg hl]
    have hled : s.led dir = some ⟨t, s.jtables (s.leader dir), s.dataPool⟩ := by
      unfold Cluster.led
      rw [ht]
      rfl
    show ask s dir _ = _
    unfold ask
    rw [hled]
    exact congrArg Prod.fst (Permission.traversal_eq (i := ⟨⟨dir, [], dir⟩, true⟩) rfl)

omit [DecidableEq C] in
theorem Linked.check_present (h : Linked s) (ht : s.tables dir = some t) (hname : IsComponent name)
    (hc : s.child dir name = some c) :
    t.checkChildInode name = c.inode.ino ∧ c.inode.ino ≠ Uuid.nil := by
  refine ⟨?_, h.numbered dir name c hc⟩
  rw [h.checkChildInode ht hname, hc]
  rfl

theorem lookUp_present (h : Linked s) (ht : s.tables dir = some t) (hname : IsComponent name)
    (hc : s.child dir name = some c) :
    lookUp s me dir name =
      if isDir c.inode.core.iMode then do
        let t ← getDentryTable s c.inode.ino
        let target := getThisDirInode s me c.inode.ino t
        PathTraversal.permissionCheck s me X_OK target
        return (c.inode.ino, target)
      else .ok (dir, childFound s me dir name c) := by
  obtain ⟨hino, hnil⟩ := h.check_present ht hname hc
  unfold lookUp
  rw [getDentryTable_eq ht]
  dsimp only [bind, Except.bind]
  rw [hino, if_neg hnil, getChildInode_eq ht hc]
  dsimp only [pure, Except.pure]
  rw [getMode_eq ht hc]

theorem lookUp_other (h : Linked s) (ht : s.tables dir = some t) (hname : IsComponent name)
    (hc : s.child dir name = some c) (hd : ¬ isDir c.inode.core.iMode = true) :
    lookUp s me dir name = .ok (dir, childFound s me dir name c) := by
  rw [lookUp_present h ht hname hc, if_neg hd]

theorem lookUp_dir (h : Linked s) (ht : s.tables dir = some t) (hname : IsComponent name)
    (hc : s.child dir name = some c) (hd : isDir c.inode.core.iMode = true) {t' : DentryTable}
    (ht' : s.tables c.inode.ino = some t') :
    lookUp s me dir name =
      (t'.thisDirInode.permissionCheck (s.ids (s.leader c.inode.ino)) X_OK).map fun _ =>
        (c.inode.ino, getThisDirInode s me c.inode.ino t') := by
  rw [lookUp_present h ht hname hc, if_pos hd, getDentryTable_eq ht']
  dsimp only [bind, Except.bind]
  rw [permissionCheck_dir ht']
  cases t'.thisDirInode.permissionCheck (s.ids (s.leader c.inode.ino)) X_OK with
  | error e => rfl
  | ok u => rfl

end

/-! ## Exact resolution -/

section

variable {s : Cluster C} {me : C}

/-- Every directory is LOCAL and may be searched. -/
structure Open (s : Cluster C) (me : C) : Prop where
  leader : ∀ dir, s.leader dir = me
  search : ∀ dir, ¬ Denies s (s.ids me) dir

omit [DecidableEq C] in
theorem Open.permissionCheck (h : Open s me) {dir : Uuid} {t : DentryTable}
    (ht : s.tables dir = some t) :
    t.thisDirInode.permissionCheck (s.ids (s.leader dir)) X_OK = .ok () := by
  rw [h.leader]
  by_contra hne
  exact h.search dir ⟨t.thisDirInode, by unfold dirInode; rw [ht]; rfl, hne⟩

/-- The rest of the path ends in an error exactly if a name is missing. -/
theorem rounds_error_iff (h : Linked s) (ho : Open s me) (path : List Bytes)
    (hpath : ∀ name ∈ path, IsComponent name) {dir : Uuid} {t : DentryTable}
    (ht : s.tables dir = some t) (target : Found) :
    (∃ e, rounds s me path dir target = .error e) ↔ Misses s dir path := by
  induction path generalizing dir t target with
  | nil =>
      refine iff_of_false ?_ id
      rintro ⟨e, he⟩
      cases he
  | cons name path ih =>
      have hname := hpath name List.mem_cons_self
      have hrest := fun n hn => hpath n (List.mem_cons_of_mem name hn)
      unfold rounds Misses
      cases hc : s.child dir name with
      | none =>
          rw [lookUp_absent h ht hname hc]
          exact iff_of_true ⟨_, rfl⟩ trivial
      | some c =>
          by_cases hd : isDir c.inode.core.iMode = true
          · obtain ⟨t', ht'⟩ := Option.isSome_iff_exists.mp (h.held dir name c hc hd)
            rw [lookUp_dir h ht hname hc hd ht', ho.permissionCheck ht']
            dsimp only
            rw [if_pos hd]
            exact ih hrest ht' _
          · rw [lookUp_other h ht hname hc hd]
            dsimp only
            rw [if_neg hd]
            exact ih hrest ht _

/-- From a directory on, with its own inode reached. -/
theorem rounds_exact_iff (h : Linked s) (ho : Open s me) (path : List Bytes)
    (hpath : ∀ name ∈ path, IsComponent name) {dir : Uuid} {t : DentryTable}
    (ht : s.tables dir = some t) :
    (match resolve s dir path with
      | some i => rounds s me path dir (getThisDirInode s me dir t) = .ok (.local i)
      | none => ∃ e, rounds s me path dir (getThisDirInode s me dir t) = .error e) ↔
    Straight s dir path := by
  induction path generalizing dir t with
  | nil =>
      have hself : resolve s dir [] = some t.thisDirInode := by
        unfold resolve dirInode
        rw [ht]
        rfl
      rw [hself]
      refine iff_of_true ?_ trivial
      unfold rounds getThisDirInode
      rw [if_pos (ho.leader dir)]
  | cons name path ih =>
      have hname := hpath name List.mem_cons_self
      have hrest := fun n hn => hpath n (List.mem_cons_of_mem name hn)
      unfold rounds Straight resolve
      cases hc : s.child dir name with
      | none =>
          rw [lookUp_absent h ht hname hc]
          exact iff_of_true ⟨_, rfl⟩ trivial
      | some c =>
          by_cases hd : isDir c.inode.core.iMode = true
          · obtain ⟨t', ht'⟩ := Option.isSome_iff_exists.mp (h.held dir name c hc hd)
            rw [lookUp_dir h ht hname hc hd ht', ho.permissionCheck ht']
            dsimp only
            rw [if_pos hd, if_pos hd]
            exact ih hrest ht'
          · -- the file is reached, and the directory stays
            rw [lookUp_other h ht hname hc hd]
            dsimp only
            rw [if_neg hd, if_neg hd]
            by_cases hlast : path = []
            · subst hlast
              rw [if_pos rfl]
              refine iff_of_true ?_ (Or.inl rfl)
              unfold childFound
              rw [if_pos (ho.leader dir)]
              rfl
            · rw [if_neg hlast]
              refine Iff.trans (rounds_error_iff h ho path hrest ht _) ?_
              exact (or_iff_right hlast).symm

/-- A path resolves exactly if and only if each name before the last is a directory's, or a name is
    missing in the directory that was entered last. -/
theorem resolves_exactly_iff (s : Cluster C) (me : C) (path : List Bytes)
    (h : Linked s) (ho : Open s me) (hpath : ∀ name ∈ path, IsComponent name)
    (hlen : (text path).length ≤ 2 ^ 31 - 2) :
    Exact s me path ↔ Straight s Uuid.rootIno path := by
  obtain ⟨t, ht⟩ := Option.isSome_iff_exists.mp h.root
  unfold Exact
  rw [pathTraversal_text path hpath hlen ht]
  exact rounds_exact_iff h ho path hpath ht

end

/-! ## Search permission -/

section

variable {s : Cluster C} {me : C}

omit [DecidableEq C] in
theorem denies_iff {client : Ids} {dir : Uuid} {t : DentryTable} (ht : s.tables dir = some t) :
    Denies s client dir ↔
      t.thisDirInode.permissionCheck client X_OK = .error .permissionDenied := by
  have hself : dirInode s dir = some t.thisDirInode := by
    unfold dirInode
    rw [ht]
    rfl
  unfold Denies
  rw [hself]
  simp only [Option.some.injEq, exists_eq_left']
  rw [Permission.permissionCheck_eq]
  split <;> simp

/-- The traversal is stopped by a directory that it enters. -/
theorem rounds_denied_iff (h : Linked s) (path : List Bytes)
    (hpath : ∀ name ∈ path, IsComponent name) {dir : Uuid} {t : DentryTable}
    (ht : s.tables dir = some t) (target : Found) :
    rounds s me path dir target = .error .permissionDenied ↔ Stopped s dir path := by
  induction path generalizing dir t target with
  | nil =>
      refine iff_of_false (fun he => ?_) id
      cases he
  | cons name path ih =>
      have hname := hpath name List.mem_cons_self
      have hrest := fun n hn => hpath n (List.mem_cons_of_mem name hn)
      unfold rounds Stopped
      cases hc : s.child dir name with
      | none =>
          rw [lookUp_absent h ht hname hc]
          refine iff_of_false (fun he => ?_) id
          cases he
      | some c =>
          by_cases hd : isDir c.inode.core.iMode = true
          · obtain ⟨t', ht'⟩ := Option.isSome_iff_exists.mp (h.held dir name c hc hd)
            rw [lookUp_dir h ht hname hc hd ht']
            dsimp only
            rw [if_pos hd]
            by_cases hdeny : Denies s (s.ids (s.leader c.inode.ino)) c.inode.ino
            · rw [(denies_iff ht').mp hdeny]
              exact iff_of_true rfl (Or.inl hdeny)
            · rw [or_iff_right hdeny, ← ih hrest ht' (getThisDirInode s me c.inode.ino t')]
              have hok : t'.thisDirInode.permissionCheck (s.ids (s.leader c.inode.ino)) X_OK =
                  .ok () := by
                rw [denies_iff ht', Permission.permissionCheck_eq] at hdeny
                rw [Permission.permissionCheck_eq]
                split at hdeny
                · rw [if_pos (by assumption)]
                · exact absurd rfl hdeny
              rw [hok]
              rfl
          · rw [lookUp_other h ht hname hc hd]
            dsimp only
            rw [if_neg hd]
            exact ih hrest ht _

/-- The traversal enforces the search permission if and only if no ancestor denies the client, or it
    enters a directory that denies its leader. -/
theorem enforces_iff (s : Cluster C) (me : C) (path : List Bytes) (h : Linked s)
    (hpath : ∀ name ∈ path, IsComponent name) (hlen : (text path).length ≤ 2 ^ 31 - 2) :
    Enforces s me path ↔
      (AncestorDenies s (s.ids me) Uuid.rootIno path → Stopped s Uuid.rootIno path) := by
  obtain ⟨t, ht⟩ := Option.isSome_iff_exists.mp h.root
  unfold Enforces
  rw [pathTraversal_text path hpath hlen ht, rounds_denied_iff h path hpath ht]
  constructor
  · exact fun hall => hall.2
  · intro hall
    refine ⟨fun target htarget hdeny => ?_, hall⟩
    rw [← rounds_denied_iff h path hpath ht (getThisDirInode s me Uuid.rootIno t), htarget] at hall
    cases hall hdeny

end

/-! ## The path traversal of the operations -/

section

variable {s : Cluster C} {me : C}

/-- `get_ino` of what is reached. -/
def Found.ino : Found → Uuid
  | .local i => i.ino
  | .remote i => i.ino

theorem childFound_ino {dir : Uuid} {name : Bytes} {c : MemInode} :
    (childFound s me dir name c).ino = c.inode.ino := by
  unfold childFound
  split <;> rfl

/-- Name by name, with the numbers only. -/
theorem traverse_eq (h : Linked s)
    (hself : ∀ dir t, s.tables dir = some t → t.thisDirInode.ino = dir) (path : List Bytes)
    (hpath : ∀ name ∈ path, IsComponent name) {dir : Uuid} {t : DentryTable}
    (ht : s.tables dir = some t) (target : Found) :
    FuseOps.traverse me path dir target.ino s = ((rounds s me path dir target).map Found.ino, s) := by
  induction path generalizing dir t target with
  | nil => rfl
  | cons name path ih =>
      have hname := hpath name List.mem_cons_self
      have hrest := fun n hn => hpath n (List.mem_cons_of_mem name hn)
      have hled : s.led dir = some ⟨t, s.jtables (s.leader dir), s.dataPool⟩ :=
        Cluster.led_eq_some.mpr ⟨ht, rfl, rfl⟩
      have hcheck : FuseOps.checkChildInode me dir name s = (.ok (t.checkChildInode name), s) :=
        FuseOps.checkChildInode_led hled
      unfold FuseOps.traverse rounds
      rw [Op.bind_ok hcheck]
      cases hc : s.child dir name with
      | none =>
          have hnil : t.checkChildInode name = Uuid.nil := by
            rw [h.checkChildInode ht hname, hc]
            rfl
          rw [lookUp_absent h ht hname hc, if_pos hnil]
          rfl
      | some c =>
          obtain ⟨hino, hnil⟩ := h.check_present ht hname hc
          have hchild := hc
          rw [child_eq ht] at hchild
          rw [hino, if_neg hnil]
          refine (Op.bind_ok (FuseOps.getMode_led hled hchild)).trans ?_
          by_cases hd : isDir c.inode.core.iMode = true
          · obtain ⟨t', ht'⟩ := Option.isSome_iff_exists.mp (h.held dir name c hc hd)
            have hled' : s.led c.inode.ino =
                some ⟨t', s.jtables (s.leader c.inode.ino), s.dataPool⟩ :=
              Cluster.led_eq_some.mpr ⟨ht', rfl, rfl⟩
            have hperm : FuseOps.permissionCheck me c.inode.ino X_OK s =
                (t'.thisDirInode.permissionCheck (s.ids (s.leader c.inode.ino)) X_OK, s) :=
              FuseOps.permissionCheck_led hled' X_OK
            have hfound : (getThisDirInode s me c.inode.ino t').ino = c.inode.ino := by
              unfold getThisDirInode
              split
              · exact hself _ _ ht'
              · rfl
            rw [if_pos hd, Op.bind_ok (FuseOps.getDentryTable_present (by rw [ht']; rfl)),
              lookUp_dir h ht hname hc hd ht']
            cases hcheck : t'.thisDirInode.permissionCheck (s.ids (s.leader c.inode.ino)) X_OK with
            | error e =>
                rw [hcheck] at hperm
                exact Op.bind_error hperm
            | ok u =>
                rw [hcheck] at hperm
                have hgo := ih hrest ht' (getThisDirInode s me c.inode.ino t')
                rw [hfound] at hgo
                exact (Op.bind_ok hperm).trans hgo
          · have hgo := ih hrest ht (childFound s me dir name c)
            rw [childFound_ino] at hgo
            rw [if_neg hd, lookUp_other h ht hname hc hd]
            exact hgo

/-- The two traversals are one: what the operations are given is the number of what is reached. -/
theorem pathTraversal_eq (h : Linked s)
    (hself : ∀ dir t, s.tables dir = some t → t.thisDirInode.ino = dir) (path : List Bytes)
    (hpath : ∀ name ∈ path, IsComponent name) (hlen : (text path).length ≤ 2 ^ 31 - 2) :
    FuseOps.pathTraversal me (text path) s =
      ((pathTraversal s me (text path)).map Found.ino, s) := by
  obtain ⟨t, ht⟩ := Option.isSome_iff_exists.mp h.root
  have hroot : (getThisDirInode s me Uuid.rootIno t).ino = Uuid.rootIno := by
    unfold getThisDirInode
    split
    · exact hself _ _ ht
    · rfl
  have hgo : FuseOps.traverse me path Uuid.rootIno _ s = _ :=
    traverse_eq h hself path hpath ht (getThisDirInode s me Uuid.rootIno t)
  rw [hroot] at hgo
  unfold FuseOps.pathTraversal
  rw [Op.bind_ok (FuseOps.getDentryTable_present h.root), names_text hpath,
    pathTraversal_text path hpath hlen ht]
  exact hgo

end

/-! ## A root with one file -/

section

/-- The root, with the file `a` in it, at the only client. -/
def rootTable (rootInode : Inode) : DentryTable :=
  ((DentryTable.ofNew rootInode).createChildInode [97]
    (DentryTable.newFile (.splicePrefixAndPostfix 1 1))).2

def rootOnly (rootInode : Inode) : Cluster Unit where
  ids _ := ⟨1000, 1000⟩
  leader _ := ()
  tables := Function.update (fun _ => none) Uuid.rootIno (some (rootTable rootInode))
  jtables _ := ∅
  dataPool := ∅

theorem rootOnly_tables {rootInode : Inode} {dir : Uuid} {t : DentryTable}
    (ht : (rootOnly rootInode).tables dir = some t) : dir = Uuid.rootIno ∧ t = rootTable rootInode := by
  have hupdate : Function.update (fun _ => none) Uuid.rootIno (some (rootTable rootInode)) dir =
      some t := ht
  by_cases hd : dir = Uuid.rootIno
  · subst hd
    exact ⟨rfl, (Option.some.inj ht).symm⟩
  · rw [Function.update_of_ne hd] at hupdate
    cases hupdate

theorem rootOnly_child {rootInode : Inode} {dir : Uuid} {name : Bytes} {c : MemInode}
    (hc : (rootOnly rootInode).child dir name = some c) :
    c = DentryTable.newFile (.splicePrefixAndPostfix 1 1) := by
  obtain ⟨t, ht, hchild⟩ := Option.bind_eq_some_iff.mp hc
  obtain ⟨rfl, rfl⟩ := rootOnly_tables ht
  unfold rootTable at hchild
  rw [DentryTable.child_create rfl] at hchild
  by_cases hn : name = [97]
  · subst hn
    rw [Function.update_self] at hchild
    exact (Option.some.inj hchild).symm
  · rw [Function.update_of_ne hn] at hchild
    cases hchild

theorem rootOnly_linked (rootInode : Inode) : Linked (rootOnly rootInode) := by
  refine ⟨rfl, ?_, ?_, ?_⟩
  · intro dir t ht
    obtain ⟨-, rfl⟩ := rootOnly_tables ht
    exact (DentryTable.sound_ofNew rootInode).create _ _
  · intro dir name c hc
    rw [rootOnly_child hc]
    decide
  · intro dir name c hc hd
    rw [rootOnly_child hc] at hd
    exact absurd hd (by decide)

theorem rootOnly_denies_iff {rootInode : Inode} {client : Ids} {dir : Uuid} :
    Denies (rootOnly rootInode) client dir ↔
      dir = Uuid.rootIno ∧ rootInode.permissionCheck client X_OK ≠ .ok () := by
  constructor
  · intro ⟨i, hi, hne⟩
    obtain ⟨t, ht, rfl⟩ := Option.map_eq_some_iff.mp hi
    obtain ⟨rfl, rfl⟩ := rootOnly_tables ht
    exact ⟨rfl, hne⟩
  · intro ⟨hd, hne⟩
    subst hd
    exact ⟨rootInode, rfl, hne⟩

/-- A root that everybody may search. -/
theorem rootOnly_open : Open (rootOnly DentryTable.newRoot) () := by
  refine ⟨fun _ => rfl, fun dir hdeny => ?_⟩
  exact (rootOnly_denies_iff.mp hdeny).2 (by decide)

/-- `/a/a` is the file `/a`. -/
theorem file_is_passed : Linked (rootOnly DentryTable.newRoot) ∧
    Open (rootOnly DentryTable.newRoot) () ∧
    pathTraversal (rootOnly DentryTable.newRoot) () (text [[97], [97]]) =
      .ok (.local (DentryTable.newFile (.splicePrefixAndPostfix 1 1)).inode) ∧
    ¬ Exact (rootOnly DentryTable.newRoot) () [[97], [97]] := by
  have hfound : pathTraversal (rootOnly DentryTable.newRoot) () (text [[97], [97]]) =
      .ok (.local (DentryTable.newFile (.splicePrefixAndPostfix 1 1)).inode) := rfl
  refine ⟨rootOnly_linked _, rootOnly_open, hfound, fun h => ?_⟩
  obtain ⟨e, he⟩ : ∃ e, pathTraversal (rootOnly DentryTable.newRoot) () (text [[97], [97]]) =
      .error e := h
  rw [hfound] at he
  cases he

/-- A root that only its owner may search. -/
def privateRoot : Inode :=
  { DentryTable.newRoot with core := { DentryTable.newRoot.core with iMode := 0x41C0 } }

/-- Nobody is asked at the root. -/
theorem root_is_not_asked : Linked (rootOnly privateRoot) ∧
    pathTraversal (rootOnly privateRoot) () (text [[97]]) =
      .ok (.local (DentryTable.newFile (.splicePrefixAndPostfix 1 1)).inode) ∧
    privateRoot.permissionCheck ⟨1000, 1000⟩ X_OK = .error .permissionDenied ∧
    ¬ Enforces (rootOnly privateRoot) () [[97]] := by
  have hdenied : privateRoot.permissionCheck ⟨1000, 1000⟩ X_OK = .error .permissionDenied := by
    decide
  refine ⟨rootOnly_linked _, rfl, hdenied, fun h => ?_⟩
  refine h.1 _ rfl (Or.inl (rootOnly_denies_iff.mpr ⟨rfl, fun heq => ?_⟩))
  exact nomatch hdenied.symm.trans heq

/-! ## A directory in the root -/

/-- The directory `a` in the root, with a mode of its own, and the file `b` in it. -/
def subInode (mode : UInt32) : Inode :=
  ⟨⟨mode, 0, 0, .splicePrefixAndPostfix 2 2, 2, 4096, ⟨0, 0⟩, ⟨0, 0⟩, ⟨0, 0⟩, 0⟩, none⟩

def outerTable (mode : UInt32) : DentryTable :=
  ((DentryTable.ofNew DentryTable.newRoot).createChildInode [97]
    ⟨subInode mode, Uuid.rootIno⟩).2

def innerTable (mode : UInt32) : DentryTable :=
  ((DentryTable.ofNew (subInode mode)).createChildInode [98]
    (DentryTable.newFile (.splicePrefixAndPostfix 1 1))).2

def nested (mode : UInt32) : Cluster Unit where
  ids _ := ⟨1000, 1000⟩
  leader _ := ()
  tables := Function.update (Function.update (fun _ => none) Uuid.rootIno (some (outerTable mode)))
    (.splicePrefixAndPostfix 2 2) (some (innerTable mode))
  jtables _ := ∅
  dataPool := ∅

theorem nested_tables {mode : UInt32} {dir : Uuid} {t : DentryTable}
    (ht : (nested mode).tables dir = some t) :
    dir = Uuid.rootIno ∧ t = outerTable mode ∨
      dir = .splicePrefixAndPostfix 2 2 ∧ t = innerTable mode := by
  rcases update_eq_some (show Function.update (Function.update (fun _ => none) Uuid.rootIno
    (some (outerTable mode))) (.splicePrefixAndPostfix 2 2) (some (innerTable mode)) dir = some t
    from ht) with ⟨hd, ht⟩ | ⟨-, ht⟩
  · exact .inr ⟨hd, (Option.some.inj ht).symm⟩
  · rcases update_eq_some ht with ⟨hd, ht⟩ | ⟨-, ht⟩
    · exact .inl ⟨hd, (Option.some.inj ht).symm⟩
    · cases ht

theorem nested_child {mode : UInt32} {dir : Uuid} {name : Bytes} {c : MemInode}
    (hc : (nested mode).child dir name = some c) : c = ⟨subInode mode, Uuid.rootIno⟩ ∨
      c = DentryTable.newFile (.splicePrefixAndPostfix 1 1) := by
  obtain ⟨t, ht, hchild⟩ := Option.bind_eq_some_iff.mp hc
  have hcreated : ∀ {t : DentryTable} {n : Bytes} {i : MemInode}, t.child = (fun _ => none) →
      (t.createChildInode n i).2.child name = some c → c = i := by
    intro t n i hempty hcreate
    rw [DentryTable.child_create (congrFun hempty n), hempty] at hcreate
    rcases update_eq_some hcreate with ⟨-, hi⟩ | ⟨-, hi⟩
    · exact (Option.some.inj hi).symm
    · cases hi
  rcases nested_tables ht with ⟨-, rfl⟩ | ⟨-, rfl⟩
  · exact .inl (hcreated rfl hchild)
  · exact .inr (hcreated rfl hchild)

theorem nested_linked (mode : UInt32) : Linked (nested mode) := by
  refine ⟨rfl, ?_, ?_, ?_⟩
  · intro dir t ht
    rcases nested_tables ht with ⟨-, rfl⟩ | ⟨-, rfl⟩
    · exact (DentryTable.sound_ofNew DentryTable.newRoot).create _ _
    · exact (DentryTable.sound_ofNew (subInode mode)).create _ _
  · intro dir name c hc
    rcases nested_child hc with rfl | rfl
    · show (Uuid.splicePrefixAndPostfix 2 2) ≠ Uuid.nil
      decide
    · decide
  · intro dir name c hc hd
    rcases nested_child hc with rfl | rfl
    · rfl
    · exact absurd hd (by decide)

/-- Everybody may search both directories. -/
theorem nested_open : Open (nested 0x41ED) () := by
  refine ⟨fun _ => rfl, ?_⟩
  rintro dir ⟨i, hi, hne⟩
  obtain ⟨t, ht, rfl⟩ := Option.map_eq_some_iff.mp hi
  rcases nested_tables ht with ⟨-, rfl⟩ | ⟨-, rfl⟩
  · exact hne (by decide)
  · exact hne (by decide)

/-- `/a/b`. -/
theorem resolves_exactly_iff_file : Exact (nested 0x41ED) () [[97], [98]] :=
  (resolves_exactly_iff (nested 0x41ED) () [[97], [98]] (nested_linked 0x41ED) nested_open
    (by decide) (by decide)).mpr (Or.inl rfl)

/-- Only the owner may search `/a`. -/
theorem enforces_iff_closed : Enforces (nested 0x41C0) () [[97], [98]] ∧
    AncestorDenies (nested 0x41C0) ⟨1000, 1000⟩ Uuid.rootIno [[97], [98]] := by
  have hdenies : Denies (nested 0x41C0) ⟨1000, 1000⟩ (.splicePrefixAndPostfix 2 2) :=
    ⟨subInode 0x41C0, rfl, by decide⟩
  refine ⟨(enforces_iff (nested 0x41C0) () [[97], [98]] (nested_linked 0x41C0) (by decide)
    (by decide)).mpr fun _ => .inl hdenies, .inr ⟨by decide, .inl hdenies⟩⟩

end

end PathTraversal

end Nmfs
