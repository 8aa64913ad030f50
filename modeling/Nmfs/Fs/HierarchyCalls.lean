import Nmfs.Fs.Hierarchy
import Nmfs.Fs.NamespaceCalls
import Nmfs.Fs.Volume

/-
  The requests of the clients on names, whole and by any of them, against the file tree. What a
  request returns is what the change of the tree comes to, and afterwards the directories at their
  leaders are the tree after the change. The clients' journals may be emptied in between.
-/

namespace Nmfs

open Lib

namespace Hierarchy

open FuseOps DirectoryOps NamespaceCalls

variable {C : Type}

/-! ## Requests and changes -/

def front (path : Bytes) : List Bytes := (Path.names path).dropLast

def last (path : Bytes) : Bytes := (Path.names path).getLastD []

def change : Request C → FileTree.Change Uuid Bytes
  | .onDirs (.mkdir _ env path _ _) => .make (front path) (last path) env.newIno true
  | .onDirs (.rmdir _ path _) => .removeDir (front path) (last path)
  | .onDirs (.rename _ oldPath newPath _ _) =>
    .move (front oldPath) (last oldPath) (front newPath) (last newPath)
  | .create _ env path _ => .make (front path) (last path) env.newIno false
  | .symlink _ env _ dst => .make (front dst) (last dst) env.newIno false
  | .unlink _ path _ => .remove (front path) (last path)

/-- The namespace at the leaders. -/
def tree (s : Cluster C) : FileTree Uuid Bytes := s.view.tree

noncomputable def perform (s : Cluster C) (r : Request C) :
    Except FileTree.Refusal (FileTree Uuid Bytes) :=
  (tree s).perform Uuid.rootIno (change r)

/-- The path leads to a directory of another leader. -/
def elsewhere (s : Cluster C) (me : C) (path : List Bytes) : Prop :=
  ∃ dir, (tree s).find Uuid.rootIno path = .ok dir ∧ s.leader dir ≠ me

open Classical in
/-- Where a path leads to no directory, `-ENOENT`. For a name that a leader does not have, it raises,
    and another client does not see what. -/
noncomputable def whenAbsent (s : Cluster C) : Request C → Except Err Int
  | .unlink me path _ =>
    if elsewhere s me (front path) then .error (.runtimeError needRecovery) else .ok (-ENOENT)
  | .onDirs (.rmdir me path _) =>
    if elsewhere s me (front path) then .error (.runtimeError "rpc_client::get_mode() failed")
    else .ok (-ENOENT)
  | .onDirs (.rename me oldPath newPath _ _) =>
    if elsewhere s me (front oldPath) ∧ ∃ dir, (tree s).find Uuid.rootIno (front newPath) = .ok dir
    then .ok (-ENOSYS)
    else .ok (-ENOENT)
  | .onDirs (.mkdir _ _ _ _ _) | .create _ _ _ _ | .symlink _ _ _ _ => .ok (-ENOENT)

/-- What the client gets back. -/
noncomputable def answer (s : Cluster C) (r : Request C) :
    Except FileTree.Refusal (FileTree Uuid Bytes) → Except Err Int
  | .ok _ => .ok 0
  | .error .absent => whenAbsent s r
  | .error .taken => .ok (-EEXIST)
  | .error .isDir => .ok (-LocalOps.EISDIR)
  | .error .notDir => .ok (-LocalOps.ENOTDIR)
  | .error .full => .ok (-ENOTEMPTY)
  | .error .below => .ok (-EINVAL)

/-- The refusals that the code looks out for. The others it leaves to the kernel. -/
def refusals : Request C → List FileTree.Refusal
  | .onDirs (.rmdir _ _ _) => [.absent, .notDir, .full]
  | .symlink _ _ _ _ => [.absent, .taken]
  | .onDirs (.mkdir _ _ _ _ _) | .onDirs (.rename _ _ _ _ _) | .create _ _ _ _ | .unlink _ _ _ =>
    [.absent]

/-- A normalised absolute path of one name or more. -/
def Normal (path : Bytes) : Prop :=
  ∃ names name, path = Path.text (names ++ [name]) ∧ ∀ n ∈ names ++ [name], Path.IsComponent n

/-- What the path goes on behind is a directory. -/
def Straight (t : FileTree Uuid Bytes) : Uuid → List Bytes → Prop
  | _, [] => True
  | dir, name :: names => ∀ ino, t.entries dir name = some ino →
    (names ≠ [] → t.isDir ino = true) ∧ Straight t ino names

/-- A path as the kernel gives it, through directories that let themselves be searched. -/
structure FromKernel (s : Cluster C) (path : Bytes) : Prop where
  normal : Normal path
  straight : Straight (tree s) Uuid.rootIno (front path)
  opens : s.Opens (front path) Uuid.rootIno

/-- A random number that nothing has, and that no journal knows. -/
structure NewIno (s : Cluster C) (env : Env) : Prop where
  fresh : FreshIno s env
  unknown : ∀ dir, (s.tx dir).fInodes.lookup env.newIno = none
  untold : ∀ c, (s.jtables c).getEntry env.newIno = Transaction.new env.newIno

def Meant (s : Cluster C) : Request C → Prop
  | .onDirs (.mkdir _ env path mode _) =>
    FromKernel s path ∧ NewIno s env ∧ Inode.isDir (mode ||| Inode.S_IFDIR) = true
  | .onDirs (.rmdir _ path _) => FromKernel s path
  | .onDirs (.rename _ oldPath newPath flags _) =>
    FromKernel s oldPath ∧ FromKernel s newPath ∧ oldPath ≠ newPath ∧ flags = 0
  | .create _ env path mode => FromKernel s path ∧ NewIno s env ∧ Inode.isDir mode = false
  | .symlink _ env _ dst => FromKernel s dst ∧ NewIno s env
  | .unlink _ path _ => FromKernel s path

/-- A request that the code has an answer to. The kernel has looked up the names before, and no
    directory is replaced. -/
structure Asked (s : Cluster C) (r : Request C) : Prop where
  meant : Meant s r
  refused : ∀ e, perform s r = .error e → e ∈ refusals r

section

variable {s : Cluster C} {me : C} {path oldPath newPath : Bytes} {ts : Timespec} {flags : UInt32}

theorem unlink_absent_here (h : ¬ elsewhere s me (front path)) :
    answer s (.unlink me path ts) (.error .absent) = .ok (-ENOENT) := if_neg h

theorem unlink_absent_there (h : elsewhere s me (front path)) :
    answer s (.unlink me path ts) (.error .absent) = .error (.runtimeError needRecovery) := if_pos h

theorem rmdir_absent_here (h : ¬ elsewhere s me (front path)) :
    answer s (.onDirs (.rmdir me path ts)) (.error .absent) = .ok (-ENOENT) := if_neg h

theorem rmdir_absent_there (h : elsewhere s me (front path)) :
    answer s (.onDirs (.rmdir me path ts)) (.error .absent) =
      .error (.runtimeError "rpc_client::get_mode() failed") := if_pos h

theorem rename_absent_here
    (h : ¬ (elsewhere s me (front oldPath) ∧
      ∃ dir, (tree s).find Uuid.rootIno (front newPath) = .ok dir)) :
    answer s (.onDirs (.rename me oldPath newPath flags ts)) (.error .absent) = .ok (-ENOENT) :=
  if_neg h

theorem rename_absent_there (h : elsewhere s me (front oldPath)) {dir : Uuid}
    (hd : (tree s).find Uuid.rootIno (front newPath) = .ok dir) :
    answer s (.onDirs (.rename me oldPath newPath flags ts)) (.error .absent) = .ok (-ENOSYS) :=
  if_pos ⟨h, dir, hd⟩

end

variable [DecidableEq C]

/-- The request does to the directories what the change does to the tree. -/
structure Refines (s : Cluster C) (r : Request C) : Prop where
  answer : (r.perform s).1 = answer s r (perform s r)
  sound : (r.perform s).2.view.Sound
  tree : tree (r.perform s).2 = FileTree.after Uuid.rootIno (tree s) (change r)

/-! ## Looking up -/

variable {α : Type} {s : Cluster C} {me : C} {dir : Uuid} {names : List Bytes} {name path : Bytes}

theorem front_text (h : ∀ n ∈ names ++ [name], Path.IsComponent n) :
    front (Path.text (names ++ [name])) = names := by
  unfold front
  rw [Path.names_text h, List.dropLast_concat]

theorem last_text (h : ∀ n ∈ names ++ [name], Path.IsComponent n) :
    last (Path.text (names ++ [name])) = name := by
  unfold last
  rw [Path.names_text h, List.getLastD_concat]

/-- The parts of a path, as the code finds them. -/
structure Parts (path : Bytes) : Prop where
  parent : Path.getParentDirPath path = .ok (Path.text (front path))
  file : Path.getFilenameFromPath path = .ok (last path)
  front : ∀ n ∈ front path, Path.IsComponent n
  last : Path.IsComponent (last path)
  path : path = Path.text (Hierarchy.front path ++ [Hierarchy.last path])

theorem Normal.parts (h : Normal path) : Parts path := by
  obtain ⟨names, name, rfl, hnames⟩ := h
  have hname := hnames name (List.mem_append_right _ (List.mem_singleton.mpr rfl))
  constructor
  · rw [front_text hnames]
    exact Path.getParentDirPath_text hname
  · rw [last_text hnames]
    exact Path.getFilenameFromPath_text hname
  · rw [front_text hnames]
    exact fun n hn => hnames n (List.mem_append_left _ hn)
  · rw [last_text hnames]
    exact hname
  · rw [front_text hnames, last_text hnames]

theorem Parts.components (h : Parts path) :
    ∀ n ∈ Hierarchy.front path ++ [Hierarchy.last path], Path.IsComponent n := by
  intro n hn
  rcases List.mem_append.mp hn with hn | hn
  · exact h.front n hn
  · rw [List.mem_singleton.mp hn]
    exact h.last

omit [DecidableEq C] in
/-- The leader of a directory, and what it has of it. -/
theorem leads (h : s.view.Sound) (hd : (tree s).isDir dir = true) :
    ∃ led base, s.led dir = some led ∧ s.view.At dir led ∧ led.table.dirIno = dir ∧
      Names led base := by
  obtain ⟨table, ht⟩ := Option.isSome_iff_exists.mp (show (s.tables dir).isSome = true from hd)
  have hl : s.led dir = some ⟨table, s.jtables (s.leader dir), s.dataPool⟩ :=
    Cluster.led_eq_some.mpr ⟨ht, rfl, rfl⟩
  obtain ⟨led, base, hat, hdir, hn⟩ := h.names dir hd
  have htable : table = led.table := Option.some.inj (ht.symm.trans hat.1)
  have hself : table.thisDirInode.ino = dir := by
    rw [htable]
    exact hn.self.trans hdir
  have hat' : s.view.At dir ⟨table, s.jtables (s.leader dir), s.dataPool⟩ :=
    ⟨ht, (Cluster.tx_of_led hl hself).symm⟩
  obtain ⟨hdir', base', hn'⟩ := h.names_at hat'
  exact ⟨_, base', hl, hat', hdir', hn'⟩

omit [DecidableEq C] in
theorem isDir_of_entry {x : Uuid} (h : (tree s).entries dir name = some x) :
    (tree s).isDir dir = true := by
  obtain ⟨table, ht, -⟩ := Option.bind_eq_some_iff.mp h
  exact Option.isSome_iff_exists.mpr ⟨table, ht⟩

omit [DecidableEq C] in
theorem child_of_entry {led : Led} {base : Bytes → Option Uuid} {x : Uuid}
    (hat : s.view.At dir led) (hn : Names led base) (h : (tree s).entries dir name = some x) :
    ∃ c, led.table.child name = some c ∧ c.inode.ino = x := by
  have hl : led.table.listed name = some x := (congrFun hat.entries name).symm.trans h
  rw [hn.sound] at hl
  exact Option.map_eq_some_iff.mp hl

theorem traverse_absent {led : Led} {target : Uuid} (hl : s.led dir = some led)
    (hname : Path.IsComponent name) (hn : led.table.listed name = none) :
    FuseOps.traverse me (name :: names) dir target s = (.error .noEntry, s) := by
  unfold FuseOps.traverse
  rw [Op.bind_ok (checkChildInode_led hl), check_of_listed hname, hn, Option.getD_none, if_pos rfl]
  rfl

theorem traverse_present {led : Led} {target : Uuid} {c : MemInode} (hl : s.led dir = some led)
    (hname : Path.IsComponent name) (hc : led.table.child name = some c)
    (hn : led.table.listed name = some c.inode.ino) (hnil : c.inode.ino ≠ Uuid.nil) :
    FuseOps.traverse me (name :: names) dir target s =
      (if Inode.isDir c.inode.core.iMode then do
        getDentryTable c.inode.ino
        permissionCheck me c.inode.ino Inode.X_OK
        FuseOps.traverse me names c.inode.ino c.inode.ino
      else FuseOps.traverse me names dir c.inode.ino) s := by
  refine (Op.bind_ok (checkChildInode_led hl)).trans ?_
  rw [check_of_listed hname, hn, Option.getD_some, if_neg hnil]
  exact Op.bind_ok (getMode_led hl hc)

omit [DecidableEq C] in
/-- The way to a directory that is found. -/
theorem resolves {x : Uuid} (h : s.view.Sound) (hf : (tree s).find dir names = .ok x) :
    s.Resolves names dir x := by
  induction names generalizing dir with
  | nil => exact Option.some.inj (FileTree.find_eq_ok.mp hf).1
  | cons name names ih =>
      obtain ⟨hw, hx⟩ := FileTree.find_eq_ok.mp hf
      obtain ⟨ino, he, hrest⟩ := Namespace.walk_cons.mp hw
      have hfind : (tree s).find ino names = .ok x := FileTree.find_eq_ok.mpr ⟨hrest, hx⟩
      have hdir : (tree s).isDir ino = true := by
        cases names with
        | nil =>
            rw [Option.some.inj (show some ino = some x from hrest)]
            exact hx
        | cons k names =>
            obtain ⟨_, hk, -⟩ := Namespace.walk_cons.mp hrest
            exact isDir_of_entry hk
      obtain ⟨led, base, hl, hat, -, hn⟩ := leads h (isDir_of_entry he)
      obtain ⟨c, hc, rfl⟩ := child_of_entry hat hn he
      have hlist := hn.listed_of_child hc
      refine ⟨c, ?_, he, hn.notNil name _ hlist, ?_, hdir, ih hfind⟩
      · rw [Cluster.child_of_led hl]
        exact hc
      · exact (h.kinds dir led name c hat hc).1.trans hdir

/-- The loop of `path_traversal` where the path leads to no directory. Where it leads to a file, it
    finds that. -/
theorem traverse_lost {e : FileTree.Refusal} (me : C) (h : s.view.Sound)
    (hnames : ∀ n ∈ names, Path.IsComponent n) (hd : (tree s).isDir dir = true)
    (hs : Straight (tree s) dir names) (ho : s.Opens names dir)
    (hf : (tree s).find dir names = .error e) :
    FuseOps.traverse me names dir dir s = (.error .noEntry, s) ∨
      ∃ x, s.tables x = none ∧ FuseOps.traverse me names dir dir s = (.ok x, s) := by
  induction names generalizing dir with
  | nil =>
      unfold FileTree.find at hf
      rw [if_pos hd] at hf
      cases hf
  | cons name names ih =>
      obtain ⟨led, base, hl, hat, -, hn⟩ := leads h hd
      have hname := hnames name List.mem_cons_self
      have he : (tree s).entries dir name = led.table.listed name := congrFun hat.entries name
      cases hlist : led.table.listed name with
      | none => exact .inl (traverse_absent hl hname hlist)
      | some ino =>
          rw [hlist] at he
          obtain ⟨hmore, hrest⟩ := hs ino he
          obtain ⟨c, hc, rfl⟩ := child_of_entry hat hn he
          have hmode := (h.kinds dir led name c hat hc).1
          have hchild : s.child dir name = some c := by
            rw [Cluster.child_of_led hl]
            exact hc
          obtain ⟨hadmits, hopen⟩ := (Cluster.opens_cons hchild).mp ho
          rw [FileTree.find_cons_some he] at hf
          rw [traverse_present hl hname hc hlist (hn.notNil name _ hlist)]
          cases hdir : (tree s).isDir c.inode.ino with
          | true =>
              rw [if_pos (hmode.trans hdir), Op.bind_ok (getDentryTable_present hdir),
                Op.bind_ok (permissionCheck_admits hadmits hdir)]
              exact ih (fun n hn => hnames n (List.mem_cons_of_mem _ hn)) hdir hrest hopen hf
          | false =>
              -- only the last name may be a file's
              have hnil : names = [] := by
                by_contra hne
                rw [hmore hne] at hdir
                cases hdir
              subst hnil
              rw [if_neg (by rw [hmode.trans hdir]; decide)]
              refine .inr ⟨c.inode.ino, ?_, rfl⟩
              exact Option.not_isSome_iff_eq_none.mp (Bool.eq_false_iff.mp hdir)

/-- To go on in the directory that is found. -/
def goOn (dir : Except FileTree.Refusal Uuid) (m : Uuid → ClientOp C α) : ClientOp C α :=
  match dir with
  | .ok dir => m dir
  | .error _ => Op.raise .noEntry

/-- To look up a directory, and to go on there. -/
theorem found (h : s.view.Sound) (hk : FromKernel s path) (m : Uuid → ClientOp C α) :
    (pathTraversal me (Path.text (front path)) >>= fun parent =>
      getDentryTable parent >>= fun _ => m parent) s =
      goOn ((tree s).find Uuid.rootIno (front path)) m s := by
  have hp := hk.normal.parts
  cases hfind : (tree s).find Uuid.rootIno (front path) with
  | ok x =>
      refine (Op.bind_ok
        (pathTraversal_resolves hp.front h.root (resolves h hfind) hk.opens)).trans ?_
      exact Op.bind_ok (getDentryTable_present (FileTree.isDir_of_find hfind))
  | error e =>
      have htraverse : ∀ {r}, FuseOps.traverse me (front path) Uuid.rootIno Uuid.rootIno s = r →
          pathTraversal me (Path.text (front path)) s = r := by
        intro r hr
        unfold pathTraversal
        rw [Op.bind_ok (getDentryTable_present h.root), Path.names_text hp.front]
        exact hr
      rcases traverse_lost me h hp.front h.root hk.straight hk.opens hfind with hx | ⟨x, hnone, hx⟩
      · exact Op.bind_error (htraverse hx)
      · have htable : getDentryTable x s = ((.error .noEntry, s) : Except Err Unit × Cluster C) := by
          unfold getDentryTable
          rw [hnone]
        exact (Op.bind_ok (htraverse hx)).trans (Op.bind_error htable)

omit [DecidableEq C] in
theorem elsewhere_iff (hf : (tree s).find Uuid.rootIno names = .ok dir) :
    elsewhere s me names ↔ s.leader dir ≠ me := by
  constructor
  · rintro ⟨d, hd, hne⟩
    rw [hf] at hd
    cases hd
    exact hne
  · exact fun hne => ⟨dir, hf, hne⟩

omit [DecidableEq C] in
theorem not_elsewhere {e : FileTree.Refusal} (hf : (tree s).find Uuid.rootIno names = .error e) :
    ¬ elsewhere s me names := by
  rintro ⟨d, hd, -⟩
  rw [hf] at hd
  cases hd

/-! ## From a request to its section -/

variable {r : Request C} {led led' : Led} {env : Env} {s' : Cluster C}

/-- The tables and the transactions after a section. -/
theorem sound_put (hl : s.led dir = some led) (hself : led'.table.thisDirInode.ino = dir)
    (hothers : ∀ d, d ≠ dir → led'.jtable.getEntry d = led.jtable.getEntry d)
    {t : FileTree Uuid Bytes} (h : (s.view.set dir led').Sound ∧ (s.view.set dir led').tree = t) :
    (s.put dir led').view.Sound ∧ tree (s.put dir led') = t := by
  have hview : (s.put dir { led' with dataPool := led.dataPool }).view =
      s.view.set dir { led' with dataPool := led.dataPool } :=
    Cluster.view_put hl ⟨hself, hothers, rfl⟩
  have ht : (s.put dir led').view.tables = (s.view.set dir led').tables := by
    have heq := congrArg View.tables hview
    exact heq
  have hx : (s.put dir led').view.tx = (s.view.set dir led').tx := by
    have heq := congrArg View.tx hview
    exact heq
  obtain ⟨hsound, htree⟩ := h.1.emptied ht fun d => .inl (congrFun hx d)
  exact ⟨hsound, htree.trans h.2⟩

omit [DecidableEq C] in
theorem handle_caught {m : ClientOp C Int} (e : Err) {f : Err → Option Int} {n : Int}
    (h : m s = (.error e, s)) (hf : f e = some n) : m.handle f s = (.ok n, s) := by
  unfold Op.handle
  rw [h]
  dsimp only
  rw [hf]

omit [DecidableEq C] in
theorem handle_raised {m : ClientOp C Int} {e : Err} {f : Err → Option Int}
    (h : m s = (.error e, s)) (hf : f e = none) : m.handle f s = (.error e, s) := by
  unfold Op.handle
  rw [h]
  dsimp only
  rw [hf]

theorem refines_done {t : FileTree Uuid Bytes} (hp : perform s r = .ok t)
    (hr : r.perform s = (.ok 0, s')) (hs : s'.view.Sound ∧ tree s' = t) : Refines s r := by
  refine ⟨?_, ?_, ?_⟩
  · rw [hr, hp]
    rfl
  · rw [hr]
    exact hs.1
  · rw [hr, FileTree.after_ok hp]
    exact hs.2

theorem refines_refused {e : FileTree.Refusal} (h : s.view.Sound) (hp : perform s r = .error e)
    (hr : r.perform s = (answer s r (.error e), s)) : Refines s r := by
  refine ⟨?_, ?_, ?_⟩
  · rw [hr, hp]
  · rw [hr]
    exact h
  · rw [hr, FileTree.after_error hp]

/-- Nothing has the name at the leader. Another client sees that something was raised. -/
theorem refines_absent {m : ClientOp C Int} {what : String} (h : s.view.Sound)
    (hp : perform s r = .error .absent) (hr : r.perform s = m.handle catchClauses s)
    (hm : m s = (if s.leader dir = me then .error .noEntry else .error (.runtimeError what), s))
    (hhere : s.leader dir = me → answer s r (.error .absent) = .ok (-ENOENT))
    (hthere : s.leader dir ≠ me → answer s r (.error .absent) = .error (.runtimeError what)) :
    Refines s r := by
  apply refines_refused h hp
  rw [hr]
  by_cases hme : s.leader dir = me
  · rw [if_pos hme] at hm
    rw [hhere hme]
    exact handle_caught _ hm rfl
  · rw [if_neg hme] at hm
    rw [hthere hme]
    exact handle_raised hm rfl

/-- A directory at its leader in the middle of a section, and the tree with it. -/
structure Midway (s : Cluster C) (dir : Uuid) (led led' : Led) (t : FileTree Uuid Bytes) : Prop where
  self : led'.table.thisDirInode.ino = dir
  others : ∀ d, d ≠ dir → led'.jtable.getEntry d = led.jtable.getEntry d
  sound : (s.view.set dir led').Sound
  tree : (s.view.set dir led').tree = t

section

variable {t : FileTree Uuid Bytes} {ts : Timespec} {ino : Uuid} {i : MemInode}

omit [DecidableEq C] in
theorem Midway.start (h : s.view.Sound) (hat : s.view.At dir led) :
    Midway s dir led led (Hierarchy.tree s) := by
  have hset : s.view.set dir led = s.view := by
    unfold View.set
    rw [← hat.1, ← hat.2, Function.update_eq_self, Function.update_eq_self]
  refine ⟨h.self hat, fun _ _ => rfl, ?_, ?_⟩
  · rw [hset]
    exact h
  · rw [hset]
    rfl

omit [DecidableEq C] in
theorem Midway.inStep (h : Midway s dir led led' t) : ∃ base, Names led' base :=
  (h.sound.names_at View.at_set).2

omit [DecidableEq C] in
theorem Midway.entries (h : Midway s dir led led' t) : t.entries dir = led'.table.listed := by
  rw [← h.tree]
  exact View.at_set.entries

omit [DecidableEq C] in
/-- The next step of the section. -/
theorem Midway.step (h : Midway s dir led led' t) {led'' : Led} {t' : FileTree Uuid Bytes}
    (hself : led''.table.thisDirInode.ino = dir)
    (hothers : ∀ d, d ≠ dir → led''.jtable.getEntry d = led'.jtable.getEntry d)
    (hs : ((s.view.set dir led').set dir led'').Sound ∧
      ((s.view.set dir led').set dir led'').tree = t') : Midway s dir led led'' t' := by
  rw [View.set_set] at hs
  exact ⟨hself, fun d hd => (hothers d hd).trans (h.others d hd), hs.1, hs.2⟩

omit [DecidableEq C] in
theorem Midway.withTimes (h : Midway s dir led led' t) (ts : Timespec) :
    Midway s dir led (led'.withTimes ts) t := by
  obtain ⟨hsound, htree⟩ := h.sound.withTimes View.at_set ts
  exact h.step h.self (fun _ _ => rfl) ⟨hsound, htree.trans h.tree⟩

omit [DecidableEq C] in
theorem Midway.withoutData (h : Midway s dir led led' t) (ino : Uuid) :
    Midway s dir led (led'.withoutData ino) t := by
  have hempty : (s.view.set dir (led'.withoutData ino)).Sound ∧
      (s.view.set dir (led'.withoutData ino)).tree = (s.view.set dir led').tree :=
    h.sound.emptied rfl fun _ => .inl rfl
  exact ⟨h.self, h.others, hempty.1, hempty.2.trans h.tree⟩

omit [DecidableEq C] in
theorem Midway.removed (h : Midway s dir led led' t) (hl : led'.table.listed name = some ino) :
    Midway s dir led (led'.removed name ino) (t.removed dir name) := by
  have hc : Led.Changes dir led' (led'.removed name ino) := Led.changes_removed h.self
  obtain ⟨hsound, htree⟩ := h.sound.removed View.at_set hl
  exact h.step hc.self hc.others ⟨hsound, by rw [htree, h.tree]⟩

omit [DecidableEq C] in
theorem Midway.removedDir (h : Midway s dir led led' t) (hl : led'.table.listed name = some ino) :
    Midway s dir led (led'.removedDir name ino) (t.removed dir name) := by
  have hc : Led.Changes dir led' (led'.removedDir name ino) := Led.changes_removedDir h.self
  obtain ⟨hsound, htree⟩ := h.sound.removedDir View.at_set hl
  exact h.step hc.self hc.others ⟨hsound, by rw [htree, h.tree]⟩

omit [DecidableEq C] in
theorem Midway.freed (h : Midway s dir led led' t) (name : Bytes) :
    Midway s dir led (led'.freed name) (t.removed dir name) := by
  obtain ⟨base, hn⟩ := h.inStep
  unfold Led.freed
  cases hc : led'.table.child name with
  | none =>
      have hnone : t.entries dir name = none := by
        rw [h.entries]
        exact hn.listed_none hc
      rw [FileTree.removed_absent hnone]
      exact h
  | some c => exact h.removed (hn.listed_of_child hc)

omit [DecidableEq C] in
theorem Midway.inserted (h : Midway s dir led led' t)
    (hi : (s.view.set dir led').Nameless dir i) (hl : led'.table.listed name = none) :
    Midway s dir led (led'.inserted name i)
      { t with entries := Namespace.set t.entries dir name (some i.inode.ino) } := by
  have hc : Led.Changes dir led' (led'.inserted name i) := Led.changes_inserted h.self
  obtain ⟨hsound, htree⟩ := h.sound.inserted View.at_set hi hl
  exact h.step hc.self hc.others ⟨hsound, by rw [htree, h.tree]⟩

/-- The section has been done. -/
theorem Midway.put (h : Midway s dir led led' t) (hl : s.led dir = some led) :
    (s.put dir led').view.Sound ∧ Hierarchy.tree (s.put dir led') = t :=
  sound_put hl h.self h.others ⟨h.sound, h.tree⟩

omit [DecidableEq C] in
/-- A new file gets a name that was free. -/
theorem Midway.insertNew (h : Midway s dir led led' t) (ht : t = Hierarchy.tree s)
    (hn : NewIno s env) {i : Inode} (hi : i.ino = env.newIno) (hlink : i.core.iNlink = 1)
    (hmode : Inode.isDir i.core.iMode = false) (hfree : led'.table.listed name = none) :
    Midway s dir led (led'.inserted name ⟨i, dir⟩)
      ((Hierarchy.tree s).made dir name env.newIno false) := by
  subst ht
  obtain ⟨hnil, hroot, htable, hnone⟩ := hn.fresh
  have hdir : (Hierarchy.tree s).isDir env.newIno = false := by
    show (s.tables env.newIno).isSome = false
    rw [htable]
    rfl
  have hnameless : (s.view.set dir led').Nameless dir ⟨i, dir⟩ := by
    refine ⟨hi ▸ hnil, hi ▸ hroot, fun d n => ?_, rfl, ?_, fun d hd hpend => ?_⟩
    · rw [h.tree, hi]
      exact hnone d n
    · unfold View.Kind
      rw [h.tree, hi, hdir, hlink]
      exact ⟨hmode, fun _ => rfl⟩
    · obtain ⟨-, g, hg⟩ := hpend
      rw [show (s.view.set dir led').tx d = s.tx d from Function.update_of_ne hd _ _, hi,
        hn.unknown d] at hg
      cases hg
  have hins := h.inserted hnameless hfree
  unfold FileTree.made
  rw [← hdir, Function.update_eq_self, ← hi]
  exact hins

end

/-! ## create and symlink -/

theorem createIn_eq {mode : UInt32} {reply : Reply} (hl : s.led dir = some led)
    (hm : createChild env name mode led = (.ok reply, led')) (hret : reply.ret = 0) :
    createIn me dir env name mode s = (.ok 0, s.put dir led') := by
  have hs : onDir dir (createChild env name mode) s = (.ok reply, s.put dir led') := by
    rw [onDir_led hl, hm]
  unfold createIn
  refine whereLed_eq (Op.bind_ok hs) (remotely_ok ((Op.bind_ok hs).trans ?_))
  rw [hret]
  rfl

theorem symlinkIn_eq (me : C) {src path : Bytes} {reply : Reply}
    (hname : Path.getFilenameFromPath path = .ok name) (hl : s.led dir = some led)
    (hm : symlinkChild env src name led = (.ok reply, led')) :
    symlinkIn me dir env src path s = (.ok reply.ret, s.put dir led') := by
  have hs : onDir dir (symlinkChild env src name) s = (.ok reply, s.put dir led') := by
    rw [onDir_led hl, hm]
  have hnamed : (do
      let symlinkName ← Op.lift (Path.getFilenameFromPath path)
      let reply ← onDir dir (symlinkChild env src symlinkName)
      return reply.ret : ClientOp C Int) s = (.ok reply.ret, s.put dir led') :=
    (Op.bind_ok (Op.lift_ok hname)).trans (Op.bind_ok hs)
  unfold symlinkIn
  exact whereLed_eq hnamed (remotely_ok hnamed)

theorem isDir_of_reg (mode : UInt32) : Inode.isDir (mode ||| Inode.S_IFREG) = false := by
  apply decide_eq_false
  intro heq
  have hbit := congrArg (fun w : UInt32 => w.toBitVec.getLsbD 15) heq
  simp [Inode.S_IFREG, Inode.S_IFMT, Inode.S_IFDIR] at hbit

theorem create_refines (h : s.view.Sound) {mode : UInt32}
    (ha : Asked s (.create me env path mode)) : Refines s (.create me env path mode) := by
  obtain ⟨hkernel, hn, hmode⟩ := ha.meant
  have hp := hkernel.normal.parts
  have hblock : createBlock me env path mode s =
      goOn ((tree s).find Uuid.rootIno (front path))
        (fun dir => createIn me dir env (last path) mode) s := by
    unfold createBlock
    rw [Op.bind_ok (Op.lift_ok hp.file), Op.bind_ok (Op.lift_ok hp.parent)]
    exact found h hkernel _
  have hcreate : ∀ {r}, ((createBlock me env path mode).handle catchClauses s) = r →
      (Request.create me env path mode).perform s = r := by
    intro r hr
    show (if _ then _ else _ : ClientOp C Int) s = _
    rw [if_neg (by rw [hmode]; decide)]
    exact hr
  cases hf : (tree s).find Uuid.rootIno (front path) with
  | error e =>
      rw [hf] at hblock
      exact refines_refused h (FileTree.perform_lost hf)
        (hcreate (handle_caught .noEntry hblock rfl))
  | ok dir =>
      obtain ⟨led, base, hl, hat, hdir, hnames⟩ := leads h (FileTree.isDir_of_find hf)
      rw [hf] at hblock
      have hperform : perform s (.create me env path mode) = _ := FileTree.perform_make hf
      have he : (tree s).entries dir (last path) = led.table.listed (last path) :=
        congrFun hat.entries _
      cases hlist : led.table.listed (last path) with
      | some x =>
          rw [he, hlist] at hperform
          exact absurd (List.mem_singleton.mp (ha.refused .taken hperform)) (by decide)
      | none =>
          rw [he, hlist] at hperform
          have hunknown : led.tx.fInodes.lookup env.newIno = none := by
            rw [← hat.2]
            exact hn.unknown dir
          have htakes : led.tx.TakesNew (last path) env.newIno :=
            hnames.takesNew hlist (by rw [hunknown]; exact nofun)
          have hmake := (Midway.start h hat).withTimes env.now
          refine refines_done hperform (hcreate (Op.handle_ok (hblock.trans ?_)))
            ((hmake.insertNew (i := Inode.make env (mode ||| Inode.S_IFREG)) rfl hn rfl rfl
              (isDir_of_reg mode) hlist).put hl)
          refine (createIn_eq hl (createChild_new htakes) rfl).trans ?_
          unfold newFile
          rw [h.self hat]

theorem symlink_refines (h : s.view.Sound) {src : Bytes}
    (ha : Asked s (.symlink me env src path)) : Refines s (.symlink me env src path) := by
  obtain ⟨hkernel, hn⟩ := ha.meant
  have hp := hkernel.normal.parts
  have hblock : symlinkBlock me env src path s =
      goOn ((tree s).find Uuid.rootIno (front path))
        (fun dir => symlinkIn me dir env src path) s := by
    unfold symlinkBlock
    rw [Op.bind_ok (Op.lift_ok hp.parent)]
    exact found h hkernel _
  cases hf : (tree s).find Uuid.rootIno (front path) with
  | error e =>
      rw [hf] at hblock
      exact refines_refused h (FileTree.perform_lost hf) (handle_caught .noEntry hblock rfl)
  | ok dir =>
      obtain ⟨led, base, hl, hat, hdir, hnames⟩ := leads h (FileTree.isDir_of_find hf)
      rw [hf] at hblock
      have hperform : perform s (.symlink me env src path) = _ := FileTree.perform_make hf
      have he : (tree s).entries dir (last path) = led.table.listed (last path) :=
        congrFun hat.entries _
      have hcheck : led.table.checkChildInode (last path) =
          (led.table.listed (last path)).getD Uuid.nil := check_of_listed hp.last
      cases hlist : led.table.listed (last path) with
      | some x =>
          rw [he, hlist] at hperform
          rw [hlist] at hcheck
          have htaken : led.table.checkChildInode (last path) ≠ Uuid.nil := by
            rw [hcheck]
            exact hnames.notNil _ x hlist
          have hsymlink := symlinkIn_eq me hp.file hl
            (show symlinkChild env src (last path) led = _ from symlinkChild_taken htaken)
          rw [Cluster.put_led hl] at hsymlink
          exact refines_refused h hperform (Op.handle_ok (hblock.trans hsymlink))
      | none =>
          rw [he, hlist] at hperform
          rw [hlist] at hcheck
          have hunknown : led.tx.fInodes.lookup env.newIno = none := by
            rw [← hat.2]
            exact hn.unknown dir
          have htakes : led.tx.TakesNew (last path) env.newIno :=
            hnames.takesNew hlist (by rw [hunknown]; exact nofun)
          have hmake := Midway.start h hat
          refine refines_done hperform (Op.handle_ok (hblock.trans ?_))
            ((hmake.insertNew (i := Inode.makeLink env src) rfl hn rfl rfl
              (show Inode.isDir (Inode.S_IFLNK ||| 0x1FF) = false by decide) hlist).put hl)
          refine (symlinkIn_eq me hp.file hl (symlinkChild_new hcheck htakes)).trans ?_
          unfold newLink
          rw [h.self hat]

/-! ## unlink -/

theorem unlinkIn_eq (me : C) {ts : Timespec} {reply : Reply} (hl : s.led dir = some led)
    (hm : unlinkChild ts name led = (.ok reply, led')) (hret : reply.ret = 0) :
    unlinkIn me dir name ts s = (.ok 0, s.put dir led') := by
  have hs : onDir dir (unlinkChild ts name) s = (.ok reply, s.put dir led') := by
    rw [onDir_led hl, hm]
  unfold unlinkIn
  refine whereLed_eq (Op.bind_ok hs) (remotely_ok ((Op.bind_ok hs).trans ?_))
  rw [hret]
  rfl

theorem unlinkIn_absent (me : C) (ts : Timespec) (hl : s.led dir = some led)
    (hc : led.table.child name = none) :
    unlinkIn me dir name ts s =
      (if s.leader dir = me then .error .noEntry else .error (.runtimeError needRecovery), s) := by
  have hs : onDir dir (unlinkChild ts name) s = (.error .noEntry, s) := by
    rw [onDir_led hl, unlinkChild_absent hc]
    dsimp only
    rw [Cluster.put_led hl]
  unfold unlinkIn whereLed
  split
  · exact Op.bind_error hs
  · exact remotely_error (Op.bind_error hs)

theorem unlink_refines (h : s.view.Sound) {ts : Timespec} (ha : Asked s (.unlink me path ts)) :
    Refines s (.unlink me path ts) := by
  have hkernel := ha.meant
  have hp := hkernel.normal.parts
  have hblock : unlinkBlock me path ts s =
      goOn ((tree s).find Uuid.rootIno (front path))
        (fun dir => unlinkIn me dir (last path) ts) s := by
    unfold unlinkBlock
    rw [Op.bind_ok (Op.lift_ok hp.file), Op.bind_ok (Op.lift_ok hp.parent)]
    exact found h hkernel _
  cases hf : (tree s).find Uuid.rootIno (front path) with
  | error e =>
      rw [hf] at hblock
      refine refines_refused h (FileTree.perform_lost hf) ?_
      rw [unlink_absent_here (not_elsewhere hf)]
      exact handle_caught .noEntry hblock rfl
  | ok dir =>
      obtain ⟨led, base, hl, hat, hdir, hnames⟩ := leads h (FileTree.isDir_of_find hf)
      rw [hf] at hblock
      have hperform : perform s (.unlink me path ts) = _ := FileTree.perform_remove hf
      have he : (tree s).entries dir (last path) = led.table.listed (last path) :=
        congrFun hat.entries _
      cases hlist : led.table.listed (last path) with
      | none =>
          rw [hlist] at he
          rw [FileTree.entry_none he] at hperform
          have habsent := unlinkIn_absent me ts hl (hnames.child_none hlist)
          exact refines_absent h hperform rfl (hblock.trans habsent)
            (fun hme => unlink_absent_here fun hno => (elsewhere_iff hf).mp hno hme)
            fun hme => unlink_absent_there ((elsewhere_iff hf).mpr hme)
      | some x =>
          rw [hlist] at he
          rw [FileTree.entry_some he] at hperform
          have hperform' : perform s (.unlink me path ts) =
              if (tree s).isDir x then .error .isDir else .ok ((tree s).removed dir (last path)) :=
            hperform
          obtain ⟨c, hc, rfl⟩ := child_of_entry hat hnames he
          cases hdirx : (tree s).isDir c.inode.ino with
          | true =>
              rw [if_pos hdirx] at hperform'
              exact absurd (List.mem_singleton.mp (ha.refused .isDir hperform')) (by decide)
          | false =>
              rw [if_neg (by rw [hdirx]; decide)] at hperform'
              have hlast := (h.kinds dir led _ c hat hc).2 hdirx
              have hgone := ((Midway.start h hat).withoutData c.inode.ino).withTimes ts
              have hchild : unlinkChild ts (last path) led = _ :=
                unlinkChild_last hc hlast (hnames.takesRemoval hlist)
              have hunlink := unlinkIn_eq me hl hchild rfl
              exact refines_done hperform' (Op.handle_ok (hblock.trans hunlink))
                ((hgone.removed hlist).put hl)

end Hierarchy

end Nmfs
