import Nmfs.Fs.HierarchyMoves

/-
  Runs of the requests of all clients. The directories at their leaders are a file tree all along,
  and every request is answered as its change of that tree.
-/

namespace Nmfs

open Lib

namespace Hierarchy

open FuseOps NamespaceCalls

variable {C : Type} [DecidableEq C] {s s' : Cluster C} {r : Request C} {t : FileTree Uuid Bytes}

inductive Action (C : Type) where
  | request (r : Request C)
  /-- the commit thread takes the client's journal -/
  | replaceMap (me : C)

def step (s : Cluster C) : Action C → Option (Cluster C)
  | .request r => some (r.perform s).2
  | .replaceMap me => some { s with jtables := Function.update s.jtables me ∅ }

/-- What is changed of the tree. -/
def Action.changes : Action C → List (FileTree.Change Uuid Bytes)
  | .request r => [change r]
  | .replaceMap _ => []

def Proper (s : Cluster C) : Action C → Prop
  | .request r => Asked s r
  | .replaceMap _ => True

def Answers (s : Cluster C) : Action C → Prop
  | .request r => (r.perform s).1 = answer s r (perform s r)
  | .replaceMap _ => True

/-- The directories at their leaders are the file tree. -/
structure Represents (s : Cluster C) (t : FileTree Uuid Bytes) : Prop where
  sound : s.view.Sound
  tree : tree s = t
  isTree : t.IsTree Uuid.rootIno

/-! ## One step -/

theorem refines (h : s.view.Sound) (ha : Asked s r) : Refines s r := by
  cases r with
  | onDirs call =>
      cases call with
      | mkdir me env path mode born => exact mkdir_refines h ha
      | rmdir me path ts => exact rmdir_refines h ha
      | rename me oldPath newPath flags ts => exact rename_refines h ha
  | create me env path mode => exact create_refines h ha
  | symlink me env src dst => exact symlink_refines h ha
  | unlink me path ts => exact unlink_refines h ha

omit [DecidableEq C] in
theorem NewIno.new {env : Env} (h : NewIno s env) : (tree s).New Uuid.rootIno env.newIno := by
  obtain ⟨-, hroot, htable, hnone⟩ := h.fresh
  refine ⟨hroot, ?_, hnone⟩
  show (s.tables env.newIno).isSome = false
  rw [htable]
  rfl

omit [DecidableEq C] in
theorem Asked.fits (ha : Asked s r) : (tree s).Fits Uuid.rootIno (change r) := by
  have hm := ha.meant
  cases r with
  | onDirs call =>
      cases call with
      | mkdir me env path mode born => exact hm.2.1.new
      | rmdir me path ts => trivial
      | rename me oldPath newPath flags ts => trivial
  | create me env path mode => exact hm.2.1.new
  | symlink me env src dst => exact hm.2.new
  | unlink me path ts => trivial

theorem Represents.request (h : Represents s t) (ha : Asked s r) :
    Represents (r.perform s).2 (FileTree.after Uuid.rootIno t (change r)) := by
  have hr := refines h.sound ha
  have hfits := ha.fits
  rw [h.tree] at hfits
  refine ⟨hr.sound, ?_, h.isTree.after hfits⟩
  rw [hr.tree, h.tree]

theorem Represents.replaceMap (h : Represents s t) (me : C) :
    Represents { s with jtables := Function.update s.jtables me ∅ } t := by
  have hx : ∀ d, Cluster.tx { s with jtables := Function.update s.jtables me ∅ } d = s.tx d ∨
      Cluster.tx { s with jtables := Function.update s.jtables me ∅ } d = Transaction.new d := by
    intro d
    show JournalTable.getEntry (Function.update s.jtables me ∅ (s.leader d)) d = _ ∨
      JournalTable.getEntry (Function.update s.jtables me ∅ (s.leader d)) d = _
    by_cases hme : s.leader d = me
    · rw [hme, Function.update_self]
      exact .inr rfl
    · rw [Function.update_of_ne hme]
      exact .inl rfl
  have hv : (Cluster.view { s with jtables := Function.update s.jtables me ∅ }).tables =
      s.view.tables := rfl
  obtain ⟨hsound, htree⟩ := h.sound.emptied hv hx
  exact ⟨hsound, htree.trans h.tree, h.isTree⟩

/-- One step of the code is what its changes make of the tree. -/
theorem step_represents {a : Action C} (h : Represents s t) (ha : Proper s a) :
    Answers s a ∧ ∀ s', step s a = some s' →
      Represents s' (a.changes.foldl (FileTree.after Uuid.rootIno) t) := by
  cases a with
  | request r =>
      refine ⟨(refines h.sound ha).answer, fun s' hs => ?_⟩
      cases hs
      exact h.request ha
  | replaceMap me =>
      refine ⟨trivial, fun s' hs => ?_⟩
      cases hs
      exact h.replaceMap me

/-! ## Every run -/

/-- However the clients' requests follow each other and whoever leads the directories, every request
    is answered as its change of one file tree, and the namespace is that tree all along. -/
theorem refines_file_tree {actions : List (Action C)} (h : Represents s t)
    (ha : StepsMeet step Proper s actions) :
    StepsMeet step Answers s actions ∧ ∀ s', run step s actions = some s' →
      Represents s' ((actions.flatMap Action.changes).foldl (FileTree.after Uuid.rootIno) t) := by
  induction actions generalizing s t with
  | nil =>
      refine ⟨trivial, fun s' hr => ?_⟩
      cases hr
      exact h
  | cons a actions ih =>
      obtain ⟨hanswers, hstep⟩ := step_represents h ha.1
      refine ⟨⟨hanswers, fun u hu => (ih (hstep u hu) (ha.2 u hu)).1⟩, fun s' hr => ?_⟩
      obtain ⟨u, hu, hr⟩ := run_cons.mp hr
      rw [List.flatMap_cons, List.foldl_append]
      exact (ih (hstep u hu) (ha.2 u hu)).2 s' hr

/-! ## A directory that is made, moved and removed -/

open Placement

theorem rootOnly_represents : Represents rootOnly (tree rootOnly) := by
  have hentries : (tree rootOnly).entries = fun _ _ => none := by
    funext dir name
    exact Ancestry.rootOnly_entries dir name
  have hroot : ∀ {dir}, (tree rootOnly).isDir dir = true → dir = Uuid.rootIno := by
    intro dir hdir
    by_contra hne
    have hnone : rootOnly.tables dir = none := by
      show Function.update (fun _ => none) Uuid.rootIno _ dir = none
      rw [Function.update_of_ne hne]
    rw [show (tree rootOnly).isDir dir = (rootOnly.tables dir).isSome from rfl, hnone] at hdir
    cases hdir
  have hforest : Namespace.Forest (tree rootOnly).entries Uuid.rootIno := by
    rw [hentries]
    exact ⟨fun _ _ _ _ _ he => (nomatch he), fun _ _ he => (nomatch he)⟩
  refine ⟨⟨rfl, hforest, fun dir hdir => ?_, fun dir led name c hat hc => ?_,
    fun dir ino _ d name he => ?_⟩, rfl, hforest, rfl, fun d n x he => ?_, fun d hd => ?_⟩
  · obtain rfl := hroot hdir
    exact ⟨rootNew, _, ⟨rfl, rfl⟩, rfl, rootNew_names⟩
  · obtain rfl := hroot hat.isDir
    rw [← Option.some.inj (show some (DentryTable.ofNew rootInode) = some led.table from hat.1)] at hc
    cases hc
  · rw [show rootOnly.view.tree.entries d name = none from Ancestry.rootOnly_entries d name] at he
    cases he
  · rw [hentries] at he
    cases he
  · rw [hroot hd]

/-- One client makes "/a", the other one moves it to "/b", and the first one removes that. -/
def movedAndRemoved : List (Action Bool) :=
  [.request (.onDirs (.mkdir false (envOf 1) (Path.text [[97]]) 0x1ED clock)),
    .replaceMap false,
    .request (.onDirs (.rename true (Path.text [[97]]) (Path.text [[98]]) 0 clock)),
    .request (.onDirs (.rmdir false (Path.text [[98]]) clock))]

theorem fromKernel_single {s : Cluster Bool} {name : Bytes} (h : Path.IsComponent name) :
    FromKernel s (Path.text [name]) := by
  have hall : ∀ n ∈ [] ++ [name], Path.IsComponent n := by
    intro n hn
    rw [List.mem_singleton.mp hn]
    exact h
  have hfront : front (Path.text [name]) = [] := front_text hall
  refine ⟨⟨[], name, rfl, hall⟩, ?_, ?_⟩
  · rw [hfront]
    trivial
  · rw [hfront]
    exact Cluster.opens_nil

theorem rootOnly_newIno : NewIno rootOnly (envOf 1) := by
  refine ⟨Ancestry.fresh_first [], fun dir => ?_, fun c => ?_⟩
  · show (JournalTable.getEntry (JournalTable.record ∅ Uuid.rootIno (.mkself rootInode)).2
      dir).fInodes.lookup _ = _
    by_cases hd : dir = Uuid.rootIno
    · rw [hd]
      rfl
    · rw [JournalTable.getEntry_record_ne _ _ _ hd]
      rfl
  · cases c with
    | false => rfl
    | true => rfl

theorem movedAndRemoved_proper : StepsMeet step Proper rootOnly movedAndRemoved := by
  have ha : Path.IsComponent [97] := by decide
  have hb : Path.IsComponent [98] := by decide
  have hnone : ∀ name, (tree rootOnly).entries Uuid.rootIno name = none :=
    fun name => Ancestry.rootOnly_entries Uuid.rootIno name
  let x := (envOf 1).newIno
  let t := (tree rootOnly).made Uuid.rootIno [97] x true
  have hmake : (tree rootOnly).perform Uuid.rootIno (.make [] [97] x true) = .ok t := by
    rw [FileTree.perform_make (FileTree.find_nil rootOnly_represents.isTree.rootDir), hnone]
    rfl
  have hmkdir : Asked rootOnly (.onDirs (.mkdir false (envOf 1) (Path.text [[97]]) 0x1ED clock)) :=
    ⟨⟨fromKernel_single ha, rootOnly_newIno, by decide⟩,
      fun e he => nomatch he.symm.trans hmake⟩
  have h₁ := rootOnly_represents.request hmkdir
  rw [show FileTree.after Uuid.rootIno (tree rootOnly) (change (.onDirs (.mkdir false (envOf 1)
    (Path.text [[97]]) 0x1ED clock))) = t from FileTree.after_ok hmake] at h₁
  have h₂ := h₁.replaceMap false
  have hmove : t.perform Uuid.rootIno (.move [] [97] [] [98]) =
      .ok (t.moved Uuid.rootIno [97] Uuid.rootIno [98]) := by
    have hroot : t.find Uuid.rootIno [] = .ok Uuid.rootIno :=
      FileTree.find_nil h₂.isTree.rootDir
    have hx : t.entries Uuid.rootIno [97] = some x := by
      show Namespace.set (tree rootOnly).entries Uuid.rootIno [97] (some x) Uuid.rootIno [97] = _
      exact Namespace.set_self
    have hfree : t.entries Uuid.rootIno [98] = none := by
      show Namespace.set (tree rootOnly).entries Uuid.rootIno [97] (some x) Uuid.rootIno [98] = _
      rw [Namespace.set_of_ne (by decide), hnone]
    rw [FileTree.perform_move hroot hroot, FileTree.entry_some hx]
    refine (if_neg fun hbelow => ?_).trans ?_
    · exact absurd (h₂.isTree.forest.eq_root_of_reach hbelow) (by decide)
    · rw [hfree]
  have hrename : ∀ {s : Cluster Bool}, Represents s t →
      Asked s (.onDirs (.rename true (Path.text [[97]]) (Path.text [[98]]) 0 clock)) := by
    intro s h
    refine ⟨⟨fromKernel_single ha, fromKernel_single hb, by decide, rfl⟩, fun e he => ?_⟩
    rw [perform, h.tree] at he
    exact nomatch he.symm.trans hmove
  exact .cons hmkdir rfl (.cons trivial rfl (.cons (hrename h₂) rfl (.cons
    ⟨fromKernel_single hb, fun e he => FileTree.refusal_removeDir he⟩ rfl trivial)))

theorem refines_file_tree_movedAndRemoved : StepsMeet step Answers rootOnly movedAndRemoved ∧
    ∃ s' t, run step rootOnly movedAndRemoved = some s' ∧ Represents s' t := by
  obtain ⟨hanswers, hrepresents⟩ := refines_file_tree rootOnly_represents movedAndRemoved_proper
  exact ⟨hanswers, _, _, rfl, hrepresents _ rfl⟩

end Hierarchy

end Nmfs
