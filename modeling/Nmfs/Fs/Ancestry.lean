import Nmfs.Fs.Effects
import Nmfs.Fs.Placement

/-
  Runs of mkdir, rmdir and rename by any clients. The namespace stays a tree as long as no rename
  moves an object below itself. Only a rename within one directory looks out for that.
-/

namespace Nmfs

open Lib

namespace Ancestry

open FuseOps

variable {C : Type} [DecidableEq C]

def step (s : Cluster C) (call : Call C) : Option (Cluster C) := some (call.perform s).2

/-- The tables are sound, and the entries are a tree and nothing that has a cycle. -/
structure IsTree (s : Cluster C) : Prop where
  lists : s.Lists (· ≠ Uuid.nil) s.entries
  forest : Namespace.Forest s.entries Uuid.rootIno
  acyclic : Namespace.Acyclic s.entries

/-- A random number that nothing has. -/
def Fresh (s : Cluster C) : Call C → Prop
  | .mkdir _ env _ _ _ => env.newIno ≠ Uuid.nil ∧ env.newIno ≠ Uuid.rootIno ∧
      s.tables env.newIno = none ∧ ∀ dir name, s.entries dir name ≠ some env.newIno
  | _ => True

/-- What a rename finds under the old name is not the new parent or above it, and what it finds under
    the new name has no entries, or only the one that is moved. -/
def Apart (s : Cluster C) : Call C → Prop
  | .rename me oldPath newPath flags _ => flags = 0 → ∀ src oldName dst newName x,
      LeadsTo s me oldPath src oldName → LeadsTo s me newPath dst newName →
      ¬ (src = dst ∧ oldName = newName) → s.entries src oldName = some x →
      ¬ Namespace.Reach s.entries x dst ∧ ∀ t, s.entries dst newName = some t →
        ∀ k c, s.entries t k = some c → t = src ∧ k = oldName
  | _ => True

/-- No cycle afterwards, and a rename that returns 0 keeps everything below the root but what it
    replaces. -/
def Keeps (s : Cluster C) (call : Call C) : Prop :=
  Namespace.Acyclic (call.perform s).2.entries ∧
    match call with
    | .rename me oldPath newPath flags ts => (rename me oldPath newPath flags ts s).1 = .ok 0 →
        ∀ u, Namespace.Reach s.entries Uuid.rootIno u →
          (∀ dst newName, LeadsTo s me newPath dst newName → s.entries dst newName ≠ some u) →
          Namespace.Reach (rename me oldPath newPath flags ts s).2.entries Uuid.rootIno u
    | _ => True

section

variable {s s' : Cluster C} {f' : Uuid → Bytes → Option Uuid}

omit [DecidableEq C] in
theorem IsTree.of_lists (hl : s'.Lists (· ≠ Uuid.nil) f')
    (hforest : Namespace.Forest f' Uuid.rootIno) (hacyclic : Namespace.Acyclic f') : IsTree s' := by
  have he := hl.entries
  subst he
  exact ⟨hl, hforest, hacyclic⟩

omit [DecidableEq C] in
theorem IsTree.shrink (h : IsTree s) (hl : s'.Lists (· ≠ Uuid.nil) f')
    (hsub : Shrinks s.entries f') : IsTree s' :=
  .of_lists hl (h.forest.subset hsub) (h.acyclic.subset hsub)

theorem mkdir_isTree (h : IsTree s) {me : C} {env : Env} {path : Bytes} {mode : UInt32}
    {born : Timespec} (hf : Fresh s (.mkdir me env path mode born)) :
    IsTree (mkdir me env path mode born s).2 := by
  obtain ⟨hnil, hroot, htable, hnone⟩ := hf
  obtain ⟨f', hl, hadds⟩ := mkdir_adds me (fun _ hu => hu) h.lists hnil htable path mode born
  have hleaf : ∀ k, s.entries env.newIno k = none := by
    intro k
    unfold Cluster.entries
    rw [htable]
    rfl
  rcases hadds with rfl | ⟨d, k, hd, -, rfl⟩
  · exact .of_lists hl h.forest h.acyclic
  · exact .of_lists hl (h.forest.add hnone hroot) (h.acyclic.add hleaf (Ne.symm hd))

theorem rmdir_isTree (h : IsTree s) (me : C) (path : Bytes) (ts : Timespec) :
    IsTree (rmdir me path ts s).2 := by
  obtain ⟨f', hl, hsub⟩ := rmdir_shrinks me (fun _ hu => hu) h.lists path ts
  exact h.shrink hl hsub

/-- Nothing is moved below itself, also where an entry is moved to where it is. -/
theorem not_reach_dst (h : IsTree s) {me : C} {oldPath newPath : Bytes} {flags : UInt32}
    {ts : Timespec} (ha : Apart s (.rename me oldPath newPath flags ts)) (hz : flags = 0)
    {src dst x : Uuid} {oldName newName : Bytes} (hold : LeadsTo s me oldPath src oldName)
    (hnew : LeadsTo s me newPath dst newName) (hx : s.entries src oldName = some x) :
    ¬ Namespace.Reach s.entries x dst := by
  by_cases hsame : src = dst ∧ oldName = newName
  · intro hr
    rw [← hsame.1] at hr
    exact h.acyclic src (.head' ⟨oldName, hx⟩ hr)
  · exact (ha hz src oldName dst newName x hold hnew hsame hx).1

theorem rename_keeps (h : IsTree s) {me : C} {oldPath newPath : Bytes} {flags : UInt32}
    {ts : Timespec} (ha : Apart s (.rename me oldPath newPath flags ts)) :
    IsTree (rename me oldPath newPath flags ts s).2 ∧
      Keeps s (.rename me oldPath newPath flags ts) := by
  obtain ⟨f', hl, hr⟩ :=
    rename_leaves me (fun _ hu => hu) h.lists oldPath newPath flags ts
  have he := hl.entries
  rcases hr with ⟨rfl, hret, -⟩ | ⟨hz, src, oldName, dst, newName, x, hold, hnew, hx, hm⟩
  · have htree := IsTree.of_lists hl h.forest h.acyclic
    exact ⟨htree, htree.acyclic, fun hzero => absurd hzero hret⟩
  · have hnot := not_reach_dst h ha hz hold hnew hx
    rcases hm with rfl | ⟨hpart, hret⟩
    · have htree := IsTree.of_lists hl h.forest.move (h.acyclic.move hx hnot)
      refine ⟨htree, htree.acyclic, fun _ u hu hrep => ?_⟩
      rw [he]
      by_cases hsame : src = dst ∧ oldName = newName
      · obtain ⟨rfl, rfl⟩ := hsame
        rw [Namespace.move_self]
        exact hu
      · exact h.forest.reach_move hx (hnew.reach (fun _ hu => hu) h.lists) hnot
          (ha hz src oldName dst newName x hold hnew hsame hx).2 hu (hrep dst newName hnew)
    · have hsub : Shrinks s.entries f' := by
        intro d k u hu
        rcases hpart with rfl | rfl | rfl
        · exact Namespace.set_none_subset hu
        · exact Namespace.set_none_subset hu
        · exact Namespace.set_none_subset (Namespace.set_none_subset hu)
      have htree := h.shrink hl hsub
      exact ⟨htree, htree.acyclic, fun hzero => absurd hzero hret⟩

theorem step_isTree (h : IsTree s) {call : Call C} (hf : Fresh s call) (ha : Apart s call) :
    IsTree (call.perform s).2 ∧ Keeps s call := by
  cases call with
  | mkdir me env path mode born =>
      have htree := mkdir_isTree h hf
      exact ⟨htree, htree.acyclic, trivial⟩
  | rmdir me path ts =>
      have htree := rmdir_isTree h me path ts
      exact ⟨htree, htree.acyclic, trivial⟩
  | rename me oldPath newPath flags ts => exact rename_keeps h ha

theorem run_isTree {calls : List (Call C)} (h : IsTree s) (hf : StepsMeet step Fresh s calls)
    (ha : StepsMeet step Apart s calls) (hr : run step s calls = some s') : IsTree s' :=
  run_invariant_of_stepsMeet (P := fun s call => Fresh s call ∧ Apart s call)
    (fun s call s' hs hP hstep => by cases hstep; exact (step_isTree hs hP.1 hP.2).1) h (hf.and ha) hr

/-- Exactly then a rename that returns 0 keeps everything. -/
theorem accepted_keeps_iff (h : IsTree s) {me : C} {oldPath newPath : Bytes} {flags : UInt32}
    {ts : Timespec} (hret : (rename me oldPath newPath flags ts s).1 = .ok 0) :
    Keeps s (.rename me oldPath newPath flags ts) ↔
      Apart s (.rename me oldPath newPath flags ts) := by
  refine ⟨fun hkeeps hz src oldName dst newName x hold hnew hsame hx => ?_,
    fun ha => (rename_keeps h ha).2⟩
  obtain ⟨f', hl, ⟨-, hne, -⟩ | ⟨-, src', oldName', dst', newName', x', hold', hnew', hx', hm⟩⟩ :=
    rename_leaves me (fun _ hu => hu) h.lists oldPath newPath flags ts
  · exact absurd hret hne
  · obtain ⟨rfl, rfl⟩ := hold.unique hold'
    obtain ⟨rfl, rfl⟩ := hnew.unique hnew'
    rcases hm with rfl | ⟨-, hne⟩
    · apply (h.forest.reach_move_iff hx (hold.reach (fun _ hu => hu) h.lists)
        (hnew.reach (fun _ hu => hu) h.lists) hsame).mp
      intro u hu hrep
      rw [← hl.entries]
      refine hkeeps.2 hret u hu fun dst' newName' hnew'' => ?_
      obtain ⟨rfl, rfl⟩ := hnew.unique hnew''
      exact hrep
    · exact absurd hret hne

/-- As long as every rename meets the condition, no call makes a cycle, no rename that returns 0
    cuts anything off, and the namespace is a tree all along. -/
theorem stays_tree {calls : List (Call C)} (h : IsTree s) (hf : StepsMeet step Fresh s calls)
    (ha : StepsMeet step Apart s calls) :
    StepsMeet step Keeps s calls ∧ ∀ s', run step s calls = some s' → IsTree s' := by
  refine ⟨?_, fun s' hr => run_isTree h hf ha hr⟩
  induction calls generalizing s with
  | nil => trivial
  | cons call calls ih =>
      obtain ⟨htree, hkeeps⟩ := step_isTree h hf.1 ha.1
      refine ⟨hkeeps, fun s' hstep => ?_⟩
      cases hstep
      exact ih htree (hf.2 _ rfl) (ha.2 _ rfl)

end

/-! ## Two directories -/

open Placement

theorem rootOnly_entries (dir : Uuid) (name : Bytes) : rootOnly.entries dir name = none := by
  show Option.bind (Function.update (fun _ => none) Uuid.rootIno
    (some (DentryTable.ofNew rootInode)) dir) _ = _
  by_cases hd : dir = Uuid.rootIno
  · rw [hd, Function.update_self]
    rfl
  · rw [Function.update_of_ne hd]
    rfl

theorem rootOnly_isTree : IsTree rootOnly := by
  have hnone : ∀ {dir name u}, rootOnly.entries dir name ≠ some u := by
    intro dir name u
    rw [rootOnly_entries]
    exact nofun
  have hempty : JournalTable.Uncommitted ∅ := fun _ => rfl
  refine ⟨.intro ?_ ?_ rfl, ⟨fun _ _ _ _ _ h => absurd h hnone, fun _ _ => hnone⟩, ?_⟩
  · intro dir table ht
    have ht' : Function.update (fun _ => none) Uuid.rootIno
        (some (DentryTable.ofNew rootInode)) dir = some table := ht
    rcases update_eq_some ht' with ⟨rfl, hu⟩ | ⟨-, hold⟩
    · cases hu
      exact ⟨rfl, fun _ => rfl, fun _ _ hc => (nomatch hc)⟩
    · cases hold
  · intro c
    cases c with
    | false => exact hempty.record Uuid.rootIno (.mkself rootInode)
    | true => exact hempty
  · intro dir hcycle
    obtain ⟨_, ⟨name, he⟩, -⟩ := Relation.TransGen.head'_iff.mp hcycle
    exact hnone he

/-- "/a", "/a/b", and then from "/a" to "/a/b/c". -/
def intoItself : List (Call Bool) :=
  [.mkdir false (envOf 1) (Path.text [[97]]) 0x1ED clock,
    .mkdir true (envOf 2) (Path.text [[97], [98]]) 0x1ED clock,
    .rename false (Path.text [[97]]) (Path.text [[97], [98], [99]]) 0 clock]

/-- "/a", "/b", and then from "/a" to "/b/a". -/
def intoOther : List (Call Bool) :=
  [.mkdir false (envOf 1) (Path.text [[97]]) 0x1ED clock,
    .mkdir true (envOf 2) (Path.text [[98]]) 0x1ED clock,
    .rename false (Path.text [[97]]) (Path.text [[98], [97]]) 0 clock]

/-- After a mkdir there is one more number. -/
theorem entries_mkdir {s : Cluster Bool} (h : IsTree s) {inos : List Uuid}
    (hall : ∀ dir name u, s.entries dir name = some u → u ∈ inos) {me : Bool} {n : UInt8}
    {path : Bytes} {mode : UInt32} (hf : Fresh s (.mkdir me (envOf n) path mode clock)) :
    ∀ dir name u, (mkdir me (envOf n) path mode clock s).2.entries dir name = some u →
      u ∈ (envOf n).newIno :: inos := by
  intro dir name u hu
  obtain ⟨f', hl, hadds⟩ :=
    mkdir_adds me (fun _ hu => hu) h.lists hf.1 hf.2.2.1 path mode clock
  rw [hl.entries] at hu
  rcases hadds with rfl | ⟨d, k, -, -, rfl⟩
  · exact List.mem_cons_of_mem _ (hall dir name u hu)
  · rcases Namespace.set_some_eq_some hu with ⟨-, rfl⟩ | hu
    · exact List.mem_cons_self
    · exact List.mem_cons_of_mem _ (hall dir name u hu)

/-- A number that is not among those in use is fresh. -/
theorem fresh_of_entries {s : Cluster Bool} {inos : List Uuid}
    (hall : ∀ dir name u, s.entries dir name = some u → u ∈ inos) {n : UInt8}
    (hnil : (envOf n).newIno ≠ Uuid.nil ∧ (envOf n).newIno ≠ Uuid.rootIno)
    (htable : s.tables (envOf n).newIno = none) (hno : (envOf n).newIno ∉ inos) (me : Bool)
    (path : Bytes) : Fresh s (.mkdir me (envOf n) path 0x1ED clock) :=
  ⟨hnil.1, hnil.2, htable, fun dir name he => hno (hall dir name _ he)⟩

theorem fresh_first (path : Bytes) : Fresh rootOnly (.mkdir false (envOf 1) path 0x1ED clock) := by
  refine @fresh_of_entries rootOnly [] (fun dir name u hu => ?_) 1 (by decide) rfl (by decide) _ _
  rw [rootOnly_entries] at hu
  cases hu

def firstMade : Cluster Bool := (mkdir false (envOf 1) (Path.text [[97]]) 0x1ED clock rootOnly).2

theorem firstMade_entries :
    ∀ dir name u, firstMade.entries dir name = some u → u ∈ [(envOf 1).newIno] := by
  refine @entries_mkdir rootOnly rootOnly_isTree [] (fun dir name u hu => ?_) _ _ _ _ (fresh_first _)
  rw [rootOnly_entries] at hu
  cases hu

/-- Two calls of mkdir with two numbers, and a rename. -/
theorem fresh_calls (path : Bytes) (me : Bool) (oldPath newPath : Bytes) (flags : UInt32)
    (ts : Timespec) : StepsMeet step Fresh rootOnly
      [.mkdir false (envOf 1) (Path.text [[97]]) 0x1ED clock,
        .mkdir true (envOf 2) path 0x1ED clock, .rename me oldPath newPath flags ts] := by
  refine ⟨fresh_first _, fun s hs => ?_⟩
  obtain rfl : firstMade = s := Option.some.inj hs
  exact ⟨fresh_of_entries firstMade_entries (by decide) rfl (by decide) _ _,
    fun _ _ => ⟨trivial, fun _ _ => trivial⟩⟩

theorem stays_tree_intoOther : StepsMeet step Keeps rootOnly intoOther ∧
    ∃ s', run step rootOnly intoOther = some s' ∧ IsTree s' := by
  have hrun : ∃ s', run step rootOnly intoOther = some s' := ⟨_, rfl⟩
  obtain ⟨s', hr⟩ := hrun
  have hapart : StepsMeet step Apart rootOnly intoOther := by
    refine ⟨trivial, fun s₁ h₁ => ⟨trivial, fun s₂ h₂ => ⟨?_, fun _ _ => trivial⟩⟩⟩
    cases h₁
    cases h₂
    intro _ src oldName dst newName x hold hnew _ hx
    obtain ⟨rfl, rfl⟩ := hold.unique
      (show LeadsTo _ _ _ Uuid.rootIno [97] from ⟨⟨_, rfl, rfl⟩, rfl⟩)
    obtain ⟨rfl, rfl⟩ := hnew.unique
      (show LeadsTo _ _ _ (envOf 2).newIno [97] from ⟨⟨_, rfl, rfl⟩, rfl⟩)
    obtain rfl : (envOf 1).newIno = x := Option.some.inj hx
    refine ⟨fun hreach => ?_, nofun⟩
    rcases Relation.ReflTransGen.cases_head hreach with heq | ⟨d, ⟨k, hk⟩, -⟩
    · exact absurd heq (by decide)
    · cases hk
  obtain ⟨hkeeps, htree⟩ := stays_tree rootOnly_isTree (fresh_calls _ _ _ _ _ _) hapart
  exact ⟨hkeeps, s', hr, htree s' hr⟩

/-- "/a" is below itself, and nothing is below the root. -/
theorem intoItself_cutsOff : IsTree rootOnly ∧ StepsMeet step Fresh rootOnly intoItself ∧
    ∃ s s', run step rootOnly (intoItself.take 2) = some s ∧
      rename false (Path.text [[97]]) (Path.text [[97], [98], [99]]) 0 clock s = (.ok 0, s') ∧
      Namespace.Reach s.entries Uuid.rootIno (envOf 1).newIno ∧
      ¬ Namespace.Reach s'.entries Uuid.rootIno (envOf 1).newIno ∧
      Relation.TransGen (Namespace.Edge s'.entries) (envOf 1).newIno (envOf 1).newIno ∧
      ¬ StepsMeet step Keeps rootOnly intoItself := by
  refine ⟨rootOnly_isTree, fresh_calls _ _ _ _ _ _, _, _, rfl, rfl, ?_, ?_, ?_, ?_⟩
  · exact .single ⟨[97], rfl⟩
  · intro hreach
    rcases Relation.ReflTransGen.cases_head hreach with heq | ⟨d, ⟨k, hk⟩, -⟩
    · exact absurd heq (by decide)
    · cases hk
  · exact .tail (.single ⟨[98], rfl⟩) ⟨[99], rfl⟩
  · intro hkeeps
    have hlast := ((hkeeps.2 _ rfl).2 _ rfl).1.1
    refine hlast (envOf 1).newIno ?_
    exact .tail (.single ⟨[98], rfl⟩) ⟨[99], rfl⟩

end Ancestry

end Nmfs
