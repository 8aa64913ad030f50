import Nmfs.Fs.VolumeSteps

/-
  A directory has an inode in its own table and one in its parent's. Where the parent is led by the
  client that makes the directory, the two tables get one pointer, and what is set through the one is
  seen through the other, as long as renames stay at that client. Every other way to get a table
  (from the pool, from a message) makes an inode of its own, which nobody tells of later changes.
-/

namespace Nmfs

open Lib Cluster

namespace DentryTable

variable {t : DentryTable} {dir : Uuid} {f : MemInode → MemInode}

def mapChildren (t : DentryTable) (f : MemInode → MemInode) : DentryTable :=
  { t with childInodes := ⟨t.childInodes.entries.map fun e => ⟨e.1, f e.2⟩,
      List.NodupKeys.map₂ (fun _ => f) _ t.childInodes.nodupKeys⟩ }

theorem child_mapChildren (name : Bytes) : (t.mapChildren f).child name = (t.child name).map f :=
  List.dlookup_map₂ (f := fun _ => f) name

/-- Numbers and parents are all that a settled table says of its children. -/
theorem Settled.mapChildren (h : t.Settled dir)
    (hf : ∀ c, (f c).inode.ino = c.inode.ino ∧ (f c).pIno = c.pIno) :
    (t.mapChildren f).Settled dir := by
  refine ⟨h.self, fun n => ?_, h.distinct, fun n c hc => ?_, h.selfDir⟩
  · rw [child_mapChildren, Option.map_map]
    show t.listed n = _
    rw [h.sound n]
    congr 1
    funext c
    exact (hf c).1.symm
  · rw [child_mapChildren] at hc
    obtain ⟨old, hold, rfl⟩ := Option.map_eq_some_iff.mp hc
    exact (hf old).2.trans (h.parent n old hold)

end DentryTable

/-- A volume, and the directories whose inode is the same object in both tables. -/
structure Shared (C : Type) where
  volume : Volume C
  shared : List Uuid

namespace Shared

open Volume Refinement

variable {C : Type}

/-- What the parent's table has under the pointer. -/
def seen (s : Cluster C) (shared : List Uuid) (c : MemInode) : MemInode :=
  if c.inode.ino ∈ shared then
    match s.tables c.inode.ino with
    | none => c
    | some t => { c with inode := t.thisDirInode }
  else c

def refreshed (s : Cluster C) (shared : List Uuid) : Cluster C :=
  { s with tables := fun dir => (s.tables dir).map fun t => t.mapChildren (seen s shared) }

variable [DecidableEq C]

/-- A rename that goes through a message ends the sharing: the other client makes an inode of its
    own of what it reads. -/
def nextShared (s s' : Cluster C) (shared : List Uuid) : Action C → List Uuid
  | .mkdir me env dir _ _ _ =>
    if s.leader dir = me ∧ (s'.tables env.newIno).isSome then env.newIno :: shared else shared
  | .perform dir (.rpcRenameSrc oldName) => shared.filter fun u => s.entries dir oldName ≠ some u
  | .perform _ (.rpcRenameDst target _ _) => shared.filter fun u => u ≠ target.ino
  | _ => shared

def step (s : Shared C) (a : Action C) : Option (Shared C) :=
  (Volume.step s.volume a).map fun v =>
    let shared := nextShared s.volume.cluster v.cluster s.shared a
    ⟨{ v with cluster := refreshed v.cluster shared }, shared⟩

variable {s s' : Shared C} {v : Volume C} {shared : List Uuid} {dir : Uuid}

theorem step_eq_some {a : Action C} (hs : step s a = some s') :
    ∃ v, Volume.step s.volume a = some v ∧
      s'.volume = { v with cluster := refreshed v.cluster s'.shared } := by
  obtain ⟨v, hv, rfl⟩ := Option.map_eq_some_iff.mp hs
  exact ⟨v, hv, rfl⟩

omit [DecidableEq C] in
theorem seen_same (h : v.Tidy) (c : MemInode) :
    (seen v.cluster shared c).inode.ino = c.inode.ino ∧
      (seen v.cluster shared c).pIno = c.pIno := by
  unfold seen
  split
  · split
    · exact ⟨rfl, rfl⟩
    · rename_i t ht
      exact ⟨(h.settled _ t ht).self, rfl⟩
  · exact ⟨rfl, rfl⟩

omit [DecidableEq C] in
/-- The directory itself has its own inode already. -/
theorem refreshed_eq_some {table : DentryTable}
    (h : (refreshed v.cluster shared).tables dir = some table) :
    ∃ old, v.cluster.tables dir = some old ∧ table = old.mapChildren (seen v.cluster shared) := by
  obtain ⟨old, hold, rfl⟩ := Option.map_eq_some_iff.mp h
  exact ⟨old, hold, rfl⟩

omit [DecidableEq C] in
theorem entries_refreshed : (refreshed v.cluster shared).entries = v.cluster.entries := by
  funext dir name
  unfold Cluster.entries refreshed
  dsimp only
  cases v.cluster.tables dir <;> rfl

omit [DecidableEq C] in
/-- What a parent sees of the inodes does not matter to the tables' order. -/
theorem tidy_refreshed (h : v.Tidy) :
    Volume.Tidy { v with cluster := refreshed v.cluster shared } := by
  refine ⟨fun dir table ht => ?_, h.uncommitted, ?_, ?_, fun dir table ht => ?_, h.removed⟩
  · obtain ⟨old, hold, rfl⟩ := refreshed_eq_some ht
    exact (h.settled dir old hold).mapChildren (seen_same h)
  · show ∀ dir dir' n n' u, (refreshed v.cluster shared).entries dir n = some u → _
    rw [entries_refreshed]
    exact h.apart
  · show ∀ dir n u, (refreshed v.cluster shared).entries dir n = some u → _
    rw [entries_refreshed]
    exact h.listed
  · obtain ⟨old, hold, -⟩ := refreshed_eq_some ht
    exact h.led dir old hold

end Shared

end Nmfs
