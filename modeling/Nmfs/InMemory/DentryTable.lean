import Nmfs.Meta.Dentry
import Nmfs.Lib.Op

/-
  `dentry_table` of a directory at its leader, where it is LOCAL. It has the children twice: the
  names and inode numbers in `dentries`, the inodes in `child_inodes`. Only the latter is asked
  whether a name is taken.
-/

namespace Nmfs

open Lib

/-- An inode in memory. What else it has is in the record. -/
structure MemInode where
  inode : Inode
  pIno : Uuid
  deriving DecidableEq

structure DentryTable where
  dirIno : Uuid
  thisDirInode : Inode
  dentries : Dentry
  childInodes : AList (fun _ : Bytes => MemInode)

namespace DentryTable

def createChildInode (t : DentryTable) (filename : Bytes) (i : MemInode) : Int × DentryTable :=
  match t.childInodes.lookup filename with
  | none => (0, { t with
      childInodes := t.childInodes.insert filename i
      dentries := t.dentries.addChild filename i.inode.ino })
  | some _ => (-1, t)

def addChildInode (childInodes : AList (fun _ : Bytes => MemInode)) (filename : Bytes)
    (i : MemInode) : AList (fun _ : Bytes => MemInode) :=
  match childInodes.lookup filename with
  | none => childInodes.insert filename i
  | some _ => childInodes

def deleteChildInode (t : DentryTable) (filename : Bytes) : Int × DentryTable :=
  match t.childInodes.lookup filename with
  | none => (-1, t)
  | some _ => (0, { t with
      childInodes := t.childInodes.erase filename
      dentries := t.dentries.deleteChild filename })

def getChildInode (t : DentryTable) (filename : Bytes) : Except Err MemInode :=
  match t.childInodes.lookup filename with
  | none => .error .noEntry
  | some i => .ok i

/-- A setter of the inode that the table has under the name, where it is this one. -/
def setChildInode (t : DentryTable) (filename : Bytes) (i : Inode) : DentryTable :=
  match t.childInodes.lookup filename with
  | none => t
  | some c =>
    if c.inode.ino = i.ino then
      { t with childInodes := t.childInodes.insert filename { c with inode := i } }
    else t

def checkChildInode (t : DentryTable) (filename : Bytes) : Uuid :=
  if filename = [47] then Uuid.rootIno else t.dentries.getChildIno filename

def getChildNum (t : DentryTable) : Nat := t.dentries.getChildNum

/-- The loop of `pull_child_metadata`. -/
def pullChildren (pool : Pool) (dirIno : Uuid) : List ((_ : Bytes) × Uuid) →
    AList (fun _ : Bytes => MemInode) → Except Err (AList (fun _ : Bytes => MemInode))
  | [], childInodes => .ok childInodes
  | e :: entries, childInodes =>
    match Inode.pull pool e.2 with
    | .error err => .error err
    | .ok child =>
      pullChildren pool dirIno entries (addChildInode childInodes e.1 ⟨child, dirIno⟩)

/-- What `lease_dentry_table` does once it has the lease: the constructor, which pulls the
    directory's own inode, and `pull_child_metadata`. -/
def pull (pool : Pool) (dirIno : Uuid) : Except Err DentryTable := do
  let thisDirInode ← Inode.pull pool dirIno
  let dentries ← Dentry.load pool dirIno false
  let childInodes ← pullChildren pool dirIno dentries.childList.entries ∅
  return ⟨dirIno, thisDirInode, dentries, childInodes⟩

/-- The constructor for a new directory. -/
def ofNew (newDirInode : Inode) : DentryTable :=
  ⟨newDirInode.ino, newDirInode, ⟨newDirInode.ino, ∅⟩, ∅⟩

/-! ## One name -/

/-- The child of that name, or none. -/
def child (t : DentryTable) (name : Bytes) : Option MemInode := t.childInodes.lookup name

/-- The inode number that the name has in the child list. -/
def listed (t : DentryTable) (name : Bytes) : Option Uuid := t.dentries.childList.lookup name

/-- The two halves of the table agree. -/
def Sound (t : DentryTable) : Prop :=
  ∀ name, t.listed name = (t.child name).map fun c => c.inode.ino

section

variable {t : DentryTable} {name : Bytes} {i : MemInode}

theorem create_absent (h : t.child name = none) :
    t.createChildInode name i = (0, { t with
      childInodes := t.childInodes.insert name i
      dentries := t.dentries.addChild name i.inode.ino }) := by
  unfold createChildInode
  unfold child at h
  rw [h]

theorem create_present {c : MemInode} (h : t.child name = some c) :
    t.createChildInode name i = (-1, t) := by
  unfold createChildInode
  unfold child at h
  rw [h]

theorem delete_absent (h : t.child name = none) : t.deleteChildInode name = (-1, t) := by
  unfold deleteChildInode
  unfold child at h
  rw [h]

@[simp] theorem dirIno_create : (t.createChildInode name i).2.dirIno = t.dirIno := by
  unfold createChildInode
  split <;> rfl

@[simp] theorem thisDirInode_create :
    (t.createChildInode name i).2.thisDirInode = t.thisDirInode := by
  unfold createChildInode
  split <;> rfl

@[simp] theorem dirIno_delete : (t.deleteChildInode name).2.dirIno = t.dirIno := by
  unfold deleteChildInode
  split <;> rfl

@[simp] theorem thisDirInode_delete :
    (t.deleteChildInode name).2.thisDirInode = t.thisDirInode := by
  unfold deleteChildInode
  split <;> rfl

theorem get_present {c : MemInode} (h : t.child name = some c) :
    t.getChildInode name = .ok c := by
  unfold getChildInode
  unfold child at h
  rw [h]

theorem get_absent (h : t.child name = none) : t.getChildInode name = .error .noEntry := by
  unfold getChildInode
  unfold child at h
  rw [h]

/-- A name that is there stays the only thing that changes. -/
theorem child_create (h : t.child name = none) :
    (t.createChildInode name i).2.child = Function.update t.child name (some i) := by
  funext name'
  rw [create_absent h]
  by_cases hn : name' = name
  · subst hn
    rw [Function.update_self]
    exact AList.lookup_insert _
  · rw [Function.update_of_ne hn]
    exact AList.lookup_insert_ne hn

theorem listed_create (h : t.child name = none) :
    (t.createChildInode name i).2.listed = Function.update t.listed name (some i.inode.ino) := by
  funext name'
  rw [create_absent h]
  by_cases hn : name' = name
  · subst hn
    rw [Function.update_self]
    exact AList.lookup_insert _
  · rw [Function.update_of_ne hn]
    exact AList.lookup_insert_ne hn

theorem child_delete : (t.deleteChildInode name).2.child = Function.update t.child name none := by
  funext name'
  unfold deleteChildInode
  cases hc : t.childInodes.lookup name with
  | none =>
      by_cases hn : name' = name
      · subst hn
        rw [Function.update_self]
        exact hc
      · rw [Function.update_of_ne hn]
  | some c =>
      by_cases hn : name' = name
      · subst hn
        rw [Function.update_self]
        exact AList.lookup_erase _ _
      · rw [Function.update_of_ne hn]
        exact AList.lookup_erase_ne hn

theorem listed_delete {c : MemInode} (h : t.child name = some c) :
    (t.deleteChildInode name).2.listed = Function.update t.listed name none := by
  funext name'
  unfold deleteChildInode
  unfold child at h
  rw [h]
  by_cases hn : name' = name
  · subst hn
    rw [Function.update_self]
    exact AList.lookup_erase _ _
  · rw [Function.update_of_ne hn]
    exact AList.lookup_erase_ne hn

theorem Sound.create (h : t.Sound) (name : Bytes) (i : MemInode) :
    (t.createChildInode name i).2.Sound := by
  cases hc : t.child name with
  | some c =>
      rw [create_present hc]
      exact h
  | none =>
      intro name'
      rw [child_create hc, listed_create hc]
      by_cases hn : name' = name
      · subst hn
        rw [Function.update_self, Function.update_self]
        rfl
      · rw [Function.update_of_ne hn, Function.update_of_ne hn]
        exact h name'

@[simp] theorem listed_setChild {f : Inode} : (t.setChildInode name f).listed = t.listed := by
  unfold setChildInode
  split
  · rfl
  · split <;> rfl

@[simp] theorem dirIno_setChild {f : Inode} : (t.setChildInode name f).dirIno = t.dirIno := by
  unfold setChildInode
  split
  · rfl
  · split <;> rfl

/-- A setter does not touch the inode number. -/
theorem child_setChild {f : Inode} (name' : Bytes) :
    (t.setChildInode name f).child name' = (t.child name').map fun c =>
      if name' = name ∧ c.inode.ino = f.ino then { c with inode := f } else c := by
  unfold setChildInode
  split
  · rename_i hn
    by_cases h : name' = name
    · subst h
      have hc : t.child name' = none := hn
      rw [hc]
      rfl
    · simp [h]
  · rename_i c hc
    split
    · rename_i hi
      by_cases h : name' = name
      · subst h
        have hc' : t.child name' = some c := hc
        rw [hc', Option.map_some, if_pos ⟨rfl, hi⟩]
        exact AList.lookup_insert _
      · simp only [h, false_and, if_false, Option.map_id']
        exact AList.lookup_insert_ne h
    · rename_i hi
      by_cases h : name' = name
      · subst h
        have hc' : t.child name' = some c := hc
        rw [hc', Option.map_some, if_neg fun hh => hi hh.2]
      · simp [h]

theorem Sound.setChild (h : t.Sound) (name : Bytes) (f : Inode) :
    (t.setChildInode name f).Sound := by
  intro name'
  rw [listed_setChild, child_setChild, h name', Option.map_map]
  congr 1
  funext c
  by_cases hc : name' = name ∧ c.inode.ino = f.ino
  · simp only [Function.comp_apply, if_pos hc]
    exact hc.2
  · simp only [Function.comp_apply, if_neg hc]

theorem Sound.delete (h : t.Sound) (name : Bytes) : (t.deleteChildInode name).2.Sound := by
  cases hc : t.child name with
  | none =>
      rw [delete_absent hc]
      exact h
  | some c =>
      intro name'
      rw [child_delete, listed_delete hc]
      by_cases hn : name' = name
      · subst hn
        rw [Function.update_self, Function.update_self]
        rfl
      · rw [Function.update_of_ne hn, Function.update_of_ne hn]
        exact h name'

end

/-! ## Pulling -/

/-- The children in a map so far, and those of the list that are new to it. -/
theorem pullChildren_ok {pool : Pool} {dirIno : Uuid} {entries : List ((_ : Bytes) × Uuid)}
    {childInodes childInodes' : AList (fun _ : Bytes => MemInode)}
    (hnodup : (entries.map Sigma.fst).Nodup)
    (hnew : ∀ e ∈ entries, childInodes.lookup e.1 = none)
    (h : pullChildren pool dirIno entries childInodes = .ok childInodes') (name : Bytes) :
    match entries.dlookup name with
    | none => childInodes'.lookup name = childInodes.lookup name
    | some u => ∃ i, Inode.pull pool u = .ok i ∧ childInodes'.lookup name = some ⟨i, dirIno⟩ := by
  induction entries generalizing childInodes with
  | nil =>
      cases h
      rfl
  | cons e entries ih =>
      obtain ⟨name', u⟩ := e
      rw [List.map_cons, List.nodup_cons] at hnodup
      unfold pullChildren at h
      cases hp : Inode.pull pool u with
      | error err =>
          rw [hp] at h
          cases h
      | ok i =>
          rw [hp] at h
          have hadd : addChildInode childInodes name' ⟨i, dirIno⟩ =
              childInodes.insert name' ⟨i, dirIno⟩ := by
            unfold addChildInode
            rw [hnew ⟨name', u⟩ List.mem_cons_self]
          dsimp only at h
          rw [hadd] at h
          have hnew' : ∀ e ∈ entries,
              (childInodes.insert name' ⟨i, dirIno⟩).lookup e.1 = none := by
            intro e he
            rw [AList.lookup_insert_ne]
            · exact hnew e (List.mem_cons_of_mem _ he)
            · intro heq
              have hmem : e.1 ∈ entries.map Sigma.fst := List.mem_map_of_mem he
              exact hnodup.1 (heq ▸ hmem)
          have hrest := ih hnodup.2 hnew' h
          by_cases hn : name = name'
          · subst hn
            have hnone : entries.dlookup name = none := by
              rw [List.dlookup_eq_none]
              exact hnodup.1
            rw [hnone] at hrest
            rw [List.dlookup_cons_eq]
            refine ⟨i, hp, ?_⟩
            rw [hrest, AList.lookup_insert]
          · rw [List.dlookup_cons_ne _ _ hn]
            revert hrest
            cases entries.dlookup name with
            | none => exact fun hrest => hrest.trans (AList.lookup_insert_ne hn)
            | some v => exact fun hrest => hrest

/-- What a table has that was pulled. -/
structure Pulled (pool : Pool) (ino : Uuid) (t : DentryTable) : Prop where
  dirIno : t.dirIno = ino
  self : Inode.pull pool ino = .ok t.thisDirInode
  dentries : Dentry.load pool ino false = .ok t.dentries
  absent : ∀ name, t.listed name = none → t.child name = none
  present : ∀ name u, t.listed name = some u →
    ∃ i, Inode.pull pool u = .ok i ∧ t.child name = some ⟨i, ino⟩

theorem pull_ok {pool : Pool} {dirIno : Uuid} {t : DentryTable} (h : pull pool dirIno = .ok t) :
    Pulled pool dirIno t := by
  unfold pull at h
  obtain ⟨self, hself, h⟩ := bind_eq_ok.mp h
  obtain ⟨dentries, hload, h⟩ := bind_eq_ok.mp h
  obtain ⟨childInodes, hchildren, h⟩ := bind_eq_ok.mp h
  cases h
  have hall := pullChildren_ok dentries.childList.nodupKeys
    (fun e _ => AList.lookup_empty e.1) hchildren
  refine ⟨rfl, hself, hload, ?_, ?_⟩
  · intro name hl
    have hname := hall name
    rw [show dentries.childList.entries.dlookup name = none from hl] at hname
    exact hname.trans (AList.lookup_empty name)
  · intro name u hl
    have hname := hall name
    rw [show dentries.childList.entries.dlookup name = some u from hl] at hname
    exact hname

/-- Nothing is raised where every child has an INODE object. -/
theorem pullChildren_total {pool : Pool} {dirIno : Uuid} {entries : List ((_ : Bytes) × Uuid)}
    {childInodes : AList (fun _ : Bytes => MemInode)}
    (h : ∀ e ∈ entries, ∃ i, Inode.pull pool e.2 = .ok i) :
    ∃ childInodes', pullChildren pool dirIno entries childInodes = .ok childInodes' := by
  induction entries generalizing childInodes with
  | nil => exact ⟨childInodes, rfl⟩
  | cons e entries ih =>
      obtain ⟨i, hi⟩ := h e List.mem_cons_self
      unfold pullChildren
      rw [hi]
      exact ih fun e' he' => h e' (List.mem_cons_of_mem _ he')

theorem pull_total {pool : Pool} {dirIno : Uuid} {self : Inode} {d : Dentry}
    (hself : Inode.pull pool dirIno = .ok self) (hload : Dentry.load pool dirIno false = .ok d)
    (h : ∀ name u, d.childList.lookup name = some u → ∃ i, Inode.pull pool u = .ok i) :
    ∃ t, pull pool dirIno = .ok t := by
  have hall : ∀ e ∈ d.childList.entries, ∃ i, Inode.pull pool e.2 = .ok i :=
    fun e he => h e.1 e.2 (AList.mem_lookup_iff.mpr he)
  obtain ⟨childInodes, hchildren⟩ := @pullChildren_total pool dirIno _ ∅ hall
  unfold pull
  rw [hself]
  refine ⟨⟨dirIno, self, d, childInodes⟩, ?_⟩
  show (Dentry.load pool dirIno false >>= _) = _
  rw [hload]
  show (pullChildren pool dirIno d.childList.entries ∅ >>= _) = _
  rw [hchildren]
  rfl

end DentryTable

end Nmfs
