import Nmfs.InMemory.DentryTable
import Mathlib.Data.Finset.Card

/-
  The two maps of a LOCAL `dentry_table` over its life: `child_inodes` refuses a name that it has,
  `child_list` would replace it, and each call goes to one after the other. They start out with the
  same names and no sequence of calls parts them.
-/

namespace Nmfs

namespace DentryTable

/-- A call that adds or takes away a child. -/
inductive Call where
  | create (filename : Bytes) (i : MemInode)
  | delete (filename : Bytes)

def call (t : DentryTable) : Call → Int × DentryTable
  | .create filename i => t.createChildInode filename i
  | .delete filename => t.deleteChildInode filename

/-- One call after the other, also after a call that failed. -/
def calls (t : DentryTable) : List Call → DentryTable
  | [] => t
  | c :: cs => (t.call c).2.calls cs

/-- The INODE object of each child in the list is that child's own. -/
def Consistent (pool : Pool) (dirIno : Uuid) : Prop :=
  ∀ d, Dentry.load pool dirIno false = .ok d → ∀ name u, d.childList.lookup name = some u →
    ∀ i, Inode.pull pool u = .ok i → i.ino = u

/-- The two ways a LOCAL table is built. -/
inductive Built : DentryTable → Prop where
  | ofNew (newDirInode : Inode) : Built (ofNew newDirInode)
  | pulled {pool : Pool} {dirIno : Uuid} {t : DentryTable} (hpool : Consistent pool dirIno)
      (h : pull pool dirIno = .ok t) : Built t

theorem sound_ofNew (newDirInode : Inode) : (ofNew newDirInode).Sound := by
  intro name
  rfl

theorem Pulled.sound {pool : Pool} {dirIno : Uuid} {t : DentryTable} (h : Pulled pool dirIno t)
    (hpool : Consistent pool dirIno) : t.Sound := by
  intro name
  match hl : t.listed name with
  | none =>
      rw [h.absent name hl]
      rfl
  | some u =>
      obtain ⟨i, hi, hc⟩ := h.present name u hl
      have hino : i.ino = u := hpool t.dentries h.dentries name u hl i hi
      rw [hc, Option.map_some, ← hino]

theorem Built.sound {t : DentryTable} (h : Built t) : t.Sound := by
  match h with
  | .ofNew newDirInode => exact sound_ofNew newDirInode
  | .pulled hpool hpull => exact (pull_ok hpull).sound hpool

theorem Sound.call {t : DentryTable} (h : t.Sound) (c : Call) : (t.call c).2.Sound := by
  match c with
  | .create filename i => exact h.create filename i
  | .delete filename => exact h.delete filename

theorem Sound.calls {t : DentryTable} (h : t.Sound) (cs : List Call) : (t.calls cs).Sound := by
  induction cs generalizing t with
  | nil => exact h
  | cons c cs ih => exact ih (h.call c)

section

variable {t : DentryTable}

theorem mem_childInodes {name : Bytes} : name ∈ t.childInodes ↔ ∃ i, t.child name = some i := by
  rw [← AList.lookup_isSome, Option.isSome_iff_exists]
  exact Iff.rfl

theorem mem_childList {name : Bytes} :
    name ∈ t.dentries.childList ↔ ∃ u, t.listed name = some u := by
  rw [← AList.lookup_isSome, Option.isSome_iff_exists]
  exact Iff.rfl

theorem Sound.mem_iff (h : t.Sound) {name : Bytes} :
    name ∈ t.childInodes ↔ name ∈ t.dentries.childList := by
  rw [mem_childInodes, mem_childList, h name]
  constructor
  · intro ⟨i, hi⟩
    exact ⟨i.inode.ino, by rw [hi]; rfl⟩
  · intro ⟨u, hu⟩
    obtain ⟨i, hi, -⟩ := Option.map_eq_some_iff.mp hu
    exact ⟨i, hi⟩

theorem Sound.keys (h : t.Sound) :
    t.childInodes.keys.toFinset = t.dentries.childList.keys.toFinset := by
  ext name
  rw [List.mem_toFinset, List.mem_toFinset]
  exact h.mem_iff

theorem Sound.ino (h : t.Sound) {name : Bytes} {i : MemInode} {u : Uuid}
    (hi : t.child name = some i) (hu : t.listed name = some u) : i.inode.ino = u := by
  rw [h name, hi] at hu
  exact Option.some.inj hu

/-- A name is listed once, so the entries count the names. -/
theorem getChildNum_eq : t.getChildNum = t.dentries.childList.keys.toFinset.card := by
  rw [List.toFinset_card_of_nodup t.dentries.childList.keys_nodup]
  exact (List.length_map _).symm

theorem create_fails_iff {name : Bytes} {i : MemInode} :
    (t.createChildInode name i).1 = -1 ↔ name ∈ t.childInodes := by
  rw [mem_childInodes]
  match hc : t.child name with
  | none =>
      rw [create_absent hc]
      simp
  | some c =>
      rw [create_present hc]
      simp

theorem create_fails_unchanged {name : Bytes} {i : MemInode} (h : name ∈ t.childInodes) :
    (t.createChildInode name i).2 = t := by
  obtain ⟨c, hc⟩ := mem_childInodes.mp h
  rw [create_present hc]

end

/-- The two maps of a table have the same names and numbers after any calls, `get_child_num` counts
    these names, and `create_child_inode` fails for exactly them. -/
theorem maps_agree {t₀ : DentryTable} (h : Built t₀) (cs : List Call) :
    let t := t₀.calls cs
    t.childInodes.keys.toFinset = t.dentries.childList.keys.toFinset ∧
    (∀ name i u, t.child name = some i → t.listed name = some u → i.inode.ino = u) ∧
    t.getChildNum = t.dentries.childList.keys.toFinset.card ∧
    ∀ name i, ((t.createChildInode name i).1 = -1 ↔ name ∈ t.dentries.childList) ∧
      (name ∈ t.dentries.childList → (t.createChildInode name i).2 = t) := by
  have hs := h.sound.calls cs
  refine ⟨hs.keys, fun name i u hi hu => hs.ino hi hu, getChildNum_eq, fun name i => ⟨?_, ?_⟩⟩
  · rw [create_fails_iff]
    exact hs.mem_iff
  · intro hname
    exact create_fails_unchanged (hs.mem_iff.mpr hname)

/-- The root directory as it is made, and a file. -/
def newRoot : Inode := ⟨⟨0x41ED, 0, 0, Uuid.rootIno, 2, 4096, ⟨0, 0⟩, ⟨0, 0⟩, ⟨0, 0⟩, 0⟩, none⟩

def newFile (ino : Uuid) : MemInode :=
  ⟨⟨⟨0x81A4, 0, 0, ino, 1, 0, ⟨0, 0⟩, ⟨0, 0⟩, ⟨0, 0⟩, 0⟩, none⟩, Uuid.rootIno⟩

/-- The calls of a rename of `a` to a `b` that is there, and one that fails. -/
def renameCalls : List Call :=
  let a := newFile (.splicePrefixAndPostfix 1 1)
  let b := newFile (.splicePrefixAndPostfix 1 2)
  [.create [97] a, .create [98] b, .delete [98], .delete [97], .create [98] a, .create [98] b]

theorem maps_agree_rename :
    let t := (ofNew newRoot).calls renameCalls
    t.childInodes.keys.toFinset = t.dentries.childList.keys.toFinset ∧
    (∀ name i u, t.child name = some i → t.listed name = some u → i.inode.ino = u) ∧
    t.getChildNum = t.dentries.childList.keys.toFinset.card ∧
    ∀ name i, ((t.createChildInode name i).1 = -1 ↔ name ∈ t.dentries.childList) ∧
      (name ∈ t.dentries.childList → (t.createChildInode name i).2 = t) :=
  maps_agree (.ofNew newRoot) renameCalls

example : ((ofNew newRoot).calls renameCalls).getChildNum = 1 := by decide

end DentryTable

end Nmfs
