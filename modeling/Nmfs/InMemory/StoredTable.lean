import Nmfs.InMemory.ChildMaps
import Nmfs.Meta.StoredInode
import Nmfs.Lib.PartialMap

/-
  A directory that goes to the pool and comes back. `dentry::sync` and `inode::sync` write over what
  the objects had and never cut them, so a table is pulled from objects that may have longer old
  contents behind what was last written. `Synced` is what was last written.
-/

namespace Nmfs

open Lib RadosIo

/-- A `sync` of a child list or of an inode. -/
inductive Sync where
  | dentry (d : Dentry)
  | inode (i : Inode)

namespace Sync

def perform (pool : Pool) : Sync → Pool
  | .dentry d => d.sync pool
  | .inode i => i.sync pool

/-- The write that it is. -/
def request : Sync → FileRequest
  | .dentry d => ⟨.dentry, d.thisIno.toStr, .write d.serialize 0⟩
  | .inode i => ⟨.inode, i.ino.toStr, .write i.serialize 0⟩

theorem perform_eq (pool : Pool) (e : Sync) : e.perform pool = e.request.perform pool := by
  match e with
  | .dentry d => rfl
  | .inode i => rfl

end Sync

/-- The child list and the inode that were last synced for each inode number. -/
structure Synced where
  dentry : Uuid → Option Dentry
  inode : Uuid → Option Inode

namespace Synced

def none : Synced := ⟨fun _ => .none, fun _ => .none⟩

def take (last : Synced) : Sync → Synced
  | .dentry d => { last with dentry := Function.update last.dentry d.thisIno (some d) }
  | .inode i => { last with inode := Function.update last.inode i.ino (some i) }

/-- Each object begins with what was last written to it. -/
structure Spelled (last : Synced) (files : FlatFiles) : Prop where
  dentry : ∀ ino d, last.dentry ino = some d →
    d.thisIno = ino ∧ ∃ post, files (.dentry, ino.toStr) = d.serialize ++ post
  inode : ∀ ino i, last.inode ino = some i →
    i.ino = ino ∧ Inode.Spells (files (.inode, ino.toStr)) i

theorem spelled_none (files : FlatFiles) : Spelled none files :=
  ⟨fun _ _ h => (nomatch h), fun _ _ h => (nomatch h)⟩

theorem key_ne {u v : Uuid} {category : ObjCategory} (h : u ≠ v) :
    (category, u.toStr) ≠ (category, v.toStr) := by
  intro heq
  exact h (Uuid.toStr_inj (Prod.mk.inj heq).2)

variable {last : Synced} {files : FlatFiles}

/-- A write from the start replaces what was spelled there, and touches nothing else. -/
theorem Spelled.take (h : Spelled last files) (e : Sync) :
    Spelled (last.take e) (e.request.flat files) := by
  match e with
  | .dentry d =>
      constructor
      · intro ino d' hd
        by_cases hino : ino = d.thisIno
        · subst hino
          have heq : d = d' := by simpa [Synced.take] using hd
          subst heq
          refine ⟨rfl, (files (.dentry, d.thisIno.toStr)).drop d.serialize.length, ?_⟩
          simp [Sync.request, FileRequest.flat, FileOp.flat, overwrite]
        · simp only [Synced.take, Function.update_of_ne hino] at hd
          simp only [Sync.request, FileRequest.flat, Function.update_of_ne (key_ne hino)]
          exact h.dentry ino d' hd
      · intro ino i hi
        have hne : (ObjCategory.inode, ino.toStr) ≠ (.dentry, d.thisIno.toStr) := by simp
        simp only [Sync.request, FileRequest.flat, Function.update_of_ne hne]
        exact h.inode ino i hi
  | .inode i =>
      constructor
      · intro ino d hd
        have hne : (ObjCategory.dentry, ino.toStr) ≠ (.inode, i.ino.toStr) := by simp
        simp only [Sync.request, FileRequest.flat, Function.update_of_ne hne]
        exact h.dentry ino d hd
      · intro ino i' hi
        by_cases hino : ino = i.ino
        · subst hino
          have heq : i = i' := by simpa [Synced.take] using hi
          subst heq
          refine ⟨rfl, ?_⟩
          simp only [Sync.request, FileRequest.flat, Function.update_self]
          exact Inode.spells_overwrite _ _
        · simp only [Synced.take, Function.update_of_ne hino] at hi
          simp only [Sync.request, FileRequest.flat, Function.update_of_ne (key_ne hino)]
          exact h.inode ino i' hi

/-- After any syncs the pool holds files that begin with what was last synced. -/
theorem spelled_run {pool : Pool} (hpool : HoldsAll pool files) (h : Spelled last files)
    (evs : List Sync) :
    ∃ files', HoldsAll (evs.foldl Sync.perform pool) files' ∧
      Spelled (evs.foldl Synced.take last) files' := by
  induction evs generalizing pool last files with
  | nil => exact ⟨files, hpool, h⟩
  | cons e evs ih =>
      refine ih ?_ (h.take e)
      rw [Sync.perform_eq]
      exact hpool.perform e.request

end Synced

/-! ## Reading back -/

/-- A child list that fits into its object has names that fit into the format. -/
theorem Dentry.name_length_lt {d : Dentry} (hfit : d.serialize.length ≤ MAX_DENTRY_OBJ_SIZE)
    {e : (_ : Bytes) × Uuid} (he : e ∈ d.childList.entries) : e.1.length < 2 ^ 31 := by
  have hmax : MAX_DENTRY_OBJ_SIZE = 4194304 := objSize_eq
  have hmem : childBytes e ∈ d.childList.entries.map childBytes := List.mem_map_of_mem he
  have hle := (List.sublist_flatten_of_mem hmem).length_le
  rw [childBytes_length] at hle
  have hsize : d.serialize.length = 8 + (d.childList.entries.map childBytes).flatten.length := by
    rw [serialize, List.length_append, leBytes_length, List.flatMap_def]
  omega

theorem Dentry.serialize_ne_nil (d : Dentry) : d.serialize ≠ [] := by
  intro h
  have hlen := congrArg List.length h
  rw [serialize, List.length_append, leBytes_length, List.length_nil] at hlen
  omega

/-- A child list is read back from an object that begins with it. -/
theorem Dentry.load_of_spelled {pool : Pool} {d : Dentry} {post : Bytes}
    (hobject : Holds pool .dentry d.thisIno.toStr (d.serialize ++ post))
    (hnames : ∀ e ∈ d.childList.entries, 0 ∉ e.1)
    (hfit : d.serialize.length ≤ MAX_DENTRY_OBJ_SIZE) :
    ∃ d', Dentry.load pool d.thisIno false = .ok d' ∧
      d'.childList.entries.Perm d.childList.entries := by
  obtain ⟨d', hd', -, hperm⟩ := deserialize_serialize d post
    (fun e he => ⟨hnames e he, name_length_lt hfit he⟩) hfit
  have hstored := hobject.storedAs (List.append_ne_nil_of_left_ne_nil d.serialize_ne_nil post)
  have hread : RadosIo.read pool .dentry d.thisIno.toStr MAX_DENTRY_OBJ_SIZE 0 =
      headOf (some (d.serialize ++ post)) MAX_DENTRY_OBJ_SIZE :=
    hstored.read objSize_pos (Nat.le_refl _)
  refine ⟨d', ?_, hperm⟩
  unfold Dentry.load
  rw [if_neg (by decide), hread]
  exact (deserialize_slice _ _).trans hd'

namespace Synced

/-- What can be said of an inode that was last synced, from the pool. -/
theorem Spelled.pull {last : Synced} {files : FlatFiles} {pool : Pool} (h : Spelled last files)
    (hpool : HoldsAll pool files) {ino : Uuid} {i : Inode} (hi : last.inode ino = some i)
    (hw : i.WellFormed) : Inode.pull pool ino = .ok i.pulled := by
  obtain ⟨rfl, hspells⟩ := h.inode ino i hi
  exact Inode.pull_of_spells (hpool .inode _) hspells hw

end Synced

namespace DentryTable

/-- The table has the children of `d`, each with what was last synced of its inode. -/
structure Reads (t : DentryTable) (last : Synced) (d : Dentry) : Prop where
  dirIno : t.dirIno = d.thisIno
  dentries : t.dentries.childList.entries.Perm d.childList.entries
  names : ∀ name, name ∈ t.childInodes ↔ name ∈ d.childList
  child : ∀ name u i, d.childList.lookup name = some u → last.inode u = some i →
    ∃ c, t.child name = some c ∧ c.inode.core = i.core ∧ c.inode.target = i.target ∧
      c.pIno = d.thisIno

/-- A directory comes back from the pool as it was last synced, whatever was in the objects. -/
theorem pull_synced {pool : Pool} {files : FlatFiles} (hpool : HoldsAll pool files)
    (evs : List Sync) (ino : Uuid) (d : Dentry) (self : Inode)
    (hd : (evs.foldl Synced.take .none).dentry ino = some d)
    (hself : (evs.foldl Synced.take .none).inode ino = some self)
    (hnames : ∀ e ∈ d.childList.entries, e.1 ≠ [] ∧ 0 ∉ e.1)
    (hfit : d.serialize.length ≤ Dentry.MAX_DENTRY_OBJ_SIZE)
    (hchildren : ∀ name u, d.childList.lookup name = some u →
      ((evs.foldl Synced.take .none).inode u).isSome)
    (hinodes : ∀ u i, (evs.foldl Synced.take .none).inode u = some i → i.WellFormed) :
    ∃ t, pull (evs.foldl Sync.perform pool) ino = .ok t ∧
      t.Reads (evs.foldl Synced.take .none) d ∧ t.thisDirInode.core = self.core := by
  obtain ⟨files', hpool', hspelled⟩ := Synced.spelled_run hpool (Synced.spelled_none files) evs
  generalize evs.foldl Sync.perform pool = pool' at *
  generalize evs.foldl Synced.take .none = last at *
  obtain ⟨rfl, post, hpost⟩ := hspelled.dentry ino d hd
  have hobject := hpool' .dentry d.thisIno.toStr
  rw [hpost] at hobject
  obtain ⟨d', hload, hperm⟩ := Dentry.load_of_spelled hobject (fun e he => (hnames e he).2) hfit
  have hlookup : ∀ name, d'.childList.lookup name = d.childList.lookup name :=
    fun name => AList.perm_lookup hperm
  have hpull : ∀ u i, last.inode u = some i → Inode.pull pool' u = .ok i.pulled :=
    fun u i hi => hspelled.pull hpool' hi (hinodes u i hi)
  have hall : ∀ name u, d'.childList.lookup name = some u →
      ∃ i, Inode.pull pool' u = .ok i := by
    intro name u hu
    rw [hlookup] at hu
    obtain ⟨i, hi⟩ := Option.isSome_iff_exists.mp (hchildren name u hu)
    exact ⟨i.pulled, hpull u i hi⟩
  obtain ⟨t, ht⟩ := pull_total (hpull d.thisIno self hself) hload hall
  have hp := pull_ok ht
  have hdentries : t.dentries = d' := Except.ok.inj (hp.dentries.symm.trans hload)
  have hlisted : ∀ name, t.listed name = d.childList.lookup name := by
    intro name
    unfold listed
    rw [hdentries, hlookup]
  refine ⟨t, ht, ⟨hp.dirIno, ?_, ?_, ?_⟩, ?_⟩
  · rw [hdentries]
    exact hperm
  · intro name
    rw [mem_childInodes, ← AList.lookup_isSome, ← hlisted name]
    match hl : t.listed name with
    | none => simp [hp.absent name hl]
    | some u =>
        obtain ⟨i, -, hc⟩ := hp.present name u hl
        simp [hc]
  · intro name u i hu hi
    rw [← hlisted name] at hu
    obtain ⟨i', hi', hc⟩ := hp.present name u hu
    have heq : i' = i.pulled := Except.ok.inj (hi'.symm.trans (hpull u i hi))
    subst heq
    exact ⟨_, hc, rfl, Inode.pulled_target, rfl⟩
  · have heq := Except.ok.inj (hp.self.symm.trans (hpull d.thisIno self hself))
    rw [heq]
    rfl

def linkIno : Uuid := .splicePrefixAndPostfix 1 3

def newLink (linkTarget : Bytes) : Inode :=
  ⟨⟨0xA1FF, 0, 0, linkIno, 1, 0, ⟨0, 0⟩, ⟨0, 0⟩, ⟨0, 0⟩, UInt32.ofNat linkTarget.length⟩,
    some linkTarget⟩

/-- The root with a link, whose target gets shorter, after it has had a second child. -/
def shrinking : List Sync :=
  [.inode newRoot, .inode (newLink [97, 98, 99]),
    .dentry ⟨.rootIno, .insert [97, 97] linkIno (.insert [98] linkIno ∅)⟩, .inode (newLink [97]),
    .dentry ⟨.rootIno, .insert [98] linkIno ∅⟩]

theorem pull_synced_shrinking :
    ∃ t, pull (shrinking.foldl Sync.perform ∅) .rootIno = .ok t ∧
      t.Reads (shrinking.foldl Synced.take .none) ⟨.rootIno, .insert [98] linkIno ∅⟩ ∧
      t.thisDirInode.core = newRoot.core := by
  have hempty : HoldsAll ∅ fun _ => [] :=
    fun _ _ => Holds.of_absent fun num => AList.lookup_empty _
  have hinode : (shrinking.foldl Synced.take .none).inode =
      Function.update (Function.update (Function.update (fun _ => none) .rootIno (some newRoot))
        linkIno (some (newLink [97, 98, 99]))) linkIno (some (newLink [97])) := rfl
  refine pull_synced hempty shrinking .rootIno _ newRoot rfl rfl ?_ ?_ ?_ ?_
  · intro e he
    obtain rfl : e = ⟨[98], linkIno⟩ := by simpa [AList.insert] using he
    decide
  · rw [show Dentry.MAX_DENTRY_OBJ_SIZE = 4194304 from objSize_eq]
    decide
  · intro name u hu
    obtain ⟨rfl, rfl⟩ : name = [98] ∧ linkIno = u := by
      rcases lookup_insert_eq_some hu with ⟨hn, hu⟩ | ⟨-, hu⟩
      · exact ⟨hn, hu.symm⟩
      · cases hu
    rfl
  · intro u i hi
    rw [hinode] at hi
    by_cases hl : u = linkIno
    · subst hl
      rw [Function.update_self] at hi
      obtain rfl := Option.some.inj hi
      decide
    · rw [Function.update_of_ne hl, Function.update_of_ne hl] at hi
      by_cases hr : u = .rootIno
      · subst hr
        rw [Function.update_self] at hi
        obtain rfl := Option.some.inj hi
        decide
      · rw [Function.update_of_ne hr] at hi
        cases hi

end DentryTable

end Nmfs
