import Nmfs.Journal.Record

/-
  The mutators of `transaction`, each as what it makes of the transaction. `Answers` says what a call
  can come to; what the calls keep is derived from that.
-/

namespace Nmfs.Transaction

open Lib

inductive Mutation where
  | mkself (selfInode : Inode)
  | rmself
  | chself (selfInode : Inode)
  | mkdir (selfInode : Inode) (dName : Bytes) (dIno : Uuid)
  | rmdir (selfInode : Inode) (dName : Bytes) (dIno : Uuid)
  | mkreg (selfInode : Inode) (fName : Bytes) (fInode : Inode)
  | rmreg (selfInode : Inode) (fName : Bytes) (fInode : Inode)
  | chreg (fInode : Inode)

def Mutation.apply (tx : Transaction) : Mutation → Result
  | mkself s => tx.mkself s
  | rmself => tx.rmself
  | chself s => tx.chself s
  | mkdir s name ino => tx.mkdir s name ino
  | rmdir s name ino => tx.rmdir s name ino
  | mkreg s name f => tx.mkreg s name f
  | rmreg s name f => tx.rmreg s name f
  | chreg f => tx.chreg f

/-- A call that enters a name and touches the directory. -/
inductive Enters (self : Inode) (name : Bytes) (alive : Bool) : Mutation → Prop
  | mkdir {ino : Uuid} (ha : alive = true) : Enters self name alive (.mkdir self name ino)
  | rmdir {ino : Uuid} (ha : alive = false) : Enters self name alive (.rmdir self name ino)
  | mkreg {f : Inode} (ha : alive = true) : Enters self name alive (.mkreg self name f)
  | rmreg {f : Inode} (ha : alive = false) : Enters self name alive (.rmreg self name f)

theorem Enters.unique {self self' : Inode} {name name' : Bytes} {alive alive' : Bool}
    {m : Mutation} (h : Enters self name alive m) (h' : Enters self' name' alive' m) :
    name = name' ∧ alive = alive' := by
  cases h <;> cases h' <;> exact ⟨rfl, by simp only [*]⟩

/-- An entry for the name, and the directory's own inode. -/
def withEntry (tx : Transaction) (self : Inode) (name : Bytes) (alive : Bool) (ino : Uuid) :
    Transaction :=
  { tx with dentries := tx.dentries.insert name (alive, ino) }.touchSelf self

def withFile (tx : Transaction) (ino : Uuid) (f : Option Inode) : Transaction :=
  { tx with fInodes := tx.fInodes.insert ino f }

/-- The name does not say `alive` yet. -/
def Turns (tx : Transaction) (name : Bytes) (alive : Bool) : Prop :=
  ∀ ino, tx.dentries.lookup name ≠ some (alive, ino)

/-- The name is new to the transaction, and so is a file of that number. -/
structure TakesNew (tx : Transaction) (name : Bytes) (ino : Uuid) : Prop where
  uncommitted : tx.committed = false
  turns : tx.Turns name true
  file : ∀ g, tx.fInodes.lookup ino ≠ some (some g)

/-- The name can be removed, and so can the file of that number. -/
structure TakesRemoval (tx : Transaction) (name : Bytes) (ino : Uuid) : Prop where
  uncommitted : tx.committed = false
  turns : tx.Turns name false
  file : tx.fInodes.lookup ino ≠ some none

section

variable {tx : Transaction} {self f : Inode} {name : Bytes} {ino : Uuid}

theorem putDentry_turns {alive : Bool} (h : tx.Turns name alive) :
    tx.putDentry alive name ino =
      some { tx with dentries := tx.dentries.insert name (alive, ino) } := by
  unfold putDentry
  split
  · rfl
  · rename_i alive' ino' hl
    rw [if_neg]
    intro heq
    exact h ino' (heq ▸ hl)

theorem putDentry_stays {alive : Bool} {ino' : Uuid}
    (h : tx.dentries.lookup name = some (alive, ino')) : tx.putDentry alive name ino = none := by
  unfold putDentry
  rw [h]
  exact if_pos rfl

theorem putDentry_of_not_turns {alive : Bool} (h : ¬ tx.Turns name alive) :
    tx.putDentry alive name ino = none := by
  unfold Turns at h
  push Not at h
  obtain ⟨ino', hino⟩ := h
  exact putDentry_stays hino

theorem touchSelf_dentries : (tx.touchSelf self).dentries = tx.dentries := by
  unfold touchSelf
  split <;> rfl

theorem touchSelf_fInodes : (tx.touchSelf self).fInodes = tx.fInodes := by
  unfold touchSelf
  split <;> rfl

theorem touchSelf_status : (tx.touchSelf self).status = tx.status := by
  unfold touchSelf
  split <;> rfl

@[simp] theorem withEntry_dentries {alive : Bool} :
    (tx.withEntry self name alive ino).dentries = tx.dentries.insert name (alive, ino) :=
  touchSelf_dentries

@[simp] theorem withEntry_fInodes {alive : Bool} :
    (tx.withEntry self name alive ino).fInodes = tx.fInodes :=
  touchSelf_fInodes

@[simp] theorem withEntry_status {alive : Bool} :
    (tx.withEntry self name alive ino).status = tx.status :=
  touchSelf_status

@[simp] theorem withEntry_committed {alive : Bool} :
    (tx.withEntry self name alive ino).committed = tx.committed := by
  unfold withEntry touchSelf
  split <;> rfl

@[simp] theorem withEntry_sIno {alive : Bool} :
    (tx.withEntry self name alive ino).sIno = tx.sIno := by
  unfold withEntry touchSelf
  split <;> rfl

@[simp] theorem withEntry_offset {alive : Bool} :
    (tx.withEntry self name alive ino).offset = tx.offset := by
  unfold withEntry touchSelf
  split <;> rfl

theorem withEntry_sInode {alive : Bool} :
    (tx.withEntry self name alive ino).sInode = (tx.touchSelf self).sInode := by
  unfold withEntry touchSelf
  dsimp only
  split <;> rfl

theorem unlessCommitted_open (hc : tx.committed = false) (mutate : Transaction → Result) :
    tx.unlessCommitted mutate = mutate tx := by
  unfold unlessCommitted
  rw [hc]
  rfl

theorem mkdir_eq (hc : tx.committed = false) (h : tx.Turns name true) :
    tx.mkdir self name ino = (.ok 0, tx.withEntry self name true ino) := by
  unfold mkdir
  rw [unlessCommitted_open hc, putDentry_turns h]
  rfl

theorem rmdir_eq (hc : tx.committed = false) (h : tx.Turns name false) :
    tx.rmdir self name ino = (.ok 0, tx.withEntry self name false ino) := by
  unfold rmdir
  rw [unlessCommitted_open hc, putDentry_turns h]
  rfl

/-! A name that says so already: nothing has been touched yet. -/

theorem mkdir_taken (hc : tx.committed = false) (h : ¬ tx.Turns name true) :
    tx.mkdir self name ino =
      (.error (.logicError "transaction::mkdir() failed (directory already exists)"), tx) := by
  unfold mkdir
  rw [unlessCommitted_open hc, putDentry_of_not_turns h]

theorem rmdir_gone (hc : tx.committed = false) (h : ¬ tx.Turns name false) :
    tx.rmdir self name ino =
      (.error (.logicError "transaction::rmdir() failed (directory doesn't exist)"), tx) := by
  unfold rmdir
  rw [unlessCommitted_open hc, putDentry_of_not_turns h]

theorem mkreg_taken (hc : tx.committed = false) (h : ¬ tx.Turns name true) :
    tx.mkreg self name f =
      (.error (.logicError "transaction::mkreg() failed (file already exists)"), tx) := by
  unfold mkreg
  rw [unlessCommitted_open hc]
  dsimp only
  rw [putDentry_of_not_turns h]

theorem rmreg_gone (hc : tx.committed = false) (h : ¬ tx.Turns name false) :
    tx.rmreg self name f =
      (.error (.logicError "transaction::rmreg() failed (file doesn't exist)"), tx) := by
  unfold rmreg
  rw [unlessCommitted_open hc]
  dsimp only
  rw [putDentry_of_not_turns h]

theorem mkreg_eq (h : tx.TakesNew name f.ino) :
    tx.mkreg self name f =
      (.ok 0, (tx.withEntry self name true f.ino).withFile f.ino (some f.copy)) := by
  unfold mkreg
  rw [unlessCommitted_open h.uncommitted]
  dsimp only
  rw [putDentry_turns h.turns]
  dsimp only
  rw [touchSelf_fInodes]
  split
  · rename_i g hg
    exact absurd hg (h.file g)
  · unfold withFile withEntry
    rw [touchSelf_fInodes]

/-- The name is free, but a file of that number is in the transaction. -/
theorem mkreg_late (hc : tx.committed = false) (ht : tx.Turns name true) {g : Inode}
    (hg : tx.fInodes.lookup f.ino = some (some g)) : tx.mkreg self name f =
      (.error (.logicError "transaction::mkreg() failed (file already exists)"),
        tx.withEntry self name true f.ino) := by
  unfold mkreg
  rw [unlessCommitted_open hc]
  dsimp only
  rw [putDentry_turns ht]
  dsimp only
  rw [touchSelf_fInodes, hg]
  rfl

/-- The name can be removed, but the transaction has removed a file of that number. -/
theorem rmreg_late (hc : tx.committed = false) (ht : tx.Turns name false)
    (hg : tx.fInodes.lookup f.ino = some none) : tx.rmreg self name f =
      (.error (.logicError "transaction::rmreg() failed (file doesn't exist)"),
        tx.withEntry self name false f.ino) := by
  unfold rmreg
  rw [unlessCommitted_open hc]
  dsimp only
  rw [putDentry_turns ht]
  dsimp only
  rw [touchSelf_fInodes, hg]
  rfl

theorem rmreg_eq (h : tx.TakesRemoval name f.ino) :
    tx.rmreg self name f =
      (.ok 0, (tx.withEntry self name false f.ino).withFile f.ino none) := by
  unfold rmreg
  rw [unlessCommitted_open h.uncommitted]
  dsimp only
  rw [putDentry_turns h.turns]
  dsimp only
  rw [touchSelf_fInodes]
  split
  · rename_i hg
    exact absurd hg h.file
  · unfold withFile withEntry
    rw [touchSelf_fInodes]

theorem chreg_eq (hc : tx.committed = false) :
    tx.chreg f = (.ok 0, tx.withFile f.ino (some f.copy)) := by
  unfold chreg
  rw [unlessCommitted_open hc]
  rfl

theorem chself_eq (hc : tx.committed = false) :
    tx.chself self = (.ok 0, { tx with sInode := some self.copy }) := by
  unfold chself
  rw [unlessCommitted_open hc]

theorem mkself_eq (hc : tx.committed = false) :
    tx.mkself self = (.ok 0, { tx with sInode := some self.copy, status := .S_CREATED }) := by
  unfold mkself
  rw [unlessCommitted_open hc]

theorem rmself_eq (hc : tx.committed = false) :
    tx.rmself = (.ok 0, { tx with status := .S_DELETED }) := by
  unfold rmself
  rw [unlessCommitted_open hc]

/-- A committed transaction turns a mutator away. -/
theorem apply_committed {m : Mutation} (h : tx.committed = true) : m.apply tx = (.ok (-1), tx) := by
  cases m <;> exact if_pos h

end

/-! ## What a call can come to -/

/-- What the code is and what the transaction is afterwards. A name is entered before the file is
    looked up. -/
inductive ComesTo (tx : Transaction) : Mutation → Result → Prop
  | turnedAway (m : Mutation) (hc : tx.committed = true) : ComesTo tx m (.ok (-1), tx)
  | mkself (self : Inode) (hc : tx.committed = false) :
    ComesTo tx (.mkself self) (.ok 0, { tx with sInode := some self.copy, status := .S_CREATED })
  | rmself (hc : tx.committed = false) : ComesTo tx .rmself (.ok 0, { tx with status := .S_DELETED })
  | chself (self : Inode) (hc : tx.committed = false) :
    ComesTo tx (.chself self) (.ok 0, { tx with sInode := some self.copy })
  | chreg (f : Inode) (hc : tx.committed = false) :
    ComesTo tx (.chreg f) (.ok 0, tx.withFile f.ino (some f.copy))
  | refused {m : Mutation} {self : Inode} {name : Bytes} {alive : Bool} (what : String)
    (hc : tx.committed = false) (hm : Enters self name alive m) (ht : ¬ tx.Turns name alive) :
    ComesTo tx m (.error (.logicError what), tx)
  | mkdir (self : Inode) (name : Bytes) (ino : Uuid) (hc : tx.committed = false)
    (ht : tx.Turns name true) :
    ComesTo tx (.mkdir self name ino) (.ok 0, tx.withEntry self name true ino)
  | rmdir (self : Inode) (name : Bytes) (ino : Uuid) (hc : tx.committed = false)
    (ht : tx.Turns name false) :
    ComesTo tx (.rmdir self name ino) (.ok 0, tx.withEntry self name false ino)
  | mkreg (self : Inode) (name : Bytes) (f : Inode) (h : tx.TakesNew name f.ino) :
    ComesTo tx (.mkreg self name f)
      (.ok 0, (tx.withEntry self name true f.ino).withFile f.ino (some f.copy))
  | mkregLate (self : Inode) (name : Bytes) (f : Inode) (what : String) (hc : tx.committed = false)
    (ht : tx.Turns name true) (hf : ∃ g, tx.fInodes.lookup f.ino = some (some g)) :
    ComesTo tx (.mkreg self name f)
      (.error (.logicError what), tx.withEntry self name true f.ino)
  | rmreg (self : Inode) (name : Bytes) (f : Inode) (h : tx.TakesRemoval name f.ino) :
    ComesTo tx (.rmreg self name f)
      (.ok 0, (tx.withEntry self name false f.ino).withFile f.ino none)
  | rmregLate (self : Inode) (name : Bytes) (f : Inode) (what : String) (hc : tx.committed = false)
    (ht : tx.Turns name false) (hf : tx.fInodes.lookup f.ino = some none) :
    ComesTo tx (.rmreg self name f)
      (.error (.logicError what), tx.withEntry self name false f.ino)

section

variable {tx : Transaction} {self f : Inode} {name : Bytes} {ino : Uuid} {m : Mutation}

theorem mkreg_comesTo (self f : Inode) (name : Bytes) (hc : tx.committed = false) :
    ComesTo tx (.mkreg self name f) (tx.mkreg self name f) := by
  by_cases ht : tx.Turns name true
  · by_cases hf : ∀ g, tx.fInodes.lookup f.ino ≠ some (some g)
    · rw [mkreg_eq ⟨hc, ht, hf⟩]
      exact .mkreg self name f ⟨hc, ht, hf⟩
    · push Not at hf
      obtain ⟨g, hg⟩ := hf
      rw [mkreg_late hc ht hg]
      exact .mkregLate self name f _ hc ht ⟨g, hg⟩
  · rw [mkreg_taken hc ht]
    exact .refused _ hc (.mkreg rfl) ht

theorem rmreg_comesTo (self f : Inode) (name : Bytes) (hc : tx.committed = false) :
    ComesTo tx (.rmreg self name f) (tx.rmreg self name f) := by
  by_cases ht : tx.Turns name false
  · by_cases hf : tx.fInodes.lookup f.ino = some none
    · rw [rmreg_late hc ht hf]
      exact .rmregLate self name f _ hc ht hf
    · rw [rmreg_eq ⟨hc, ht, hf⟩]
      exact .rmreg self name f ⟨hc, ht, hf⟩
  · rw [rmreg_gone hc ht]
    exact .refused _ hc (.rmreg rfl) ht

theorem apply_comesTo (tx : Transaction) (m : Mutation) : ComesTo tx m (m.apply tx) := by
  cases hc : tx.committed with
  | true =>
      rw [apply_committed hc]
      exact .turnedAway m hc
  | false =>
      cases m with
      | mkself self =>
          show ComesTo tx _ (tx.mkself self)
          rw [mkself_eq hc]
          exact .mkself self hc
      | rmself =>
          show ComesTo tx _ tx.rmself
          rw [rmself_eq hc]
          exact .rmself hc
      | chself self =>
          show ComesTo tx _ (tx.chself self)
          rw [chself_eq hc]
          exact .chself self hc
      | chreg f =>
          show ComesTo tx _ (tx.chreg f)
          rw [chreg_eq hc]
          exact .chreg f hc
      | mkdir self name ino =>
          show ComesTo tx _ (tx.mkdir self name ino)
          by_cases ht : tx.Turns name true
          · rw [mkdir_eq hc ht]
            exact .mkdir self name ino hc ht
          · rw [mkdir_taken hc ht]
            exact .refused _ hc (.mkdir rfl) ht
      | rmdir self name ino =>
          show ComesTo tx _ (tx.rmdir self name ino)
          by_cases ht : tx.Turns name false
          · rw [rmdir_eq hc ht]
            exact .rmdir self name ino hc ht
          · rw [rmdir_gone hc ht]
            exact .refused _ hc (.rmdir rfl) ht
      | mkreg self name f => exact mkreg_comesTo self f name hc
      | rmreg self name f => exact rmreg_comesTo self f name hc

theorem takesNew_of_mkreg (hc : tx.committed = false) {code : Int}
    (h : (tx.mkreg self name f).1 = .ok code) : tx.TakesNew name f.ino := by
  have hcomes := mkreg_comesTo self f name hc
  generalize tx.mkreg self name f = r at h hcomes
  cases hcomes with
  | turnedAway _ hcommitted => exact absurd hcommitted (Bool.eq_false_iff.mp hc)
  | refused => cases h
  | mkreg _ _ _ htakes => exact htakes
  | mkregLate => cases h

theorem takesRemoval_of_rmreg (hc : tx.committed = false) {code : Int}
    (h : (tx.rmreg self name f).1 = .ok code) : tx.TakesRemoval name f.ino := by
  have hcomes := rmreg_comesTo self f name hc
  generalize tx.rmreg self name f = r at h hcomes
  cases hcomes with
  | turnedAway _ hcommitted => exact absurd hcommitted (Bool.eq_false_iff.mp hc)
  | refused => cases h
  | rmreg _ _ _ htakes => exact htakes
  | rmregLate => cases h

/-- The exceptions of the mutators are all of one kind. -/
theorem apply_error {e : Err} (h : (m.apply tx).1 = .error e) : ∃ what, e = .logicError what := by
  have hcomes := apply_comesTo tx m
  generalize m.apply tx = r at h hcomes
  cases hcomes with
  | refused what =>
      cases h
      exact ⟨what, rfl⟩
  | mkregLate _ _ _ what =>
      cases h
      exact ⟨what, rfl⟩
  | rmregLate _ _ _ what =>
      cases h
      exact ⟨what, rfl⟩
  | _ => cases h

/-- What a mutator leaves alone. -/
structure Frame (tx tx' : Transaction) : Prop where
  committed : tx'.committed = tx.committed
  sIno : tx'.sIno = tx.sIno
  offset : tx'.offset = tx.offset

theorem withEntry_frame (tx : Transaction) (self : Inode) (name : Bytes) (alive : Bool)
    (ino : Uuid) : Frame tx (tx.withEntry self name alive ino) :=
  ⟨withEntry_committed, withEntry_sIno, withEntry_offset⟩

theorem Frame.withFile {tx' : Transaction} (h : Frame tx tx') (ino : Uuid) (f : Option Inode) :
    Frame tx (tx'.withFile ino f) :=
  ⟨h.committed, h.sIno, h.offset⟩

theorem apply_frame (m : Mutation) (tx : Transaction) : Frame tx (m.apply tx).2 := by
  have hcomes := apply_comesTo tx m
  generalize m.apply tx = r at hcomes ⊢
  cases hcomes with
  | mkdir | rmdir | mkregLate | rmregLate => exact withEntry_frame tx _ _ _ _
  | mkreg | rmreg => exact (withEntry_frame tx _ _ _ _).withFile _ _
  | _ => exact ⟨rfl, rfl, rfl⟩

end

end Nmfs.Transaction
