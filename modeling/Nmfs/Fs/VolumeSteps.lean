import Nmfs.Fs.Ancestry
import Nmfs.Fs.Volume

/-
  The steps of a volume, one at a time: what the meta pool has before and after a transaction is
  written, what a call makes of a transaction, and what a commit and a checkpoint do.
-/

namespace Nmfs

open Lib RadosIo Cluster

/-- The change is journaled: a write only where the file gets longer. -/
def Refinement.InodeChange.Records (i : Inode) : Refinement.InodeChange → Prop
  | write buffer offset flags =>
    i.core.iSize < (if flags &&& LocalOps.O_APPEND ≠ 0 then i.core.iSize else offset) +
      UInt64.ofNat buffer.length
  | truncate _ _ => ¬ Inode.isDir i.core.iMode
  | _ => True

theorem Refinement.InodeChange.quiet {change : Refinement.InodeChange} {o : LocalOps.OpenInode}
    (h : ¬ change.Records o.i) : (change.perform o).jtable = o.jtable := by
  cases change with
  | chmod mode => exact absurd trivial h
  | chown uid gid => exact absurd trivial h
  | utimens ts atime mtime => exact absurd trivial h
  | write buffer offset flags =>
      show (LocalOps.localWrite o buffer offset flags).2.jtable = _
      unfold LocalOps.localWrite
      dsimp only
      unfold Records at h
      rw [if_neg h]
  | truncate offset ts =>
      show (LocalOps.localTruncate o offset ts).2.jtable = _
      unfold LocalOps.localTruncate
      rw [if_pos (not_not.mp h)]

namespace Volume

/-! ## What the pool has -/

/-- The objects of every file follow one another. -/
def WellStored (pool : Pool) : Prop := ∀ category key, ∃ x, StoredAs pool category key x

/-- The DENTRY object spells some children. -/
def Spelled (pool : Pool) (dir : Uuid) : Prop :=
  ∃ (d : Dentry) (post : Bytes), d.thisIno = dir ∧
    StoredAs pool .dentry dir.toStr (some (d.serialize ++ post)) ∧
    ∀ e ∈ d.childList.entries, Dentry.NameOk e.1

/-- The directory has neither object. -/
structure Absent (pool : Pool) (dir : Uuid) : Prop where
  inode : StoredAs pool .inode dir.toStr none
  dentry : StoredAs pool .dentry dir.toStr none

section

variable {pool pool' : Pool} {category c : ObjCategory} {key k : Str} {dir u : Uuid}

theorem WellStored.write (h : WellStored pool) {value : Bytes} (hv : value ≠ []) (offset : Nat) :
    WellStored (RadosIo.write pool category key value offset).2 := by
  intro c k
  obtain ⟨x, hx⟩ := h c k
  by_cases hk : (c, k) = (category, key)
  · cases hk
    exact ⟨_, hx.write hv offset⟩
  · exact ⟨x, (frame_write_file _ _).storedAs hk hx⟩

theorem WellStored.remove (h : WellStored pool) :
    WellStored (RadosIo.remove pool category key) := by
  intro c k
  obtain ⟨x, hx⟩ := h c k
  by_cases hk : (c, k) = (category, key)
  · cases hk
    exact ⟨_, hx.remove⟩
  · exact ⟨x, frame_remove.storedAs hk hx⟩

theorem WellStored.inode (h : WellStored pool) (i : Inode) : WellStored (i.sync pool) :=
  h.write (serialize_ne_nil i) 0

/-- The children can be read, as long as the object is not too long for the buffer. -/
theorem load_of_spelled (h : Spelled pool dir)
    (hfit : (RadosIo.stat pool .dentry dir.toStr).2 ≤ Dentry.MAX_DENTRY_OBJ_SIZE) :
    ∃ d, Dentry.load pool dir false = .ok d := by
  obtain ⟨d, post, rfl, hd, hnames⟩ := h
  rw [hd.stat, Option.getD_some, List.length_append] at hfit
  obtain ⟨d', hd', -⟩ := Dentry.deserialize_serialize d post hnames (by omega)
  have hread : RadosIo.read pool .dentry d.thisIno.toStr Dentry.MAX_DENTRY_OBJ_SIZE 0 =
      headOf (some (d.serialize ++ post)) Dentry.MAX_DENTRY_OBJ_SIZE :=
    hd.read objSize_pos (Nat.le_refl _)
  refine ⟨d', ?_⟩
  unfold Dentry.load
  rw [if_neg (by decide), hread]
  exact (Dentry.deserialize_slice _ _).trans hd'

/-- What is read has names. -/
theorem load_names {mkdir : Bool} {d : Dentry} (h : Dentry.load pool dir mkdir = .ok d) :
    d.thisIno = dir ∧ ∀ e ∈ d.childList.entries, Dentry.NameOk e.1 := by
  unfold Dentry.load at h
  split at h
  · cases h
    exact ⟨rfl, fun e he => (nomatch he)⟩
  · split at h
    · refine ⟨?_, (Dentry.deserialize_ok h).1⟩
      unfold Dentry.deserialize at h
      split at h
      · cases h
      · cases h
        rfl
    · cases h

/-- Without the object nothing can be read. -/
theorem load_absent (h : StoredAs pool .dentry dir.toStr none) :
    Dentry.load pool dir false =
      .error (.runtimeError ("Dentry Corrupted: inode number " ++ String.ofList dir.toStr)) := by
  have hread : RadosIo.read pool .dentry dir.toStr Dentry.MAX_DENTRY_OBJ_SIZE 0 =
      headOf none Dentry.MAX_DENTRY_OBJ_SIZE := h.read objSize_pos (Nat.le_refl _)
  unfold Dentry.load
  rw [if_neg (by decide), hread]
  rfl

/-- What is written can be read again. -/
theorem spelled_sync (h : WellStored pool) {d : Dentry}
    (hnames : ∀ e ∈ d.childList.entries, Dentry.NameOk e.1) :
    Spelled (d.sync pool) d.thisIno := by
  obtain ⟨x, hx⟩ := h .dentry d.thisIno.toStr
  refine ⟨d, (x.getD []).drop d.serialize.length, rfl, ?_, hnames⟩
  rw [← Journal.overwrite_zero]
  exact hx.write (dentry_serialize_ne_nil d) 0

/-! ## What a transaction writes -/

/-- What a transaction of the directory has in it. `live` is what is among its files. -/
structure TxOk (live : Uuid → Prop) (dir : Uuid) (tx : Transaction) : Prop where
  sIno : tx.sIno = dir
  nameOk : ∀ n v, tx.dentries.lookup n = some v → Dentry.NameOk n
  self : ∀ i, tx.sInode = some i → i.ino = dir
  files : ∀ u i, tx.fInodes.lookup u = some (some i) → i.ino = u ∧ live u

variable {live : Uuid → Prop} {tx : Transaction}

theorem syncFInodes_storedAs (entries : List ((_ : Uuid) × Option Inode)) {x : Option Bytes}
    (hne : ∀ e ∈ entries, ∀ i, e.2 = some i → (c, k) ≠ (.inode, i.ino.toStr))
    (h : StoredAs pool c k x) : StoredAs (Transaction.syncFInodes entries pool) c k x := by
  induction entries generalizing pool with
  | nil => exact h
  | cons e entries ih =>
      refine ih (fun e' he' => hne e' (List.mem_cons_of_mem _ he')) ?_
      obtain ⟨u, o⟩ := e
      cases o with
      | none => exact h
      | some i =>
          exact (frame_write_file _ _).storedAs (hne ⟨u, some i⟩ List.mem_cons_self i rfl) h

theorem syncFInodes_wellStored (entries : List ((_ : Uuid) × Option Inode)) (h : WellStored pool) :
    WellStored (Transaction.syncFInodes entries pool) := by
  induction entries generalizing pool with
  | nil => exact h
  | cons e entries ih =>
      refine ih ?_
      obtain ⟨u, o⟩ := e
      cases o with
      | none => exact h
      | some i => exact h.inode i

theorem live_of_mem (h : TxOk live dir tx) {e : (_ : Uuid) × Option Inode}
    (he : e ∈ tx.fInodes.entries) {i : Inode} (hi : e.2 = some i) : live i.ino := by
  obtain ⟨u, o⟩ := e
  cases hi
  obtain ⟨hu, hl⟩ := h.files u i (AList.mem_lookup_iff.mpr he)
  rwa [hu]

/-- The pool before the DENTRY object is read. -/
def selfSynced (tx : Transaction) (pool : Pool) : Pool := (tx.sInode.map (Inode.sync pool)).getD pool

theorem selfSynced_storedAs (h : ∀ i, tx.sInode = some i → i.ino = dir) {x : Option Bytes}
    (hne : (c, k) ≠ (.inode, dir.toStr)) (hx : StoredAs pool c k x) :
    StoredAs (selfSynced tx pool) c k x := by
  unfold selfSynced
  cases hi : tx.sInode with
  | none => exact hx
  | some i =>
      refine (frame_write_file _ _).storedAs ?_ hx
      rw [h i hi]
      exact hne

theorem selfSynced_wellStored (h : WellStored pool) : WellStored (selfSynced tx pool) := by
  unfold selfSynced
  cases tx.sInode with
  | none => exact h
  | some i => exact h.inode i

/-- Other objects stay as they are. -/
theorem sync_storedAs (h : TxOk live dir tx) {x : Option Bytes} (hd : (c, k) ≠ (.dentry, dir.toStr))
    (hi : (c, k) ≠ (.inode, dir.toStr)) (hlive : ∀ u, live u → (c, k) ≠ (.inode, u.toStr))
    (hx : StoredAs pool c k x) : StoredAs (tx.sync pool).2 c k x := by
  unfold Transaction.sync
  rw [h.sIno]
  split
  · exact frame_remove.storedAs hd (frame_remove.storedAs hi hx)
  · have hself := selfSynced_storedAs h.self hi hx
    unfold selfSynced at hself
    dsimp only
    split
    · exact hself
    · rename_i d hload
      refine syncFInodes_storedAs _ (fun e he i hei => hlive _ (live_of_mem h he hei)) ?_
      refine (frame_write_file _ _).storedAs ?_ hself
      rw [applyDentries_thisIno, (load_names hload).1]
      exact hd

theorem sync_wellStored (h : WellStored pool) : WellStored (tx.sync pool).2 := by
  unfold Transaction.sync
  split
  · exact h.remove.remove
  · have hself : WellStored (selfSynced tx pool) := selfSynced_wellStored h
    unfold selfSynced at hself
    dsimp only
    split
    · exact hself
    · exact syncFInodes_wellStored _ (hself.write (dentry_serialize_ne_nil _) 0)

/-- `rmself` has been committed. -/
theorem sync_deleted (h : tx.sIno = dir) (hw : WellStored pool) (hs : tx.status = .S_DELETED) :
    (tx.sync pool).1 = .ok () ∧ Absent (tx.sync pool).2 dir := by
  unfold Transaction.sync
  rw [if_pos hs, h]
  refine ⟨rfl, ?_, ?_⟩
  · obtain ⟨x, hx⟩ := hw .inode dir.toStr
    exact frame_remove.storedAs (fun heq => nomatch (Prod.mk.inj heq).1) hx.remove
  · obtain ⟨x, hx⟩ := hw.remove .dentry dir.toStr
    exact hx.remove

theorem sync_of_load (h : tx.sIno = dir) (hs : tx.status ≠ .S_DELETED) {d : Dentry}
    (hd : Dentry.load (selfSynced tx pool) dir (tx.status = .S_CREATED) = .ok d) :
    tx.sync pool = (.ok (), Transaction.syncFInodes tx.fInodes.entries
      ((Transaction.applyDentries tx.dentries.entries d).sync (selfSynced tx pool))) := by
  unfold selfSynced at hd ⊢
  unfold Transaction.sync
  rw [if_neg hs, h]
  dsimp only
  rw [hd]

theorem sync_of_load_error (h : tx.sIno = dir) (hs : tx.status ≠ .S_DELETED) {e : Err}
    (hd : Dentry.load (selfSynced tx pool) dir (tx.status = .S_CREATED) = .error e) :
    tx.sync pool = (.error e, selfSynced tx pool) := by
  unfold selfSynced at hd ⊢
  unfold Transaction.sync
  rw [if_neg hs, h]
  dsimp only
  rw [hd]

/-- Without the DENTRY object a transaction cannot be written, unless the directory is new. -/
theorem sync_absent (h : tx.sIno = dir) (hi : ∀ i, tx.sInode = some i → i.ino = dir)
    (hs : tx.status = .S_UNCHANGED) (ha : StoredAs pool .dentry dir.toStr none) :
    (tx.sync pool).1 =
      .error (.runtimeError ("Dentry Corrupted: inode number " ++ String.ofList dir.toStr)) := by
  have hself : StoredAs (selfSynced tx pool) .dentry dir.toStr none :=
    selfSynced_storedAs hi (fun heq => nomatch (Prod.mk.inj heq).1) ha
  rw [sync_of_load_error h (by rw [hs]; decide)]
  rw [hs]
  exact load_absent hself

/-- Otherwise the DENTRY object must be there, unless the directory is new. -/
theorem sync_spelled (h : TxOk live dir tx) (hw : WellStored pool) (hs : tx.status ≠ .S_DELETED)
    (hload : tx.status = .S_UNCHANGED → Spelled pool dir ∧
      (RadosIo.stat pool .dentry dir.toStr).2 ≤ Dentry.MAX_DENTRY_OBJ_SIZE) :
    (tx.sync pool).1 = .ok () ∧ Spelled (tx.sync pool).2 dir := by
  have hself : WellStored (selfSynced tx pool) := selfSynced_wellStored hw
  have hload' : ∃ d, Dentry.load (selfSynced tx pool) dir (tx.status = .S_CREATED) = .ok d := by
    cases hst : tx.status with
    | S_DELETED => exact absurd hst hs
    | S_CREATED => exact ⟨⟨dir, ∅⟩, rfl⟩
    | S_UNCHANGED =>
        obtain ⟨⟨d, post, hd, hx, hnames⟩, hfit⟩ := hload hst
        have hx' : StoredAs (selfSynced tx pool) .dentry dir.toStr _ :=
          selfSynced_storedAs h.self (fun heq => nomatch (Prod.mk.inj heq).1) hx
        refine load_of_spelled ⟨d, post, hd, hx', hnames⟩ ?_
        rw [hx'.stat]
        rwa [hx.stat] at hfit
  obtain ⟨d, hd⟩ := hload'
  obtain ⟨hino, hnames⟩ := load_names hd
  rw [sync_of_load h.sIno hs hd]
  refine ⟨rfl, ?_⟩
  obtain ⟨d', post, hd', hx, hnames'⟩ := spelled_sync hself
    (applyDentries_nameOk tx.dentries.entries d
      (fun e he => h.nameOk e.1 e.2 (AList.mem_lookup_iff.mpr he)) hnames)
  rw [applyDentries_thisIno, hino] at hd' hx
  refine ⟨d', post, hd', syncFInodes_storedAs _ (fun e he i hi heq => ?_) hx, hnames'⟩
  exact nomatch (Prod.mk.inj heq).1

/-! ## What a call makes of a transaction -/

theorem TxOk.mono {live' : Uuid → Prop} (h : TxOk live dir tx)
    (hl : ∀ u i, tx.fInodes.lookup u = some (some i) → live' u) : TxOk live' dir tx :=
  ⟨h.sIno, h.nameOk, h.self, fun u i hu => ⟨(h.files u i hu).1, hl u i hu⟩⟩

theorem txOk_new : TxOk live dir (Transaction.new dir) :=
  ⟨rfl, fun _ _ h => (nomatch h), fun _ h => (nomatch h), fun _ _ h => (nomatch h)⟩

theorem TxOk.withSelf (h : TxOk live dir tx) {self : Inode} (hself : self.ino = dir)
    (status : SelfStatus) : TxOk live dir { tx with sInode := some self.copy, status } := by
  refine ⟨h.sIno, h.nameOk, fun i hi => ?_, h.files⟩
  cases hi
  exact hself

theorem TxOk.touchSelf (h : TxOk live dir tx) {self : Inode} (hself : self.ino = dir) :
    TxOk live dir (tx.touchSelf self) := by
  unfold Transaction.touchSelf
  split
  · rename_i i hi
    refine ⟨h.sIno, h.nameOk, fun j hj => ?_, h.files⟩
    cases hj
    exact h.self i hi
  · exact h.withSelf hself tx.status

theorem TxOk.withEntry (h : TxOk live dir tx) {self : Inode} {name : Bytes} (alive : Bool)
    (ino : Uuid) (hself : self.ino = dir) (hname : Dentry.NameOk name) :
    TxOk live dir (tx.withEntry self name alive ino) := by
  have hentry : TxOk live dir { tx with dentries := tx.dentries.insert name (alive, ino) } := by
    refine ⟨h.sIno, fun n v hv => ?_, h.self, h.files⟩
    rcases lookup_insert_eq_some hv with ⟨rfl, -⟩ | ⟨-, hv⟩
    · exact hname
    · exact h.nameOk n v hv
  exact hentry.touchSelf hself

theorem TxOk.withFile (h : TxOk live dir tx) {ino : Uuid} {f : Option Inode}
    (hf : ∀ i, f = some i → i.ino = ino ∧ live ino) : TxOk live dir (tx.withFile ino f) := by
  refine ⟨h.sIno, h.nameOk, h.self, fun u i hu => ?_⟩
  have hu' : (tx.fInodes.insert ino f).lookup u = some (some i) := hu
  rcases lookup_insert_eq_some hu' with ⟨rfl, hi⟩ | ⟨-, hu'⟩
  · exact hf i hi.symm
  · exact h.files u i hu'

theorem TxOk.withCopy (h : TxOk live dir tx) {f : Inode} (hf : live f.ino) :
    TxOk live dir (tx.withFile f.ino (some f.copy)) := by
  refine h.withFile fun i hi => ?_
  cases hi
  exact ⟨rfl, hf⟩

/-- A call keeps what the transaction has in it, and whether the directory is made or removed. -/
theorem TxOk.comesTo (h : TxOk live dir tx) {m : Transaction.Mutation} {r : Transaction.Result}
    (hm : Calls live dir dir m) (hr : Transaction.ComesTo tx m r) :
    TxOk live dir r.2 ∧ r.2.status = tx.status := by
  cases hr with
  | turnedAway => exact ⟨h, rfl⟩
  | refused => exact ⟨h, rfl⟩
  | mkself => cases hm
  | rmself => cases hm
  | chself self =>
      cases hm with
      | chself hself => exact ⟨h.withSelf hself tx.status, rfl⟩
  | chreg f =>
      cases hm with
      | chreg hf => exact ⟨h.withCopy hf, rfl⟩
  | mkdir self name ino =>
      cases hm with
      | mkdir hself hname => exact ⟨h.withEntry true ino hself hname, Transaction.withEntry_status⟩
  | rmdir self name ino =>
      cases hm with
      | rmdir hself hname => exact ⟨h.withEntry false ino hself hname, Transaction.withEntry_status⟩
  | mkreg self name f =>
      cases hm with
      | mkreg hself hname hf =>
          exact ⟨(h.withEntry true f.ino hself hname).withCopy hf, Transaction.withEntry_status⟩
  | mkregLate self name f =>
      cases hm with
      | mkreg hself hname => exact ⟨h.withEntry true f.ino hself hname, Transaction.withEntry_status⟩
  | rmreg self name f =>
      cases hm with
      | rmreg hself hname =>
          exact ⟨(h.withEntry false f.ino hself hname).withFile fun i hi => (nomatch hi),
            Transaction.withEntry_status⟩
  | rmregLate self name f =>
      cases hm with
      | rmreg hself hname => exact ⟨h.withEntry false f.ino hself hname, Transaction.withEntry_status⟩

theorem TxOk.apply (h : TxOk live dir tx) {m : Transaction.Mutation} (hm : Calls live dir dir m) :
    TxOk live dir (m.apply tx).2 ∧ (m.apply tx).2.status = tx.status :=
  h.comesTo hm (Transaction.apply_comesTo tx m)

/-! ## What the calls make of the journal -/

/-- Only the transaction of the directory is another one. A new one begins with `S_UNCHANGED`. -/
structure Heard (live : Uuid → Prop) (dir : Uuid) (jtable jtable' : JournalTable) : Prop where
  other : ∀ d, d ≠ dir → jtable'.lookup d = jtable.lookup d
  here : jtable'.lookup dir = jtable.lookup dir ∨ ∃ tx, jtable'.lookup dir = some tx ∧
    TxOk live dir tx ∧ tx.status = (jtable.getEntry dir).status

theorem heard_of_records {P : Uuid → Prop} {jtable jtable' : JournalTable}
    (h : TxOk live dir (jtable.getEntry dir)) (hP : ∀ u, P u → live u)
    (hr : JournalTable.Records (Calls P dir) jtable jtable') : Heard live dir jtable jtable' := by
  refine (hr.invariant (I := fun j => Heard live dir jtable j ∧ TxOk live dir (j.getEntry dir) ∧
    (j.getEntry dir).status = (jtable.getEntry dir).status) ?_
    ⟨⟨fun _ _ => rfl, .inl rfl⟩, h, rfl⟩).1
  rintro j d m ⟨hj, hok, hs⟩ hm
  obtain ⟨rfl, hm⟩ := hm.mono hP
  obtain ⟨hok', hs'⟩ := hok.apply hm
  rw [JournalTable.getEntry_record]
  refine ⟨⟨fun d' hd' => ?_, .inr ⟨_, AList.lookup_insert _, hok', hs'.trans hs⟩⟩, hok',
    hs'.trans hs⟩
  exact (AList.lookup_insert_ne hd').trans (hj.other d' hd')

end

/-! ## The steps -/

variable {C : Type} [DecidableEq C] {s s' : Volume C} {dir : Uuid}

omit [DecidableEq C] in
theorem Tidy.of_isSome (h : s.Tidy) (hd : (s.cluster.tables dir).isSome = true) :
    dir ∈ s.used ∧ dir ∉ s.removed := by
  obtain ⟨table, ht⟩ := Option.isSome_iff_exists.mp hd
  exact h.led dir table ht

/-- A change through a handle: a file is told to its directory, a directory to itself. -/
inductive HandleRecords (i : Inode) (pIno : Uuid) (jtable : JournalTable) : JournalTable → Prop
  | quiet : HandleRecords i pIno jtable jtable
  | file {f : Inode} (hi : Mirror.IsFile i) (hino : f.ino = i.ino) :
    HandleRecords i pIno jtable (jtable.record pIno (.chreg f)).2
  | directory {f : Inode} (hi : Inode.isDir i.core.iMode = true) (hino : f.ino = i.ino) :
    HandleRecords i pIno jtable (jtable.record i.ino (.chself f)).2

omit [DecidableEq C] in
theorem handle_records {i : Inode} {pIno : Uuid} {change : Refinement.InodeChange}
    (hv : change.Valid i) (ho : s.Open i pIno change) (jtable : JournalTable) (pool : Pool) :
    HandleRecords i pIno jtable (change.perform ⟨i, pIno, pool, jtable⟩).jtable := by
  have hd : change.OfDir ∨ Mirror.IsFile i := by
    cases ho with
    | file hi _ _ _ => exact .inr hi
    | directory _ hd _ => exact .inl hd
  have hch := Refinement.InodeChange.changes (o := ⟨i, pIno, pool, jtable⟩) hv hd
  have hdir := Refinement.isDir_of_changes hch
  revert hch hdir
  generalize change.perform ⟨i, pIno, pool, jtable⟩ = o
  intro hch hdir
  rcases hch.jtable with ⟨-, hj⟩ | hj
  · rw [hj]
    exact .quiet
  · rw [hj, hdir]
    dsimp only
    cases ho with
    | file hi _ _ _ =>
        rw [show Inode.isDir i.core.iMode = false from hi, if_neg (by decide)]
        exact .file hi hch.ino
    | directory hi _ _ =>
        rw [hi, if_pos rfl, hch.ino]
        exact .directory hi hch.ino

omit [DecidableEq C] in
theorem handled_calls {i : Inode} {pIno : Uuid} {change : Refinement.InodeChange}
    (hv : change.Valid i) (ho : s.Open i pIno change) {jtable : JournalTable} {pool : Pool} :
    JournalTable.Records (Calls (fun u => u = i.ino ∧ u ∉ s.removed) (home i pIno)) jtable
      (change.perform ⟨i, pIno, pool, jtable⟩).jtable := by
  have hrec := handle_records hv ho jtable pool
  revert hrec
  generalize (change.perform ⟨i, pIno, pool, jtable⟩).jtable = jtable'
  intro hrec
  unfold home
  cases hrec with
  | quiet => exact .refl
  | file hi hino =>
      rw [show Inode.isDir i.core.iMode = false from hi, if_neg (by decide)]
      refine .record .refl (.chreg ⟨hino, ?_⟩)
      cases ho with
      | file _ _ hnodir _ => exact hino ▸ hnodir.2
      | directory hdir _ _ => exact nomatch hdir.symm.trans hi
  | directory hi hino =>
      rw [hi, if_pos rfl]
      exact .record .refl (.chself hino)

omit [DecidableEq C] in
theorem spelled_of_dentry {pool pool' : Pool}
    (h : ∀ x, StoredAs pool .dentry dir.toStr x → StoredAs pool' .dentry dir.toStr x)
    (hs : Spelled pool dir) : Spelled pool' dir := by
  obtain ⟨d, post, hd, hx, hnames⟩ := hs
  exact ⟨d, post, hd, h _ hx, hnames⟩

/-! The journals after the two parts of an rmdir and of a mkdir that are not done on the parent -/

theorem jtables_topped {cluster : Cluster C} {ino : Uuid} {top : Led}
    (ht : cluster.led ino = some top) (c : C) :
    (FuseOps.topped cluster ino top).jtables c = if c = cluster.leader ino then
      ((cluster.jtables c).record ino .rmself).2 else cluster.jtables c := by
  obtain ⟨-, hj, -⟩ := led_eq_some.mp ht
  show Function.update cluster.jtables (cluster.leader ino) (top.jtable.record ino .rmself).2 c = _
  rw [hj]
  by_cases hc : c = cluster.leader ino
  · rw [hc, Function.update_self, if_pos rfl]
  · rw [Function.update_of_ne hc, if_neg hc]

theorem jtables_founded (cluster : Cluster C) (me : C) (i : Inode) (c : C) :
    (FuseOps.founded me i cluster).jtables c = if c = me then
      ((cluster.jtables c).record i.ino (.mkself i)).2 else cluster.jtables c := by
  show Function.update cluster.jtables me _ c = _
  by_cases hc : c = me
  · rw [hc, Function.update_self, if_pos rfl]
  · rw [Function.update_of_ne hc, if_neg hc]

/-- The JOURNAL object is not one of the two. -/
theorem WellStored.journal {pool : Pool} (h : WellStored pool) (key : Str) {value : Bytes}
    (hv : value ≠ []) (offset : Nat) :
    WellStored (RadosIo.write pool .journal key value offset).2 ∧
      (∀ d, Spelled pool d → Spelled (RadosIo.write pool .journal key value offset).2 d) ∧
      ∀ d, Absent pool d → Absent (RadosIo.write pool .journal key value offset).2 d := by
  have hframe : ∀ c k x, c ≠ .journal → StoredAs pool c k x →
      StoredAs (RadosIo.write pool .journal key value offset).2 c k x := by
    intro c k x hc hx
    exact (frame_write_file _ _).storedAs (fun heq => hc (Prod.mk.inj heq).1) hx
  refine ⟨h.write hv offset, fun d hd => ?_, fun d hd => ?_⟩
  · exact spelled_of_dentry (fun x => hframe _ _ x (by decide)) hd
  · exact ⟨hframe _ _ _ (by decide) hd.inode, hframe _ _ _ (by decide) hd.dentry⟩

/-- What a commit does. -/
structure Commits (s : Volume C) (dir : Uuid) (tx : Transaction) (s' : Volume C) : Prop where
  waiting : s.waiting dir = some tx
  pool : s'.pool = (RadosIo.write s.pool .journal tx.sIno.toStr tx.serialize
    (RadosIo.stat s.pool .journal tx.sIno.toStr).2).2
  cycle : s'.cycle = Function.update s.cycle (s.cluster.leader dir)
    ((s.cycle (s.cluster.leader dir)).erase dir)
  queues : s'.queues = Function.update s.queues dir (s.queues dir ++ [{ tx with
    committed := true
    offset := (RadosIo.stat s.pool .journal tx.sIno.toStr).2 }])
  committed : s'.committed = s.committed ++ [{ tx with
    committed := true
    offset := (RadosIo.stat s.pool .journal tx.sIno.toStr).2 }]
  cluster : s'.cluster = s.cluster
  history : s'.used = s.used ∧ s'.removed = s.removed ∧ s'.erased = s.erased

theorem commits_of_step (hs : step s (.commit dir) = some s') : ∃ tx, Commits s dir tx s' := by
  obtain ⟨tx, htx, hs⟩ := Option.bind_eq_some_iff.mp hs
  unfold Transaction.commit at hs
  split at hs
  · cases hs
  rename_i tx' pool' hcommit
  split at hcommit
  · cases hcommit
  cases hcommit
  have heq := Option.some.inj hs
  subst heq
  exact ⟨tx, htx, rfl, rfl, rfl, rfl, rfl, rfl, rfl, rfl⟩

theorem replace_of_step {me : C} (hs : step s (.replace me) = some s') :
    (s.cycle me).entries = [] ∧ s' = { s with
      cluster := { s.cluster with jtables := Function.update s.cluster.jtables me ∅ }
      cycle := Function.update s.cycle me (s.cluster.jtables me) } := by
  unfold step at hs
  dsimp only at hs
  split at hs
  · exact ⟨‹_›, (Option.some.inj hs).symm⟩
  · cases hs

/-- What a checkpoint does, where it does not raise. -/
structure Checkpoints (s : Volume C) (dir : Uuid) (tx : Transaction) (s' : Volume C) : Prop where
  head : ∃ queue, s.queues dir = tx :: queue ∧ s'.queues = Function.update s.queues dir queue
  pool : s'.pool = (RadosIo.write (tx.sync s.pool).2 .journal tx.sIno.toStr [0] tx.offset).2
  cluster : s'.cluster = s.cluster ∧ s'.cycle = s.cycle
  erased : s'.erased = if tx.status = .S_DELETED then dir :: s.erased else s.erased
  history : s'.used = s.used ∧ s'.removed = s.removed

theorem checkpoints_of_step (hs : step s (.checkpoint dir) = some s') :
    ∃ tx, Checkpoints s dir tx s' := by
  unfold step at hs
  dsimp only at hs
  split at hs
  · cases hs
  rename_i tx queue hq
  unfold Transaction.checkpoint at hs
  cases hsync : tx.sync s.pool with
  | mk r pool =>
      rw [hsync] at hs
      cases r with
      | error e => cases hs
      | ok u =>
          have heq := Option.some.inj hs
          subst heq
          exact ⟨tx, ⟨queue, hq, rfl⟩, by rw [hsync], ⟨rfl, rfl⟩, rfl, rfl, rfl⟩

/-- Only the commit threads write the pool and move what has been committed. -/
inductive Moves (s s' : Volume C) : Action C → Prop
  | kept {a : Action C} (pool : s'.pool = s.pool) (queues : s'.queues = s.queues) : Moves s s' a
  | commit {dir : Uuid} {tx : Transaction} (h : Commits s dir tx s') : Moves s s' (.commit dir)
  | checkpoint {dir : Uuid} {tx : Transaction} (h : Checkpoints s dir tx s') :
    Moves s s' (.checkpoint dir)

theorem moves_of_step {a : Action C} (hs : step s a = some s') : Moves s s' a := by
  cases a with
  | perform d o =>
      obtain ⟨led, -, rfl⟩ := Option.map_eq_some_iff.mp hs
      exact .kept rfl rfl
  | mkdir me env d name mode born =>
      cases hs
      exact .kept rfl rfl
  | rmdir me d name ts =>
      cases hs
      exact .kept rfl rfl
  | handle i pIno change =>
      cases hs
      exact .kept rfl rfl
  | replace me =>
      obtain ⟨-, rfl⟩ := replace_of_step hs
      exact .kept rfl rfl
  | commit d => exact .commit (commits_of_step hs).choose_spec
  | checkpoint d => exact .checkpoint (checkpoints_of_step hs).choose_spec

omit [DecidableEq C] in
theorem checkpoint_fst (tx : Transaction) (pool : Pool) :
    (tx.checkpoint pool).1 = (tx.sync pool).1 := by
  unfold Transaction.checkpoint
  cases tx.sync pool with
  | mk r pool => cases r <;> rfl

/-! ## Before the first step -/

/-- A volume that nothing has been done to: what the clients lead can be read from the pool. -/
structure Start (s : Volume C) : Prop where
  tidy : s.Tidy
  stored : WellStored s.pool
  spelled : ∀ dir table, s.cluster.tables dir = some table → Spelled s.pool dir
  idle : ∀ c, s.cluster.jtables c = ∅ ∧ s.cycle c = ∅
  queues : ∀ dir, s.queues dir = []
  history : s.removed = [] ∧ s.erased = []

section

open Placement

/-- A file system with the root only. -/
def fresh : Volume Bool where
  cluster := { rootOnly with jtables := fun _ => ∅ }
  pool := Dentry.sync ∅ ⟨Uuid.rootIno, ∅⟩
  cycle := fun _ => ∅
  queues := fun _ => []
  used := [Uuid.rootIno]
  removed := []
  erased := []
  committed := []

theorem fresh_stored : WellStored fresh.pool :=
  WellStored.write (fun _ _ => ⟨none, fun _ => AList.lookup_empty _⟩) (dentry_serialize_ne_nil _) 0

theorem fresh_tables {table : DentryTable} (h : fresh.cluster.tables dir = some table) :
    dir = Uuid.rootIno ∧ table = .ofNew rootInode := by
  have h' : Function.update (fun _ => none) Uuid.rootIno (some (DentryTable.ofNew rootInode)) dir =
    some table := h
  rcases update_eq_some h' with ⟨rfl, hu⟩ | ⟨-, hold⟩
  · exact ⟨rfl, (Option.some.inj hu).symm⟩
  · cases hold

theorem fresh_start : fresh.Start := by
  have hnone : ∀ dir n, fresh.cluster.entries dir n = none := Ancestry.rootOnly_entries
  refine ⟨⟨fun dir table h => ?_, fun c d => rfl, fun d d' n n' u h => ?_, fun d n u h => ?_,
    fun d table h => ?_, fun u h => (nomatch h)⟩, fresh_stored, fun dir table h => ?_,
    fun c => ⟨rfl, rfl⟩, fun d => rfl, rfl, rfl⟩
  · obtain ⟨rfl, rfl⟩ := fresh_tables h
    exact ⟨rfl, fun _ => rfl, fun _ _ _ h => (nomatch h), fun _ _ h => (nomatch h), rfl⟩
  · rw [hnone] at h
    cases h
  · rw [hnone] at h
    cases h
  · obtain ⟨rfl, -⟩ := fresh_tables h
    exact ⟨List.mem_cons_self, List.not_mem_nil⟩
  · obtain ⟨rfl, -⟩ := fresh_tables h
    exact spelled_sync (fun _ _ => ⟨none, fun _ => AList.lookup_empty _⟩) fun e he => (nomatch he)

end

end Volume

end Nmfs
