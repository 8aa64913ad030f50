import Nmfs.Fs.VolumeSteps
import Nmfs.Journal.Recovery

/-
  What the meta pool has of the directories: the names in the DENTRY objects and the INODE objects,
  before and after `sync`.
-/

namespace Nmfs

open Lib RadosIo

namespace Volume

/-! ## Names in the pool -/

/-- What a directory has in the pool under a name. -/
def namesIn (pool : Pool) (dir : Uuid) (name : Bytes) : Option Uuid :=
  match Dentry.load pool dir false with
  | .error _ => none
  | .ok d => d.childList.lookup name

/-- The number has a name in the directory. -/
def hasEntry (pool : Pool) (dir u : Uuid) : Bool :=
  match Dentry.load pool dir false with
  | .error _ => false
  | .ok d => d.childList.entries.any fun e => e.2 = u

/-- The names that `sync` leaves, as long as the directory can be read. -/
def namesAfter (pool : Pool) (tx : Transaction) : Bytes → Option Uuid :=
  if tx.status = .S_DELETED then fun _ => none
  else overlay tx.dentries (if tx.status = .S_CREATED then fun _ => none else namesIn pool tx.sIno)

section

variable {pool pool' : Pool} {dir u : Uuid} {tx : Transaction} {live : Uuid → Prop} {name : Bytes}

theorem hasEntry_iff : hasEntry pool dir u = true ↔ ∃ name, namesIn pool dir name = some u := by
  unfold hasEntry namesIn
  split
  · simp
  · rename_i d hd
    rw [List.any_eq_true]
    constructor
    · rintro ⟨e, he, heq⟩
      obtain rfl := of_decide_eq_true heq
      exact ⟨e.1, AList.mem_lookup_iff.mpr he⟩
    · rintro ⟨name, hn⟩
      exact ⟨⟨name, u⟩, AList.mem_lookup_iff.mp hn, decide_eq_true rfl⟩

/-- The DENTRY object is all that is read. -/
theorem load_frame (hw : WellStored pool) (mkdir : Bool)
    (h : ∀ x, StoredAs pool .dentry dir.toStr x → StoredAs pool' .dentry dir.toStr x) :
    Dentry.load pool' dir mkdir = Dentry.load pool dir mkdir := by
  obtain ⟨x, hx⟩ := hw .dentry dir.toStr
  have hread : ∀ {p}, StoredAs p .dentry dir.toStr x →
      RadosIo.read p .dentry dir.toStr Dentry.MAX_DENTRY_OBJ_SIZE 0 =
        headOf x Dentry.MAX_DENTRY_OBJ_SIZE := fun hp => hp.read objSize_pos (Nat.le_refl _)
  unfold Dentry.load
  rw [hread hx, hread (h x hx)]

theorem namesIn_frame (hw : WellStored pool)
    (h : ∀ x, StoredAs pool .dentry dir.toStr x → StoredAs pool' .dentry dir.toStr x) :
    namesIn pool' dir = namesIn pool dir := by
  funext name
  unfold namesIn
  rw [load_frame hw false h]

theorem load_selfSynced (h : ∀ i, tx.sInode = some i → i.ino = dir) (hw : WellStored pool)
    (mkdir : Bool) :
    Dentry.load (selfSynced tx pool) dir mkdir = Dentry.load pool dir mkdir :=
  load_frame hw mkdir fun _ hx => selfSynced_storedAs h (fun heq => nomatch (Prod.mk.inj heq).1) hx

/-- A DENTRY object that has just been written. -/
theorem load_synced (hw : WellStored pool) {d : Dentry}
    (hnames : ∀ e ∈ d.childList.entries, Dentry.NameOk e.1)
    (hfit : d.serialize.length ≤ Dentry.MAX_DENTRY_OBJ_SIZE) :
    ∃ d', Dentry.load (d.sync pool) d.thisIno false = .ok d' ∧
      d'.childList.entries.Perm d.childList.entries := by
  obtain ⟨x, hx⟩ := hw .dentry d.thisIno.toStr
  have hd : StoredAs (d.sync pool) .dentry d.thisIno.toStr
      (some (d.serialize ++ (x.getD []).drop d.serialize.length)) := by
    rw [← Journal.overwrite_zero]
    exact hx.write (dentry_serialize_ne_nil d) 0
  obtain ⟨d', hd', -, hperm⟩ := Dentry.deserialize_serialize d _ hnames hfit
  have hread : RadosIo.read (d.sync pool) .dentry d.thisIno.toStr Dentry.MAX_DENTRY_OBJ_SIZE 0 =
      headOf (some _) Dentry.MAX_DENTRY_OBJ_SIZE := hd.read objSize_pos (Nat.le_refl _)
  refine ⟨d', ?_, hperm⟩
  unfold Dentry.load
  rw [if_neg (by decide), hread]
  exact (Dentry.deserialize_slice _ _).trans hd'

theorem namesIn_synced (hw : WellStored pool) {d : Dentry}
    (hnames : ∀ e ∈ d.childList.entries, Dentry.NameOk e.1)
    (hfit : d.serialize.length ≤ Dentry.MAX_DENTRY_OBJ_SIZE) :
    namesIn (d.sync pool) d.thisIno = d.childList.lookup := by
  obtain ⟨d', hload, hperm⟩ := load_synced hw hnames hfit
  funext name
  unfold namesIn
  rw [hload]
  exact AList.perm_lookup hperm

/-- The children of a directory that a transaction begins with. -/
theorem load_names_eq (hino : tx.sIno = dir) {d : Dentry}
    (h : Dentry.load pool dir (tx.status = .S_CREATED) = .ok d) :
    d.childList.lookup = if tx.status = .S_CREATED then fun _ => none else namesIn pool tx.sIno := by
  subst hino
  by_cases hs : tx.status = .S_CREATED
  · rw [if_pos hs]
    rw [decide_eq_true hs] at h
    cases h
    funext name
    exact AList.lookup_empty name
  · rw [if_neg hs]
    rw [decide_eq_false hs] at h
    funext name
    unfold namesIn
    rw [h]

/-- Another directory has the names that it had. -/
theorem namesIn_sync_ne (h : TxOk live dir tx) (hw : WellStored pool) {d : Uuid} (hd : d ≠ dir) :
    namesIn (tx.sync pool).2 d = namesIn pool d := by
  refine namesIn_frame hw fun x hx => sync_storedAs h (fun heq => hd ?_) (fun heq => ?_) ?_ hx
  · exact Uuid.toStr_inj (Prod.mk.inj heq).2
  · exact nomatch (Prod.mk.inj heq).1
  · exact fun u _ heq => nomatch (Prod.mk.inj heq).1

theorem namesIn_of_error {e : Err} (h : Dentry.load pool dir false = .error e) (name : Bytes) :
    namesIn pool dir name = none := by
  unfold namesIn
  rw [h]

/-- A transaction that can be written leaves the names of `namesAfter`. -/
theorem namesIn_sync (h : TxOk live dir tx) (hw : WellStored pool)
    (hload : tx.status = .S_DELETED ∨ ∃ d, Dentry.load pool dir (tx.status = .S_CREATED) = .ok d)
    (hfit : ∀ d, Dentry.load pool dir (tx.status = .S_CREATED) = .ok d →
      (Transaction.applyDentries tx.dentries.entries d).serialize.length ≤
        Dentry.MAX_DENTRY_OBJ_SIZE) :
    namesIn (tx.sync pool).2 dir = namesAfter pool tx := by
  by_cases hs : tx.status = .S_DELETED
  · funext name
    unfold namesAfter
    rw [if_pos hs]
    exact namesIn_of_error (load_absent (sync_deleted h.sIno hw hs).2.dentry) name
  have hself : WellStored (selfSynced tx pool) := selfSynced_wellStored hw
  obtain ⟨d, hd⟩ := hload.resolve_left hs
  obtain ⟨hino, hnames⟩ := load_names hd
  rw [sync_of_load h.sIno hs ((load_selfSynced h.self hw _).trans hd)]
  have hw' : WellStored ((Transaction.applyDentries tx.dentries.entries d).sync
      (selfSynced tx pool)) := hself.write (dentry_serialize_ne_nil _) 0
  have hwritten := namesIn_synced hself (applyDentries_nameOk tx.dentries.entries d
    (fun e he => h.nameOk e.1 e.2 (AList.mem_lookup_iff.mpr he)) hnames) (hfit d hd)
  rw [applyDentries_thisIno, hino] at hwritten
  dsimp only
  rw [namesIn_frame hw' fun x hx => syncFInodes_storedAs _
    (fun e he i hi heq => nomatch (Prod.mk.inj heq).1) hx, hwritten, applyDentries_lookup,
    load_names_eq h.sIno hd]
  unfold namesAfter
  rw [if_neg hs]

/-- Where the DENTRY object cannot be read, there are no names before and none after. -/
theorem namesIn_sync_error (h : TxOk live dir tx) (hw : WellStored pool)
    (hs : tx.status ≠ .S_DELETED) {e : Err}
    (hload : Dentry.load pool dir (tx.status = .S_CREATED) = .error e) (name : Bytes) :
    namesIn (tx.sync pool).2 dir name = none ∧ namesIn pool dir name = none := by
  have hopen : decide (tx.status = .S_CREATED) = false := by
    rw [decide_eq_false_iff_not]
    intro hc
    rw [decide_eq_true hc] at hload
    cases hload
  rw [sync_of_load_error h.sIno hs ((load_selfSynced h.self hw _).trans hload)]
  rw [hopen] at hload
  exact ⟨namesIn_of_error ((load_selfSynced h.self hw false).trans hload) name,
    namesIn_of_error hload name⟩

theorem namesIn_sync_cases (h : TxOk live dir tx) (hw : WellStored pool)
    (hfit : ∀ d, Dentry.load pool dir (tx.status = .S_CREATED) = .ok d →
      (Transaction.applyDentries tx.dentries.entries d).serialize.length ≤
        Dentry.MAX_DENTRY_OBJ_SIZE) :
    (tx.status = .S_DELETED ∨ ∃ d, Dentry.load pool dir (tx.status = .S_CREATED) = .ok d) ∧
      namesIn (tx.sync pool).2 dir = namesAfter pool tx ∨
    ∀ name, namesIn (tx.sync pool).2 dir name = none ∧ namesIn pool dir name = none := by
  by_cases hs : tx.status = .S_DELETED
  · exact .inl ⟨.inl hs, namesIn_sync h hw (.inl hs) hfit⟩
  · cases hload : Dentry.load pool dir (tx.status = .S_CREATED) with
    | error e => exact .inr (namesIn_sync_error h hw hs hload)
    | ok d => exact .inl ⟨.inr ⟨d, rfl⟩, namesIn_sync h hw (.inr ⟨d, hload⟩) hfit⟩

/-! ## INODE objects in the pool -/

theorem exist_write (hw : WellStored pool) {c c' : ObjCategory} {k k' : Str} {value : Bytes}
    (hv : value ≠ []) (offset : Nat) (h : RadosIo.exist pool c' k' = true ∨ (c', k') = (c, k)) :
    RadosIo.exist (RadosIo.write pool c k value offset).2 c' k' = true := by
  obtain ⟨x, hx⟩ := hw c' k'
  by_cases heq : (c', k') = (c, k)
  · cases heq
    exact Journal.exist_of_storedAs (hx.write hv offset)
  · have hx' := (frame_write_file value offset).storedAs heq hx
    rw [Journal.exist_of_storedAs hx', ← Journal.exist_of_storedAs hx]
    exact h.resolve_right heq

theorem exist_inode (hw : WellStored pool) {i : Inode}
    (h : RadosIo.exist pool .inode u.toStr = true ∨ u = i.ino) :
    RadosIo.exist (i.sync pool) .inode u.toStr = true :=
  exist_write hw (serialize_ne_nil i) 0 (h.imp_right fun heq => by rw [heq])

theorem exist_syncFInodes (entries : List ((_ : Uuid) × Option Inode)) (hw : WellStored pool)
    (h : RadosIo.exist pool .inode u.toStr = true ∨ ∃ e ∈ entries, ∃ i, e.2 = some i ∧ i.ino = u) :
    RadosIo.exist (Transaction.syncFInodes entries pool) .inode u.toStr = true := by
  induction entries generalizing pool with
  | nil => exact h.resolve_right fun ⟨e, he, _⟩ => (nomatch he)
  | cons e entries ih =>
      obtain ⟨v, o⟩ := e
      cases o with
      | none =>
          refine ih hw (h.imp_right ?_)
          rintro ⟨e, he, i, hi, hu⟩
          rcases List.mem_cons.mp he with rfl | he
          · cases hi
          · exact ⟨e, he, i, hi, hu⟩
      | some j =>
          refine ih (hw.inode j) ?_
          rcases h with h | ⟨e, he, i, hi, hu⟩
          · exact .inl (exist_inode hw (.inl h))
          · rcases List.mem_cons.mp he with rfl | he
            · cases hi
              exact .inl (exist_inode hw (.inr hu.symm))
            · exact .inr ⟨e, he, i, hi, hu⟩

theorem exist_selfSynced (hw : WellStored pool)
    (h : RadosIo.exist pool .inode u.toStr = true ∨ ∃ i, tx.sInode = some i ∧ i.ino = u) :
    RadosIo.exist (selfSynced tx pool) .inode u.toStr = true := by
  unfold selfSynced
  cases hi : tx.sInode with
  | none =>
      refine h.resolve_right fun ⟨i, hi', _⟩ => ?_
      rw [hi] at hi'
      cases hi'
  | some i =>
      refine exist_inode hw (h.imp_right fun ⟨j, hj, hu⟩ => ?_)
      rw [hi] at hj
      cases hj
      exact hu.symm

theorem exist_sync_self (h : TxOk live dir tx) (hw : WellStored pool)
    (hs : tx.status ≠ .S_DELETED)
    (he : RadosIo.exist pool .inode u.toStr = true ∨ ∃ i, tx.sInode = some i ∧ i.ino = u) :
    RadosIo.exist (tx.sync pool).2 .inode u.toStr = true := by
  have hself := exist_selfSynced hw he
  have hw' : WellStored (selfSynced tx pool) := selfSynced_wellStored hw
  cases hload : Dentry.load (selfSynced tx pool) dir (tx.status = .S_CREATED) with
  | error e =>
      rw [sync_of_load_error h.sIno hs hload]
      exact hself
  | ok d =>
      rw [sync_of_load h.sIno hs hload]
      refine exist_syncFInodes _ (hw'.write (dentry_serialize_ne_nil _) 0) (.inl ?_)
      exact exist_write hw' (dentry_serialize_ne_nil _) 0 (.inl hself)

/-- What a transaction does not remove stays. -/
theorem exist_sync (h : TxOk live dir tx) (hw : WellStored pool)
    (hs : tx.status = .S_DELETED → u ≠ dir) (he : RadosIo.exist pool .inode u.toStr = true) :
    RadosIo.exist (tx.sync pool).2 .inode u.toStr = true := by
  by_cases hd : tx.status = .S_DELETED
  · obtain ⟨x, hx⟩ := hw .inode u.toStr
    have hx' : StoredAs (tx.sync pool).2 .inode u.toStr x := by
      unfold Transaction.sync
      rw [if_pos hd, h.sIno]
      refine frame_remove.storedAs (fun heq => nomatch (Prod.mk.inj heq).1)
        (frame_remove.storedAs (fun heq => hs hd ?_) hx)
      exact Uuid.toStr_inj (Prod.mk.inj heq).2
    rw [Journal.exist_of_storedAs hx', ← Journal.exist_of_storedAs hx]
    exact he
  · exact exist_sync_self h hw hd (.inl he)

/-- The files of a transaction that can be written are there. -/
theorem exist_sync_file (h : TxOk live dir tx) (hw : WellStored pool) (hs : tx.status ≠ .S_DELETED)
    {d : Dentry} (hd : Dentry.load pool dir (tx.status = .S_CREATED) = .ok d) {i : Inode}
    (hi : tx.fInodes.lookup u = some (some i)) :
    RadosIo.exist (tx.sync pool).2 .inode u.toStr = true := by
  have hw' : WellStored (selfSynced tx pool) := selfSynced_wellStored hw
  rw [sync_of_load h.sIno hs ((load_selfSynced h.self hw _).trans hd)]
  refine exist_syncFInodes _ (hw'.write (dentry_serialize_ne_nil _) 0) (.inr ?_)
  exact ⟨⟨u, some i⟩, AList.mem_lookup_iff.mp hi, i, rfl, (h.files u i hi).1⟩

end

end Volume

end Nmfs
