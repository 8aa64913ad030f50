import Nmfs.Journal.Transaction
import Nmfs.Rados.StoredFile

/-
  What `sync` makes of the objects it writes. `Stored` is what the pool has of one directory: its
  DENTRY object, or none, and the INODE objects, each one byte string. `Stored.sync` is `sync` on
  it, and `sync_stores` says that the pool follows it.

  A hash map is gone over in any order; what comes out does not depend on it, up to the order of
  the children in the DENTRY object.
-/

namespace Nmfs

open Lib RadosIo

structure Stored where
  dentry : Option Bytes
  inodes : Uuid → Bytes

/-- The pool has the directory's objects as `m` says. -/
structure Stores (pool : Pool) (dir : Uuid) (m : Stored) : Prop where
  dentry : StoredAs pool .dentry dir.toStr m.dentry
  inodes : ∀ u : Uuid, Holds pool .inode u.toStr (m.inodes u)

/-- Objects that are neither INODE nor DENTRY are the same. -/
def MetaFrame (pool pool' : Pool) : Prop :=
  ∀ category key, category ≠ .inode → category ≠ .dentry →
    blocks pool' category key = blocks pool category key

theorem MetaFrame.refl (pool : Pool) : MetaFrame pool pool := fun _ _ _ _ => rfl

theorem MetaFrame.trans {p q r : Pool} (h1 : MetaFrame p q) (h2 : MetaFrame q r) :
    MetaFrame p r :=
  fun c k hi hd => (h2 c k hi hd).trans (h1 c k hi hd)

theorem MetaFrame.of_frame {category : ObjCategory} {key : Str} {pool pool' : Pool}
    (hc : category = .inode ∨ category = .dentry) (h : Frame category key pool pool') :
    MetaFrame pool pool' := by
  intro c k hi hd
  apply h.blocks
  intro heq
  obtain ⟨rfl, -⟩ := Prod.mk.inj heq
  rcases hc with h | h
  · exact hi h
  · exact hd h

theorem MetaFrame.holds {pool pool' : Pool} (h : MetaFrame pool pool') {category : ObjCategory}
    {key : Str} {f : Bytes} (hi : category ≠ .inode) (hd : category ≠ .dentry)
    (hf : Holds pool category key f) : Holds pool' category key f := by
  obtain ⟨n, hn⟩ := hf
  exact ⟨n, hn.congr fun i => congrFun (h category key hi hd) i⟩

namespace Stored

def write (m : Stored) (i : Inode) : Stored :=
  { m with inodes := Function.update m.inodes i.ino (overwrite 0 (m.inodes i.ino) 0 i.serialize) }

def load (m : Stored) (self : Uuid) (mkdir : Bool) : Except Err Dentry :=
  if mkdir then .ok ⟨self, ∅⟩
  else
    match m.dentry with
    | none =>
      .error (.runtimeError ("Dentry Corrupted: inode number " ++ String.ofList self.toStr))
    | some f => Dentry.deserialize self (slice f 0 Dentry.MAX_DENTRY_OBJ_SIZE)

def writeDentry (m : Stored) (d : Dentry) : Stored :=
  { m with dentry := some (overwrite 0 (m.dentry.getD []) 0 d.serialize) }

def writeFiles (m : Stored) (entries : List ((_ : Uuid) × Option Inode)) : Stored :=
  entries.foldl (fun m e => (e.2.map m.write).getD m) m

def sync (m : Stored) (tx : Transaction) : Except Err Stored :=
  if tx.status = .S_DELETED then
    .ok ⟨none, Function.update m.inodes tx.sIno []⟩
  else
    let m := (tx.sInode.map m.write).getD m
    match m.load tx.sIno (tx.status = .S_CREATED) with
    | .error e => .error e
    | .ok d =>
      .ok ((m.writeDentry (Transaction.applyDentries tx.dentries.entries d)).writeFiles
        tx.fInodes.entries)

end Stored

/-! ## The pool follows -/

section

variable {pool : Pool} {dir : Uuid} {m : Stored}

theorem serialize_ne_nil (i : Inode) : i.serialize ≠ [] := by
  intro h
  have := congrArg List.length h
  rw [Inode.serialize_length] at this
  simp [Inode.REG_INODE_SIZE] at this

theorem dentry_serialize_ne_nil (d : Dentry) : d.serialize ≠ [] := by
  intro h
  have := congrArg List.length h
  simp [Dentry.serialize] at this

theorem Stores.write (h : Stores pool dir m) (i : Inode) :
    Stores (i.sync pool) dir (m.write i) := by
  constructor
  · exact (frame_write_file _ _).storedAs (fun heq => nomatch (Prod.mk.inj heq).1) h.dentry
  · intro u
    by_cases hu : u = i.ino
    · subst hu
      simp only [Stored.write, Function.update_self]
      exact (write_holds (h.inodes _) _ _).2
    · simp only [Stored.write, Function.update_of_ne hu]
      exact (frame_write_file _ _).holds (fun heq => hu (Uuid.toStr_inj (Prod.mk.inj heq).2))
        (h.inodes u)

theorem metaFrame_inode (pool : Pool) (i : Inode) : MetaFrame pool (i.sync pool) :=
  MetaFrame.of_frame (.inl rfl) (frame_write_file _ _)

theorem Stores.writeDentry (h : Stores pool dir m) {d : Dentry} (hd : d.thisIno = dir) :
    Stores (d.sync pool) dir (m.writeDentry d) := by
  subst hd
  constructor
  · exact h.dentry.write (dentry_serialize_ne_nil d) 0
  · intro u
    exact (frame_write_file _ _).holds (fun heq => nomatch (Prod.mk.inj heq).1) (h.inodes u)

theorem Stores.writeFiles (h : Stores pool dir m) (entries : List ((_ : Uuid) × Option Inode)) :
    Stores (Transaction.syncFInodes entries pool) dir (m.writeFiles entries) := by
  induction entries generalizing pool m with
  | nil => exact h
  | cons e entries ih =>
      obtain ⟨u, x⟩ := e
      apply ih
      cases x with
      | none => exact h
      | some i => exact h.write i

theorem metaFrame_syncFInodes (entries : List ((_ : Uuid) × Option Inode)) (pool : Pool) :
    MetaFrame pool (Transaction.syncFInodes entries pool) := by
  induction entries generalizing pool with
  | nil => exact MetaFrame.refl pool
  | cons e entries ih =>
      obtain ⟨u, x⟩ := e
      refine MetaFrame.trans ?_ (ih _)
      cases x with
      | none => exact MetaFrame.refl pool
      | some i => exact metaFrame_inode pool i

theorem Stores.load (h : Stores pool dir m) (mkdir : Bool) :
    Dentry.load pool dir mkdir = m.load dir mkdir := by
  unfold Dentry.load Stored.load
  have hread : RadosIo.read pool .dentry dir.toStr Dentry.MAX_DENTRY_OBJ_SIZE 0 =
      headOf m.dentry Dentry.MAX_DENTRY_OBJ_SIZE := h.dentry.read objSize_pos (Nat.le_refl _)
  rw [hread]
  split
  · rfl
  · cases m.dentry with
    | none => rfl
    | some f => rfl

theorem load_thisIno {mkdir : Bool} {d : Dentry} (h : m.load dir mkdir = .ok d) :
    d.thisIno = dir := by
  unfold Stored.load at h
  split at h
  · cases h
    rfl
  · split at h
    · cases h
    · unfold Dentry.deserialize at h
      split at h
      · cases h
      · cases h
        rfl

theorem applyDentries_thisIno (entries : List ((_ : Bytes) × (Bool × Uuid))) (d : Dentry) :
    (Transaction.applyDentries entries d).thisIno = d.thisIno := by
  induction entries generalizing d with
  | nil => rfl
  | cons e entries ih =>
      obtain ⟨name, alive, ino⟩ := e
      refine (ih _).trans ?_
      cases alive <;> rfl

/-- `sync` on the pool is `Stored.sync` on what it stores. -/
theorem sync_stores (tx : Transaction) (h : Stores pool tx.sIno m) :
    (∀ e, m.sync tx = .error e → (tx.sync pool).1 = .error e) ∧
      (∀ m', m.sync tx = .ok m' →
        (tx.sync pool).1 = .ok () ∧ Stores (tx.sync pool).2 tx.sIno m') := by
  unfold Stored.sync Transaction.sync
  by_cases hs : tx.status = .S_DELETED
  · rw [if_pos hs, if_pos hs]
    constructor
    · intro e he
      cases he
    intro m' hm'
    cases hm'
    have hinode : Frame .inode tx.sIno.toStr pool (RadosIo.remove pool .inode tx.sIno.toStr) :=
      frame_remove
    refine ⟨rfl, ?_, ?_⟩
    · exact StoredAs.remove (hinode.storedAs (fun heq => nomatch (Prod.mk.inj heq).1) h.dentry)
    · intro u
      refine frame_remove.holds (fun heq => nomatch (Prod.mk.inj heq).1) ?_
      by_cases hu : u = tx.sIno
      · subst hu
        simp only [Function.update_self]
        exact remove_holds (h.inodes _)
      · simp only [Function.update_of_ne hu]
        exact hinode.holds (fun heq => hu (Uuid.toStr_inj (Prod.mk.inj heq).2)) (h.inodes u)
  · rw [if_neg hs, if_neg hs]
    have hself : Stores ((tx.sInode.map (Inode.sync pool)).getD pool) tx.sIno
        ((tx.sInode.map m.write).getD m) := by
      cases tx.sInode with
      | none => exact h
      | some s => exact h.write s
    dsimp only
    rw [hself.load]
    cases hload : ((tx.sInode.map m.write).getD m).load tx.sIno (tx.status = .S_CREATED) with
    | error e =>
        dsimp only
        exact ⟨fun e' he => congrArg _ (Except.error.inj he), fun m' hm' => nomatch hm'⟩
    | ok d =>
        dsimp only
        refine ⟨fun e he => (nomatch he), ?_⟩
        intro m' hm'
        cases hm'
        refine ⟨rfl, Stores.writeFiles (Stores.writeDentry hself ?_) _⟩
        exact (applyDentries_thisIno _ _).trans (load_thisIno hload)

theorem sync_metaFrame (tx : Transaction) (pool : Pool) : MetaFrame pool (tx.sync pool).2 := by
  unfold Transaction.sync
  split
  · exact (MetaFrame.of_frame (.inl rfl) frame_remove).trans
      (MetaFrame.of_frame (.inr rfl) frame_remove)
  · have hself : MetaFrame pool ((tx.sInode.map (Inode.sync pool)).getD pool) := by
      cases tx.sInode with
      | none => exact MetaFrame.refl pool
      | some s => exact metaFrame_inode pool s
    dsimp only
    split
    · exact hself
    · refine hself.trans (MetaFrame.trans ?_ (metaFrame_syncFInodes _ _))
      exact MetaFrame.of_frame (.inr rfl) (frame_write_file _ _)

end

/-! ## What comes out -/

/-- The entries that a transaction makes of the children `f`. -/
def overlay (dentries : AList (fun _ : Bytes => Bool × Uuid)) (f : Bytes → Option Uuid)
    (name : Bytes) : Option Uuid :=
  match dentries.lookup name with
  | none => f name
  | some (true, ino) => some ino
  | some (false, _) => none

theorem overlay_insert (dentries : AList (fun _ : Bytes => Bool × Uuid)) (f : Bytes → Option Uuid)
    (name : Bytes) (alive : Bool) (ino : Uuid) :
    overlay (dentries.insert name (alive, ino)) f =
      Function.update (overlay dentries f) name (if alive then some ino else none) := by
  funext name'
  unfold overlay
  by_cases hn : name' = name
  · subst hn
    rw [AList.lookup_insert, Function.update_self]
    cases alive <;> rfl
  · rw [AList.lookup_insert_ne hn, Function.update_of_ne hn]

theorem lookup_applyDentries (entries : List ((_ : Bytes) × (Bool × Uuid)))
    (hnodup : (entries.map Sigma.fst).Nodup) (d : Dentry) (name : Bytes) :
    (Transaction.applyDentries entries d).childList.lookup name =
      match entries.dlookup name with
      | none => d.childList.lookup name
      | some (true, ino) => some ino
      | some (false, _) => none := by
  induction entries generalizing d with
  | nil => rfl
  | cons e entries ih =>
      obtain ⟨name', alive, ino⟩ := e
      rw [List.map_cons, List.nodup_cons] at hnodup
      refine (ih hnodup.2 _).trans ?_
      by_cases hn : name = name'
      · subst hn
        have hnone : entries.dlookup name = none := by
          rw [List.dlookup_eq_none]
          exact hnodup.1
        rw [hnone, List.dlookup_cons_eq]
        cases alive with
        | true => exact AList.lookup_insert _
        | false => exact AList.lookup_erase _ _
      · rw [List.dlookup_cons_ne _ _ hn]
        have hsame : (if alive then d.addChild name' ino else d.deleteChild name').childList.lookup
            name = d.childList.lookup name := by
          cases alive with
          | true => exact AList.lookup_insert_ne hn
          | false => exact AList.lookup_erase_ne hn
        dsimp only
        rw [hsame]

/-- The children after the loop over `dentries`. -/
theorem applyDentries_lookup (dentries : AList (fun _ : Bytes => Bool × Uuid)) (d : Dentry) :
    (Transaction.applyDentries dentries.entries d).childList.lookup =
      overlay dentries d.childList.lookup := by
  funext name
  exact lookup_applyDentries dentries.entries dentries.nodupKeys d name

theorem writeFiles_dentry (m : Stored) (entries : List ((_ : Uuid) × Option Inode)) :
    (m.writeFiles entries).dentry = m.dentry := by
  induction entries generalizing m with
  | nil => rfl
  | cons e entries ih =>
      obtain ⟨u, x⟩ := e
      refine (ih _).trans ?_
      cases x <;> rfl

/-- The INODE objects after the loop over `f_inodes`. -/
theorem writeFiles_inodes (m : Stored) (entries : List ((_ : Uuid) × Option Inode))
    (hnodup : (entries.map Sigma.fst).Nodup) (hino : ∀ u i, ⟨u, some i⟩ ∈ entries → i.ino = u)
    (u : Uuid) :
    (m.writeFiles entries).inodes u =
      match (entries.dlookup u).join with
      | none => m.inodes u
      | some i => overwrite 0 (m.inodes u) 0 i.serialize := by
  induction entries generalizing m with
  | nil => rfl
  | cons e entries ih =>
      obtain ⟨v, x⟩ := e
      rw [List.map_cons, List.nodup_cons] at hnodup
      have hino' : ∀ u i, ⟨u, some i⟩ ∈ entries → i.ino = u :=
        fun u i hi => hino u i (List.mem_cons_of_mem _ hi)
      refine (ih _ hnodup.2 hino').trans ?_
      by_cases huv : u = v
      · subst huv
        have hnone : entries.dlookup u = none := by
          rw [List.dlookup_eq_none]
          exact hnodup.1
        rw [hnone, List.dlookup_cons_eq]
        cases x with
        | none => rfl
        | some i =>
            have hi := hino u i List.mem_cons_self
            subst hi
            exact Function.update_self _ _ _
      · rw [List.dlookup_cons_ne _ _ huv]
        have hsame : ((x.map m.write).getD m).inodes u = m.inodes u := by
          cases x with
          | none => rfl
          | some i =>
              have hi := hino v i List.mem_cons_self
              subst hi
              exact Function.update_of_ne huv _ _
        dsimp only
        rw [hsame]

/-! ## Reading the DENTRY object back -/

theorem load_eq (m : Stored) (dir : Uuid) {f : Bytes} (h : m.dentry = some f) :
    m.load dir false = Dentry.deserialize dir f := by
  unfold Stored.load
  rw [if_neg (by decide), h]
  exact Dentry.deserialize_slice dir f

/-- What was written reads back, if it fits into the object. -/
theorem load_written (m : Stored) {d : Dentry} {post : Bytes} (h : m.dentry = some (d.serialize ++ post))
    (hnames : ∀ e ∈ d.childList.entries, Dentry.NameOk e.1) (hcount : d.getChildNum < 2 ^ 64) :
    if d.serialize.length ≤ Dentry.MAX_DENTRY_OBJ_SIZE then
      ∃ d', m.load d.thisIno false = .ok d' ∧ d'.childList.lookup = d.childList.lookup
    else m.load d.thisIno false = .error .undefined := by
  rw [load_eq m d.thisIno h]
  split
  · rename_i hfit
    obtain ⟨d', hd, -, hperm⟩ := Dentry.deserialize_serialize d post hnames hfit
    exact ⟨d', hd, funext fun name => AList.perm_lookup hperm⟩
  · rename_i hlong
    exact Dentry.deserialize_long d post hnames hcount (Nat.lt_of_not_le hlong)

theorem load_ok {m : Stored} {dir : Uuid} {mkdir : Bool} {d : Dentry}
    (h : m.load dir mkdir = .ok d) :
    (∀ e ∈ d.childList.entries, Dentry.NameOk e.1) ∧
      d.getChildNum ≤ Dentry.MAX_DENTRY_OBJ_SIZE := by
  unfold Stored.load at h
  split at h
  · cases h
    refine ⟨?_, Nat.zero_le _⟩
    intro e he
    cases he
  · split at h
    · cases h
    · exact Dentry.deserialize_ok h

theorem entries_erase (l : AList (fun _ : Bytes => Uuid)) (name : Bytes) :
    (l.erase name).entries = l.entries.kerase name := rfl

/-- Each entry adds one child at most. -/
theorem applyDentries_count (entries : List ((_ : Bytes) × (Bool × Uuid))) (d : Dentry) :
    (Transaction.applyDentries entries d).getChildNum ≤ d.getChildNum + entries.length := by
  induction entries generalizing d with
  | nil => exact Nat.le_refl _
  | cons e entries ih =>
      obtain ⟨name, alive, ino⟩ := e
      refine Nat.le_trans (ih _) ?_
      have herase : (d.childList.entries.kerase name).length ≤ d.childList.entries.length :=
        (List.kerase_sublist name d.childList.entries).length_le
      cases alive with
      | true =>
          simp only [Dentry.addChild, Dentry.getChildNum, AList.entries_insert, List.length_cons,
            if_true]
          omega
      | false =>
          simp only [Dentry.deleteChild, Dentry.getChildNum, entries_erase, List.length_cons,
            Bool.false_eq_true, if_false]
          omega

theorem applyDentries_nameOk (entries : List ((_ : Bytes) × (Bool × Uuid))) (d : Dentry)
    (he : ∀ e ∈ entries, Dentry.NameOk e.1) (hd : ∀ e ∈ d.childList.entries, Dentry.NameOk e.1) :
    ∀ e ∈ (Transaction.applyDentries entries d).childList.entries, Dentry.NameOk e.1 := by
  induction entries generalizing d with
  | nil => exact hd
  | cons e entries ih =>
      obtain ⟨name, alive, ino⟩ := e
      apply ih _ (fun e' he' => he e' (List.mem_cons_of_mem _ he'))
      have hname := he ⟨name, alive, ino⟩ List.mem_cons_self
      have herase : ∀ e ∈ d.childList.entries.kerase name, Dentry.NameOk e.1 :=
        fun e' he' => hd e' ((List.kerase_sublist name d.childList.entries).subset he')
      cases alive with
      | true =>
          simp only [Dentry.addChild, AList.entries_insert, if_true]
          intro e' he'
          rcases List.mem_cons.mp he' with rfl | hold
          · exact hname
          · exact herase e' hold
      | false =>
          simp only [Dentry.deleteChild, entries_erase, Bool.false_eq_true, if_false]
          exact herase

/-- What `sync` makes of the children that the DENTRY object has. -/
theorem sync_overlays {m : Stored} {tx : Transaction} {d : Dentry} (hs : tx.status ≠ .S_DELETED)
    (hload : m.load tx.sIno (tx.status = .S_CREATED) = .ok d)
    (hnames : ∀ e ∈ tx.dentries.entries, Dentry.NameOk e.1)
    (hfit : (Transaction.applyDentries tx.dentries.entries d).serialize.length ≤
      Dentry.MAX_DENTRY_OBJ_SIZE) :
    ∃ m' d', m.sync tx = .ok m' ∧ m'.load tx.sIno false = .ok d' ∧
      d'.childList.lookup = overlay tx.dentries d.childList.lookup := by
  generalize hself : (tx.sInode.map m.write).getD m = m₁
  have hload₁ : m₁.load tx.sIno (tx.status = .S_CREATED) = .ok d := by
    rw [← hself]
    cases tx.sInode with
    | none => exact hload
    | some i => exact hload
  have hthis : (Transaction.applyDentries tx.dentries.entries d).thisIno = tx.sIno :=
    (applyDentries_thisIno _ _).trans (load_thisIno hload)
  have hok := applyDentries_nameOk tx.dentries.entries d hnames (load_ok hload).1
  have hlookup := applyDentries_lookup tx.dentries d
  generalize hd₁ : Transaction.applyDentries tx.dentries.entries d = d₁ at hfit hthis hok hlookup
  have hwritten : ((m₁.writeDentry d₁).writeFiles tx.fInodes.entries).dentry =
      some (d₁.serialize ++ (m₁.dentry.getD []).drop d₁.serialize.length) := by
    rw [writeFiles_dentry]
    unfold Stored.writeDentry overwrite
    simp
  obtain ⟨d', hd', -, hperm⟩ := Dentry.deserialize_serialize d₁
    ((m₁.dentry.getD []).drop d₁.serialize.length) hok hfit
  refine ⟨(m₁.writeDentry d₁).writeFiles tx.fInodes.entries, d', ?_, ?_, ?_⟩
  · unfold Stored.sync
    rw [if_neg hs]
    dsimp only
    rw [hself, hload₁, ← hd₁]
  · rw [load_eq _ _ hwritten, ← hthis]
    exact hd'
  · rw [← hlookup]
    exact funext fun name => AList.perm_lookup hperm

end Nmfs
