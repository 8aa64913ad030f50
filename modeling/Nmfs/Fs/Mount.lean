import Nmfs.Fs.StoredNames

/-
  The root of the file system, in `fuse_ops::init`. A client that does not find its INODE object
  makes it, and then the DENTRY object: three calls on the meta pool, and other clients do what they
  like in between. A client that has mounted writes transactions, of the root and of others.

  What a client does with the DENTRY object that it does not find is to raise "Dentry Corrupted".
-/

namespace Nmfs

open Lib RadosIo

namespace Mount

open Volume Transaction

/-- How far the `init` of a client is. -/
inductive Phase where
  | unmounted
  /-- `exist` has said no -/
  | absent
  /-- after `i.sync()` -/
  | inodeSynced
  | mounted
  deriving DecidableEq

structure State (C : Type) where
  pool : Pool
  phase : C → Phase
  /-- history: the inode that the last `i.sync()` has written -/
  made : Option Inode
  /-- history: the transactions of the root that have been checkpointed, the oldest first -/
  checkpointed : List Transaction
  /-- history: a client has mounted, if only for a time -/
  everMounted : Bool

inductive Action (C : Type) where
  | exist (c : C)
  | syncInode (c : C) (env : Env)
  | syncDentry (c : C)
  | commit (c : C) (tx : Transaction)
  | checkpoint (c : C) (tx : Transaction)
  /-- the client unmounts, or dies -/
  | leave (c : C)

/-- `inode i(get_root_ino(), ..., true)`, and `set_size`. -/
def rootInode (env : Env) : Inode :=
  (Inode.make { env with newIno := Uuid.rootIno } (Inode.S_IFDIR ||| 0x1FF)).setSize
    (UInt64.ofNat Inode.DIR_INODE_SIZE)

/-- `dentry d(get_root_ino(), true)` -/
def rootDentry : Dentry := ⟨Uuid.rootIno, ∅⟩

variable {C : Type} [DecidableEq C]

def State.setPhase (s : State C) (c : C) (phase : Phase) : State C :=
  { s with phase := Function.update s.phase c phase }

def State.mount (s : State C) (c : C) : State C :=
  { s.setPhase c .mounted with everMounted := true }

def step (s : State C) : Action C → Option (State C)
  | .exist c =>
    if s.phase c ≠ .unmounted then none
    else if RadosIo.exist s.pool .inode Uuid.rootIno.toStr then some (s.mount c)
    else some (s.setPhase c .absent)
  | .syncInode c env =>
    if s.phase c ≠ .absent then none
    else some { s.setPhase c .inodeSynced with
      pool := (rootInode env).sync s.pool
      made := some (rootInode env) }
  | .syncDentry c =>
    if s.phase c ≠ .inodeSynced then none
    else some { s.mount c with pool := rootDentry.sync s.pool }
  | .commit c tx =>
    if s.phase c ≠ .mounted then none
    else
      match tx.commit s.pool with
      | .error _ => none
      | .ok (_, pool) => some { s with pool }
  | .checkpoint c tx =>
    if s.phase c ≠ .mounted then none
    else
      match tx.checkpoint s.pool with
      | (.error _, _) => none
      | (.ok (), pool) => some { s with
          pool
          checkpointed :=
            if tx.sIno = Uuid.rootIno then s.checkpointed ++ [tx] else s.checkpointed }
  | .leave c => some (s.setPhase c .unmounted)

/-! ## What is promised -/

/-- The inode that the transactions leave, one after the other. -/
def inodeAll (txs : List Transaction) (i : Option Inode) : Option Inode :=
  txs.foldl (fun i tx => tx.sInode.or i) i

/-- Once a client has mounted, the root is there, and it has what the transactions make of it. The
    names are those of the pool before, `stored`, and so is the inode, `x`. -/
structure Kept (stored : Bytes → Option Uuid) (x : Option Inode) (s : State C) : Prop where
  mounted : ∀ c, s.phase c = .mounted → s.everMounted = true
  /-- who mounts now writes nothing -/
  found : s.everMounted = true → RadosIo.exist s.pool .inode Uuid.rootIno.toStr = true
  inode : InodeIs s.pool Uuid.rootIno (inodeAll s.checkpointed (s.made.or x))
  /-- where nobody is between the two writes -/
  names : s.everMounted = true → (∀ c, s.phase c ≠ .inodeSynced) →
    (∃ d, Dentry.load s.pool Uuid.rootIno false = .ok d) ∧
      namesIn s.pool Uuid.rootIno = namesAll s.checkpointed stored

/-- The root is neither made nor removed by a transaction, no file has its number, and its names fit
    in the DENTRY object that is read back. -/
def Legal (s : State C) : Action C → Prop
  | .checkpoint _ tx => TxOk (· ≠ Uuid.rootIno) tx.sIno tx ∧ (tx.sIno = Uuid.rootIno →
    tx.status = .S_UNCHANGED ∧ ∀ d, Dentry.load s.pool Uuid.rootIno false = .ok d →
      (applyDentries tx.dentries.entries d).serialize.length ≤ Dentry.MAX_DENTRY_OBJ_SIZE)
  | _ => True

/-- No transaction of the root is written while somebody is about to make it, and nobody leaves it
    half made. -/
def Undisturbed (s : State C) : Action C → Prop
  | .checkpoint _ tx => tx.sIno = Uuid.rootIno →
    ∀ c, s.phase c ≠ .absent ∧ s.phase c ≠ .inodeSynced
  | .leave c => s.phase c ≠ .inodeSynced
  | _ => True

/-- Nobody has mounted, and the root is there or is not. -/
structure Start (x : Option Inode) (s : State C) : Prop where
  stored : WellStored s.pool
  unmounted : ∀ c, s.phase c = .unmounted
  history : s.made = none ∧ s.checkpointed = [] ∧ s.everMounted = false
  inode : InodeIs s.pool Uuid.rootIno x
  dentry : if x.isSome then ∃ d, Dentry.load s.pool Uuid.rootIno false = .ok d
    else StoredAs s.pool .dentry Uuid.rootIno.toStr none

/-! ## One object of the pool -/

section

variable {pool pool' : Pool} {dir : Uuid} {x : Option Inode} {tx : Transaction}

theorem exist_of_inodeIs (h : InodeIs pool dir x) :
    RadosIo.exist pool .inode dir.toStr = x.isSome := by
  obtain ⟨object, ho, hx⟩ := h
  rw [Journal.exist_of_storedAs ho]
  cases x with
  | none =>
      obtain rfl : object = none := hx
      rfl
  | some i =>
      obtain ⟨bytes, rfl, -⟩ := hx
      rfl

theorem inodeIs_rootInode (hw : WellStored pool) (env : Env) :
    InodeIs ((rootInode env).sync pool) Uuid.rootIno (some (rootInode env)) := by
  obtain ⟨object, ho⟩ := hw .inode Uuid.rootIno.toStr
  exact ⟨_, Batching.inode_imprint (i := rootInode env) ho, shows_imprint object _⟩

/-- An INODE object is not the DENTRY object. -/
theorem dentry_rootInode (env : Env) {y : Option Bytes}
    (h : StoredAs pool .dentry Uuid.rootIno.toStr y) :
    StoredAs ((rootInode env).sync pool) .dentry Uuid.rootIno.toStr y :=
  (frame_write_file _ _).storedAs (fun heq => nomatch (Prod.mk.inj heq).1) h

theorem InodeIs.rootDentry (h : InodeIs pool Uuid.rootIno x) :
    InodeIs (rootDentry.sync pool) Uuid.rootIno x :=
  h.frame fun _ hy => (frame_write_file _ _).storedAs (fun heq => nomatch (Prod.mk.inj heq).1) hy

/-- A DENTRY object that `init` has written has no names, whatever was there before. -/
theorem load_rootDentry (hw : WellStored pool) :
    ∃ d, Dentry.load (rootDentry.sync pool) Uuid.rootIno false = .ok d ∧
      d.childList.entries = [] := by
  have hfit : rootDentry.serialize.length ≤ Dentry.MAX_DENTRY_OBJ_SIZE := by
    show 8 ≤ objSize
    rw [objSize_eq]
    decide
  obtain ⟨d, hd, hperm⟩ := load_synced (d := rootDentry) hw (fun e he => (nomatch he)) hfit
  exact ⟨d, hd, List.perm_nil.mp hperm⟩

theorem namesIn_of_empty {d : Dentry} (hd : Dentry.load pool dir false = .ok d)
    (hnil : d.childList.entries = []) : namesIn pool dir = fun _ => none := by
  funext name
  unfold namesIn
  rw [hd]
  dsimp only
  unfold AList.lookup
  rw [hnil]
  rfl

theorem namesIn_of_absent (h : StoredAs pool .dentry dir.toStr none) :
    namesIn pool dir = fun _ => none := funext (namesIn_of_error (load_absent h))

theorem checkpoint_eq_ok (h : tx.checkpoint pool = (.ok (), pool')) : (tx.sync pool).1 = .ok () ∧
    pool' = (RadosIo.write (tx.sync pool).2 .journal tx.sIno.toStr [0] tx.offset).2 := by
  unfold Transaction.checkpoint at h
  generalize tx.sync pool = r at h ⊢
  obtain ⟨result, pool''⟩ := r
  cases result with
  | error e => cases h
  | ok u =>
      cases h
      exact ⟨rfl, rfl⟩

/-- The root's objects are as before. -/
structure RootFrame (pool pool' : Pool) : Prop where
  wellStored : WellStored pool'
  inode : ∀ y, StoredAs pool .inode Uuid.rootIno.toStr y →
    StoredAs pool' .inode Uuid.rootIno.toStr y
  dentry : ∀ y, StoredAs pool .dentry Uuid.rootIno.toStr y →
    StoredAs pool' .dentry Uuid.rootIno.toStr y

theorem RootFrame.exist (h : RootFrame pool pool') (hw : WellStored pool) :
    RadosIo.exist pool' .inode Uuid.rootIno.toStr = RadosIo.exist pool .inode Uuid.rootIno.toStr := by
  obtain ⟨y, hy⟩ := hw .inode Uuid.rootIno.toStr
  rw [Journal.exist_of_storedAs hy, Journal.exist_of_storedAs (h.inode y hy)]

theorem rootFrame_commit (hw : WellStored pool) {tx' : Transaction}
    (h : tx.commit pool = .ok (tx', pool')) : RootFrame pool pool' := by
  unfold Transaction.commit at h
  split at h
  · cases h
  · cases h
    have hne : tx.serialize ≠ [] := fun hnil => by
      have := Journal.serialize_pos tx
      rw [hnil] at this
      cases this
    have hframe := Batching.journalOnly_write pool tx.sIno.toStr tx.serialize
      (RadosIo.stat pool .journal tx.sIno.toStr).2
    exact ⟨hw.write hne _, fun y => hframe _ _ y (by decide), fun y => hframe _ _ y (by decide)⟩

/-- A transaction of another directory has nothing to do with the root. -/
theorem rootFrame_checkpoint (hw : WellStored pool) (htx : TxOk (· ≠ Uuid.rootIno) tx.sIno tx)
    (hne : tx.sIno ≠ Uuid.rootIno) (h : tx.checkpoint pool = (.ok (), pool')) :
    RootFrame pool pool' := by
  obtain ⟨-, hpool⟩ := checkpoint_eq_ok h
  have hroot : ∀ {category category' : ObjCategory},
      (category, Uuid.rootIno.toStr) ≠ (category', tx.sIno.toStr) :=
    fun heq => hne (Uuid.toStr_inj (Prod.mk.inj heq).2).symm
  have hframe : ∀ category y, StoredAs pool category Uuid.rootIno.toStr y →
      StoredAs pool' category Uuid.rootIno.toStr y := by
    intro category y hy
    rw [hpool]
    refine (frame_write_file _ _).storedAs hroot (sync_storedAs htx hroot hroot ?_ hy)
    exact fun u hu heq => hu (Uuid.toStr_inj (Prod.mk.inj heq).2).symm
  refine ⟨?_, hframe .inode, hframe .dentry⟩
  rw [hpool]
  exact (sync_wellStored hw).write (List.cons_ne_nil _ _) _

/-- What a transaction has written can be read. -/
theorem load_sync {live : Uuid → Prop} (h : TxOk live dir tx) (hw : WellStored pool)
    (hs : tx.status = .S_UNCHANGED) {d : Dentry} (hd : Dentry.load pool dir false = .ok d)
    (hfit : (applyDentries tx.dentries.entries d).serialize.length ≤ Dentry.MAX_DENTRY_OBJ_SIZE) :
    (tx.sync pool).1 = .ok () ∧ ∃ d', Dentry.load (tx.sync pool).2 dir false = .ok d' := by
  obtain ⟨hino, hnames⟩ := load_names hd
  have hself : WellStored (selfSynced tx pool) := selfSynced_wellStored hw
  have hload : Dentry.load (selfSynced tx pool) dir (tx.status = .S_CREATED) = .ok d := by
    rw [hs]
    exact (load_selfSynced h.self hw _).trans hd
  have hthis : (applyDentries tx.dentries.entries d).thisIno = dir := by
    rw [applyDentries_thisIno, hino]
  rw [sync_of_load h.sIno (by rw [hs]; decide) hload]
  obtain ⟨d', hd', -⟩ := load_synced hself (applyDentries_nameOk tx.dentries.entries d
    (fun e he => h.nameOk e.1 e.2 (AList.mem_lookup_iff.mpr he)) hnames) hfit
  rw [hthis] at hd'
  refine ⟨rfl, d', (load_frame (hself.write (dentry_serialize_ne_nil _) 0) false ?_).trans hd'⟩
  exact fun y hy => syncFInodes_storedAs _ (fun e he i hi heq => nomatch (Prod.mk.inj heq).1) hy

end

/-! ## One step -/

/-- What a step can be. -/
inductive Moves (s : State C) : Action C → State C → Prop
  | found {c : C} (hc : s.phase c = .unmounted)
      (h : RadosIo.exist s.pool .inode Uuid.rootIno.toStr = true) :
      Moves s (.exist c) (s.mount c)
  | absent {c : C} (hc : s.phase c = .unmounted)
      (h : ¬ RadosIo.exist s.pool .inode Uuid.rootIno.toStr = true) :
      Moves s (.exist c) (s.setPhase c .absent)
  | syncInode {c : C} {env : Env} (hc : s.phase c = .absent) :
      Moves s (.syncInode c env) { s.setPhase c .inodeSynced with
        pool := (rootInode env).sync s.pool
        made := some (rootInode env) }
  | syncDentry {c : C} (hc : s.phase c = .inodeSynced) :
      Moves s (.syncDentry c) { s.mount c with pool := rootDentry.sync s.pool }
  | commit {c : C} {tx tx' : Transaction} {pool : Pool} (h : tx.commit s.pool = .ok (tx', pool)) :
      Moves s (.commit c tx) { s with pool }
  | checkpoint {c : C} {tx : Transaction} {pool : Pool} (hc : s.phase c = .mounted)
      (h : tx.checkpoint s.pool = (.ok (), pool)) (hino : tx.sIno = Uuid.rootIno) :
      Moves s (.checkpoint c tx) { s with pool, checkpointed := s.checkpointed ++ [tx] }
  | other {c : C} {tx : Transaction} {pool : Pool} (h : tx.checkpoint s.pool = (.ok (), pool))
      (hne : tx.sIno ≠ Uuid.rootIno) : Moves s (.checkpoint c tx) { s with pool }
  | leave {c : C} : Moves s (.leave c) (s.setPhase c .unmounted)

theorem moves_of_step {s s' : State C} {a : Action C} (hs : step s a = some s') :
    Moves s a s' := by
  unfold step at hs
  cases a with
  | exist c =>
      dsimp only at hs
      split at hs
      · cases hs
      rename_i hc
      split at hs
      · rename_i hfound
        cases hs
        exact .found (not_not.mp hc) hfound
      · rename_i habsent
        cases hs
        exact .absent (not_not.mp hc) habsent
  | syncInode c env =>
      dsimp only at hs
      split at hs
      · cases hs
      · rename_i hc
        cases hs
        exact .syncInode (not_not.mp hc)
  | syncDentry c =>
      dsimp only at hs
      split at hs
      · cases hs
      · rename_i hc
        cases hs
        exact .syncDentry (not_not.mp hc)
  | commit c tx =>
      dsimp only at hs
      split at hs
      · cases hs
      split at hs
      · cases hs
      · rename_i tx' pool hcommit
        cases hs
        exact .commit hcommit
  | checkpoint c tx =>
      dsimp only at hs
      split at hs
      · cases hs
      rename_i hc
      split at hs
      · cases hs
      · rename_i pool hcheckpoint
        cases hs
        by_cases hino : tx.sIno = Uuid.rootIno
        · rw [if_pos hino]
          exact .checkpoint (not_not.mp hc) hcheckpoint hino
        · rw [if_neg hino]
          exact .other hcheckpoint hino
  | leave c =>
      cases hs
      exact .leave

theorem phase_setPhase {s : State C} {c : C} {phase : Phase} (c' : C) :
    (s.setPhase c phase).phase c' = if c' = c then phase else s.phase c' := by
  show Function.update s.phase c phase c' = _
  by_cases hc : c' = c
  · rw [hc, Function.update_self, if_pos rfl]
  · rw [Function.update_of_ne hc, if_neg hc]

/-! ## The root is kept -/

theorem inodeAll_append (txs : List Transaction) (tx : Transaction) (i : Option Inode) :
    inodeAll (txs ++ [tx]) i = tx.sInode.or (inodeAll txs i) := List.foldl_append

theorem inodeAll_isSome (txs : List Transaction) {i : Option Inode} (h : i.isSome = true) :
    (inodeAll txs i).isSome = true := by
  induction txs generalizing i with
  | nil => exact h
  | cons tx txs ih =>
      refine ih ?_
      rw [Option.isSome_or, h, Bool.or_true]

structure Inv (stored : Bytes → Option Uuid) (x : Option Inode) (s : State C) : Prop where
  wellStored : WellStored s.pool
  inode : InodeIs s.pool Uuid.rootIno (inodeAll s.checkpointed (s.made.or x))
  /-- the history knows of everybody -/
  mounted : ∀ c, s.phase c = .mounted → s.everMounted = true
  /-- nobody has got on without the root -/
  ever : s.everMounted = true → s.made.or x ≠ none
  before : s.made.or x = none →
    (∀ c, s.phase c = .unmounted ∨ s.phase c = .absent) ∧ s.checkpointed = [] ∧
      stored = fun _ => none
  /-- the names that are about to be written over are none -/
  making : ∀ c, s.phase c = .absent ∨ s.phase c = .inodeSynced →
    s.checkpointed = [] ∧ stored = fun _ => none
  /-- where the DENTRY object is not there, somebody is about to write it -/
  dentry : ((∃ d, Dentry.load s.pool Uuid.rootIno false = .ok d) ∧
      namesIn s.pool Uuid.rootIno = namesAll s.checkpointed stored) ∨
    StoredAs s.pool .dentry Uuid.rootIno.toStr none ∧ s.checkpointed = [] ∧
      (s.made.or x ≠ none → ∃ c, s.phase c = .inodeSynced)

section

omit [DecidableEq C]

variable {stored : Bytes → Option Uuid} {x : Option Inode} {s : State C} {c : C}

theorem Inv.exist (h : Inv stored x s) :
    RadosIo.exist s.pool .inode Uuid.rootIno.toStr = (s.made.or x).isSome := by
  rw [exist_of_inodeIs h.inode]
  cases hm : s.made.or x with
  | none =>
      rw [(h.before hm).2.1]
      rfl
  | some i => exact inodeAll_isSome _ rfl

theorem Inv.made (h : Inv stored x s) (hc : s.phase c = .mounted ∨ s.phase c = .inodeSynced) :
    s.made.or x ≠ none := by
  intro hnone
  rcases (h.before hnone).1 c with hu | ha
  · rcases hc with hc | hc <;> exact nomatch hu.symm.trans hc
  · rcases hc with hc | hc <;> exact nomatch ha.symm.trans hc

theorem Inv.frame (h : Inv stored x s) {pool : Pool} (hf : RootFrame s.pool pool) :
    Inv stored x { s with pool } := by
  refine ⟨hf.wellStored, h.inode.frame hf.inode, h.mounted, h.ever, h.before, h.making, ?_⟩
  dsimp only
  rw [load_frame h.wellStored false hf.dentry, namesIn_frame h.wellStored hf.dentry]
  exact h.dentry.imp_right fun hd => ⟨hf.dentry _ hd.1, hd.2⟩

theorem Start.inv (h : Start x s) : Inv (namesIn s.pool Uuid.rootIno) x s := by
  have hinode : inodeAll s.checkpointed (s.made.or x) = x := by
    rw [h.history.1, h.history.2.1]
    rfl
  have hdentry := h.dentry
  refine ⟨h.stored, ?_, fun c hc => ?_, fun hever => ?_, fun hnone => ?_, fun c hc => ?_, ?_⟩
  · rw [hinode]
    exact h.inode
  · exact nomatch (h.unmounted c).symm.trans hc
  · exact nomatch h.history.2.2.symm.trans hever
  · rw [h.history.1] at hnone
    obtain rfl : x = none := hnone
    exact ⟨fun c => .inl (h.unmounted c), h.history.2.1, namesIn_of_absent hdentry⟩
  · rcases hc with hc | hc <;> exact nomatch (h.unmounted c).symm.trans hc
  · rw [h.history.1, h.history.2.1]
    cases x with
    | none => exact .inr ⟨hdentry, rfl, fun hne => absurd rfl hne⟩
    | some i => exact .inl ⟨hdentry, rfl⟩

theorem Inv.checkpoint (h : Inv stored x s) (hc : s.phase c = .mounted) {tx : Transaction}
    (ha : Legal s (.checkpoint c tx)) (hu : Undisturbed s (.checkpoint c tx)) {pool : Pool}
    (hino : tx.sIno = Uuid.rootIno) (hs : tx.checkpoint s.pool = (.ok (), pool)) :
    Inv stored x { s with pool, checkpointed := s.checkpointed ++ [tx] } := by
  obtain ⟨htx, hroot⟩ := ha
  obtain ⟨hstatus, hfit⟩ := hroot hino
  have hkept : tx.status ≠ .S_DELETED := by
    rw [hstatus]
    decide
  obtain ⟨⟨d, hd⟩, hnames⟩ := h.dentry.resolve_right fun ⟨_, _, hwriter⟩ => by
    obtain ⟨c', hc'⟩ := hwriter (h.made (.inl hc))
    exact (hu hino c').2 hc'
  obtain ⟨hsync, hpool⟩ := checkpoint_eq_ok hs
  have hw : WellStored (tx.sync s.pool).2 := sync_wellStored h.wellStored
  have hw' : WellStored pool := by
    rw [hpool]
    exact hw.write (List.cons_ne_nil _ _) _
  rw [hino] at htx
  have hjournal : ∀ y, StoredAs (tx.sync s.pool).2 .dentry Uuid.rootIno.toStr y →
      StoredAs pool .dentry Uuid.rootIno.toStr y := by
    intro y hy
    rw [hpool]
    exact (frame_write_file _ _).storedAs (fun heq => nomatch (Prod.mk.inj heq).1) hy
  refine ⟨hw', ?_, h.mounted, h.ever, fun hnone => absurd hnone (h.made (.inl hc)),
    fun c' hc' => ?_, .inl ⟨?_, ?_⟩⟩
  · obtain ⟨object, ho, hx⟩ := h.inode
    have hall : TxOk (fun _ => True) Uuid.rootIno tx := htx.mono fun _ _ _ => trivial
    have hwritten : InodeIs (tx.sync s.pool).2 Uuid.rootIno
        (tx.sInode.or (inodeAll s.checkpointed (s.made.or x))) := by
      refine inodeIs_written hall hkept hsync ho ?_ fun i hi => absurd rfl (htx.files _ i hi).2
      rw [if_pos rfl]
      cases tx.sInode with
      | none => exact hx
      | some i => exact shows_imprint object i
    dsimp only
    rw [hpool, inodeAll_append]
    exact hwritten.journal _ _ _
  · exact absurd hc' (not_or.mpr (hu hino c'))
  · obtain ⟨-, d', hd'⟩ := load_sync htx h.wellStored hstatus hd (hfit d hd)
    exact ⟨d', (load_frame hw false hjournal).trans hd'⟩
  · have hsynced := namesIn_sync htx h.wellStored (.inr ⟨d, by rw [hstatus]; exact hd⟩)
      fun d' hd' => hfit d' (by rw [hstatus] at hd'; exact hd')
    dsimp only
    rw [namesIn_frame hw hjournal, hsynced, namesAll_append, ← hnames]
    show namesAfter s.pool tx = tx.names (namesIn s.pool Uuid.rootIno)
    rw [← hino]
    rfl

theorem Inv.kept (h : Inv stored x s) : Kept stored x s := by
  refine ⟨h.mounted, fun hever => ?_, h.inode, fun hever hnobody => ?_⟩
  · rw [h.exist]
    exact Option.isSome_iff_ne_none.mpr (h.ever hever)
  · refine h.dentry.resolve_right fun ⟨_, _, hwriter⟩ => ?_
    obtain ⟨c', hc'⟩ := hwriter (h.ever hever)
    exact hnobody c' hc'

end

variable {stored : Bytes → Option Uuid} {x : Option Inode} {s s' : State C} {c : C}

/-- A client that is not between the two writes gets on, or starts again. -/
theorem Inv.setPhase (h : Inv stored x s) {phase : Phase} (hc : s.phase c ≠ .inodeSynced)
    (hp : phase = .unmounted ∨ phase = .absent ∧ s.made.or x = none ∨
      phase = .mounted ∧ s.everMounted = true) : Inv stored x (s.setPhase c phase) := by
  refine ⟨h.wellStored, h.inode, fun c' hc' => ?_, h.ever, fun hnone => ?_, fun c' hc' => ?_, ?_⟩
  · rw [phase_setPhase] at hc'
    split at hc'
    · rcases hp with rfl | ⟨rfl, -⟩ | ⟨-, hever⟩
      · cases hc'
      · cases hc'
      · exact hever
    · exact h.mounted c' hc'
  · obtain ⟨hphase, hrest⟩ := h.before hnone
    refine ⟨fun c' => ?_, hrest⟩
    rw [phase_setPhase]
    split
    · rcases hp with hp | ⟨hp, -⟩ | ⟨-, hever⟩
      · exact .inl hp
      · exact .inr hp
      · exact absurd hnone (h.ever hever)
    · exact hphase c'
  · rw [phase_setPhase] at hc'
    split at hc'
    · rcases hp with rfl | ⟨-, hnone⟩ | ⟨rfl, -⟩
      · rcases hc' with hc' | hc' <;> cases hc'
      · exact (h.before hnone).2
      · rcases hc' with hc' | hc' <;> cases hc'
    · exact h.making c' hc'
  · refine h.dentry.imp_right fun ⟨hd, hnil, hwriter⟩ => ⟨hd, hnil, fun hne => ?_⟩
    obtain ⟨c', hc'⟩ := hwriter hne
    refine ⟨c', ?_⟩
    have hother : c' ≠ c := by
      rintro rfl
      exact hc hc'
    rw [phase_setPhase, if_neg hother]
    exact hc'

theorem Inv.mount (h : Inv stored x s) (hc : s.phase c ≠ .inodeSynced)
    (hmade : s.made.or x ≠ none) : Inv stored x (s.mount c) := by
  have hever : Inv stored x { s with everMounted := true } :=
    ⟨h.wellStored, h.inode, fun _ _ => rfl, fun _ => hmade, h.before, h.making, h.dentry⟩
  exact hever.setPhase hc (.inr (.inr ⟨rfl, rfl⟩))

theorem Inv.syncInode (h : Inv stored x s) (hc : s.phase c = .absent) (env : Env) :
    Inv stored x { s.setPhase c .inodeSynced with
      pool := (rootInode env).sync s.pool
      made := some (rootInode env) } := by
  have hmaking := h.making c (.inl hc)
  refine ⟨h.wellStored.inode _, ?_, fun c' hc' => ?_, fun _ => Option.some_ne_none _,
    fun hnone => (nomatch hnone), fun c' hc' => ?_, ?_⟩
  · show InodeIs _ _ (inodeAll s.checkpointed _)
    rw [hmaking.1]
    exact inodeIs_rootInode h.wellStored env
  · dsimp only at hc'
    rw [phase_setPhase] at hc'
    split at hc'
    · cases hc'
    · exact h.mounted c' hc'
  · exact hmaking
  · rcases h.dentry with ⟨hload, hnames⟩ | ⟨hd, hnil, -⟩
    · refine .inl ⟨?_, ?_⟩
      · dsimp only
        rw [load_frame h.wellStored false fun y => dentry_rootInode env]
        exact hload
      · exact (namesIn_frame h.wellStored fun y => dentry_rootInode env).trans hnames
    · refine .inr ⟨dentry_rootInode env hd, hnil, fun _ => ⟨c, ?_⟩⟩
      show (s.setPhase c .inodeSynced).phase c = _
      rw [phase_setPhase, if_pos rfl]

theorem Inv.syncDentry (h : Inv stored x s) (hc : s.phase c = .inodeSynced) :
    Inv stored x { s.mount c with pool := rootDentry.sync s.pool } := by
  obtain ⟨hnil, hnone⟩ := h.making c (.inr hc)
  obtain ⟨d, hd, hempty⟩ := load_rootDentry h.wellStored
  refine ⟨h.wellStored.write (dentry_serialize_ne_nil _) 0, InodeIs.rootDentry h.inode,
    fun _ _ => rfl, fun _ => h.made (.inr hc),
    fun hbefore => absurd hbefore (h.made (.inr hc)), fun c' hc' => ?_, .inl ⟨⟨d, hd⟩, ?_⟩⟩
  · exact ⟨hnil, hnone⟩
  · show _ = namesAll s.checkpointed stored
    rw [hnil, hnone]
    exact namesIn_of_empty hd hempty

theorem Inv.step (h : Inv stored x s) {a : Action C} (ha : Legal s a) (hu : Undisturbed s a)
    (hs : Mount.step s a = some s') : Inv stored x s' := by
  cases moves_of_step hs with
  | @found c hc hfound =>
      rw [h.exist, Option.isSome_iff_ne_none] at hfound
      exact h.mount (by rw [hc]; decide) hfound
  | @absent c hc habsent =>
      rw [h.exist, Option.not_isSome_iff_eq_none] at habsent
      exact h.setPhase (by rw [hc]; decide) (.inr (.inl ⟨rfl, habsent⟩))
  | syncInode hc => exact h.syncInode hc _
  | syncDentry hc => exact h.syncDentry hc
  | commit hcommit => exact h.frame (rootFrame_commit h.wellStored hcommit)
  | checkpoint hc hcheckpoint hino => exact h.checkpoint hc ha hu hino hcheckpoint
  | other hcheckpoint hne =>
      exact h.frame (rootFrame_checkpoint h.wellStored ha.1 hne hcheckpoint)
  | leave => exact h.setPhase hu (.inl rfl)

section

open Placement (envOf)

def fresh : State Bool := ⟨∅, fun _ => .unmounted, none, [], false⟩

/-- A transaction of the root with one name. -/
def oneName : Transaction :=
  ((Transaction.new Uuid.rootIno).mkdir (rootInode (envOf 0)) [97] (envOf 1).newIno).2

/-- Both clients look for the root before either has made it. -/
def bothMake : List (Action Bool) :=
  [.exist false, .exist true, .syncInode false (envOf 0), .syncInode true (envOf 2),
    .syncDentry true, .syncDentry false]

/-- The pool after that. -/
def madePool : Pool :=
  rootDentry.sync (rootDentry.sync ((rootInode (envOf 2)).sync ((rootInode (envOf 0)).sync ∅)))

theorem fresh_start : Start none fresh := by
  have hempty : ∀ c k, StoredAs ∅ c k none := fun _ _ _ => AList.lookup_empty _
  exact ⟨fun c k => ⟨none, hempty c k⟩, fun _ => rfl, ⟨rfl, rfl, rfl⟩, ⟨none, hempty _ _, rfl⟩,
    hempty _ _⟩

theorem oneName_ok : TxOk (· ≠ Uuid.rootIno) Uuid.rootIno oneName := by
  have hok : TxOk (fun _ => False) Uuid.rootIno oneName :=
    Moving.txOk_name (b := 97) (u := (envOf 1).newIno) (by decide) rfl rfl rfl rfl
  exact hok.mono fun u i hu => (hok.files u i hu).2.elim

theorem bothMake_run : ∃ s, run step fresh bothMake = some s ∧ s.pool = madePool ∧
    s.checkpointed = [] ∧ ∀ c, s.phase c = .mounted :=
  ⟨_, rfl, rfl, rfl, fun c => by cases c <;> rfl⟩

theorem bothMake_meet :
    StepsMeet step Legal fresh bothMake ∧ StepsMeet step Undisturbed fresh bothMake :=
  ⟨⟨trivial, fun _ _ => ⟨trivial, fun _ _ => ⟨trivial, fun _ _ => ⟨trivial, fun _ _ =>
      ⟨trivial, fun _ _ => ⟨trivial, fun _ _ => trivial⟩⟩⟩⟩⟩⟩,
    ⟨trivial, fun _ _ => ⟨trivial, fun _ _ => ⟨trivial, fun _ _ => ⟨trivial, fun _ _ =>
      ⟨trivial, fun _ _ => ⟨trivial, fun _ _ => trivial⟩⟩⟩⟩⟩⟩⟩

/-- The name can be written. -/
theorem oneName_written {s : State Bool} (hp : s.pool = madePool) (hc : s.phase true = .mounted)
    (hnil : s.checkpointed = []) :
    Legal s (.checkpoint true oneName) ∧ ∃ pool, step s (.checkpoint true oneName) =
      some { s with pool, checkpointed := [oneName] } := by
  have hempty : WellStored ∅ := fun _ _ => ⟨none, fun _ => AList.lookup_empty _⟩
  have hw : WellStored (rootDentry.sync
      ((rootInode (envOf 2)).sync ((rootInode (envOf 0)).sync ∅))) :=
    ((hempty.inode _).inode _).write (dentry_serialize_ne_nil _) 0
  obtain ⟨d, hd, hnames⟩ := load_rootDentry hw
  have hfit : ∀ d', Dentry.load madePool Uuid.rootIno false = .ok d' →
      (applyDentries oneName.dentries.entries d').serialize.length ≤
        Dentry.MAX_DENTRY_OBJ_SIZE := by
    intro d' hd'
    obtain rfl : d = d' := Except.ok.inj (hd.symm.trans hd')
    exact Moving.fits_one hnames 97 (envOf 1).newIno
  obtain ⟨hsync, -⟩ := load_sync oneName_ok (hw.write (dentry_serialize_ne_nil _) 0) rfl hd
    (hfit d hd)
  obtain ⟨pool, hpool, -⟩ := Batching.checkpoint_ok hsync
  refine ⟨⟨oneName_ok, fun _ => ⟨rfl, ?_⟩⟩, pool, ?_⟩
  · rw [hp]
    exact hfit
  · have hcheckpoint : oneName.checkpoint s.pool = (.ok (), pool) := by
      rw [hp]
      exact hpool
    have hino : oneName.sIno = Uuid.rootIno := rfl
    unfold step
    dsimp only
    rw [if_neg (not_not.mpr hc), hcheckpoint]
    dsimp only
    rw [if_pos hino, hnil]
    rfl

end

/-! ## A root that is half made -/

/-- The DENTRY object is not there, though the INODE object may be. -/
structure Unreadable (s : State C) : Prop where
  wellStored : WellStored s.pool
  dentry : StoredAs s.pool .dentry Uuid.rootIno.toStr none
  inode : ∀ c, s.phase c = .inodeSynced → RadosIo.exist s.pool .inode Uuid.rootIno.toStr = true

/-- The INODE object is there, and nobody is about to write the DENTRY object. -/
structure HalfMade (s : State C) : Prop extends Unreadable s where
  found : RadosIo.exist s.pool .inode Uuid.rootIno.toStr = true
  nobody : ∀ c, s.phase c ≠ .absent ∧ s.phase c ≠ .inodeSynced

section

variable {s s' t : State C} {a : Action C} {c : C}

omit [DecidableEq C] in
theorem Start.unreadable (h : Start none s) : Unreadable s :=
  ⟨h.stored, h.dentry, fun c hc => (nomatch (h.unmounted c).symm.trans hc)⟩

omit [DecidableEq C] in
theorem Unreadable.frame (h : Unreadable s) {pool : Pool} (hf : RootFrame s.pool pool)
    (checkpointed : List Transaction) : Unreadable { s with pool, checkpointed } := by
  refine ⟨hf.wellStored, hf.dentry _ h.dentry, fun c hc => ?_⟩
  dsimp only
  rw [hf.exist h.wellStored]
  exact h.inode c hc

theorem Unreadable.setPhase (h : Unreadable s) {phase : Phase} (hp : phase ≠ .inodeSynced) :
    Unreadable (s.setPhase c phase) := by
  refine ⟨h.wellStored, h.dentry, fun c' hc' => ?_⟩
  rw [phase_setPhase] at hc'
  split at hc'
  · exact absurd hc' hp
  · exact h.inode c' hc'

theorem Unreadable.mount (h : Unreadable s) : Unreadable (s.mount c) := by
  have hphase : Unreadable (s.setPhase c .mounted) := h.setPhase (by decide)
  exact ⟨h.wellStored, h.dentry, hphase.inode⟩

omit [DecidableEq C] in
theorem Unreadable.raises (h : Unreadable s) : Dentry.load s.pool Uuid.rootIno false = .error
    (.runtimeError ("Dentry Corrupted: inode number " ++ String.ofList Uuid.rootIno.toStr)) :=
  load_absent h.dentry

/-- Only `d.sync()` makes it readable: the transactions of the root cannot be written. -/
theorem Unreadable.step (h : Unreadable s) (ha : Legal s a) (hne : ∀ c, a ≠ .syncDentry c)
    (hs : Mount.step s a = some s') : Unreadable s' ∧
      (RadosIo.exist s.pool .inode Uuid.rootIno.toStr = true →
        RadosIo.exist s'.pool .inode Uuid.rootIno.toStr = true) := by
  cases moves_of_step hs with
  | found hc hfound => exact ⟨h.mount, fun he => he⟩
  | absent hc habsent => exact ⟨h.setPhase (by decide), fun he => he⟩
  | @syncInode c env hc =>
      have hexist : RadosIo.exist ((rootInode env).sync s.pool) .inode Uuid.rootIno.toStr = true :=
        exist_of_inodeIs (inodeIs_rootInode h.wellStored env)
      exact ⟨⟨h.wellStored.inode _, dentry_rootInode env h.dentry, fun _ _ => hexist⟩,
        fun _ => hexist⟩
  | @syncDentry c hc => exact absurd rfl (hne c)
  | commit hcommit =>
      have hf := rootFrame_commit h.wellStored hcommit
      exact ⟨h.frame hf _, fun he => (hf.exist h.wellStored).trans he⟩
  | @checkpoint c tx pool hc hcheckpoint hino =>
      obtain ⟨htx, hroot⟩ := ha
      obtain ⟨hsync, -⟩ := checkpoint_eq_ok hcheckpoint
      rw [hino] at htx
      rw [sync_absent hino htx.self (hroot hino).1 h.dentry] at hsync
      cases hsync
  | other hcheckpoint hino =>
      have hf := rootFrame_checkpoint h.wellStored ha.1 hino hcheckpoint
      exact ⟨h.frame hf _, fun he => (hf.exist h.wellStored).trans he⟩
  | leave => exact ⟨h.setPhase (by decide), fun he => he⟩

theorem HalfMade.step (h : HalfMade s) (ha : Legal s a) (hs : Mount.step s a = some s') :
    HalfMade s' := by
  have hne : ∀ c, a ≠ .syncDentry c := by
    rintro c rfl
    cases moves_of_step hs with
    | syncDentry hc => exact (h.nobody c).2 hc
  obtain ⟨hunreadable, hexist⟩ := h.toUnreadable.step ha hne hs
  refine ⟨hunreadable, hexist h.found, fun c' => ?_⟩
  cases moves_of_step hs with
  | @found c hc hfound =>
      show (s.setPhase c .mounted).phase c' ≠ _ ∧ (s.setPhase c .mounted).phase c' ≠ _
      rw [phase_setPhase]
      split
      · exact ⟨by decide, by decide⟩
      · exact h.nobody c'
  | absent hc habsent => exact absurd h.found habsent
  | @syncInode c env hc => exact absurd hc (h.nobody c).1
  | @syncDentry c hc => exact absurd hc (h.nobody c).2
  | commit hcommit => exact h.nobody c'
  | checkpoint hc hcheckpoint hino => exact h.nobody c'
  | other hcheckpoint hne => exact h.nobody c'
  | leave =>
      rw [phase_setPhase]
      split
      · exact ⟨by decide, by decide⟩
      · exact h.nobody c'

/-- A client that dies between its two writes, when nobody else is about to make the root, leaves a
    root that every client finds, and that none can read, whatever they do. -/
theorem half_made_for_ever {as bs : List (Action C)} (h : Start none s)
    (hlegal : StepsMeet Mount.step Legal s (as ++ .leave c :: bs))
    (hfirst : ∀ c', .syncDentry c' ∉ as) (hr : run Mount.step s as = some t)
    (hc : t.phase c = .inodeSynced)
    (halone : ∀ c', c' ≠ c → t.phase c' ≠ .absent ∧ t.phase c' ≠ .inodeSynced)
    (hrest : run Mount.step t (.leave c :: bs) = some s') :
    RadosIo.exist s'.pool .inode Uuid.rootIno.toStr = true ∧
      Dentry.load s'.pool Uuid.rootIno false = .error (.runtimeError
        ("Dentry Corrupted: inode number " ++ String.ofList Uuid.rootIno.toStr)) := by
  have hunreadable : Unreadable t :=
    run_invariant_of_stepsMeet (fun _ _ _ hu ha hs => (hu.step ha.1 ha.2 hs).1) h.unreadable
      (hlegal.before.and (.of_forall fun _ ha _ c' => ne_of_mem_of_not_mem ha (hfirst c'))) hr
  obtain ⟨u, hu, hrest⟩ := run_cons.mp hrest
  have hleft : HalfMade u := by
    cases moves_of_step hu with
    | leave =>
        refine ⟨hunreadable.setPhase (by decide), hunreadable.inode c hc, fun c' => ?_⟩
        rw [phase_setPhase]
        split
        · exact ⟨by decide, by decide⟩
        · rename_i hne
          exact halone c' hne
  have hhalf : HalfMade s' := run_invariant_of_stepsMeet (fun _ _ _ hm ha hs => hm.step ha hs) hleft
    ((hlegal.after hr).2 u hu) hrest
  exact ⟨hhalf.found, hhalf.raises⟩

/-- The first client dies, and the second one finds what it has left. -/
theorem half_made_for_ever_leave : ∃ s, run Mount.step fresh
      ([.exist false, .syncInode false (Placement.envOf 0)] ++ [.leave false, .exist true]) = some s ∧
    RadosIo.exist s.pool .inode Uuid.rootIno.toStr = true ∧
    Dentry.load s.pool Uuid.rootIno false = .error (.runtimeError
      ("Dentry Corrupted: inode number " ++ String.ofList Uuid.rootIno.toStr)) := by
  obtain ⟨t, hr, hpool, hfalse, htrue⟩ : ∃ t,
      run Mount.step fresh [.exist false, .syncInode false (Placement.envOf 0)] = some t ∧
        t.pool = (rootInode (Placement.envOf 0)).sync fresh.pool ∧
        t.phase false = .inodeSynced ∧ t.phase true = .unmounted := ⟨_, rfl, rfl, rfl, rfl⟩
  have hexist : RadosIo.exist t.pool .inode Uuid.rootIno.toStr = true := by
    rw [hpool]
    exact exist_of_inodeIs (inodeIs_rootInode fresh_start.stored _)
  have hlast : Mount.step (t.setPhase false .unmounted) (.exist true) =
      some ((t.setPhase false .unmounted).mount true) := by
    have hphase : (t.setPhase false .unmounted).phase true = .unmounted := htrue
    have hfound : RadosIo.exist (t.setPhase false .unmounted).pool .inode Uuid.rootIno.toStr = true :=
      hexist
    unfold Mount.step
    dsimp only
    rw [if_neg (not_not.mpr hphase), if_pos hfound]
  have hrest : run Mount.step t [.leave false, .exist true] =
      some ((t.setPhase false .unmounted).mount true) :=
    run_cons.mpr ⟨_, rfl, run_cons.mpr ⟨_, hlast, rfl⟩⟩
  refine ⟨_, run_append.mpr ⟨t, hr, hrest⟩,
    half_made_for_ever fresh_start ?_ (by simp) hr hfalse (fun c' hc' => ?_) hrest⟩
  · exact ⟨trivial, fun _ _ => ⟨trivial, fun _ _ => ⟨trivial, fun _ _ => ⟨trivial,
      fun _ _ => trivial⟩⟩⟩⟩
  · cases c' with
    | false => exact absurd rfl hc'
    | true =>
        rw [htrue]
        exact ⟨by decide, by decide⟩

end

end Mount

end Nmfs
