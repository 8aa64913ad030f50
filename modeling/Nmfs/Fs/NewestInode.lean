import Nmfs.Fs.CurrentInode
import Nmfs.Fs.SharedInode

/-
  Runs until everything is checkpointed. A rename of a directory puts the copy that the parent's
  table has into the parent's transaction. Where that one is checkpointed when nothing is left in the
  directory's own line, the copy stays, whatever the directory's own table has.
-/

namespace Nmfs

open Lib RadosIo Cluster

namespace Volume

open Transaction

variable {C : Type} {s : Volume C}

/-! ## Runs -/

theorem Start.regular (h : s.Start) : s.Regular := by
  have hempty : Told ∅ := fun _ _ hl => by cases hl
  refine ⟨h.tidy, h.stored, fun c => ?_, fun d tx ht => ?_⟩
  · rw [(h.idle c).1, (h.idle c).2]
    exact ⟨hempty, hempty⟩
  · rw [h.queues] at ht
    cases ht

theorem Start.line_eq_nil (h : s.Start) (dir : Uuid) : s.line dir = [] := by
  unfold line taken pending waiting
  rw [(h.idle _).1, (h.idle _).2, h.queues]
  rfl

/-- Once all transactions are checkpointed, the INODE object of a directory that is there spells the
    inode that its table has, and one that has been removed has none. -/
def Newest (s : Volume C) : Prop :=
  (∀ dir, s.line dir = []) →
    (∀ dir t, s.cluster.tables dir = some t → InodeIs s.pool dir (some t.thisDirInode)) ∧
      ∀ dir ∈ s.removed, InodeIs s.pool dir none

theorem Current.newest (h : s.Current) : s.Newest := by
  intro hline
  have hpool : ∀ {d x}, s.Leaves d x → InodeIs s.pool d x := by
    intro d x hx
    unfold Leaves at hx
    rw [hline] at hx
    rcases hx with hx | ⟨-, hx⟩
    · cases hx
    · exact hx
  refine ⟨fun dir t ht => ?_, fun dir hd => hpool (h.removed dir hd)⟩
  obtain ⟨object, ho, hx⟩ := hpool (h.led dir t ht)
  exact ⟨object, ho, shows_copy.mp hx⟩

end Volume

namespace Shared

open Volume Transaction

variable {C : Type} [DecidableEq C] {s s' : Shared C} {v : Volume C} {shared : List Uuid}

/-- Nothing is pending, and what is led is in the pool. -/
structure Start (s : Shared C) : Prop where
  volume : s.volume.Start
  inodes : ∀ dir t, s.volume.cluster.tables dir = some t →
    InodeIs s.volume.pool dir (some t.thisDirInode)

omit [DecidableEq C] in
theorem Start.current (h : s.Start) : s.volume.Current := by
  refine ⟨fun dir t ht => .inr ⟨?_, ?_⟩, fun dir hd => ?_⟩
  · rw [h.volume.line_eq_nil]
    rfl
  · obtain ⟨object, ho, hx⟩ := h.inodes dir t ht
    exact ⟨object, ho, shows_copy.mpr hx⟩
  · rw [h.volume.history.1] at hd
    cases hd

omit [DecidableEq C] in
theorem regular_refreshed (h : v.Regular) :
    Regular { v with cluster := refreshed v.cluster shared } :=
  ⟨tidy_refreshed h.tidy, h.stored, h.told, h.queued⟩

omit [DecidableEq C] in
/-- The directory's own table is not refreshed. -/
theorem current_refreshed (h : v.Current) :
    Current { v with cluster := refreshed v.cluster shared } := by
  refine ⟨fun dir t ht => ?_, h.removed⟩
  obtain ⟨old, hold, rfl⟩ := refreshed_eq_some ht
  exact h.led dir old hold

theorem step_regular {a : Action C} (h : s.volume.Regular) (ha : Legal s.volume a)
    (hs : step s a = some s') : s'.volume.Regular := by
  obtain ⟨v, hv, heq⟩ := step_eq_some hs
  rw [heq]
  exact regular_refreshed (h.step ha hv)

theorem step_current {a : Action C} (h : s.volume.Regular ∧ s.volume.Current)
    (ha : Legal s.volume a ∧ s.volume.InTurn a) (hs : step s a = some s') :
    s'.volume.Regular ∧ s'.volume.Current := by
  refine ⟨step_regular h.1 ha.1 hs, ?_⟩
  obtain ⟨v, hv, heq⟩ := step_eq_some hs
  rw [heq]
  exact current_refreshed (h.2.step h.1 ha.1 ha.2 hv)

/-- A run in which every step meets the condition: whenever all transactions are checkpointed, the
    newest inode of every directory is the one in the pool. -/
theorem newest_wins {as : List (Action C)} (h : s.Start)
    (hlegal : StepsMeet step (fun s a => Legal s.volume a) s as)
    (hturn : StepsMeet step (fun s a => s.volume.InTurn a) s as) :
    StepsMeet step (fun s _ => s.volume.Newest) s as ∧
      ∀ s', run step s as = some s' → s'.volume.Newest := by
  have hinit : s.volume.Regular ∧ s.volume.Current := ⟨h.volume.regular, h.current⟩
  have hmeet := hlegal.and hturn
  refine ⟨.of_invariant (fun _ _ _ => step_current) (fun s a h _ => h.2.newest) hinit hmeet,
    fun s' hr => ?_⟩
  exact (run_invariant_of_stepsMeet (fun _ _ _ => step_current) hinit hmeet hr).2.newest

/-! ## A rename in between -/

open Placement Refinement

/-- The DENTRY object changes at the checkpoints of its directory. -/
theorem dentry_step (h : s.volume.Regular) {dir : Uuid} {a : Action C} (ha : a ≠ .checkpoint dir)
    (hs : step s a = some s') {x : Option Bytes}
    (hx : StoredAs s.volume.pool .dentry dir.toStr x) :
    StoredAs s'.volume.pool .dentry dir.toStr x := by
  obtain ⟨v, hv, heq⟩ := step_eq_some hs
  rw [heq]
  show StoredAs v.pool .dentry dir.toStr x
  have hjournal : ∀ {p : Pool} (key : Str) (value : Bytes) (offset : Nat),
      StoredAs p .dentry dir.toStr x →
      StoredAs (RadosIo.write p .journal key value offset).2 .dentry dir.toStr x :=
    fun _ _ _ hp => (frame_write_file _ _).storedAs (fun heq => nomatch (Prod.mk.inj heq).1) hp
  cases moves_of_step hv with
  | kept hpool hqueues =>
      rw [hpool]
      exact hx
  | @commit d tx hc =>
      rw [hc.pool]
      exact hjournal _ _ _ hx
  | @checkpoint d tx hc =>
      obtain ⟨queue, hq, -⟩ := hc.head
      rw [hc.pool]
      refine hjournal _ _ _ ?_
      refine sync_storedAs (h.queued d tx (hq ▸ List.mem_cons_self)) (fun heq => ha ?_)
        (fun heq => nomatch (Prod.mk.inj heq).1) (fun _ _ heq => nomatch (Prod.mk.inj heq).1) hx
      rw [Uuid.toStr_inj (Prod.mk.inj heq).2]

/-- A checkpoint that can read the directory goes through. -/
theorem checkpoint_exists (h : s.volume.Regular) {dir : Uuid} {tx : Transaction}
    {queue : List Transaction} (hq : s.volume.queues dir = tx :: queue)
    (hs : tx.status ≠ .S_DELETED) (hload : tx.status = .S_UNCHANGED →
      Spelled s.volume.pool dir ∧
        (RadosIo.stat s.volume.pool .dentry dir.toStr).2 ≤ Dentry.MAX_DENTRY_OBJ_SIZE) :
    ∃ s', step s (.checkpoint dir) = some s' := by
  have hsync := (sync_spelled (h.queued dir tx (hq ▸ List.mem_cons_self)) h.stored hs hload).1
  rw [← checkpoint_fst] at hsync
  have hv : ∃ v, Volume.step s.volume (.checkpoint dir) = some v := by
    unfold Volume.step
    dsimp only
    rw [hq]
    dsimp only
    cases hc : tx.checkpoint s.volume.pool with
    | mk r pool =>
        rw [hc] at hsync
        cases hsync
        exact ⟨_, rfl⟩
  obtain ⟨v, hv⟩ := hv
  unfold step
  rw [hv]
  exact ⟨_, rfl⟩

/-- A file system with the root only, whose inode is in the pool. -/
def fresh : Shared Bool :=
  ⟨{ Volume.fresh with pool := rootInode.sync Volume.fresh.pool }, []⟩

def newDir : Uuid := (envOf 1).newIno

/-- The client `true` makes "/a", which `false` has in the root's table, and takes the others' rights
    to it; `false` renames it to "/b"; all of it is committed. -/
def renamed : List (Action Bool) :=
  [.mkdir true (envOf 1) Uuid.rootIno [97] 0x41ED clock,
    .perform newDir (.self Uuid.rootIno (.chmod 0x41C0)),
    .perform Uuid.rootIno (.localRename clock [97] [98]),
    .replace true, .commit newDir, .replace false, .commit Uuid.rootIno]

theorem fresh_start : fresh.Start := by
  have hstart := Volume.fresh_start
  have hstored : WellStored fresh.volume.pool := hstart.stored.inode rootInode
  refine ⟨⟨hstart.tidy, hstored, fun dir t ht => ?_, hstart.idle, hstart.queues, hstart.history⟩,
    fun dir t ht => ?_⟩
  · refine spelled_of_dentry (fun x hx => ?_) (hstart.spelled dir t ht)
    exact (frame_write_file _ _).storedAs (fun heq => nomatch (Prod.mk.inj heq).1) hx
  · obtain ⟨rfl, rfl⟩ := fresh_tables ht
    obtain ⟨x, hx⟩ := hstart.stored .inode Uuid.rootIno.toStr
    exact ⟨_, Batching.inode_imprint (i := rootInode) hx, shows_imprint x rootInode⟩

theorem renamed_legal : StepsMeet step (fun s a => Legal s.volume a) fresh renamed := by
  refine .cons ?_ rfl (.cons ?_ rfl (.cons ?_ rfl ?_))
  · exact ⟨⟨⟨by decide, by decide⟩, by decide⟩, by decide, by decide⟩
  · intro led hl
    cases hl
    have hvalid : HasType 0x41C0 ((FuseOps.newDirInode (envOf 1) 0x41ED clock).core.iMode &&&
        Inode.S_IFMT) := by decide
    exact ⟨hvalid, trivial⟩
  · intro led _
    exact ⟨⟨by decide, by decide⟩, by decide, by decide⟩
  · exact .of_forall fun a ha s => by
      simp only [List.mem_cons, List.not_mem_nil, or_false] at ha
      rcases ha with rfl | rfl | rfl | rfl <;> trivial

theorem renamed_turn : StepsMeet step (fun s a => s.volume.InTurn a) fresh renamed := by
  refine .cons ?_ rfl (.cons ?_ rfl (.cons ?_ rfl ?_))
  · exact fun _ ino hl => nomatch hl
  · exact fun _ _ => trivial
  · intro led hl
    cases hl
    intro _
    show if _ then _ else _
    rw [if_pos (by decide)]
    intro ino hl
    have hlisted : some (true, newDir) = some (false, ino) := hl
    cases hlisted
  · exact .of_forall fun a ha s => by
      simp only [List.mem_cons, List.not_mem_nil, or_false] at ha
      rcases ha with rfl | rfl | rfl | rfl <;> trivial

/-- The root's transaction has the inode as it was before the chmod. -/
theorem renamed_run : ∃ s tx t i self, run step fresh renamed = some s ∧
    s.volume.queues = Function.update (Function.update (fun _ => []) newDir [t])
      Uuid.rootIno [tx] ∧
    (∀ c, s.volume.cluster.jtables c = ∅ ∧ (s.volume.cycle c).entries = []) ∧
    t.status = .S_CREATED ∧ t.fInodes = ∅ ∧ t.sInode = some self ∧
    tx.status = .S_UNCHANGED ∧ tx.fInodes.entries = [⟨newDir, some i⟩] ∧
    i.core.iMode = 0x41ED ∧ i.WellFormed ∧ i.ino = newDir ∧
    ∃ table, s.volume.cluster.tables newDir = some table ∧
      table.thisDirInode.core.iMode = 0x41C0 ∧ table.thisDirInode.WellFormed ∧
      table.thisDirInode.ino = newDir := by
  refine ⟨_, _, _, _, _, rfl, rfl, fun c => ?_, rfl, rfl, rfl, rfl, rfl, rfl, rfl, rfl, _, rfl, rfl,
    rfl, rfl⟩
  cases c
  · exact ⟨rfl, rfl⟩
  · exact ⟨rfl, rfl⟩

/-- What a checkpoint of the directory does to a volume with shared inodes. -/
structure Written (s : Shared C) (dir : Uuid) (tx : Transaction) (queue : List Transaction)
    (s' : Shared C) : Prop where
  synced : (tx.sync s.volume.pool).1 = .ok ()
  pool : s'.volume.pool =
    (RadosIo.write (tx.sync s.volume.pool).2 .journal tx.sIno.toStr [0] tx.offset).2
  queues : s'.volume.queues = Function.update s.volume.queues dir queue
  journals : s'.volume.cluster.jtables = s.volume.cluster.jtables ∧
    s'.volume.cycle = s.volume.cycle
  tables : ∀ d table, s.volume.cluster.tables d = some table →
    ∃ table', s'.volume.cluster.tables d = some table' ∧
      table'.thisDirInode = table.thisDirInode

theorem written_of_step {dir : Uuid} {tx : Transaction} {queue : List Transaction}
    (hq : s.volume.queues dir = tx :: queue) (hs : step s (.checkpoint dir) = some s') :
    Written s dir tx queue s' := by
  obtain ⟨v, hv, heq⟩ := step_eq_some hs
  obtain ⟨tx', hc⟩ := checkpoints_of_step hv
  obtain ⟨queue', hq', hqueues⟩ := hc.head
  cases hq.symm.trans hq'
  refine ⟨synced_of_step hv hq, ?_, ?_, ?_, fun d table ht => ?_⟩
  · rw [heq]
    exact hc.pool
  · rw [heq]
    exact hqueues
  · rw [heq, ← hc.cluster.1, ← hc.cluster.2]
    exact ⟨rfl, rfl⟩
  · rw [heq]
    refine ⟨table.mapChildren (seen v.cluster s'.shared), ?_, rfl⟩
    show (v.cluster.tables d).map _ = _
    rw [hc.cluster.1, ht]
    rfl

theorem regular_run {as : List (Action C)} (h : s.volume.Regular)
    (hlegal : StepsMeet step (fun s a => Legal s.volume a) s as) (hr : run step s as = some s') :
    s'.volume.Regular :=
  run_invariant_of_stepsMeet (I := fun t => t.volume.Regular) (fun _ _ _ => step_regular) h hlegal hr

/-- Up to the first checkpoint of the directory. -/
theorem dentry_run {dir : Uuid} {as : List (Action C)} (h : s.volume.Regular)
    (hlegal : StepsMeet step (fun s a => Legal s.volume a) s as)
    (hne : ∀ a ∈ as, a ≠ .checkpoint dir) (hr : run step s as = some s') {x : Option Bytes}
    (hx : StoredAs s.volume.pool .dentry dir.toStr x) :
    StoredAs s'.volume.pool .dentry dir.toStr x := by
  have hmeet := hlegal.and (Q := fun _ a => a ≠ .checkpoint dir)
    (.of_forall fun a ha _ => hne a ha)
  refine (run_invariant_of_stepsMeet (I := fun t => t.volume.Regular ∧
    StoredAs t.volume.pool .dentry dir.toStr x) (fun t a t' ht ha hs => ?_) ⟨h, hx⟩ hmeet hr).2
  exact ⟨step_regular ht.1 ha.1 hs, dentry_step ht.1 ha.2 hs ht.2⟩

theorem fresh_fits : (RadosIo.stat fresh.volume.pool .dentry Uuid.rootIno.toStr).2 ≤
    Dentry.MAX_DENTRY_OBJ_SIZE := by
  have hempty : StoredAs ∅ .dentry Uuid.rootIno.toStr none := fun _ => AList.lookup_empty _
  have hdentry : StoredAs Volume.fresh.pool .dentry Uuid.rootIno.toStr _ :=
    hempty.write (dentry_serialize_ne_nil ⟨Uuid.rootIno, ∅⟩) 0
  have hpool : StoredAs fresh.volume.pool .dentry Uuid.rootIno.toStr _ :=
    (frame_write_file _ _).storedAs (fun heq => nomatch (Prod.mk.inj heq).1) hdentry
  rw [hpool.stat]
  show 8 ≤ objSize
  rw [objSize_eq]
  decide

/-- The first checkpoint of the root goes through. -/
theorem root_checkpoint {as : List (Action Bool)} {s : Shared Bool} {tx : Transaction}
    {queue : List Transaction} (hlegal : StepsMeet step (fun s a => Legal s.volume a) fresh as)
    (hne : ∀ a ∈ as, a ≠ .checkpoint Uuid.rootIno) (hr : run step fresh as = some s)
    (hq : s.volume.queues Uuid.rootIno = tx :: queue) (hs : tx.status = .S_UNCHANGED) :
    ∃ s', step s (.checkpoint Uuid.rootIno) = some s' := by
  have hstart := fresh_start.volume
  have hdentry : ∀ x, StoredAs fresh.volume.pool .dentry Uuid.rootIno.toStr x →
      StoredAs s.volume.pool .dentry Uuid.rootIno.toStr x :=
    fun x hx => dentry_run hstart.regular hlegal hne hr hx
  refine checkpoint_exists (regular_run hstart.regular hlegal hr) hq (by rw [hs]; decide)
    fun _ => ⟨spelled_of_dentry hdentry (hstart.spelled Uuid.rootIno _ rfl), ?_⟩
  obtain ⟨x, hx⟩ := hstart.stored .dentry Uuid.rootIno.toStr
  have hfits := fresh_fits
  rw [hx.stat] at hfits
  rw [(hdentry x hx).stat]
  exact hfits

/-- Nothing is left where the queues had one transaction each and the commit threads nothing. -/
theorem line_eq_nil {s s₁ s₂ : Shared Bool} {a b : Uuid} {tx tx' : Transaction}
    (hidle : ∀ c, s.volume.cluster.jtables c = ∅ ∧ (s.volume.cycle c).entries = [])
    (hrest : ∀ d, d ≠ a → d ≠ b → s.volume.queues d = []) (h₁ : Written s a tx [] s₁)
    (h₂ : Written s₁ b tx' [] s₂) (d : Uuid) : s₂.volume.line d = [] := by
  have hq : s₂.volume.queues d = [] := by
    rw [h₂.queues, h₁.queues]
    by_cases hb : d = b
    · rw [hb, Function.update_self]
    rw [Function.update_of_ne hb]
    by_cases ha : d = a
    · rw [ha, Function.update_self]
    · rw [Function.update_of_ne ha, hrest d ha hb]
  unfold line taken waiting pending AList.lookup
  rw [hq, h₂.journals.1, h₂.journals.2, h₁.journals.1, h₁.journals.2, (hidle _).1, (hidle _).2]
  rfl

/-- "/b" is checkpointed first. -/
def staleLast : List (Action Bool) :=
  renamed ++ [.checkpoint newDir] ++ [.checkpoint Uuid.rootIno]

theorem newDirFirst_legal :
    StepsMeet step (fun s a => Legal s.volume a) fresh (renamed ++ [.checkpoint newDir]) :=
  renamed_legal.append fun _ _ => ⟨trivial, fun _ _ => trivial⟩

theorem not_mem_renamed {dir : Uuid} : ∀ a ∈ renamed, a ≠ .checkpoint dir := by
  intro a ha
  simp only [renamed, List.mem_cons, List.not_mem_nil, or_false] at ha
  rcases ha with rfl | rfl | rfl | rfl | rfl | rfl | rfl <;> exact nofun

/-- Once the root's transaction is written, "/b" has its old mode in the pool. -/
theorem stale_copy_last : fresh.Start ∧
    StepsMeet step (fun s a => Legal s.volume a) fresh staleLast ∧
    ∃ s, run step fresh staleLast = some s ∧ ¬ s.volume.Newest := by
  refine ⟨fresh_start, newDirFirst_legal.append fun _ _ => ⟨trivial, fun _ _ => trivial⟩, ?_⟩
  obtain ⟨s₀, tx, t, i, self, hr₀, hq₀, hidle, hcreated, -, -, hunchanged, hfiles, hmode, hwell, hino,
    table₀, ht₀, hmode', hwell', hino'⟩ := renamed_run
  have hne : newDir ≠ Uuid.rootIno := by decide
  have hnever : ∀ a ∈ renamed ++ [.checkpoint newDir], a ≠ .checkpoint Uuid.rootIno := by
    intro a ha
    rcases List.mem_append.mp ha with ha | ha
    · exact not_mem_renamed a ha
    · rw [List.mem_singleton.mp ha]
      exact fun heq => hne (Volume.Action.checkpoint.inj heq)
  have hreg₀ := regular_run fresh_start.volume.regular renamed_legal hr₀
  have hqnew : s₀.volume.queues newDir = [t] := by
    rw [hq₀, Function.update_of_ne hne, Function.update_self]
  obtain ⟨s₁, h₁⟩ := checkpoint_exists hreg₀ hqnew (by rw [hcreated]; decide)
    fun hs => by rw [hcreated] at hs; cases hs
  have hr₁ : run step fresh (renamed ++ [.checkpoint newDir]) = some s₁ :=
    run_append.mpr ⟨s₀, hr₀, run_cons.mpr ⟨s₁, h₁, rfl⟩⟩
  have hw₁ := written_of_step hqnew h₁
  have hqroot : s₁.volume.queues Uuid.rootIno = [tx] := by
    rw [hw₁.queues, Function.update_of_ne hne.symm, hq₀, Function.update_self]
  obtain ⟨s₂, h₂⟩ := root_checkpoint newDirFirst_legal hnever hr₁ hqroot hunchanged
  have hw₂ := written_of_step hqroot h₂
  refine ⟨s₂, run_append.mpr ⟨s₁, hr₁, run_cons.mpr ⟨s₂, h₂, rfl⟩⟩, fun hnewest => ?_⟩
  obtain ⟨t₁, ht₁, hself₁⟩ := hw₁.tables newDir table₀ ht₀
  obtain ⟨t₂, ht₂, hself₂⟩ := hw₂.tables newDir t₁ ht₁
  have hself : t₂.thisDirInode = table₀.thisDirInode := hself₂.trans hself₁
  have hrest : ∀ d, d ≠ newDir → d ≠ Uuid.rootIno → s₀.volume.queues d = [] := by
    intro d hd hroot
    rw [hq₀, Function.update_of_ne hroot, Function.update_of_ne hd]
  have hnew := (hnewest (line_eq_nil hidle hrest hw₁ hw₂)).1 newDir t₂ ht₂
  rw [hself] at hnew
  -- the last thing that is written over the object is the root's copy
  have hstale : InodeIs s₂.volume.pool newDir (some i) := by
    have hreg₁ := regular_run fresh_start.volume.regular newDirFirst_legal hr₁
    have hok := hreg₁.queued Uuid.rootIno tx (hqroot ▸ List.mem_cons_self)
    obtain ⟨object, ho⟩ := hreg₁.stored .inode newDir.toStr
    have hsynced := Batching.sync_inode hok (by rw [hunchanged]; decide) hw₂.synced ho
    have hl : (tx.fInodes.lookup newDir).join = some i := by
      unfold AList.lookup
      rw [hfiles]
      rfl
    rw [hl] at hsynced
    rw [hw₂.pool]
    exact InodeIs.journal ⟨_, hsynced, shows_imprint _ i⟩ _ _ _
  have hboth := (hstale.pull hino hwell).symm.trans (hnew.pull hino' hwell')
  have hcore : i.pulled.core = table₀.thisDirInode.pulled.core := by rw [Except.ok.inj hboth]
  have hsame : i.core.iMode = table₀.thisDirInode.core.iMode :=
    congrArg Inode.Core.iMode hcore
  rw [hmode, hmode'] at hsame
  exact absurd hsame (by decide)

/-- The root's transaction is checkpointed first. -/
def ownLast : List (Action Bool) :=
  renamed ++ [.checkpoint Uuid.rootIno, .checkpoint newDir]

theorem ownLast_legal : StepsMeet step (fun s a => Legal s.volume a) fresh ownLast :=
  renamed_legal.append fun _ _ => ⟨trivial, fun _ _ => ⟨trivial, fun _ _ => trivial⟩⟩

/-- There is a transaction of "/b" still to come when the root's is written. -/
theorem ownLast_turn : StepsMeet step (fun s a => s.volume.InTurn a) fresh ownLast := by
  refine renamed_turn.append fun s hs => ?_
  obtain ⟨s₀, tx, t, i, self, hr₀, hq₀, hidle, hcreated, hempty, hself, -, hfiles, -⟩ := renamed_run
  obtain rfl := Option.some.inj (hs.symm.trans hr₀)
  have hne : newDir ≠ Uuid.rootIno := by decide
  have hqnew : s.volume.queues newDir = [t] := by
    rw [hq₀, Function.update_of_ne hne, Function.update_self]
  have hqroot : s.volume.queues Uuid.rootIno = [tx] := by rw [hq₀, Function.update_self]
  refine ⟨fun tx' queue hq _ u j hl hlast => ?_, fun s₁ h₁ => ⟨fun t' queue hq _ u j hl _ => ?_,
    fun _ _ => trivial⟩⟩
  · cases hqroot.symm.trans hq
    have hmem := AList.mem_lookup_iff.mp hl
    rw [hfiles] at hmem
    cases List.mem_singleton.mp hmem
    have hline : s.volume.line newDir = [t] := by
      unfold line taken waiting pending AList.lookup
      rw [hqnew, (hidle _).1, (hidle _).2]
      rfl
    unfold behind at hlast
    rw [if_neg hne, hline] at hlast
    have hown : t.own = none := hlast
    rw [own_of_kept (by rw [hcreated]; decide), hself] at hown
    cases hown
  · rw [(written_of_step hqroot h₁).queues, Function.update_of_ne hne, hqnew] at hq
    cases hq
    rw [hempty] at hl
    cases hl

/-- Everything is checkpointed in the end. -/
theorem ownLast_run : ∃ s, run step fresh ownLast = some s ∧ ∀ dir, s.volume.line dir = [] := by
  obtain ⟨s₀, tx, t, i, self, hr₀, hq₀, hidle, hcreated, -, -, hunchanged, -⟩ := renamed_run
  have hne : newDir ≠ Uuid.rootIno := by decide
  have hqroot : s₀.volume.queues Uuid.rootIno = [tx] := by rw [hq₀, Function.update_self]
  obtain ⟨s₁, h₁⟩ := root_checkpoint renamed_legal not_mem_renamed hr₀ hqroot hunchanged
  have hw₁ := written_of_step hqroot h₁
  have hqnew : s₁.volume.queues newDir = [t] := by
    rw [hw₁.queues, Function.update_of_ne hne, hq₀, Function.update_of_ne hne,
      Function.update_self]
  have hr₁ : run step fresh (renamed ++ [.checkpoint Uuid.rootIno]) = some s₁ :=
    run_append.mpr ⟨s₀, hr₀, run_cons.mpr ⟨s₁, h₁, rfl⟩⟩
  have hlegal₁ : StepsMeet step (fun s a => Legal s.volume a) fresh
      (renamed ++ [.checkpoint Uuid.rootIno]) :=
    renamed_legal.append fun _ _ => ⟨trivial, fun _ _ => trivial⟩
  have hreg₁ := regular_run fresh_start.volume.regular hlegal₁ hr₁
  obtain ⟨s₂, h₂⟩ := checkpoint_exists hreg₁ hqnew (by rw [hcreated]; decide)
    fun hs => by rw [hcreated] at hs; cases hs
  refine ⟨s₂, run_append.mpr ⟨s₀, hr₀, run_cons.mpr ⟨s₁, h₁, run_cons.mpr ⟨s₂, h₂, rfl⟩⟩⟩, ?_⟩
  refine line_eq_nil hidle (fun d hroot hd => ?_) hw₁ (written_of_step hqnew h₂)
  rw [hq₀, Function.update_of_ne hroot, Function.update_of_ne hd]

theorem newest_wins_ownLast :
    (∃ s, run step fresh ownLast = some s ∧ ∀ dir, s.volume.line dir = []) ∧
    StepsMeet step (fun s _ => s.volume.Newest) fresh ownLast ∧
      ∀ s', run step fresh ownLast = some s' → s'.volume.Newest :=
  ⟨ownLast_run, newest_wins fresh_start ownLast_legal ownLast_turn⟩

end Shared

end Nmfs
