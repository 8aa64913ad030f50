import Nmfs.Fs.PoolNames
import Nmfs.Fs.Journals

/-
  Crashes between two commits. What recovery finds is what has been committed, and `commit` takes
  the directories one by one in the order of a hash map. A new directory is a name in one
  transaction and an inode in another one, and so is a file that a rename takes to another directory.
-/

namespace Nmfs

open Lib RadosIo Cluster

/-! ## Files on the move -/

/-- A volume, and what is needed to say where a file should be found. -/
structure Moving (C : Type) where
  volume : Volume C
  /-- the directories that renames have taken a durable file from and to, the last one first -/
  trail : Uuid → List Uuid

namespace Moving

open Volume Refinement

variable {C : Type} [DecidableEq C]

/-- What a crash leaves: the `sync` of what has been committed, in commit order. -/
def recovered (base : Pool) (txs : List Transaction) : Pool :=
  txs.foldl (fun pool tx => (tx.sync pool).2) base

omit [DecidableEq C] in
/-- The directory has a name for the number in memory. -/
def lists (s : Cluster C) (dir u : Uuid) : Bool :=
  (s.tables dir).any fun t => t.dentries.childList.entries.any fun e => e.2 = u

/-- The first half of a rename to another directory. -/
def takesAway : Operation → Bool
  | .localRenameSrc _ | .rpcRenameSrc _ => true
  | _ => false

/-- A rename of a file that is durable begins its trail, and later ones go on with it. It ends when
    the file is removed. -/
def nextTrail (pool : Pool) (s s' : Cluster C) (trail : Uuid → List Uuid) (dir : Uuid)
    (takes : Bool) (u : Uuid) : List Uuid :=
  match lists s dir u, lists s' dir u with
  | true, false => if takes then (if hasEntry pool dir u then [dir] else trail u) else []
  | false, true => if trail u = [] then [] else dir :: trail u
  | _, _ => trail u

def step (base : Pool) (s : Moving C) (a : Action C) : Option (Moving C) :=
  (Volume.step s.volume a).map fun v =>
    ⟨v, match a with
      | .perform dir o => nextTrail (recovered base s.volume.committed) s.volume.cluster v.cluster
          s.trail dir (takesAway o)
      | .rmdir _ dir _ _ => nextTrail (recovered base s.volume.committed) s.volume.cluster
          v.cluster s.trail dir false
      | _ => s.trail⟩

/-- Every name stands for an inode that is there, and a file that was durable when it was renamed is
    in the directory that it was taken from or in one that it was taken to. -/
structure Consistent (base : Pool) (s : Moving C) : Prop where
  inodes : ∀ dir name u, namesIn (recovered base s.volume.committed) dir name = some u →
    RadosIo.exist (recovered base s.volume.committed) .inode u.toStr = true
  kept : ∀ u, s.trail u ≠ [] →
    ∃ dir ∈ s.trail u, hasEntry (recovered base s.volume.committed) dir u = true

/-- The order of the commits: the inode of a new directory before its name, the new name of a file
    before the old one goes, and the name of a removed directory before its inode goes. -/
structure Safe (pool : Pool) (trail : Uuid → List Uuid) (dir : Uuid) (tx : Transaction) : Prop where
  made : tx.status ≠ .S_DELETED → ∀ name u, tx.dentries.lookup name = some (true, u) →
    (∀ i, tx.fInodes.lookup u ≠ some (some i)) → RadosIo.exist pool .inode u.toStr = true
  moved : ∀ u, dir ∈ trail u → hasEntry pool dir u = true →
    (∀ name, namesAfter pool tx name ≠ some u) → ∃ d ∈ trail u, d ≠ dir ∧ hasEntry pool d u = true
  removed : tx.status = .S_DELETED → ∀ d, d ≠ dir → hasEntry pool d dir = false
  fits : ∀ d, Dentry.load pool dir (tx.status = .S_CREATED) = .ok d →
    (Transaction.applyDentries tx.dentries.entries d).serialize.length ≤ Dentry.MAX_DENTRY_OBJ_SIZE

def InTurn (base : Pool) (s : Moving C) : Action C → Prop
  | .commit dir => ∀ tx, s.volume.waiting dir = some tx →
    Safe (recovered base s.volume.committed) s.trail dir tx
  | _ => True

section

variable {pool : Pool} {trail : Uuid → List Uuid} {dir u : Uuid} {tx : Transaction}

theorem recovered_concat (base : Pool) (txs : List Transaction) :
    recovered base (txs ++ [tx]) = (tx.sync (recovered base txs)).2 := by
  unfold recovered
  rw [List.foldl_append]
  rfl

/-- A commit that comes in the right order leaves no name without an inode. -/
theorem Safe.inodes (h : Safe pool trail dir tx) (hok : TxOk (fun _ => True) dir tx)
    (hw : WellStored pool)
    (hpool : ∀ d name u, namesIn pool d name = some u → RadosIo.exist pool .inode u.toStr = true)
    {d : Uuid} {name : Bytes} (hn : namesIn (tx.sync pool).2 d name = some u) :
    RadosIo.exist (tx.sync pool).2 .inode u.toStr = true := by
  by_cases hd : d = dir
  · subst hd
    rcases namesIn_sync_cases hok hw h.fits with ⟨hload, hafter⟩ | hnone
    · rw [hafter] at hn
      unfold namesAfter at hn
      by_cases hs : tx.status = .S_DELETED
      · rw [if_pos hs] at hn
        cases hn
      · rw [if_neg hs] at hn
        obtain ⟨f, hf⟩ := hload.resolve_left hs
        have hkeep : RadosIo.exist pool .inode u.toStr = true →
            RadosIo.exist (tx.sync pool).2 .inode u.toStr = true :=
          exist_sync hok hw fun hdel => absurd hdel hs
        unfold overlay at hn
        split at hn
        · split at hn
          · cases hn
          · exact hkeep (hpool _ name u hn)
        · rename_i v hl
          cases hn
          by_cases hi : ∀ i, tx.fInodes.lookup u ≠ some (some i)
          · exact hkeep (h.made hs name u hl hi)
          · obtain ⟨i, hi⟩ := not_forall_not.mp hi
            exact exist_sync_file hok hw hs hf hi
        · cases hn
    · rw [(hnone name).1] at hn
      cases hn
  · rw [namesIn_sync_ne hok hw hd] at hn
    refine exist_sync hok hw (fun hs => ?_) (hpool d name u hn)
    rintro rfl
    have := h.removed hs d hd
    rw [hasEntry_iff.mpr ⟨name, hn⟩] at this
    cases this

/-- Nor a file without a name. -/
theorem Safe.kept (h : Safe pool trail dir tx) (hok : TxOk (fun _ => True) dir tx)
    (hw : WellStored pool) (hu : ∃ d ∈ trail u, hasEntry pool d u = true) :
    ∃ d ∈ trail u, hasEntry (tx.sync pool).2 d u = true := by
  have hother : ∀ d ∈ trail u, d ≠ dir → hasEntry pool d u = true →
      ∃ d ∈ trail u, hasEntry (tx.sync pool).2 d u = true := by
    intro d hd hne he
    refine ⟨d, hd, hasEntry_iff.mpr ?_⟩
    rw [namesIn_sync_ne hok hw hne]
    exact hasEntry_iff.mp he
  obtain ⟨d, hd, he⟩ := hu
  by_cases hne : d = dir
  · subst hne
    by_cases hafter : ∀ name, namesAfter pool tx name ≠ some u
    · obtain ⟨d', hd', hne', he'⟩ := h.moved u hd he hafter
      exact hother d' hd' hne' he'
    · obtain ⟨name, hn⟩ := not_forall_not.mp hafter
      refine ⟨d, hd, hasEntry_iff.mpr ⟨name, ?_⟩⟩
      rcases namesIn_sync_cases hok hw h.fits with ⟨-, heq⟩ | hnone
      · rw [heq]
        exact hn
      · obtain ⟨name', hn'⟩ := hasEntry_iff.mp he
        rw [(hnone name').2] at hn'
        cases hn'
  · exact hother d hd hne he

end

/-! ## Runs -/

variable {base : Pool} {s s' : Moving C} {a : Action C}

theorem step_volume (hs : step base s a = some s') : Volume.step s.volume a = some s'.volume := by
  obtain ⟨v, hv, rfl⟩ := Option.map_eq_some_iff.mp hs
  exact hv

/-- What every step keeps. -/
structure Sane (base : Pool) (s : Moving C) : Prop where
  tidy : s.volume.Tidy
  told : ∀ c, Told (s.volume.cluster.jtables c) ∧ Told (s.volume.cycle c)
  stored : WellStored (recovered base s.volume.committed)
  consistent : Consistent base s

omit [DecidableEq C] in
theorem nextTrail_cases (pool : Pool) (c c' : Cluster C) (trail : Uuid → List Uuid) (dir : Uuid)
    (takes : Bool) (u : Uuid) : nextTrail pool c c' trail dir takes u = [] ∨
      nextTrail pool c c' trail dir takes u = trail u ∨
      (nextTrail pool c c' trail dir takes u = [dir] ∧ hasEntry pool dir u = true) ∨
      (nextTrail pool c c' trail dir takes u = dir :: trail u ∧ trail u ≠ []) := by
  unfold nextTrail
  split
  · split
    · split
      · exact .inr (.inr (.inl ⟨rfl, ‹_›⟩))
      · exact .inr (.inl rfl)
    · exact .inl rfl
  · split
    · exact .inl rfl
    · exact .inr (.inr (.inr ⟨rfl, ‹_›⟩))
  · exact .inr (.inl rfl)

omit [DecidableEq C] in
/-- A new trail begins where the file is. -/
theorem nextTrail_kept {pool : Pool} {c c' : Cluster C} {trail : Uuid → List Uuid} {dir : Uuid}
    {takes : Bool} {u : Uuid} (h : trail u ≠ [] → ∃ d ∈ trail u, hasEntry pool d u = true)
    (hu : nextTrail pool c c' trail dir takes u ≠ []) :
    ∃ d ∈ nextTrail pool c c' trail dir takes u, hasEntry pool d u = true := by
  rcases nextTrail_cases pool c c' trail dir takes u with hnil | hsame | ⟨hstart, he⟩ | ⟨hgo, hne⟩
  · exact absurd hnil hu
  · rw [hsame] at hu ⊢
    exact h hu
  · rw [hstart]
    exact ⟨dir, List.mem_singleton.mpr rfl, he⟩
  · rw [hgo]
    obtain ⟨d, hd, he⟩ := h hne
    exact ⟨d, List.mem_cons_of_mem _ hd, he⟩

theorem committed_of_step {s s' : Volume C} (ha : ∀ dir, a ≠ .commit dir)
    (hs : Volume.step s a = some s') : s'.committed = s.committed := by
  cases a with
  | perform dir o =>
      obtain ⟨led, hl, rfl⟩ := Option.map_eq_some_iff.mp hs
      rfl
  | mkdir me env dir name mode born => cases hs; rfl
  | rmdir me dir name ts => cases hs; rfl
  | handle i pIno change => cases hs; rfl
  | replace me =>
      obtain ⟨-, rfl⟩ := replace_of_step hs
      rfl
  | commit dir => exact absurd rfl (ha dir)
  | checkpoint dir =>
      unfold Volume.step at hs
      dsimp only at hs
      split at hs
      · cases hs
      · split at hs
        · cases hs
        · cases hs
          rfl

/-- A commit that comes in the right order. -/
theorem Sane.commit (h : Sane base s) {dir : Uuid} (ht : InTurn base s (.commit dir))
    (hs : step base s (.commit dir) = some s') :
    WellStored (recovered base s'.volume.committed) ∧ Consistent base s' := by
  obtain ⟨tx, hc⟩ := commits_of_step (step_volume hs)
  have htrail : s'.trail = s.trail := by
    obtain ⟨v, -, rfl⟩ := Option.map_eq_some_iff.mp hs
    rfl
  have hok : TxOk (fun _ => True) dir tx := (h.told _).2 dir tx hc.waiting
  have hsafe := ht tx hc.waiting
  have hpool : recovered base s'.volume.committed =
      (tx.sync (recovered base s.volume.committed)).2 := by
    rw [hc.committed, recovered_concat]
    rfl
  refine ⟨?_, ?_, ?_⟩
  · rw [hpool]
    exact sync_wellStored h.stored
  · rw [hpool]
    exact fun d name u hn => hsafe.inodes hok h.stored h.consistent.inodes hn
  · rw [hpool, htrail]
    exact fun u hu => hsafe.kept hok h.stored (h.consistent.kept u hu)

theorem Sane.step (h : Sane base s) (ha : Legal s.volume a) (ht : InTurn base s a)
    (hs : Moving.step base s a = some s') : Sane base s' := by
  have hv := step_volume hs
  have htidy := h.tidy.step ha hv
  have htold := told_step (fun c => (h.told c).1) h.tidy ha hv
  have hcycle := told_cycle_step (fun c => (h.told c).1) (fun c => (h.told c).2) hv
  by_cases hc : ∃ dir, a = .commit dir
  · obtain ⟨dir, rfl⟩ := hc
    obtain ⟨hstored, hconsistent⟩ := h.commit ht hs
    exact ⟨htidy, fun c => ⟨htold c, hcycle c⟩, hstored, hconsistent⟩
  · have hsame := committed_of_step (fun dir heq => hc ⟨dir, heq⟩) hv
    refine ⟨htidy, fun c => ⟨htold c, hcycle c⟩, by rw [hsame]; exact h.stored, ?_, ?_⟩
    · rw [hsame]
      exact h.consistent.inodes
    · rw [hsame]
      intro u hu
      have hold := h.consistent.kept u
      obtain ⟨v, -, rfl⟩ := Option.map_eq_some_iff.mp hs
      cases a with
      | perform dir o => exact nextTrail_kept hold hu
      | rmdir me dir name ts => exact nextTrail_kept hold hu
      | mkdir _ _ _ _ _ _ | handle _ _ _ | replace _ | commit _ | checkpoint _ => exact hold hu

/-- Nothing has been renamed yet. -/
structure Start (s : Moving C) : Prop where
  volume : s.volume.Start
  committed : s.volume.committed = []
  trail : ∀ u, s.trail u = []
  inodes : ∀ dir name u, namesIn s.volume.pool dir name = some u →
    RadosIo.exist s.volume.pool .inode u.toStr = true

omit [DecidableEq C] in
theorem Start.sane (h : s.Start) : Sane s.volume.pool s := by
  have hempty : Told ∅ := fun _ _ hl => (nomatch hl)
  refine ⟨h.volume.tidy, fun c => ?_, ?_, ?_, fun u hu => absurd (h.trail u) hu⟩
  · rw [(h.volume.idle c).1, (h.volume.idle c).2]
    exact ⟨hempty, hempty⟩
  · rw [h.committed]
    exact h.volume.stored
  · rw [h.committed]
    exact h.inodes

/-- A run in which every commit comes in the right order: a crash at any point of it leaves no name
    without an inode, and no file that was durable when it was renamed without a name. -/
theorem crash_consistent {as : List (Action C)} (h : s.Start)
    (hlegal : StepsMeet (Moving.step s.volume.pool) (fun s a => Legal s.volume a) s as)
    (hturn : StepsMeet (Moving.step s.volume.pool) (InTurn s.volume.pool) s as) :
    StepsMeet (Moving.step s.volume.pool) (fun t _ => Consistent s.volume.pool t) s as ∧
      ∀ s', run (Moving.step s.volume.pool) s as = some s' → Consistent s.volume.pool s' := by
  have hstep : ∀ (t : Moving C) (a : Action C) t', Sane s.volume.pool t →
      Legal t.volume a ∧ InTurn s.volume.pool t a →
      Moving.step s.volume.pool t a = some t' → Sane s.volume.pool t' :=
    fun t a t' ht ha hs => ht.step ha.1 ha.2 hs
  have hmeet := hlegal.and hturn
  refine ⟨.of_invariant hstep (fun t a ht _ => ht.consistent) h.sane hmeet, fun s' hr => ?_⟩
  exact (run_invariant_of_stepsMeet hstep h.sane hmeet hr).consistent

/-! ## A new directory -/

open Placement

def fresh : Moving Bool := ⟨Volume.fresh, fun _ => []⟩

def newDir : Uuid := (envOf 1).newIno

theorem load_fresh : ∃ d, Dentry.load Volume.fresh.pool Uuid.rootIno false = .ok d ∧
    d.childList.entries = [] := by
  have hw : WellStored ∅ := fun _ _ => ⟨none, fun _ => AList.lookup_empty _⟩
  have hfit : (Dentry.mk Uuid.rootIno ∅).serialize.length ≤ Dentry.MAX_DENTRY_OBJ_SIZE := by
    show 8 ≤ objSize
    rw [objSize_eq]
    decide
  obtain ⟨d, hd, hperm⟩ := load_synced (d := ⟨Uuid.rootIno, ∅⟩) hw (fun e he => (nomatch he)) hfit
  exact ⟨d, hd, List.perm_nil.mp hperm⟩

/-- There is nothing else in the pool. -/
theorem fresh_storedAs {c : ObjCategory} {k : Str} (h : (c, k) ≠ (.dentry, Uuid.rootIno.toStr)) :
    StoredAs Volume.fresh.pool c k none := by
  have hempty : StoredAs ∅ c k none := fun _ => AList.lookup_empty _
  exact (frame_write_file _ _).storedAs h hempty

/-- One more name of one byte. -/
theorem fits_one {d : Dentry} (hd : d.childList.entries = []) (b : UInt8) (u : Uuid) :
    (Transaction.applyDentries [⟨[b], (true, u)⟩] d).serialize.length ≤
      Dentry.MAX_DENTRY_OBJ_SIZE := by
  have hentries : (d.addChild [b] u).childList.entries = [⟨[b], u⟩] := by
    show (d.childList.insert [b] u).entries = _
    rw [AList.entries_insert, hd]
    rfl
  have hlen : (Transaction.applyDentries [⟨[b], (true, u)⟩] d).serialize.length = 29 := by
    show (Dentry.serialize (d.addChild [b] u)).length = 29
    unfold Dentry.serialize Dentry.getChildNum
    rw [hentries]
    simp [Dentry.childBytes, leBytes_length, u.2]
  rw [hlen]
  show 29 ≤ objSize
  rw [objSize_eq]
  decide

theorem txOk_name {tx : Transaction} {dir u : Uuid} {b : UInt8} (hb : b ≠ 0) (hino : tx.sIno = dir)
    (hentries : tx.dentries.entries = [⟨[b], (true, u)⟩])
    (hself : tx.sInode.map Inode.ino = some dir) (hfiles : tx.fInodes = ∅) :
    TxOk (fun _ => False) dir tx := by
  refine ⟨hino, fun n v hn => ?_, fun i hi => ?_, fun u i hu => ?_⟩
  · have hmem := AList.mem_lookup_iff.mp hn
    rw [hentries] at hmem
    cases List.mem_singleton.mp hmem
    exact ⟨by simp [hb.symm], by simp⟩
  · rw [hi] at hself
    exact Option.some.inj hself
  · rw [hfiles] at hu
    cases hu

/-- "/a" is made, and the transaction of the root is the first one to be committed. -/
def nameFirst : List (Action Bool) :=
  [.mkdir false (envOf 1) Uuid.rootIno [97] 0x41ED clock, .replace false, .commit Uuid.rootIno]

theorem nameFirst_run : ∃ s tx, run (Moving.step Volume.fresh.pool) fresh nameFirst = some s ∧
    s.volume.committed = [tx] ∧ tx.sIno = Uuid.rootIno ∧ tx.status = .S_UNCHANGED ∧
    tx.dentries.entries = [⟨[97], (true, newDir)⟩] ∧ tx.fInodes = ∅ ∧
    tx.sInode.map Inode.ino = some Uuid.rootIno :=
  ⟨_, _, rfl, rfl, rfl, rfl, rfl, rfl, rfl⟩

theorem fresh_start : fresh.Start := by
  refine ⟨Volume.fresh_start, rfl, fun _ => rfl, fun dir name u hn => ?_⟩
  unfold namesIn at hn
  by_cases hd : dir = Uuid.rootIno
  · obtain ⟨d, hload, hempty⟩ := load_fresh
    have hmem : ∃ d', Dentry.load fresh.volume.pool dir false = .ok d' ∧ d'.childList.entries = [] :=
      ⟨d, hd ▸ hload, hempty⟩
    obtain ⟨d', hd', hempty'⟩ := hmem
    rw [hd'] at hn
    have := AList.mem_lookup_iff.mp hn
    rw [hempty'] at this
    cases this
  · have hnone : StoredAs fresh.volume.pool .dentry dir.toStr none := by
      refine fresh_storedAs fun heq => hd ?_
      exact Uuid.toStr_inj (Prod.mk.inj heq).2
    rw [load_absent hnone] at hn
    cases hn

theorem legal_mkdir : Legal Volume.fresh
    (.mkdir false (envOf 1) Uuid.rootIno [97] 0x41ED clock) :=
  ⟨⟨⟨by decide, by decide⟩, by decide⟩, by decide, by decide⟩

/-- A crash leaves the name "a" in the root, and no inode. -/
theorem name_without_inode : fresh.Start ∧
    StepsMeet (Moving.step Volume.fresh.pool) (fun s a => Legal s.volume a) fresh nameFirst ∧
    ∃ s, run (Moving.step Volume.fresh.pool) fresh nameFirst = some s ∧
      ¬ Consistent Volume.fresh.pool s := by
  refine ⟨fresh_start, ⟨legal_mkdir, fun _ _ => ⟨trivial, fun _ _ => ⟨trivial, fun _ _ => trivial⟩⟩⟩, ?_⟩
  obtain ⟨s, tx, hr, hcommitted, hino, hstatus, hentries, hfiles, hself⟩ := nameFirst_run
  refine ⟨s, hr, fun h => ?_⟩
  have hok := txOk_name (by decide) hino hentries hself hfiles
  obtain ⟨d, hd, hempty⟩ := load_fresh
  have hcreated : decide (tx.status = .S_CREATED) = false := by rw [hstatus]; rfl
  have hload : Dentry.load Volume.fresh.pool Uuid.rootIno (tx.status = .S_CREATED) = .ok d := by
    rw [hcreated]
    exact hd
  have hnames := namesIn_sync hok Volume.fresh_stored (.inr ⟨d, hload⟩) fun d' hd' => by
    rw [hload] at hd'
    cases hd'
    rw [hentries]
    exact fits_one hempty 97 newDir
  have hexist := h.inodes Uuid.rootIno [97] newDir
  rw [hcommitted] at hexist
  have hpool : recovered Volume.fresh.pool [tx] = (tx.sync Volume.fresh.pool).2 := rfl
  rw [hpool, hnames] at hexist
  have hnamed : namesAfter Volume.fresh.pool tx [97] = some newDir := by
    have hl : tx.dentries.lookup [97] = some (true, newDir) :=
      AList.mem_lookup_iff.mpr (by rw [hentries]; exact List.mem_cons_self)
    unfold namesAfter overlay
    rw [if_neg (by rw [hstatus]; decide), hl]
  have hnone : StoredAs (tx.sync Volume.fresh.pool).2 .inode newDir.toStr none := by
    refine sync_storedAs hok (fun heq => nomatch (Prod.mk.inj heq).1) (fun heq => ?_)
      (fun u hu => hu.elim) (fresh_storedAs fun heq => nomatch (Prod.mk.inj heq).1)
    exact absurd (Uuid.toStr_inj (Prod.mk.inj heq).2) (by decide)
  have hlost := hexist hnamed
  rw [Journal.exist_of_storedAs hnone] at hlost
  cases hlost

/-- The transaction of "/a" is the first one. -/
def inodeFirst : List (Action Bool) :=
  [.mkdir false (envOf 1) Uuid.rootIno [97] 0x41ED clock, .replace false, .commit newDir,
    .commit Uuid.rootIno]

theorem inodeFirst_run : ∃ s₀ s₁ s₂ tx₁ tx₂,
    Moving.step Volume.fresh.pool fresh (.mkdir false (envOf 1) Uuid.rootIno [97] 0x41ED clock) =
      some s₀ ∧
    Moving.step Volume.fresh.pool s₀ (.replace false) = some s₁ ∧
    Moving.step Volume.fresh.pool s₁ (.commit newDir) = some s₂ ∧ s₁.trail = (fun _ => []) ∧
    s₁.volume.committed = [] ∧ s₁.volume.waiting newDir = some tx₁ ∧ tx₁.status = .S_CREATED ∧
    tx₁.dentries = ∅ ∧ s₂.trail = (fun _ => []) ∧ s₂.volume.committed = [{ tx₁ with
      committed := true
      offset := (RadosIo.stat s₁.volume.pool .journal tx₁.sIno.toStr).2 }] ∧
    tx₁.sIno = newDir ∧ tx₁.sInode.map Inode.ino = some newDir ∧ tx₁.fInodes = ∅ ∧
    s₂.volume.waiting Uuid.rootIno = some tx₂ ∧ tx₂.status = .S_UNCHANGED ∧
    tx₂.dentries.entries = [⟨[97], (true, newDir)⟩] :=
  ⟨_, _, _, _, _, rfl, rfl, rfl, rfl, rfl, rfl, rfl, rfl, rfl, rfl, rfl, rfl, rfl, rfl, rfl, rfl⟩

theorem inodeFirst_turn :
    StepsMeet (Moving.step Volume.fresh.pool) (InTurn Volume.fresh.pool) fresh inodeFirst := by
  obtain ⟨s₀, s₁, s₂, tx₁, tx₂, h₀, h₁, h₂, htrail₁, hcommitted₁, hwaiting₁, hcreated, hempty,
    htrail₂, hcommitted₂, hino, hself, hfiles, hwaiting₂, hunchanged, hentries⟩ := inodeFirst_run
  refine .cons trivial h₀ (.cons trivial h₁ (.cons (fun tx htx => ?_) h₂
    ⟨fun tx htx => ?_, fun _ _ => trivial⟩))
  · obtain rfl := Option.some.inj (hwaiting₁.symm.trans htx)
    refine ⟨fun _ name u hl => ?_, fun u hu => ?_, fun hs => ?_, fun d hd => ?_⟩
    · rw [hempty] at hl
      cases hl
    · rw [htrail₁] at hu
      cases hu
    · rw [hcreated] at hs
      cases hs
    · rw [hcreated] at hd
      cases hd
      rw [hempty]
      show 8 ≤ objSize
      rw [objSize_eq]
      decide
  · obtain rfl := Option.some.inj (hwaiting₂.symm.trans htx)
    have hok : TxOk (fun _ => False) newDir { tx₁ with
        committed := true
        offset := (RadosIo.stat s₁.volume.pool .journal tx₁.sIno.toStr).2 } := by
      refine ⟨hino, fun n v hn => ?_, fun i hi => ?_, fun u i hu => ?_⟩
      · rw [hempty] at hn
        cases hn
      · rw [hi] at hself
        exact Option.some.inj hself
      · rw [hfiles] at hu
        cases hu
    rw [hcommitted₂]
    refine ⟨fun _ name u hl _ => ?_, fun u hu => ?_, fun hs => ?_, fun d hd => ?_⟩
    · have hmem := AList.mem_lookup_iff.mp hl
      rw [hentries] at hmem
      cases List.mem_singleton.mp hmem
      obtain ⟨i, hi, hu⟩ := Option.map_eq_some_iff.mp hself
      refine exist_sync_self hok Volume.fresh_stored ?_ (.inr ⟨i, hi, hu⟩)
      show tx₁.status ≠ .S_DELETED
      rw [hcreated]
      decide
    · rw [htrail₂] at hu
      cases hu
    · rw [hunchanged] at hs
      cases hs
    · obtain ⟨d', hd', hempty'⟩ := load_fresh
      have hopen : decide (tx₂.status = .S_CREATED) = false := by rw [hunchanged]; rfl
      have hsame := load_frame Volume.fresh_stored false fun x hx =>
        sync_storedAs hok (c := .dentry) (k := Uuid.rootIno.toStr)
          (fun heq => absurd (Uuid.toStr_inj (Prod.mk.inj heq).2) (by decide))
          (fun heq => nomatch (Prod.mk.inj heq).1) (fun _ hu => hu.elim) hx
      rw [hopen] at hd
      have hload := hsame.symm.trans hd
      rw [hd'] at hload
      cases hload
      rw [hentries]
      exact fits_one hempty' 97 newDir

theorem crash_consistent_inodeFirst :
    StepsMeet (Moving.step Volume.fresh.pool) (fun t _ => Consistent Volume.fresh.pool t) fresh
        inodeFirst ∧
      ∀ s', run (Moving.step Volume.fresh.pool) fresh inodeFirst = some s' →
        Consistent Volume.fresh.pool s' :=
  crash_consistent fresh_start
    ⟨legal_mkdir, fun _ _ => ⟨trivial, fun _ _ => ⟨trivial, fun _ _ => ⟨trivial, fun _ _ => trivial⟩⟩⟩⟩
    inodeFirst_turn

end Moving

end Nmfs
