import Nmfs.Fs.Course
import Nmfs.Fs.PoolNames

/-
  The calls of a directory, cut into transactions in one way or another. What the checkpoints leave
  is the same wherever the commits fall, up to the INODE objects of removed files: nothing removes
  them, so it is the last transaction that ends before the removal that is still there.
-/

namespace Nmfs

open Lib RadosIo Transaction

namespace Batching

open Course Volume

/-- The calls, cut into transactions. A commit that finds none makes none. -/
structure Cutting (ms : List Mutation) where
  pieces : List (List Mutation)
  flatten : pieces.flatten = ms
  nonempty : [] ∉ pieces

def commitAll : List Transaction → Pool → Except Err (List Transaction × Pool)
  | [], pool => .ok ([], pool)
  | tx :: txs, pool =>
    match tx.commit pool with
    | .error e => .error e
    | .ok (tx, pool) => (commitAll txs pool).map fun (txs, pool) => (tx :: txs, pool)

/-- Each piece is a transaction of its own. -/
def transactions (dir : Uuid) (pieces : List (List Mutation)) : List Transaction :=
  pieces.map (Transaction.new dir).mutate

/-- The transactions are committed, and then checkpointed in the same order. -/
def writeOut (dir : Uuid) (pieces : List (List Mutation)) (pool : Pool) : Except Err Unit × Pool :=
  match commitAll (transactions dir pieces) pool with
  | .error e => (.error e, pool)
  | .ok (txs, pool) => Refinement.checkpointAll txs pool

/-- The children that the DENTRY object spells. -/
def childrenIn (pool : Pool) (dir : Uuid) : Option (Bytes → Option Uuid) :=
  (Dentry.load pool dir false).toOption.map fun d => d.childList.lookup

/-- The same DENTRY objects, with the same children, and the same INODE objects. -/
structure SameObjects (pool pool' : Pool) : Prop where
  exist : ∀ dir : Uuid,
    RadosIo.exist pool' .dentry dir.toStr = RadosIo.exist pool .dentry dir.toStr
  children : ∀ dir, childrenIn pool' dir = childrenIn pool dir
  inodes : ∀ (u : Uuid) x, StoredAs pool .inode u.toStr x ↔ StoredAs pool' .inode u.toStr x

/-- The inode of the number in the last transaction that has one. -/
def written (u : Uuid) (pieces : List (List Mutation)) : Option Inode :=
  pieces.foldl (fun w ms => (recorded u ms).join.or w) none

/-- What a write of the inode makes of the INODE object. -/
def imprint (x : Option Bytes) : Option Inode → Option Bytes
  | none => x
  | some i => some (overwrite 0 (x.getD []) 0 i.serialize)

/-- The DENTRY object of the children is not longer than the buffer it is read into. -/
def Fits (dir : Uuid) (c : Course) : Prop :=
  (Dentry.mk dir c.children).serialize.length ≤ Dentry.MAX_DENTRY_OBJ_SIZE

instance (dir : Uuid) (c : Course) : Decidable (Fits dir c) := inferInstanceAs (Decidable (_ ≤ _))

/-- At every commit but the last one. -/
def FitsBetween (dir : Uuid) : Course → List (List Mutation) → Prop
  | _, [] => True
  | _, [_] => True
  | c, ms :: ms' :: rest =>
    Fits dir (c.afterAll ms) ∧ FitsBetween dir (c.afterAll ms) (ms' :: rest)

/-! ## INODE objects -/

section

variable {pool pool' : Pool} {dir u : Uuid} {x : Option Bytes} {c c₀ : Course} {ms : List Mutation}
  {tx : Transaction}

/-- The later write is the one that counts. -/
theorem imprint_imprint (x : Option Bytes) {a b : Option Inode}
    (h : ∀ i j, a = some i → b = some j → i.core.linkTargetLen = j.core.linkTargetLen) :
    imprint (imprint x a) b = imprint x (b.or a) := by
  cases a with
  | none => cases b <;> rfl
  | some i =>
      cases b with
      | none => rfl
      | some j =>
          have hlen : i.serialize.length = j.serialize.length := by
            rw [Inode.serialize_length, Inode.serialize_length, h i j rfl rfl]
          show some (overwrite 0 (overwrite 0 (x.getD []) 0 i.serialize) 0 j.serialize) =
            some (overwrite 0 (x.getD []) 0 j.serialize)
          rw [Journal.overwrite_zero, Journal.overwrite_zero, Journal.overwrite_zero, ← hlen,
            List.drop_left]

theorem imprint_copy (x : Option Bytes) (i : Option Inode) :
    imprint x (i.map Inode.copy) = imprint x i := by
  cases i with
  | none => rfl
  | some i =>
      show some _ = some _
      rw [Inode.serialize_copy]

theorem imprint_core (x : Option Bytes) {i j : Inode} (hcore : i.core = j.core)
    (hlen : j.core.linkTargetLen = 0) : imprint x (some i) = imprint x (some j) := by
  show some _ = some _
  rw [Journal.serialize_of_core hlen hcore]

theorem inode_imprint {i : Inode} (h : StoredAs pool .inode i.ino.toStr x) :
    StoredAs (i.sync pool) .inode i.ino.toStr (imprint x (some i)) :=
  h.write (serialize_ne_nil i) 0

theorem inode_imprint_ne {i : Inode} (h : StoredAs pool .inode u.toStr x) (hu : u ≠ i.ino) :
    StoredAs (i.sync pool) .inode u.toStr x :=
  (frame_write_file _ _).storedAs (fun heq => hu (Uuid.toStr_inj (Prod.mk.inj heq).2)) h

theorem selfSynced_imprint (hself : ∀ i, tx.sInode = some i → i.ino = dir)
    (h : StoredAs pool .inode dir.toStr x) :
    StoredAs (selfSynced tx pool) .inode dir.toStr (imprint x tx.sInode) := by
  unfold selfSynced
  cases hi : tx.sInode with
  | none => exact h
  | some i =>
      obtain rfl := hself i hi
      exact inode_imprint h

/-- The loop over `f_inodes` writes each number once. -/
theorem syncFInodes_imprint (entries : List ((_ : Uuid) × Option Inode))
    (hnodup : (entries.map Sigma.fst).Nodup)
    (hino : ∀ e ∈ entries, ∀ i, e.2 = some i → i.ino = e.1)
    (h : StoredAs pool .inode u.toStr x) :
    StoredAs (syncFInodes entries pool) .inode u.toStr
      (imprint x (entries.dlookup u).join) := by
  induction entries generalizing pool x with
  | nil => exact h
  | cons e entries ih =>
      obtain ⟨v, o⟩ := e
      rw [List.map_cons, List.nodup_cons] at hnodup
      have hino' : ∀ e ∈ entries, ∀ i, e.2 = some i → i.ino = e.1 :=
        fun e he => hino e (List.mem_cons_of_mem _ he)
      have hv : ∀ i, o = some i → i.ino = v := hino ⟨v, o⟩ List.mem_cons_self
      by_cases huv : u = v
      · subst huv
        have hnone : entries.dlookup u = none := List.dlookup_eq_none.mpr hnodup.1
        rw [List.dlookup_cons_eq]
        have hstep : StoredAs ((o.map (Inode.sync pool)).getD pool) .inode u.toStr
            (imprint x o) := by
          cases o with
          | none => exact h
          | some i =>
              obtain rfl := hv i rfl
              exact inode_imprint h
        have hrest := ih hnodup.2 hino' hstep
        rw [hnone] at hrest
        exact hrest
      · rw [List.dlookup_cons_ne _ _ huv]
        refine ih hnodup.2 hino' ?_
        cases o with
        | none => exact h
        | some i =>
            refine inode_imprint_ne h ?_
            rw [hv i rfl]
            exact huv

/-- The directory's own inode is written first, and then those of the files. -/
theorem sync_inode {live : Uuid → Prop} (h : TxOk live dir tx) (hs : tx.status ≠ .S_DELETED)
    (hok : (tx.sync pool).1 = .ok ()) (hx : StoredAs pool .inode u.toStr x) :
    StoredAs (tx.sync pool).2 .inode u.toStr
      (imprint (if u = dir then imprint x tx.sInode else x) (tx.fInodes.lookup u).join) := by
  cases hd : Dentry.load (selfSynced tx pool) dir (tx.status = .S_CREATED) with
  | error e =>
      rw [sync_of_load_error h.sIno hs hd] at hok
      cases hok
  | ok d =>
      rw [sync_of_load h.sIno hs hd]
      refine syncFInodes_imprint _ tx.fInodes.nodupKeys (fun e he i hi => ?_) ?_
      · obtain ⟨v, o⟩ := e
        cases hi
        exact (h.files v i (AList.mem_lookup_iff.mpr he)).1
      · refine (frame_write_file _ _).storedAs (fun heq => nomatch (Prod.mk.inj heq).1) ?_
        by_cases hu : u = dir
        · subst hu
          rw [if_pos rfl]
          exact selfSynced_imprint h.self hx
        · rw [if_neg hu]
          exact selfSynced_storedAs h.self
            (fun heq => hu (Uuid.toStr_inj (Prod.mk.inj heq).2)) hx

/-! ## One transaction -/

/-- The directory can be read where it has been made. -/
structure Ready (dir : Uuid) (c : Course) (pool : Pool) : Prop where
  stored : WellStored pool
  new : c.made = false → c.children = ∅
  there : c.made = true → childrenIn pool dir = some c.children.lookup
  sized : c.children.entries.length < 2 ^ 64

theorem childrenIn_eq_some {f : Bytes → Option Uuid} (h : childrenIn pool dir = some f) :
    ∃ d, Dentry.load pool dir false = .ok d ∧ d.childList.lookup = f := by
  unfold childrenIn at h
  cases hd : Dentry.load pool dir false with
  | error e =>
      rw [hd] at h
      cases h
  | ok d =>
      rw [hd] at h
      exact ⟨d, rfl, Option.some.inj h⟩

/-- What a transaction of the directory begins with. -/
theorem Ready.load (h : Ready dir c₀ pool) (ht : Carries dir c₀ c ms tx) (hmade : c.made = true) :
    ∃ d, Dentry.load pool dir (tx.status = .S_CREATED) = .ok d ∧
      d.childList.lookup = c₀.children.lookup := by
  have hs := ht.status
  rw [hmade] at hs
  cases hm : c₀.made with
  | false =>
      rw [hm, if_neg (by decide)] at hs
      refine ⟨⟨dir, ∅⟩, ?_, ?_⟩
      · rw [decide_eq_true hs]
        rfl
      · rw [h.new hm]
  | true =>
      rw [hm, if_pos rfl] at hs
      obtain ⟨d, hd, hl⟩ := childrenIn_eq_some (h.there hm)
      refine ⟨d, ?_, hl⟩
      rw [hs]
      exact hd

theorem children_perm {d : Dentry} (hl : d.childList.lookup = c.children.lookup) :
    d.childList.entries.Perm c.children.entries := by
  apply List.lookup_ext d.childList.nodupKeys c.children.nodupKeys
  intro name ino
  exact iff_of_eq (congrArg (ino ∈ ·) (congrFun hl name))

/-- What can be read of a DENTRY object. -/
theorem childrenIn_stored {d : Dentry} {post : Bytes}
    (h : StoredAs pool .dentry d.thisIno.toStr (some (d.serialize ++ post)))
    (hnames : ∀ e ∈ d.childList.entries, Dentry.NameOk e.1)
    (hsized : c.children.entries.length < 2 ^ 64) (hl : d.childList.lookup = c.children.lookup) :
    childrenIn pool d.thisIno =
      if (Dentry.mk d.thisIno c.children).serialize.length ≤ Dentry.MAX_DENTRY_OBJ_SIZE then
        some c.children.lookup
      else none := by
  have hlen : d.serialize.length = (Dentry.mk d.thisIno c.children).serialize.length :=
    Journal.serialize_length_of_lookup hl
  have hread : RadosIo.read pool .dentry d.thisIno.toStr Dentry.MAX_DENTRY_OBJ_SIZE 0 =
      headOf (some (d.serialize ++ post)) Dentry.MAX_DENTRY_OBJ_SIZE :=
    h.read objSize_pos (Nat.le_refl _)
  have hload : Dentry.load pool d.thisIno false =
      Dentry.deserialize d.thisIno (d.serialize ++ post) := by
    unfold Dentry.load
    rw [if_neg (by decide), hread]
    exact Dentry.deserialize_slice _ _
  unfold childrenIn
  rw [hload, ← hlen]
  split
  · rename_i hfit
    obtain ⟨d', hd', -, hperm⟩ := Dentry.deserialize_serialize d post hnames hfit
    rw [hd', ← hl]
    exact congrArg some (funext fun name => AList.perm_lookup hperm)
  · rename_i hlong
    have hnum : d.getChildNum < 2 ^ 64 := by
      unfold Dentry.getChildNum
      rw [(children_perm hl).length_eq]
      exact hsized
    rw [Dentry.deserialize_long d post hnames hnum (Nat.lt_of_not_le hlong)]
    rfl

/-- What the objects are, relative to what they were in `base`: `w` is what has been written of the
    files. -/
structure Left (dir : Uuid) (base : Pool) (c : Course) (w : Uuid → Option Inode) (pool : Pool) :
    Prop where
  inodes : ∀ u x, StoredAs base .inode u.toStr x →
    StoredAs pool .inode u.toStr (imprint x (if u = dir then c.self else w u))
  others : ∀ d : Uuid, d ≠ dir → ∀ x, StoredAs base .dentry d.toStr x →
    StoredAs pool .dentry d.toStr x
  self : ∀ i, c.self = some i → i.core.linkTargetLen = 0
  files : ∀ u i, w u = some i → i.core.linkTargetLen = c.targetLen u

/-- Objects that are not journals are the same. -/
def JournalOnly (pool pool' : Pool) : Prop :=
  ∀ category key x, category ≠ .journal → StoredAs pool category key x →
    StoredAs pool' category key x

theorem journalOnly_write (pool : Pool) (key : Str) (value : Bytes) (offset : Nat) :
    JournalOnly pool (RadosIo.write pool .journal key value offset).2 :=
  fun _ _ _ hc hx => (frame_write_file _ _).storedAs (fun heq => hc (Prod.mk.inj heq).1) hx

theorem JournalOnly.trans {p q r : Pool} (h : JournalOnly p q) (h' : JournalOnly q r) :
    JournalOnly p r := fun c k x hc hx => h' c k x hc (h c k x hc hx)

theorem JournalOnly.childrenIn (h : JournalOnly pool pool') (hw : WellStored pool) (d : Uuid) :
    childrenIn pool' d = childrenIn pool d := by
  unfold Batching.childrenIn
  rw [load_frame hw false fun x hx => h .dentry d.toStr x (by decide) hx]

theorem JournalOnly.ready (h : JournalOnly pool pool') (hr : Ready dir c pool)
    (hw : WellStored pool') : Ready dir c pool' := by
  refine ⟨hw, hr.new, fun hm => ?_, hr.sized⟩
  rw [h.childrenIn hr.stored]
  exact hr.there hm

theorem JournalOnly.left {base : Pool} {w : Uuid → Option Inode} (h : JournalOnly pool pool')
    (hl : Left dir base c w pool) : Left dir base c w pool' :=
  ⟨fun u x hx => h _ _ _ (by decide) (hl.inodes u x hx),
    fun d hd x hx => h _ _ _ (by decide) (hl.others d hd x hx), hl.self, hl.files⟩

/-- The INODE object of each number after the transaction. -/
theorem sync_imprint (h : Carries dir c₀ c ms tx) (hmade : c.made = true)
    (hr : Ready dir c₀ pool) (hx : StoredAs pool .inode u.toStr x) :
    StoredAs (tx.sync pool).2 .inode u.toStr
      (imprint x (if u = dir then tx.sInode else (recorded u ms).join)) := by
  have hs : tx.status ≠ .S_DELETED := by
    rw [h.status]
    split <;> decide
  obtain ⟨d, hd, -⟩ := hr.load h hmade
  have hok : (tx.sync pool).1 = .ok () := by
    rw [sync_of_load h.ok.sIno hs ((load_selfSynced h.ok.self hr.stored _).trans hd)]
  have hstored := sync_inode h.ok hs hok hx
  by_cases hu : u = dir
  · subst hu
    have hnone : (tx.fInodes.lookup u).join = none := by
      cases hl : tx.fInodes.lookup u with
      | none => rfl
      | some o =>
          cases o with
          | none => rfl
          | some i => exact absurd rfl (h.ok.files u i hl).2
    rw [if_pos rfl, hnone] at hstored
    rw [if_pos rfl]
    exact hstored
  · have hjoin : (tx.fInodes.lookup u).join = (recorded u ms).join.map Inode.copy := by
      rw [h.files u]
      cases recorded u ms with
      | none => rfl
      | some o => rfl
    rw [if_neg hu, hjoin, imprint_copy] at hstored
    rw [if_neg hu]
    exact hstored

/-- The DENTRY object after the transaction. -/
theorem sync_children (h : Carries dir c₀ c ms tx) (hmade : c.made = true)
    (hr : Ready dir c₀ pool) (hsized : c.children.entries.length < 2 ^ 64) :
    (tx.sync pool).1 = .ok () ∧ RadosIo.exist (tx.sync pool).2 .dentry dir.toStr = true ∧
      childrenIn (tx.sync pool).2 dir =
        if Fits dir c then some c.children.lookup else none := by
  have hs : tx.status ≠ .S_DELETED := by
    rw [h.status]
    split <;> decide
  obtain ⟨d, hd, hl⟩ := hr.load h hmade
  obtain ⟨hino, hnames⟩ := load_names hd
  rw [sync_of_load h.ok.sIno hs ((load_selfSynced h.ok.self hr.stored _).trans hd)]
  generalize hd' : applyDentries tx.dentries.entries d = d'
  have hthis : d'.thisIno = dir := by
    rw [← hd', applyDentries_thisIno]
    exact hino
  have hlookup : d'.childList.lookup = c.children.lookup := by
    rw [← hd', applyDentries_lookup, hl, h.children]
  have hnames' : ∀ e ∈ d'.childList.entries, Dentry.NameOk e.1 := by
    rw [← hd']
    exact applyDentries_nameOk tx.dentries.entries d
      (fun e he => h.ok.nameOk e.1 e.2 (AList.mem_lookup_iff.mpr he)) hnames
  obtain ⟨y, hy⟩ : ∃ y, StoredAs (selfSynced tx pool) .dentry dir.toStr y :=
    selfSynced_wellStored hr.stored .dentry dir.toStr
  have hstored : StoredAs (syncFInodes tx.fInodes.entries (d'.sync (selfSynced tx pool))) .dentry
      d'.thisIno.toStr (some (d'.serialize ++ (y.getD []).drop d'.serialize.length)) := by
    refine syncFInodes_storedAs _ (fun e he i hi heq => nomatch (Prod.mk.inj heq).1) ?_
    rw [← Journal.overwrite_zero]
    rw [← hthis] at hy
    exact hy.write (dentry_serialize_ne_nil d') 0
  have hread := childrenIn_stored hstored hnames' hsized hlookup
  rw [hthis] at hstored hread
  exact ⟨rfl, Journal.exist_of_storedAs hstored, hread⟩

/-- One piece: the objects follow the calls. -/
theorem Left.sync {base : Pool} {w : Uuid → Option Inode} (hleft : Left dir base c₀ w pool)
    (hlegal : c₀.Legal dir ms) (h : Carries dir c₀ c ms tx) (hc : c = c₀.afterAll ms)
    (hmade : c.made = true) (hr : Ready dir c₀ pool) :
    Left dir base c (fun u => (recorded u ms).join.or (w u)) (tx.sync pool).2 := by
  have hself : ∀ i, c.self = some i → i.core.linkTargetLen = 0 := by
    rw [hc]
    exact noTarget_afterAll hlegal hleft.self
  have hfit : ∀ u f, (recorded u ms).join = some f → f.core.linkTargetLen = c₀.targetLen u :=
    fun u f hf => (fitting_recorded hlegal (Option.join_eq_some_iff.mp hf)).2.2
  have hlen : c.targetLen = c₀.targetLen := by rw [hc, targetLen_afterAll]
  refine ⟨fun u x hx => ?_, fun d hd x hx => ?_, hself, fun u i hi => ?_⟩
  · have hstored := sync_imprint h hmade hr (hleft.inodes u x hx)
    by_cases hu : u = dir
    · rw [if_pos hu, if_pos hu] at hstored
      rw [if_pos hu]
      cases hi : tx.sInode with
      | none =>
          rw [hi] at hstored
          rw [h.untouched hi]
          exact hstored
      | some i =>
          obtain ⟨s, hs, hcore⟩ := h.self i hi
          rw [hi, imprint_core _ hcore (hself s hs), imprint_imprint x fun a b ha hb => by
            cases hb
            rw [hleft.self a ha, hself s hs]] at hstored
          rw [hs]
          exact hstored
    · rw [if_neg hu, if_neg hu, imprint_imprint x fun a b ha hb => by
        rw [hleft.files u a ha, hfit u b hb]] at hstored
      rw [if_neg hu]
      exact hstored
  · refine sync_storedAs h.ok (fun heq => hd (Uuid.toStr_inj (Prod.mk.inj heq).2))
      (fun heq => nomatch (Prod.mk.inj heq).1) (fun v _ heq => nomatch (Prod.mk.inj heq).1)
      (hleft.others d hd x hx)
  · rw [hlen]
    rcases Option.or_eq_some_iff.mp hi with hi | ⟨-, hi⟩
    · exact hfit u i hi
    · exact hleft.files u i hi

/-! ## All of them -/

/-- A directory that cannot be read cannot be written. -/
theorem sync_unreadable (h : Carries dir c₀ c ms tx) (hmade₀ : c₀.made = true)
    (hmade : c.made = true) (hw : WellStored pool) (hnone : childrenIn pool dir = none) :
    ∃ e, (tx.sync pool).1 = .error e := by
  have hs : tx.status = .S_UNCHANGED := by
    rw [h.status, hmade₀, hmade]
    rfl
  unfold childrenIn at hnone
  cases hd : Dentry.load pool dir false with
  | ok d =>
      rw [hd] at hnone
      cases hnone
  | error e =>
      refine ⟨e, ?_⟩
      rw [sync_of_load_error h.ok.sIno (by rw [hs]; decide)
        ((load_selfSynced h.ok.self hw _).trans (by rw [hs]; exact hd))]

/-- A checkpoint writes what `sync` writes, and a byte of the journal. -/
theorem checkpoint_ok (h : (tx.sync pool).1 = .ok ()) :
    ∃ pool', tx.checkpoint pool = (.ok (), pool') ∧ JournalOnly (tx.sync pool).2 pool' ∧
      (WellStored pool → WellStored pool') := by
  unfold Transaction.checkpoint
  have hw : WellStored pool → WellStored (tx.sync pool).2 := sync_wellStored
  generalize tx.sync pool = r at h hw
  obtain ⟨result, pool'⟩ := r
  cases h
  exact ⟨_, rfl, journalOnly_write _ _ _ _, fun hp => (hw hp).write (List.cons_ne_nil _ _) _⟩

theorem checkpoint_error {e : Err} (h : (tx.sync pool).1 = .error e) :
    (tx.checkpoint pool).1 = .error e := by
  unfold Transaction.checkpoint
  generalize tx.sync pool = r at h
  obtain ⟨result, pool'⟩ := r
  cases h
  rfl

theorem checkpointAll_ok {txs : List Transaction} (h : tx.checkpoint pool = (.ok (), pool')) :
    Refinement.checkpointAll (tx :: txs) pool = Refinement.checkpointAll txs pool' := by
  rw [Refinement.checkpointAll, h]

theorem checkpointAll_error {txs : List Transaction} {e : Err}
    (h : (tx.checkpoint pool).1 = .error e) :
    (Refinement.checkpointAll (tx :: txs) pool).1 = .error e := by
  rw [Refinement.checkpointAll]
  generalize tx.checkpoint pool = r at h
  obtain ⟨result, pool'⟩ := r
  cases h
  rfl

theorem carries_queued {q : Transaction} (hl : c.Legal dir ms)
    (hq : Journal.Queued q ((Transaction.new dir).mutate ms)) :
    Carries dir c (c.afterAll ms) ms q := by
  have h := (carries_mutate hl).2.committed q.offset
  unfold Journal.Queued at hq
  rw [← hq] at h
  exact h

/-- What the pieces leave when all of them could be written. -/
structure AllLeft (dir : Uuid) (base : Pool) (c : Course) (w : Uuid → Option Inode)
    (pieces : List (List Mutation)) (pool : Pool) : Prop where
  stored : WellStored pool
  left : Left dir base (c.afterAll pieces.flatten) (fun u => (written u pieces).or (w u)) pool
  dentry : pieces ≠ [] → RadosIo.exist pool .dentry dir.toStr = true ∧
    childrenIn pool dir = if Fits dir (c.afterAll pieces.flatten) then
      some (c.afterAll pieces.flatten).children.lookup else none

theorem written_cons (u : Uuid) (ms : List Mutation) (pieces : List (List Mutation)) :
    written u (ms :: pieces) = (written u pieces).or (recorded u ms).join := by
  have hfold : ∀ (r : Option Inode),
      pieces.foldl (fun w ms => (recorded u ms).join.or w) r = (written u pieces).or r := by
    induction pieces using List.reverseRecOn with
    | nil => exact fun r => rfl
    | append_singleton pieces p ih =>
        intro r
        unfold written
        rw [List.foldl_append, List.foldl_append, ih]
        exact (Option.or_assoc).symm
  show pieces.foldl _ ((recorded u ms).join.or none) = _
  rw [hfold, Option.or_none]

theorem afterAll_append (c : Course) (as bs : List Mutation) :
    c.afterAll (as ++ bs) = (c.afterAll as).afterAll bs := List.foldl_append

/-- By induction on the pieces: each transaction begins with the children that the pieces before it
    have left, as long as they can be read. -/
theorem checkpointAll_pieces {base : Pool} (pieces : List (List Mutation)) {c : Course}
    {w : Uuid → Option Inode} {pool : Pool} {txs : List Transaction}
    (hl : c.Legal dir pieces.flatten) (hne : [] ∉ pieces)
    (hq : List.Forall₂ Journal.Queued txs (transactions dir pieces)) (hr : Ready dir c pool)
    (hleft : Left dir base c w pool) :
    (FitsBetween dir c pieces → (Refinement.checkpointAll txs pool).1 = .ok () ∧
      AllLeft dir base c w pieces (Refinement.checkpointAll txs pool).2) ∧
    (¬ FitsBetween dir c pieces → ∃ e, (Refinement.checkpointAll txs pool).1 = .error e) := by
  induction pieces generalizing c w pool txs with
  | nil =>
      cases hq
      exact ⟨fun _ => ⟨rfl, hr.stored, hleft, fun h => absurd rfl h⟩,
        fun h => absurd trivial h⟩
  | cons ms pieces ih =>
      obtain ⟨q, txs, hhead, hqs, rfl⟩ := List.forall₂_cons_right_iff.mp hq
      rw [List.flatten_cons, legal_append] at hl
      obtain ⟨hms, hrest⟩ := hl
      rw [List.mem_cons, not_or] at hne
      have hcarries := carries_queued hms hhead
      have hmade := made_afterAll hms (Ne.symm hne.1)
      have hsized := sized_afterAll hms hr.sized
      obtain ⟨hok, hexist, hchildren⟩ := sync_children hcarries hmade hr hsized
      obtain ⟨pool₁, hcp, hjournal, hw⟩ := checkpoint_ok hok
      have hw₁ := hw hr.stored
      have hsync : WellStored (q.sync pool).2 := sync_wellStored hr.stored
      have hleft₁ := hjournal.left (hleft.sync hms hcarries rfl hmade hr)
      rw [← hjournal.childrenIn hsync] at hchildren
      obtain ⟨y, hy⟩ := hsync .dentry dir.toStr
      rw [Journal.exist_of_storedAs hy, ← Journal.exist_of_storedAs
        (hjournal .dentry dir.toStr y (by decide) hy)] at hexist
      rw [checkpointAll_ok hcp]
      cases pieces with
      | nil =>
          cases hqs
          refine ⟨fun _ => ⟨rfl, hw₁, ?_, fun _ => ?_⟩, fun h => absurd trivial h⟩
          · rw [List.flatten_singleton]
            simp only [show ∀ u, written u [ms] = (recorded u ms).join from
              fun u => written_cons u ms []]
            exact hleft₁
          · rw [List.flatten_singleton]
            exact ⟨hexist, hchildren⟩
      | cons ms' pieces =>
          by_cases hfit : Fits dir (c.afterAll ms)
          · rw [if_pos hfit] at hchildren
            have hr₁ : Ready dir (c.afterAll ms) pool₁ :=
              ⟨hw₁, fun h => (nomatch hmade.symm.trans h), fun _ => hchildren, hsized⟩
            obtain ⟨hfits, hlong⟩ := ih hrest hne.2 hqs hr₁ hleft₁
            refine ⟨fun hb => ?_, fun hb => hlong fun h => hb ⟨hfit, h⟩⟩
            obtain ⟨hdone, hall⟩ := hfits hb.2
            refine ⟨hdone, hall.stored, ?_, fun _ => ?_⟩
            · have hend := hall.left
              rw [List.flatten_cons, afterAll_append]
              convert hend using 2 with u
              rw [written_cons, Option.or_assoc]
            · rw [List.flatten_cons, afterAll_append]
              exact hall.dentry (List.cons_ne_nil _ _)
          · rw [if_neg hfit] at hchildren
            refine ⟨fun hb => absurd hb.1 hfit, fun _ => ?_⟩
            obtain ⟨q', txs, hq', -, rfl⟩ := List.forall₂_cons_right_iff.mp hqs
            rw [List.flatten_cons, legal_append] at hrest
            rw [List.mem_cons, not_or] at hne
            have hmade' := made_afterAll hrest.1 (Ne.symm hne.2.1)
            obtain ⟨e, he⟩ := sync_unreadable (carries_queued hrest.1 hq') hmade hmade' hw₁ hchildren
            exact ⟨e, checkpointAll_error (checkpoint_error he)⟩

/-! ## Commits -/

theorem commit_ok (pool : Pool) (hopen : tx.committed = false) :
    ∃ q pool', tx.commit pool = .ok (q, pool') ∧ Journal.Queued q tx ∧ JournalOnly pool pool' ∧
      (WellStored pool → WellStored pool') := by
  unfold Transaction.commit
  rw [if_neg (by rw [hopen]; decide)]
  refine ⟨_, _, rfl, rfl, journalOnly_write _ _ _ _, fun hw => hw.write ?_ _⟩
  intro hnil
  have := Journal.serialize_pos tx
  rw [hnil] at this
  cases this

theorem commitAll_ok (pool : Pool) {txs : List Transaction} (hopen : ∀ tx ∈ txs, tx.committed = false) :
    ∃ qs pool', commitAll txs pool = .ok (qs, pool') ∧ List.Forall₂ Journal.Queued qs txs ∧
      JournalOnly pool pool' ∧ (WellStored pool → WellStored pool') := by
  induction txs generalizing pool with
  | nil => exact ⟨[], pool, rfl, .nil, fun _ _ _ _ h => h, fun h => h⟩
  | cons tx txs ih =>
      obtain ⟨q, pool₁, hcommit, hq, hj, hw⟩ := commit_ok pool (hopen tx List.mem_cons_self)
      obtain ⟨qs, pool₂, hall, hqs, hj', hw'⟩ := ih pool₁
        fun t ht => hopen t (List.mem_cons_of_mem _ ht)
      refine ⟨q :: qs, pool₂, ?_, .cons hq hqs, hj.trans hj', fun h => hw' (hw h)⟩
      rw [commitAll, hcommit]
      dsimp only
      rw [hall]
      rfl

theorem transactions_open {pieces : List (List Mutation)} (hl : c.Legal dir pieces.flatten) :
    ∀ tx ∈ transactions dir pieces, tx.committed = false := by
  induction pieces generalizing c with
  | nil => exact fun tx h => (nomatch h)
  | cons ms pieces ih =>
      rw [List.flatten_cons, legal_append] at hl
      intro tx h
      rcases List.mem_cons.mp h with rfl | h
      · exact (carries_mutate hl.1).1
      · exact ih hl.2 tx h

/-! ## Where a sequence begins -/

/-- Nothing has been called yet: the directory is about to be made, or it has been loaded. -/
inductive Start (dir : Uuid) (pool : Pool) : Course → Prop
  | unmade (targetLen : Uuid → UInt32) : Start dir pool (Course.unmade targetLen)
  | opened {d : Dentry} (hload : Dentry.load pool dir false = .ok d) (targetLen : Uuid → UInt32) :
      Start dir pool (Course.opened d targetLen)

theorem load_sized {d : Dentry} (h : Dentry.load pool dir false = .ok d) :
    d.childList.entries.length < 2 ^ 64 := by
  have hmax : Dentry.MAX_DENTRY_OBJ_SIZE = 4194304 := objSize_eq
  unfold Dentry.load at h
  rw [if_neg (by decide)] at h
  split at h
  · have hle : d.childList.entries.length ≤ _ := (Dentry.deserialize_ok h).2
    omega
  · cases h

theorem Start.ready (h : Start dir pool c) (hw : WellStored pool) : Ready dir c pool := by
  cases h with
  | unmade targetLen => exact ⟨hw, fun _ => rfl, fun h => (nomatch h), Nat.two_pow_pos 64⟩
  | opened hload targetLen =>
      refine ⟨hw, fun h => (nomatch h), fun _ => ?_, load_sized hload⟩
      unfold childrenIn
      rw [hload]
      rfl

theorem Start.left (h : Start dir pool c) : Left dir pool c (fun _ => none) pool := by
  have hself : c.self = none := by
    cases h <;> rfl
  refine ⟨fun u x hx => ?_, fun d hd x hx => hx, fun i hi => ?_, fun u i hi => (nomatch hi)⟩
  · rw [hself, ite_self]
    exact hx
  · rw [hself] at hi
    cases hi

/-- What a cutting leaves. -/
theorem writeOut_left (hw : WellStored pool) (hs : Start dir pool c) (hl : c.Legal dir ms)
    (k : Cutting ms) :
    (FitsBetween dir c k.pieces → (writeOut dir k.pieces pool).1 = .ok () ∧
      AllLeft dir pool c (fun _ => none) k.pieces (writeOut dir k.pieces pool).2) ∧
    (¬ FitsBetween dir c k.pieces → ∃ e, (writeOut dir k.pieces pool).1 = .error e) := by
  have hl' : c.Legal dir k.pieces.flatten := by
    rw [k.flatten]
    exact hl
  obtain ⟨txs, pool₁, hcommit, hq, hj, hw₁⟩ := commitAll_ok pool (transactions_open hl')
  unfold writeOut
  rw [hcommit]
  exact checkpointAll_pieces k.pieces hl' k.nonempty hq (hj.ready (hs.ready hw) (hw₁ hw))
    (hj.left hs.left)

/-! ## Two cuttings -/

/-- A number that is not removed in the end has the inode that it was told last. -/
theorem written_of_recorded (pieces : List (List Mutation))
    (h : recorded u pieces.flatten ≠ some none) :
    written u pieces = (recorded u pieces.flatten).join := by
  induction pieces with
  | nil => rfl
  | cons ms pieces ih =>
      rw [List.flatten_cons, recorded_append] at h ⊢
      rw [written_cons]
      cases hr : recorded u pieces.flatten with
      | none =>
          rw [ih (by rw [hr]; exact fun h => (nomatch h)), hr]
          rfl
      | some o =>
          rw [hr] at h
          cases o with
          | none => exact absurd rfl h
          | some i =>
              rw [ih (by rw [hr]; exact fun h => (nomatch h)), hr]
              rfl

/-- The INODE object of a removed file is what one cutting leaves and what the other one leaves. -/
def LeftoversAgree (dir : Uuid) (pool : Pool) {ms : List Mutation} (k k' : Cutting ms) : Prop :=
  ∀ (u : Uuid) x, u ≠ dir → recorded u ms = some none → StoredAs pool .inode u.toStr x →
    imprint x (written u k.pieces) = imprint x (written u k'.pieces)

/-- Both can be checkpointed, and leave the same objects. -/
structure SameResult (dir : Uuid) (pool : Pool) {ms : List Mutation} (k k' : Cutting ms) :
    Prop where
  ok : (writeOut dir k.pieces pool).1 = .ok ()
  ok' : (writeOut dir k'.pieces pool).1 = .ok ()
  same : SameObjects (writeOut dir k.pieces pool).2 (writeOut dir k'.pieces pool).2

theorem Cutting.pieces_eq_nil (k : Cutting ms) (h : ms = []) : k.pieces = [] := by
  cases hk : k.pieces with
  | nil => rfl
  | cons p ps =>
      have hflat := k.flatten
      rw [hk, h, List.flatten_cons, List.append_eq_nil_iff] at hflat
      exact absurd (by rw [hk, hflat.1]; exact List.mem_cons_self) k.nonempty

theorem Cutting.pieces_ne_nil (k : Cutting ms) (h : ms ≠ []) : k.pieces ≠ [] := by
  intro hk
  have hflat := k.flatten
  rw [hk] at hflat
  exact h hflat.symm

theorem storedAs_unique {category : ObjCategory} {key : Str} {x y : Option Bytes}
    (h : StoredAs pool category key x) (h' : StoredAs pool category key y) : x = y := by
  have hsome : x.isSome = y.isSome :=
    (Journal.exist_of_storedAs h).symm.trans (Journal.exist_of_storedAs h')
  have hbytes := Holds.unique h.holds h'.holds
  cases x with
  | none => exact (Option.isSome_eq_false_iff.mp hsome.symm |> Option.isNone_iff_eq_none.mp).symm
  | some f =>
      obtain ⟨g, rfl⟩ := Option.isSome_iff_exists.mp hsome.symm
      exact congrArg some hbytes

/-- The INODE objects of two outcomes. -/
theorem inodes_iff {base p p' : Pool} (hbase : WellStored base) {w w' : Uuid → Option Inode}
    (h : Left dir base c w p) (h' : Left dir base c w' p') :
    (∀ (u : Uuid) x, StoredAs p .inode u.toStr x ↔ StoredAs p' .inode u.toStr x) ↔
      ∀ (u : Uuid) x, u ≠ dir → StoredAs base .inode u.toStr x →
        imprint x (w u) = imprint x (w' u) := by
  constructor
  · intro hsame u x hu hx
    have hp := h.inodes u x hx
    have hp' := h'.inodes u x hx
    rw [if_neg hu] at hp hp'
    exact storedAs_unique ((hsame u _).mp hp) hp'
  · intro himp u x
    obtain ⟨x₀, hx₀⟩ := hbase .inode u.toStr
    have hp := h.inodes u x₀ hx₀
    have hp' := h'.inodes u x₀ hx₀
    have heq : imprint x₀ (if u = dir then c.self else w u) =
        imprint x₀ (if u = dir then c.self else w' u) := by
      split
      · rfl
      · exact himp u x₀ ‹_› hx₀
    rw [← heq] at hp'
    refine ⟨fun hx => ?_, fun hx => ?_⟩
    · rw [storedAs_unique hx hp]
      exact hp'
    · rw [storedAs_unique hx hp']
      exact hp

/-- Whatever the cuttings, the names are the same. -/
theorem names_same {base p p' : Pool} (hbase : WellStored base) {w : Uuid → Option Inode}
    (k k' : Cutting ms) (hms : ms ≠ []) (h : AllLeft dir base c w k.pieces p)
    (h' : AllLeft dir base c w k'.pieces p') :
    (∀ d : Uuid, RadosIo.exist p' .dentry d.toStr = RadosIo.exist p .dentry d.toStr) ∧
      ∀ d, childrenIn p' d = childrenIn p d := by
  obtain ⟨hexist, hchildren⟩ := h.dentry (k.pieces_ne_nil hms)
  obtain ⟨hexist', hchildren'⟩ := h'.dentry (k'.pieces_ne_nil hms)
  rw [k.flatten] at hchildren
  rw [k'.flatten] at hchildren'
  refine ⟨fun d => ?_, fun d => ?_⟩
  · by_cases hd : d = dir
    · rw [hd, hexist, hexist']
    · obtain ⟨x, hx⟩ := hbase .dentry d.toStr
      rw [Journal.exist_of_storedAs (h.left.others d hd x hx),
        Journal.exist_of_storedAs (h'.left.others d hd x hx)]
  · by_cases hd : d = dir
    · rw [hd, hchildren, hchildren']
    · unfold childrenIn
      rw [load_frame hbase false fun x hx => h.left.others d hd x hx,
        load_frame hbase false fun x hx => h'.left.others d hd x hx]

/-- The objects do not depend on where the commits fall, exactly if both cuttings can be read back
    between two transactions and agree on the removed files. -/
theorem sameResult_iff (hw : WellStored pool) (hs : Start dir pool c) (hl : c.Legal dir ms)
    (k k' : Cutting ms) : SameResult dir pool k k' ↔
      FitsBetween dir c k.pieces ∧ FitsBetween dir c k'.pieces ∧ LeftoversAgree dir pool k k' := by
  obtain ⟨hdone, hfail⟩ := writeOut_left hw hs hl k
  obtain ⟨hdone', hfail'⟩ := writeOut_left hw hs hl k'
  by_cases hfit : FitsBetween dir c k.pieces ∧ FitsBetween dir c k'.pieces
  case neg =>
    refine ⟨fun h => absurd ⟨?_, ?_⟩ hfit, fun h => absurd ⟨h.1, h.2.1⟩ hfit⟩
    · by_contra hlong
      obtain ⟨e, he⟩ := hfail hlong
      exact nomatch he.symm.trans h.ok
    · by_contra hlong
      obtain ⟨e, he⟩ := hfail' hlong
      exact nomatch he.symm.trans h.ok'
  obtain ⟨hok, hall⟩ := hdone hfit.1
  obtain ⟨hok', hall'⟩ := hdone' hfit.2
  have hleft := hall.left
  have hleft' := hall'.left
  rw [k.flatten] at hleft
  rw [k'.flatten] at hleft'
  have hinodes := inodes_iff hw hleft hleft'
  have hagree : LeftoversAgree dir pool k k' ↔
      ∀ (u : Uuid) x, u ≠ dir → StoredAs pool .inode u.toStr x →
        imprint x ((written u k.pieces).or none) = imprint x ((written u k'.pieces).or none) := by
    simp only [Option.or_none]
    refine ⟨fun h u x hu hx => ?_, fun h u x hu _ hx => h u x hu hx⟩
    by_cases hr : recorded u ms = some none
    · exact h u x hu hr hx
    · rw [written_of_recorded k.pieces (by rw [k.flatten]; exact hr),
        written_of_recorded k'.pieces (by rw [k'.flatten]; exact hr), k.flatten,
        k'.flatten]
  refine ⟨fun h => ⟨hfit.1, hfit.2, hagree.mpr (hinodes.mp h.same.inodes)⟩, fun h => ?_⟩
  refine ⟨hok, hok', ?_⟩
  by_cases hms : ms = []
  · rw [k.pieces_eq_nil hms, k'.pieces_eq_nil hms]
    exact ⟨fun _ => rfl, fun _ => rfl, fun _ _ => Iff.rfl⟩
  · obtain ⟨hexist, hchildren⟩ := names_same hw k k' hms hall hall'
    exact ⟨hexist, hchildren, hinodes.mpr (hagree.mp h.2.2)⟩

end

/-! ## A file that is created and removed -/

open Placement

def newDir : Inode := DirectoryOps.sizedDir (envOf 1) 0x41ED

def newFile : Inode := Inode.make (envOf 2) 0x81A4

/-- A new directory, in which "a" is created and removed. -/
def removal : List Mutation :=
  [.mkself newDir, .mkreg newDir [97] newFile, .rmreg newDir [97] newFile]

/-- Nothing is committed before the removal. -/
def atOnce : Cutting removal := ⟨[removal], rfl, by simp [removal]⟩

/-- There is a commit right before the removal. -/
def cutBefore : Cutting removal :=
  ⟨[[.mkself newDir, .mkreg newDir [97] newFile], [.rmreg newDir [97] newFile]], rfl, by simp⟩

/-- There is a commit after each call. -/
def cutEach : Cutting removal :=
  ⟨[[.mkself newDir], [.mkreg newDir [97] newFile], [.rmreg newDir [97] newFile]], rfl, by simp⟩

def unmade : Course := Course.unmade fun _ => 0

theorem empty_wellStored : WellStored ∅ := fun _ _ => ⟨none, fun _ => AList.lookup_empty _⟩

theorem touches_newDir {c : Course} (hmade : c.made = true) (hself : c.self = some newDir) :
    c.Touches newDir.ino newDir := by
  refine ⟨hmade, rfl, rfl, fun old hold => ?_⟩
  cases hself.symm.trans hold
  rfl

theorem removal_legal : unmade.Legal newDir.ino removal := by
  refine ⟨⟨rfl, rfl, rfl⟩, ⟨touches_newDir rfl rfl, ⟨⟨by decide, by decide⟩, rfl, by decide⟩,
    .inl rfl, ⟨by decide, rfl⟩⟩, ⟨touches_newDir rfl rfl, ⟨⟨by decide, by decide⟩, ?_, ?_⟩⟩, trivial⟩
  · exact (congrFun lookup_enter [97]).trans (Function.update_self _ _ _)
  · rfl

/-- Before and after "a" is created. -/
theorem fits_unmade (c : Course) (h : c.children.entries.length ≤ 1)
    (hname : ∀ e ∈ c.children.entries, e.1 = [97]) : Fits newDir.ino c := by
  have hlen : (Dentry.mk newDir.ino c.children).serialize.length ≤ 29 := by
    unfold Dentry.serialize Dentry.getChildNum
    dsimp only
    match hc : c.children.entries with
    | [] => simp [leBytes_length]
    | [e] =>
        have he := hname e (by rw [hc]; exact List.mem_cons_self)
        simp [leBytes_length, Dentry.childBytes_length, he]
    | e :: e' :: es => simp [hc] at h
  refine Nat.le_trans hlen ?_
  show 29 ≤ objSize
  rw [objSize_eq]
  decide

theorem sameResult_iff_removal : SameResult newDir.ino ∅ cutBefore cutEach := by
  refine (sameResult_iff empty_wellStored (.unmade _) removal_legal cutBefore cutEach).mpr
    ⟨⟨fits_unmade _ (Nat.le_refl _) ?_, trivial⟩,
      ⟨fits_unmade _ (Nat.zero_le _) ?_, fits_unmade _ (Nat.le_refl _) ?_, trivial⟩, ?_⟩
  · rintro e (_ | ⟨_, h⟩)
    · rfl
    · cases h
  · exact fun e he => (nomatch he)
  · rintro e (_ | ⟨_, h⟩)
    · rfl
    · cases h
  · intro u x _ _ _
    by_cases hu : newFile.ino = u
    · subst hu
      rfl
    · simp only [written, recorded, fileOf, cutBefore, cutEach, List.foldl_cons, List.foldl_nil,
        if_neg hu, Option.none_or, Option.join_none]

/-- With the transactions written out after each call, "a" leaves an INODE object behind; written
    out at once, it leaves none. -/
theorem removed_file_stays : WellStored ∅ ∧ Start newDir.ino ∅ unmade ∧
    unmade.Legal newDir.ino removal ∧ ¬ SameResult newDir.ino ∅ atOnce cutBefore := by
  refine ⟨empty_wellStored, .unmade _, removal_legal, fun h => ?_⟩
  obtain ⟨hok, hall⟩ := (writeOut_left empty_wellStored (.unmade _) removal_legal atOnce).1 trivial
  have hfit : FitsBetween newDir.ino unmade cutBefore.pieces := by
    refine ⟨fits_unmade _ (Nat.le_refl _) ?_, trivial⟩
    rintro e (_ | ⟨_, h⟩)
    · rfl
    · cases h
  obtain ⟨hok', hall'⟩ := (writeOut_left empty_wellStored (.unmade _) removal_legal cutBefore).1 hfit
  have hx : StoredAs ∅ .inode newFile.ino.toStr none := fun _ => AList.lookup_empty _
  have hgone : StoredAs _ .inode newFile.ino.toStr none := hall.left.inodes newFile.ino none hx
  have hthere := hall'.left.inodes newFile.ino none hx
  exact nomatch storedAs_unique ((h.same.inodes _ _).mp hgone) hthere

end Batching

end Nmfs
