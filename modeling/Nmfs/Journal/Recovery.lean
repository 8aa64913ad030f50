import Nmfs.Journal.Log
import Nmfs.Journal.RoundTrip

/-
  Recovery after a crash: what `check` meets in the journal, and what it makes of it.

  `checkpoint` writes its zero byte over the low byte of the record's size, not over the valid
  byte; `check` throws where a record is not valid and where there is no journal, and reads the
  first object of the journal only; and a record need not read back, nor does it say that the
  directory was deleted. So `check` does what it is for only where nothing of this comes up.
-/

namespace Nmfs.Journal

open Lib RadosIo Transaction

/-! ## Journaled transactions -/

/-- What the mutators make of a fresh transaction, with the maps in any order: names and link targets
    are C strings, and the record has a size that fits. -/
structure Journaled (dir : Uuid) (tx : Transaction) : Prop where
  mutated : ∃ ms : List Mutation, (∀ m ∈ ms, m.Valid) ∧ Reordered ((new dir).mutate ms) tx
  names : ∀ e ∈ tx.dentries.entries, 0 ∉ e.1
  targets : ∀ u i, tx.liveInode u = some i → 0 ∉ i.target
  length : tx.serialize.length < 2 ^ 31

theorem Journaled.sound {dir : Uuid} {tx : Transaction} (h : Journaled dir tx) : tx.Sound dir := by
  obtain ⟨ms, hms, hr⟩ := h.mutated
  exact (mutate_sound hms (new_sound dir)).reordered hr

theorem Journaled.nameOk {dir : Uuid} {tx : Transaction} (h : Journaled dir tx) :
    ∀ e ∈ tx.dentries.entries, Dentry.NameOk e.1 :=
  fun e he => ⟨h.names e he, nameLength_lt h.length e he⟩

/-! ## Reading records -/

/-- The buffer of `check`. -/
def buffer (journal : Bytes) : Bytes := resize 0 (slice journal 0 objSize) objSize

theorem slice_buffer {journal : Bytes} {index len : Nat} (hmax : index + len ≤ objSize)
    (hlen : index + len ≤ journal.length) :
    slice (buffer journal) index len = slice journal index len := by
  unfold buffer
  apply List.ext_getElem?
  intro k
  simp only [getElem?_slice, getElem?_resize, slice_length]
  split_ifs <;> first | rfl | omega | simp_all

theorem leNat_serialize {tx : Transaction} (h : tx.serialize.length < 2 ^ 31) :
    leNat (slice tx.serialize 0 4) = tx.serialize.length := by
  have hlen : tx.serialize.length = 4 + tx.body.length := by
    rw [serialize, List.length_append, leBytes_length]
  rw [hlen] at h ⊢
  unfold serialize
  rw [slice_head _ _ _ (leBytes_length _ _), leNat_leBytes _ _ (by omega)]

/-- A record can be read where it begins, if it lies in the buffer. -/
theorem readRecord_at {journal pre post : Bytes} {tx : Transaction}
    (hj : journal = pre ++ (tx.serialize ++ post)) (h : tx.serialize.length < 2 ^ 31) :
    if pre.length + tx.serialize.length ≤ objSize then
      readRecord (buffer journal) pre.length = .ok tx.serialize
    else ∃ e, readRecord (buffer journal) pre.length = .error e := by
  have hpos := serialize_pos tx
  have hbuf : (buffer journal).length = objSize := resize_length _ _ _
  have hlen : journal.length = pre.length + (tx.serialize.length + post.length) := by
    rw [hj, List.length_append, List.length_append]
  have hslice : ∀ len, len ≤ tx.serialize.length →
      slice journal pre.length len = slice tx.serialize 0 len := by
    intro len hl
    rw [hj, slice_append_right _ _ _ _ (Nat.le_refl _), Nat.sub_self,
      slice_append_left _ _ _ _ (by omega)]
  have hraw : ∀ len, len ≤ tx.serialize.length → pre.length + len ≤ objSize →
      getRaw (buffer journal) pre.length len = .ok (slice tx.serialize 0 len) := by
    intro len hl hfit
    apply getRaw_eq_ok.mpr
    rw [hbuf, slice_buffer hfit (by omega), hslice len hl]
    exact ⟨hfit, rfl⟩
  have hnone : ∀ len, ¬ pre.length + len ≤ objSize →
      getRaw (buffer journal) pre.length len = .error .undefined := by
    intro len hfit
    unfold getRaw
    rw [hbuf, if_neg hfit]
  unfold readRecord
  by_cases h4 : pre.length + 4 ≤ objSize
  · rw [hraw 4 (by omega) h4, ok_bind]
    dsimp only
    rw [leNat_serialize h, if_neg (show ¬ 2 ^ 31 ≤ tx.serialize.length by omega)]
    split
    · rename_i hfit
      rw [hraw _ (Nat.le_refl _) hfit, slice_all]
    · rename_i hfit
      exact ⟨_, hnone _ hfit⟩
  · rw [if_neg (by omega), hnone 4 h4]
    exact ⟨_, rfl⟩

/-! ## What is stored, up to the order of a map -/

/-- The children that the DENTRY object spells. -/
def children (m : Stored) (dir : Uuid) : Option (Bytes → Option Uuid) :=
  (m.load dir false).toOption.map fun d => d.childList.lookup

structure SameStored (dir : Uuid) (m m' : Stored) : Prop where
  exist : m'.dentry.isSome = m.dentry.isSome
  children : children m' dir = children m dir
  inodes : m'.inodes = m.inodes

/-- A transaction whose record reads back, of a directory that is not deleted. -/
structure Kept (tx : Transaction) : Prop where
  sInode : tx.sInode = none
  status : tx.status ≠ .S_DELETED
  targets : ∀ u i, tx.liveInode u = some i → i.target = []

theorem Kept.unchanged {dir : Uuid} {tx : Transaction} (h : Kept tx) (hj : Journaled dir tx) :
    tx.status = .S_UNCHANGED := by
  cases hs : tx.status with
  | S_UNCHANGED => rfl
  | S_CREATED => exact absurd h.sInode (hj.sound.created hs)
  | S_DELETED => exact absurd hs h.status

/-- What `Stored.sync` does where only entries and files have changed. -/
theorem sync_unchanged (m : Stored) {tx : Transaction} (hs : tx.sInode = none)
    (hst : tx.status = .S_UNCHANGED) :
    m.sync tx = (m.load tx.sIno false).map fun d =>
      (m.writeDentry (applyDentries tx.dentries.entries d)).writeFiles tx.fInodes.entries := by
  unfold Stored.sync
  rw [hst, hs, if_neg (by decide)]
  dsimp only [Option.map_none, Option.getD_none]
  have hdec : decide (SelfStatus.S_UNCHANGED = .S_CREATED) = false := rfl
  rw [hdec]
  cases m.load tx.sIno false with
  | error e => rfl
  | ok d => rfl

theorem overwrite_zero (xs ys : Bytes) : overwrite 0 xs 0 ys = ys ++ xs.drop ys.length := by
  simp [overwrite]

/-- The children that a written DENTRY object spells. -/
theorem children_written {m : Stored} {d : Dentry} {f : Bytes}
    (h : m.dentry = some (overwrite 0 f 0 d.serialize))
    (hnames : ∀ e ∈ d.childList.entries, Dentry.NameOk e.1) (hcount : d.getChildNum < 2 ^ 64) :
    children m d.thisIno =
      if d.serialize.length ≤ Dentry.MAX_DENTRY_OBJ_SIZE then some d.childList.lookup else none := by
  rw [overwrite_zero] at h
  have hload := load_written m h hnames hcount
  unfold children
  split
  · rename_i hfit
    rw [if_pos hfit] at hload
    obtain ⟨d', hd', hlookup⟩ := hload
    rw [hd']
    exact congrArg some hlookup
  · rename_i hfit
    rw [if_neg hfit] at hload
    rw [hload]
    rfl

theorem serialize_length_of_lookup {d d' : Dentry} (h : d'.childList.lookup = d.childList.lookup) :
    d'.serialize.length = d.serialize.length := by
  have hperm : d'.childList.entries.Perm d.childList.entries := by
    apply List.lookup_ext d'.childList.nodupKeys d.childList.nodupKeys
    intro name ino
    exact iff_of_eq (congrArg (ino ∈ ·) (congrFun h name))
  simp only [Dentry.serialize, List.length_append, leBytes_length,
    (hperm.flatMap_right Dentry.childBytes).length_eq]

theorem load_of_children {m : Stored} {dir : Uuid} {f : Bytes → Option Uuid}
    (h : children m dir = some f) : ∃ d, m.load dir false = .ok d ∧ d.childList.lookup = f := by
  unfold children at h
  cases hd : m.load dir false with
  | error e =>
      rw [hd] at h
      cases h
  | ok d =>
      rw [hd] at h
      exact ⟨d, rfl, Option.some.inj h⟩

theorem overlay_congr {dentries dentries' : AList (fun _ : Bytes => Bool × Uuid)}
    (h : ∀ name, dentries'.lookup name = dentries.lookup name) (f : Bytes → Option Uuid) :
    overlay dentries' f = overlay dentries f := by
  funext name
  unfold overlay
  rw [h name]

/-- What is written for an entry of `f_inodes`. -/
theorem serialize_of_core {i i' : Inode} (h : i.core.linkTargetLen = 0) (hcore : i'.core = i.core) :
    i'.serialize = i.serialize := by
  rw [serialize_of_noTarget h, serialize_of_noTarget (by rw [hcore]; exact h), hcore]

/-- What the loop over the record has found. -/
structure Decoded (dir : Uuid) (tx tx' : Transaction) : Prop where
  content : SameContent tx tx'
  sIno : tx'.sIno = dir
  status : tx'.status = .S_UNCHANGED
  ino : ∀ u i, ⟨u, some i⟩ ∈ tx'.fInodes.entries → i.ino = u

theorem decoded_of_deserialize {pool : Pool} {dir : Uuid} {raw : Bytes} {tx tx' : Transaction}
    (hd : deserialize pool dir raw = .ok (0, tx')) (hsame : SameContent tx tx') :
    Decoded dir tx tx' := by
  obtain ⟨index, index', -, -, hf, hst, hino⟩ := deserialize_eq_ok hd
  refine ⟨hsame, hino, hst, ?_⟩
  intro u i hi
  rcases readFInodes_source hf u (some i) hi with hnil | ⟨value, j, -, hij, hj⟩
  · cases hnil
  · cases hij
    exact hj

/-- The entries after the loop over `dentries` can be written. -/
theorem applyDentries_ok {m : Stored} {dir : Uuid} {d : Dentry} (hd : m.load dir false = .ok d)
    {tx : Transaction} (hnames : ∀ e ∈ tx.dentries.entries, Dentry.NameOk e.1)
    (hcount : tx.dentries.entries.length < 2 ^ 31) :
    (applyDentries tx.dentries.entries d).thisIno = dir ∧
      (∀ e ∈ (applyDentries tx.dentries.entries d).childList.entries, Dentry.NameOk e.1) ∧
      (applyDentries tx.dentries.entries d).getChildNum < 2 ^ 64 := by
  obtain ⟨hdnames, hdcount⟩ := load_ok hd
  have hmax : Dentry.MAX_DENTRY_OBJ_SIZE = 4194304 := objSize_eq
  have hle := applyDentries_count tx.dentries.entries d
  exact ⟨(applyDentries_thisIno _ _).trans (load_thisIno hd),
    applyDentries_nameOk _ _ hnames hdnames, by omega⟩

theorem entries_lt {tx : Transaction} (h : tx.serialize.length < 2 ^ 31) :
    tx.dentries.entries.length < 2 ^ 31 := by
  have hcount := length_le_flatMap (f := dentryBytes)
    (fun e => by rw [dentryBytes_length]; omega) tx.dentries.entries
  simp only [serialize, body, List.length_append, List.length_cons] at h
  omega

/-- A decoded transaction stores the same as the one it was. -/
theorem sync_same {dir : Uuid} {m m' m₁ : Stored} {tx tx' : Transaction} (hj : Journaled dir tx)
    (hk : Kept tx) (hd : Decoded dir tx tx') (hm : SameStored dir m m')
    (hsync : m.sync tx = .ok m₁) : ∃ m₁', m'.sync tx' = .ok m₁' ∧ SameStored dir m₁ m₁' := by
  have hs' : tx'.sInode = none := by
    have := hd.content.sInode
    rw [hk.sInode] at this
    exact Option.map_eq_none_iff.mp this
  have hperm : tx'.dentries.entries.Perm tx.dentries.entries := by
    apply List.lookup_ext tx'.dentries.nodupKeys tx.dentries.nodupKeys
    intro name x
    exact iff_of_eq (congrArg (x ∈ ·) (hd.content.dentries name))
  rw [sync_unchanged m hk.sInode (hk.unchanged hj), hj.sound.sIno] at hsync
  cases hload : m.load dir false with
  | error e =>
      rw [hload] at hsync
      cases hsync
  | ok d =>
      rw [hload] at hsync
      have hm₁ := (Except.ok.inj hsync).symm
      subst hm₁
      have hchildren : children m' dir = some d.childList.lookup := by
        rw [hm.children]
        unfold children
        rw [hload]
        rfl
      obtain ⟨d', hload', hlookup⟩ := load_of_children hchildren
      refine ⟨_, by rw [sync_unchanged m' hs' hd.status, hd.sIno, hload']; rfl, ?_⟩
      have hnames' : ∀ e ∈ tx'.dentries.entries, Dentry.NameOk e.1 :=
        fun e he => hj.nameOk e (hperm.mem_iff.mp he)
      have hcount := entries_lt hj.length
      obtain ⟨hino, hok, hnum⟩ := applyDentries_ok hload hj.nameOk hcount
      obtain ⟨hino', hok', hnum'⟩ := applyDentries_ok hload' hnames' (hperm.length_eq ▸ hcount)
      have hsame : (applyDentries tx'.dentries.entries d').childList.lookup =
          (applyDentries tx.dentries.entries d).childList.lookup := by
        rw [applyDentries_lookup, applyDentries_lookup, hlookup, overlay_congr hd.content.dentries]
      constructor
      · simp only [writeFiles_dentry, Stored.writeDentry, Option.isSome_some]
      · have h1 := children_written (m := (m.writeDentry (applyDentries tx.dentries.entries
          d)).writeFiles tx.fInodes.entries) (writeFiles_dentry _ _) hok hnum
        have h2 := children_written (m := (m'.writeDentry (applyDentries tx'.dentries.entries
          d')).writeFiles tx'.fInodes.entries) (writeFiles_dentry _ _) hok' hnum'
        rw [hino] at h1
        rw [hino'] at h2
        rw [h1, h2, hsame, serialize_length_of_lookup hsame]
      · funext u
        rw [writeFiles_inodes _ _ tx.fInodes.keys_nodup fun v i hi => (hj.sound.fInodes v i hi).1,
          writeFiles_inodes _ _ tx'.fInodes.keys_nodup hd.ino]
        have hu := hd.content.fInodes u
        unfold liveInode AList.lookup at hu
        have hlen : ∀ i, (tx.fInodes.entries.dlookup u).join = some i →
            i.core.linkTargetLen = 0 := by
          intro i hi
          have hfile := (hj.sound.fInodes u i (liveInode_eq_some.mp hi)).2
          exact hfile.target_eq_nil.mp (hk.targets u i hi)
        dsimp only [Stored.writeDentry]
        rw [hm.inodes]
        cases hi : (tx.fInodes.entries.dlookup u).join with
        | none =>
            rw [hi] at hu
            rw [Option.map_eq_none_iff.mp hu]
        | some i =>
            rw [hi, Option.map_some] at hu
            obtain ⟨i', hi', heq⟩ := Option.map_eq_some_iff.mp hu
            rw [hi']
            dsimp only
            rw [serialize_of_core (hlen i hi) (Prod.mk.inj heq).1]

/-! ## The loop -/

/-- The transaction of a record has been replayed from there. -/
def Replay (record replayed : Nat × Transaction) : Prop :=
  replayed.1 = record.1 ∧ SameContent record.2 replayed.2

/-- One round that replays its record. -/
theorem checkLoop_step {dir : Uuid} {value raw : Bytes} {size fuel index : Nat} {pool pool' : Pool}
    {tx : Transaction} (hindex : index < size) (hraw : readRecord value index = .ok raw)
    (hd : deserialize pool dir raw = .ok (0, tx)) (hsync : tx.sync pool = (.ok (), pool')) :
    checkLoop dir value size (fuel + 1) index pool =
      { checkLoop dir value size fuel (index + raw.length) pool' with
        replayed := (index, tx) ::
          (checkLoop dir value size fuel (index + raw.length) pool').replayed } := by
  conv_lhs => unfold checkLoop
  rw [if_pos hindex, hraw]
  dsimp only
  rw [hd]
  dsimp only
  rw [if_pos rfl, hsync]

/-- There is no other round that does not throw. -/
theorem checkLoop_round {dir : Uuid} {value : Bytes} {size fuel index : Nat} {pool : Pool}
    (hindex : index < size)
    (hres : (checkLoop dir value size (fuel + 1) index pool).result = .ok ()) :
    ∃ raw tx pool', readRecord value index = .ok raw ∧
      deserialize pool dir raw = .ok (0, tx) ∧ tx.sync pool = (.ok (), pool') ∧
      checkLoop dir value size (fuel + 1) index pool =
        { checkLoop dir value size fuel (index + raw.length) pool' with
          replayed := (index, tx) ::
            (checkLoop dir value size fuel (index + raw.length) pool').replayed } := by
  unfold checkLoop at hres
  rw [if_pos hindex] at hres
  cases hraw : readRecord value index with
  | error e =>
      rw [hraw] at hres
      cases hres
  | ok raw =>
      rw [hraw] at hres
      dsimp only at hres
      cases hd : deserialize pool dir raw with
      | error e =>
          rw [hd] at hres
          cases hres
      | ok r =>
          obtain ⟨code, tx⟩ := r
          rw [hd] at hres
          dsimp only at hres
          by_cases hcode : code = 0
          · rw [if_pos hcode] at hres
            subst hcode
            generalize hsync : tx.sync pool = r at hres
            obtain ⟨r, pool'⟩ := r
            cases r with
            | error e => cases hres
            | ok u =>
                exact ⟨raw, tx, pool', rfl, hd, hsync, checkLoop_step hindex hraw hd hsync⟩
          · rw [if_neg hcode] at hres
            cases hres

theorem checkLoop_done {dir : Uuid} {value : Bytes} {size fuel index : Nat} {pool : Pool}
    (h : size ≤ index) : checkLoop dir value size (fuel + 1) index pool = ⟨pool, [], .ok ()⟩ := by
  unfold checkLoop
  rw [if_neg (by omega)]

/-- Records that read back are replayed, one after the other. -/
theorem checkLoop_replays {dir : Uuid} {journal : Bytes} (hfit : journal.length ≤ objSize)
    {mr' : Stored} (txs : List Transaction) (htx : ∀ tx ∈ txs, Journaled dir tx ∧ Kept tx) :
    ∀ (pre : Bytes) (fuel : Nat) (pool : Pool) (m mr : Stored),
      journal = pre ++ txs.flatMap serialize → Stores pool dir m → SameStored dir mr m →
      txs.foldlM Stored.sync mr = .ok mr' → txs.length < fuel →
      let r := checkLoop dir (buffer journal) journal.length fuel pre.length pool
      r.result = .ok () ∧ List.Forall₂ Replay (records pre.length txs) r.replayed ∧
        ∃ m', Stores r.pool dir m' ∧ SameStored dir mr' m' := by
  induction txs with
  | nil =>
      intro pre fuel pool m mr hj hst hm href hfuel
      obtain ⟨fuel, rfl⟩ : ∃ n, fuel = n + 1 := ⟨fuel - 1, by simp at hfuel; omega⟩
      cases href
      rw [List.flatMap_nil, List.append_nil] at hj
      dsimp only
      rw [checkLoop_done (by rw [hj])]
      exact ⟨rfl, List.Forall₂.nil, m, hst, hm⟩
  | cons tx txs ih =>
      intro pre fuel pool m mr hj hst hm href hfuel
      obtain ⟨fuel, rfl⟩ : ∃ n, fuel = n + 1 := ⟨fuel - 1, by simp at hfuel; omega⟩
      obtain ⟨hjtx, hktx⟩ := htx tx List.mem_cons_self
      rw [List.flatMap_cons] at hj
      have hpos := serialize_pos tx
      have hlen : journal.length = pre.length + (tx.serialize.length +
          (txs.flatMap serialize).length) := by
        rw [hj, List.length_append, List.length_append]
      have hraw := readRecord_at hj hjtx.length
      rw [if_pos (by omega)] at hraw
      obtain ⟨tx', hd, hsame⟩ := roundTrip_of_kept hjtx.sound hjtx.length hktx.sInode hktx.targets pool
      rw [hjtx.sound.sIno] at hd
      have hdec := decoded_of_deserialize hd hsame
      rw [List.foldlM_cons] at href
      obtain ⟨mr₁, hsync, href⟩ := bind_eq_ok.mp href
      obtain ⟨m₁, hsync', hm₁⟩ := sync_same hjtx hktx hdec hm hsync
      obtain ⟨-, hok⟩ := sync_stores tx' (hdec.sIno ▸ hst)
      obtain ⟨hres, hst₁⟩ := hok m₁ hsync'
      rw [hdec.sIno] at hst₁
      have hpair : tx'.sync pool = (.ok (), (tx'.sync pool).2) := by rw [← hres]
      obtain ⟨hr, hrep, m', hst', hm'⟩ := ih (fun t ht => htx t (List.mem_cons_of_mem _ ht))
        (pre ++ tx.serialize) fuel (tx'.sync pool).2 m₁ mr₁ (by rw [hj, List.append_assoc]) hst₁ hm₁
        href (by simpa using hfuel)
      rw [List.length_append] at hr hrep hst'
      dsimp only
      rw [checkLoop_step (by omega) hraw hd hpair]
      exact ⟨hr, List.Forall₂.cons ⟨rfl, hsame⟩ hrep, m', hst', hm'⟩

/-- The first 104 bytes are all there is of an INODE object. -/
def NoTargets (m : Stored) : Prop := ∀ u, (m.inodes u).length ≤ Inode.REG_INODE_SIZE

/-- A record that is decoded to what it was, in a pool without link targets. -/
theorem kept_of_decode {pool : Pool} {dir : Uuid} {m : Stored} {tx tx' : Transaction}
    (hj : Journaled dir tx) (hst : Stores pool dir m) (hm : NoTargets m)
    (hd : deserialize pool dir tx.serialize = .ok (0, tx')) (hsame : SameContent tx tx') :
    tx.sInode = none ∧ ∀ u i, tx.liveInode u = some i → i.target = [] := by
  rw [← hj.sound.sIno] at hd
  have htargets : ∀ u i, tx.liveInode u = some i → i.target = [] := by
    intro u i hi
    refine target_eq_nil_of_decode hj.sound hd hsame u i hi ?_
    intro bytes sum hpos hread heq
    have hvalue := (read_eq (hst.inodes i.ino) i.core.linkTargetLen.toNat Inode.REG_INODE_SIZE).1
    rw [hread] at hvalue
    have hnil : bytes = [] := by
      refine (hvalue : bytes = _).trans (List.eq_nil_of_length_eq_zero ?_)
      have := hm i.ino
      rw [slice_length]
      omega
    apply hj.targets u i hi
    rw [heq, hnil, resize]
    simp only [List.take_nil, List.nil_append, List.length_nil, Nat.sub_zero]
    exact List.mem_replicate.mpr ⟨by omega, rfl⟩
  exact ⟨sInode_eq_none_of_decode hj.sound hd hsame htargets, htargets⟩

/-- What a decoded transaction stores has no link targets either, and a DENTRY object. -/
theorem sync_noTargets {dir : Uuid} {m m' : Stored} {tx tx' : Transaction} (hj : Journaled dir tx)
    (hs : tx.sInode = none) (ht : ∀ u i, tx.liveInode u = some i → i.target = [])
    (hd : Decoded dir tx tx') (hm : NoTargets m) (hsync : m.sync tx' = .ok m') :
    NoTargets m' ∧ m'.dentry.isSome = true := by
  have hs' : tx'.sInode = none := by
    have := hd.content.sInode
    rw [hs] at this
    exact Option.map_eq_none_iff.mp this
  rw [sync_unchanged m hs' hd.status] at hsync
  cases hload : m.load tx'.sIno false with
  | error e =>
      rw [hload] at hsync
      cases hsync
  | ok d =>
      rw [hload] at hsync
      have hm' := (Except.ok.inj hsync).symm
      subst hm'
      constructor
      · intro u
        rw [writeFiles_inodes _ _ tx'.fInodes.keys_nodup hd.ino]
        have hmu := hm u
        cases hi' : (tx'.fInodes.entries.dlookup u).join with
        | none => exact hmu
        | some i' =>
            have hu := hd.content.fInodes u
            rw [show tx'.liveInode u = some i' from hi', Option.map_some] at hu
            obtain ⟨i, hi, heq⟩ := Option.map_eq_some_iff.mp hu.symm
            have hfile := (hj.sound.fInodes u i (liveInode_eq_some.mp hi)).2
            have hlen := hfile.target_eq_nil.mp (ht u i hi)
            dsimp only [Stored.writeDentry]
            rw [overwrite_length, serialize_of_core hlen (Prod.mk.inj heq).1.symm,
              serialize_of_noTarget hlen, Inode.Core.bytes_length]
            omega
      · simp only [writeFiles_dentry, Stored.writeDentry, Option.isSome_some]

/-- Where every record is replayed from its place, each of them reads back and lies in the buffer. -/
theorem checkLoop_kept {dir : Uuid} {journal : Bytes} (txs : List Transaction)
    (htx : ∀ tx ∈ txs, Journaled dir tx) :
    ∀ (pre : Bytes) (fuel : Nat) (pool : Pool) (m : Stored),
      journal = pre ++ txs.flatMap serialize → Stores pool dir m → NoTargets m →
      let r := checkLoop dir (buffer journal) (min objSize journal.length) fuel pre.length pool
      r.result = .ok () → List.Forall₂ Replay (records pre.length txs) r.replayed →
      (∀ tx ∈ txs, tx.sInode = none ∧ ∀ u i, tx.liveInode u = some i → i.target = []) ∧
        (txs ≠ [] → journal.length ≤ objSize) ∧
        ∃ m', Stores r.pool dir m' ∧
          (txs ≠ [] ∨ m.dentry.isSome = true → m'.dentry.isSome = true) := by
  induction txs with
  | nil =>
      intro pre fuel pool m hj hst hm r hres hrep
      refine ⟨fun tx htx => (nomatch htx), fun h => absurd rfl h, m, ?_, ?_⟩
      · cases fuel with
        | zero => cases hres
        | succ fuel =>
            rw [List.flatMap_nil, List.append_nil] at hj
            simp only [r]
            rw [checkLoop_done (by rw [hj]; exact Nat.min_le_right _ _)]
            exact hst
      · rintro (h | h)
        · exact absurd rfl h
        · exact h
  | cons tx txs ih =>
      intro pre fuel pool m hj hst hm r hres hrep
      cases fuel with
      | zero => cases hres
      | succ fuel =>
      have hjtx := htx tx List.mem_cons_self
      rw [List.flatMap_cons] at hj
      by_cases hindex : pre.length < min objSize journal.length
      · obtain ⟨raw, tx', pool', hraw, hd, hsync, hround⟩ := checkLoop_round hindex hres
        simp only [r] at hres hrep ⊢
        rw [hround] at hres hrep ⊢
        -- the record that was read is the transaction's
        have hat := readRecord_at hj hjtx.length
        have hfit : pre.length + tx.serialize.length ≤ objSize := by
          by_contra hlong
          rw [if_neg hlong, hraw] at hat
          obtain ⟨e, he⟩ := hat
          cases he
        rw [if_pos hfit, hraw] at hat
        have hrawtx : raw = tx.serialize := Except.ok.inj hat
        subst hrawtx
        cases hrep with
        | cons hfirst hrest =>
        obtain ⟨-, hsame⟩ := hfirst
        obtain ⟨hs, ht⟩ := kept_of_decode hjtx hst hm hd hsame
        have hdec := decoded_of_deserialize hd hsame
        obtain ⟨herr, hok⟩ := sync_stores tx' (hdec.sIno ▸ hst)
        cases hm₁ : m.sync tx' with
        | error e =>
            have := herr e hm₁
            rw [hsync] at this
            cases this
        | ok m₁ =>
        obtain ⟨-, hst₁⟩ := hok m₁ hm₁
        rw [hsync, hdec.sIno] at hst₁
        obtain ⟨hnt, hsome⟩ := sync_noTargets hjtx hs ht hdec hm hm₁
        rw [← List.length_append] at hres hrest ⊢
        obtain ⟨hkept, hlong, m', hst', hdentry⟩ := ih (fun t ht => htx t (List.mem_cons_of_mem _ ht))
          (pre ++ tx.serialize) fuel pool' m₁ (by rw [hj, List.append_assoc]) hst₁ hnt hres hrest
        refine ⟨?_, ?_, m', hst', fun _ => hdentry (.inr hsome)⟩
        · intro t ht'
          rcases List.mem_cons.mp ht' with rfl | hold
          · exact ⟨hs, ht⟩
          · exact hkept t hold
        · intro _
          cases txs with
          | nil =>
              rw [hj, List.flatMap_nil, List.append_nil, List.length_append]
              exact hfit
          | cons t txs => exact hlong (List.cons_ne_nil _ _)
      · simp only [r] at hrep
        rw [checkLoop_done (Nat.le_of_not_lt hindex)] at hrep
        cases hrep

theorem check_of_missing {pool : Pool} {dir : Uuid} (h : StoredAs pool .journal dir.toStr none) :
    (check pool dir).result = .error .noSuchObject := by
  unfold check
  rw [h.read objSize_pos (Nat.le_refl _)]
  rfl

theorem check_eq {pool : Pool} {dir : Uuid} {journal : Bytes}
    (h : Holds pool .journal dir.toStr journal) (hne : journal ≠ []) :
    check pool dir = checkLoop dir (buffer journal) (min objSize journal.length)
      (min objSize journal.length + 1) 0 pool := by
  unfold check
  rw [(h.storedAs hne).read objSize_pos (Nat.le_refl _)]
  simp only [headOf, buffer, slice_length, Nat.sub_zero]

/-! ## Recovery -/

/-- D's DENTRY object spells the same children, and the INODE objects hold the same bytes. -/
structure SameMeta (dir : Uuid) (pool pool' : Pool) : Prop where
  exist : RadosIo.exist pool' .dentry dir.toStr = RadosIo.exist pool .dentry dir.toStr
  dentry : (Dentry.load pool' dir false).toOption.map (fun d => d.childList.lookup) =
    (Dentry.load pool dir false).toOption.map fun d => d.childList.lookup
  inodes : ∀ (u : Uuid) f, Holds pool .inode u.toStr f ↔ Holds pool' .inode u.toStr f

/-- The directory's journal has run from `pool` to a crash in `s`; had the queue been worked off, it
    would have come to `ref`. -/
structure Crash (dir : Uuid) (evs : List Event) (pool : Pool) (s ref : State) : Prop where
  stored : ∃ m, Stores pool dir m
  journal : StoredAs pool .journal dir.toStr none
  run : run step ⟨pool, []⟩ evs = some s
  rest : Lib.run step s (List.replicate s.queue.length .checkpoint) = some ref

/-- After every such crash, `check` replays what has not been checkpointed, and leaves what working
    off the queue would have left. -/
def Recovers (dir : Uuid) (evs : List Event) : Prop :=
  ∀ pool s ref, Crash dir evs pool s ref →
    (check s.pool dir).result = .ok () ∧
      List.Forall₂ Replay ((records 0 (committed evs)).drop (checkpointed evs))
        (check s.pool dir).replayed ∧
      SameMeta dir ref.pool (check s.pool dir).pool

structure Recoverable (evs : List Event) : Prop where
  some : committed evs ≠ []
  clean : checkpointed evs = 0
  fits : ((committed evs).flatMap serialize).length ≤ objSize
  kept : ∀ tx ∈ committed evs, Kept tx

theorem exist_of_storedAs {pool : Pool} {category : ObjCategory} {key : Str} {x : Option Bytes}
    (h : StoredAs pool category key x) : RadosIo.exist pool category key = x.isSome := by
  unfold RadosIo.exist Ioctx.stat
  rw [Option.isSome_map]
  cases x with
  | none => rw [h 0]
  | some f => exact h.2

theorem sameMeta_of_sameStored {dir : Uuid} {pool pool' : Pool} {m m' : Stored}
    (h : Stores pool dir m) (h' : Stores pool' dir m') (hm : SameStored dir m m') :
    SameMeta dir pool pool' := by
  constructor
  · rw [exist_of_storedAs h.dentry, exist_of_storedAs h'.dentry, hm.exist]
  · rw [h.load, h'.load]
    exact hm.children
  · intro u f
    have hu := h.inodes u
    have hu' := h'.inodes u
    rw [hm.inodes] at hu'
    constructor
    · intro hf
      rw [Holds.unique hf hu]
      exact hu'
    · intro hf
      rw [Holds.unique hf hu']
      exact hu

/-- Once a directory is deleted, and nothing makes it anew, it stays without a DENTRY object. -/
theorem dentry_eq_none_of_deleted {dir : Uuid} (txs : List Transaction)
    (htx : ∀ tx ∈ txs, Journaled dir tx ∧ tx.sInode = none) {m m' : Stored}
    (href : txs.foldlM Stored.sync m = .ok m')
    (h : m.dentry = none ∨ ∃ tx ∈ txs, tx.status = .S_DELETED) : m'.dentry = none := by
  induction txs generalizing m with
  | nil =>
      cases href
      rcases h with h | ⟨tx, htx, -⟩
      · exact h
      · cases htx
  | cons tx txs ih =>
      rw [List.foldlM_cons] at href
      obtain ⟨m₁, hsync, href⟩ := bind_eq_ok.mp href
      obtain ⟨hj, hs⟩ := htx tx List.mem_cons_self
      apply ih (fun t ht => htx t (List.mem_cons_of_mem _ ht)) href
      by_cases hd : tx.status = .S_DELETED
      · unfold Stored.sync at hsync
        rw [if_pos hd] at hsync
        cases hsync
        exact .inl rfl
      · have hst : tx.status = .S_UNCHANGED := by
          cases hst : tx.status with
          | S_UNCHANGED => rfl
          | S_CREATED => exact absurd hs (hj.sound.created hst)
          | S_DELETED => exact absurd hst hd
        rcases h with hnone | ⟨t, ht, htd⟩
        · -- there is no object to change
          rw [sync_unchanged m hs hst] at hsync
          unfold Stored.load at hsync
          rw [hnone] at hsync
          cases hsync
        · rcases List.mem_cons.mp ht with rfl | hold
          · exact absurd htd hd
          · exact .inr ⟨t, hold, htd⟩

/-! ## The same run without INODE objects -/

theorem sync_dentry {m m₁ m' : Stored} {tx : Transaction} (hm : m₁.dentry = m.dentry)
    (h : m.sync tx = .ok m') : ∃ m₁', m₁.sync tx = .ok m₁' ∧ m₁'.dentry = m'.dentry := by
  unfold Stored.sync at h ⊢
  split at h
  · rename_i hd
    rw [if_pos hd]
    cases h
    exact ⟨_, rfl, rfl⟩
  · rename_i hd
    rw [if_neg hd]
    have hself : ((tx.sInode.map m₁.write).getD m₁).dentry =
        ((tx.sInode.map m.write).getD m).dentry := by
      cases tx.sInode with
      | none => exact hm
      | some s => exact hm
    dsimp only at h ⊢
    generalize (tx.sInode.map m₁.write).getD m₁ = n₁ at hself ⊢
    generalize (tx.sInode.map m.write).getD m = n at hself h
    have hload : n₁.load tx.sIno (tx.status = .S_CREATED) =
        n.load tx.sIno (tx.status = .S_CREATED) := by
      unfold Stored.load
      rw [hself]
    rw [hload]
    split at h
    · cases h
    · cases h
      refine ⟨_, rfl, ?_⟩
      rw [writeFiles_dentry, writeFiles_dentry]
      simp only [Stored.writeDentry, hself]

/-- The logs differ in INODE objects only. -/
structure Twin (l l₁ : Log) : Prop where
  dentry : l₁.stored.dentry = l.stored.dentry
  pending : l₁.pending = l.pending
  bytes : l₁.bytes = l.bytes
  clean : l₁.clean = l.clean

theorem run_twin {l l₁ l' : Log} {evs : List Event} (h : Twin l l₁)
    (hr : run Log.step l evs = some l') : ∃ l₁', run Log.step l₁ evs = some l₁' ∧ Twin l' l₁' := by
  refine run_simulation (R := Twin) (P := fun _ => True) ?_ h (fun _ _ => trivial) hr
  rintro ⟨m, pending, bytes, clean⟩ ⟨m₁, pending₁, bytes₁, clean₁⟩ e l' ⟨hm, hp, hb, hc⟩ - hl'
  dsimp only at hm hp hb hc
  subst hp hb hc
  cases e with
  | commit tx =>
      cases hl'
      exact ⟨_, rfl, ⟨hm, rfl, rfl, rfl⟩⟩
  | checkpoint =>
      cases pending₁ with
      | nil => cases hl'
      | cons tx pending₁ =>
          unfold Log.step at hl' ⊢
          dsimp only at hl' ⊢
          cases hsync : m.sync tx with
          | error e =>
              rw [hsync] at hl'
              cases hl'
          | ok m' =>
              rw [hsync] at hl'
              cases hl'
              obtain ⟨m₁', hsync', hm'⟩ := sync_dentry hm hsync
              rw [hsync']
              exact ⟨_, rfl, ⟨hm', rfl, rfl, rfl⟩⟩

/-! ## When a crash is recovered from -/

theorem committed_append (evs evs' : List Event) :
    committed (evs ++ evs') = committed evs ++ committed evs' := by
  induction evs with
  | nil => rfl
  | cons e evs ih =>
      cases e with
      | commit tx => exact congrArg (tx :: ·) ih
      | checkpoint => exact ih

theorem checkpointed_append (evs evs' : List Event) :
    checkpointed (evs ++ evs') = checkpointed evs + checkpointed evs' := by
  induction evs with
  | nil => exact (Nat.zero_add _).symm
  | cons e evs ih =>
      cases e with
      | commit tx => exact ih
      | checkpoint =>
          simp only [List.cons_append, checkpointed, ih]
          omega

theorem committed_replicate (n : Nat) : committed (List.replicate n .checkpoint) = [] := by
  induction n with
  | zero => rfl
  | succ n ih => exact ih

theorem checkpointed_replicate (n : Nat) : checkpointed (List.replicate n .checkpoint) = n := by
  induction n with
  | zero => rfl
  | succ n ih => exact congrArg (· + 1) ih

theorem mem_committed {evs : List Event} {tx : Transaction} (h : .commit tx ∈ evs) :
    tx ∈ committed evs := by
  induction evs with
  | nil => cases h
  | cons e evs ih =>
      rcases List.mem_cons.mp h with rfl | hold
      · exact List.mem_cons_self
      · cases e with
        | commit tx' => exact List.mem_cons_of_mem _ (ih hold)
        | checkpoint => exact ih hold

theorem fresh_of_journaled {dir : Uuid} {evs : List Event}
    (hevs : ∀ tx ∈ committed evs, Journaled dir tx) : ∀ e ∈ evs, Fresh dir e := by
  intro e he
  cases e with
  | commit tx =>
      have h := (hevs tx (mem_committed he)).sound
      exact ⟨h.committed, h.sIno⟩
  | checkpoint => trivial

/-- What a crash leaves, said with the log. -/
structure CrashLog (dir : Uuid) (evs : List Event) (s ref : State) (m : Stored) (l lref : Log) :
    Prop where
  run : run Log.step ⟨m, [], [], true⟩ evs = some l
  rest : Lib.run Log.step l (List.replicate s.queue.length .checkpoint) = some lref
  follows : Follows dir s l
  followsRef : Follows dir ref lref

theorem follows_start {dir : Uuid} {pool : Pool} {m : Stored} (h : Stores pool dir m)
    (hj : StoredAs pool .journal dir.toStr none) :
    Follows dir ⟨pool, []⟩ ⟨m, [], [], true⟩ :=
  ⟨h, ⟨[], hj.holds, rfl, fun _ => rfl⟩, List.Forall₂.nil, fun _ h => (nomatch h),
    fun _ h => (nomatch h)⟩

theorem fresh_replicate (dir : Uuid) (n : Nat) :
    ∀ e ∈ List.replicate n Event.checkpoint, Fresh dir e := by
  intro e he
  rw [List.eq_of_mem_replicate he]
  trivial

theorem crashLog_of_crash {dir : Uuid} {evs : List Event} {pool : Pool} {s ref : State} {m : Stored}
    (hevs : ∀ e ∈ evs, Fresh dir e) (hm : Stores pool dir m) (h : Crash dir evs pool s ref) :
    ∃ l lref, CrashLog dir evs s ref m l lref := by
  obtain ⟨l, hl, hf⟩ := run_follows (follows_start hm h.journal) hevs h.run
  obtain ⟨lref, hlref, hfref⟩ := run_follows hf (fresh_replicate dir _) h.rest
  exact ⟨l, lref, hl, hlref, hf, hfref⟩

/-- The same crash can happen where there are no INODE objects at the start. -/
theorem crash_without_inodes {dir : Uuid} {evs : List Event} {pool : Pool} {s ref : State}
    (hevs : ∀ e ∈ evs, Fresh dir e) (h : Crash dir evs pool s ref) :
    ∃ pool' s' ref' m, Stores pool' dir m ∧ (∀ u, m.inodes u = []) ∧
      Crash dir evs pool' s' ref' := by
  obtain ⟨m, hm⟩ := h.stored
  obtain ⟨l, lref, hl, hlref, hf, -⟩ := crashLog_of_crash hevs hm h
  obtain ⟨pool', hdentry, hothers⟩ := exists_storedAs .dentry dir.toStr m.dentry
  have hm' : Stores pool' dir ⟨m.dentry, fun _ => []⟩ :=
    ⟨hdentry, fun u => (hothers .inode u.toStr fun heq => nomatch (Prod.mk.inj heq).1).holds⟩
  have hj' := hothers .journal dir.toStr fun heq => nomatch (Prod.mk.inj heq).1
  have hstart : Twin ⟨m, [], [], true⟩ ⟨⟨m.dentry, fun _ => []⟩, [], [], true⟩ :=
    ⟨rfl, rfl, rfl, rfl⟩
  obtain ⟨l', hl', htwin⟩ := run_twin hstart hl
  obtain ⟨lref', hlref', -⟩ := run_twin htwin hlref
  obtain ⟨s', hs', hf'⟩ := run_followed (follows_start hm' hj') hevs hl'
  have hqueue : s'.queue.length = s.queue.length := by
    rw [hf'.queue.length_eq, htwin.pending, hf.queue.length_eq]
  rw [← hqueue] at hlref'
  obtain ⟨ref', href', -⟩ := run_followed hf' (fresh_replicate dir _) hlref'
  exact ⟨pool', s', ref', _, hm', fun _ => rfl, ⟨⟨_, hm'⟩, hj', hs', href'⟩⟩

theorem CrashLog.ref {dir : Uuid} {evs : List Event} {s ref : State} {m : Stored} {l lref : Log}
    (h : CrashLog dir evs s ref m l lref) :
    (committed evs).foldlM Stored.sync m = .ok lref.stored := by
  obtain ⟨hpending, hle, -, -, -⟩ := log_run h.run
  have hrun : Lib.run Log.step ⟨m, [], [], true⟩
      (evs ++ List.replicate s.queue.length .checkpoint) = some lref :=
    run_append.mpr ⟨l, h.run, h.rest⟩
  obtain ⟨-, -, hsync, -, -⟩ := log_run hrun
  have hqueue : s.queue.length = (committed evs).length - checkpointed evs := by
    rw [h.follows.queue.length_eq, hpending, List.length_drop, List.nil_append]
  rw [List.nil_append] at hle
  rw [committed_append, committed_replicate, List.append_nil, checkpointed_append,
    checkpointed_replicate, hqueue, List.nil_append, List.take_of_length_le (by omega)] at hsync
  exact hsync

theorem index_le_of_mem_records {index : Nat} {txs : List Transaction} {o : Nat × Transaction}
    (h : o ∈ records index txs) : index ≤ o.1 := by
  induction txs generalizing index with
  | nil => cases h
  | cons tx txs ih =>
      rcases List.mem_cons.mp h with rfl | hold
      · exact Nat.le_refl _
      · exact Nat.le_trans (Nat.le_add_right _ _) (ih hold)

theorem flatMap_serialize_ne_nil {txs : List Transaction} (h : txs ≠ []) :
    txs.flatMap serialize ≠ [] := by
  cases txs with
  | nil => exact absurd rfl h
  | cons tx txs =>
      intro hnil
      have := congrArg List.length hnil
      rw [List.flatMap_cons, List.length_append, List.length_nil] at this
      have := serialize_pos tx
      omega

/-- Recovery does what it is for where a crash can be recovered from. -/
theorem recovers_of_recoverable {dir : Uuid} {evs : List Event}
    (hevs : ∀ tx ∈ committed evs, Journaled dir tx) (h : Recoverable evs) : Recovers dir evs := by
  intro pool s ref hcrash
  obtain ⟨m, hm⟩ := hcrash.stored
  obtain ⟨l, lref, hlog⟩ := crashLog_of_crash (fresh_of_journaled hevs) hm hcrash
  obtain ⟨-, -, hsync, hbytes, hclean⟩ := log_run hlog.run
  rw [h.clean, List.take_zero] at hsync
  cases hsync
  rw [h.clean] at hclean
  obtain ⟨journal, hj, -, hjeq⟩ := hlog.follows.journal
  have hjournal : journal = (committed evs).flatMap serialize := by
    rw [hjeq hclean, hbytes]
    rfl
  subst hjournal
  have hcount := length_le_flatMap (f := serialize)
    (fun tx => by have := serialize_pos tx; omega) (committed evs)
  have hloop := checkLoop_replays h.fits (committed evs)
    (fun tx htx => ⟨hevs tx htx, h.kept tx htx⟩) [] (((committed evs).flatMap serialize).length + 1)
    s.pool l.stored l.stored rfl hlog.follows.stores ⟨rfl, rfl, rfl⟩ hlog.ref (by omega)
  rw [List.length_nil] at hloop
  rw [check_eq hj (flatMap_serialize_ne_nil h.some), Nat.min_eq_right h.fits, h.clean, List.drop_zero]
  obtain ⟨hres, hrep, m', hm', hsame⟩ := hloop
  exact ⟨hres, hrep, sameMeta_of_sameStored hlog.followsRef.stores hm' hsame⟩

/-- And nowhere else. -/
theorem recoverable_of_recovers {dir : Uuid} {evs : List Event}
    (hevs : ∀ tx ∈ committed evs, Journaled dir tx)
    (hposs : ∃ pool s ref, Crash dir evs pool s ref) (h : Recovers dir evs) : Recoverable evs := by
  obtain ⟨pool₀, s₀, ref₀, hcrash₀⟩ := hposs
  obtain ⟨pool, s, ref, m, hm, hnil, hcrash⟩ :=
    crash_without_inodes (fresh_of_journaled hevs) hcrash₀
  obtain ⟨hres, hrep, hmeta⟩ := h pool s ref hcrash
  obtain ⟨l, lref, hlog⟩ := crashLog_of_crash (fresh_of_journaled hevs) hm hcrash
  obtain ⟨-, hle, hsync, hbytes, hclean⟩ := log_run hlog.run
  rw [List.nil_append] at hle
  by_cases hnone : committed evs = []
  · -- no journal has been made
    exfalso
    have hevsnil : evs = [] := by
      cases evs with
      | nil => rfl
      | cons e evs =>
          cases e with
          | commit tx => cases hnone
          | checkpoint =>
              rw [hnone] at hle
              cases hle
    subst hevsnil
    cases hcrash.run
    rw [check_of_missing hcrash.journal] at hres
    cases hres
  obtain ⟨journal, hj, hjlen, hjeq⟩ := hlog.follows.journal
  rw [hbytes, List.nil_append] at hjlen hjeq
  have hlpos : 0 < journal.length := by
    rw [hjlen]
    exact List.length_pos_iff.mpr (flatMap_serialize_ne_nil hnone)
  have hpos := objSize_pos
  rw [check_eq hj (List.length_pos_iff.mp hlpos)] at hres hrep hmeta
  have hk : checkpointed evs = 0 := by
    by_contra hk
    -- the loop takes the first record for one that has not been checkpointed
    obtain ⟨raw, tx', pool', -, -, -, hround⟩ := checkLoop_round (by omega) hres
    rw [hround] at hrep
    obtain ⟨o, os, ⟨ho, -⟩, -, hdrop⟩ := List.forall₂_cons_right_iff.mp hrep
    obtain ⟨tx, txs, htxs⟩ := List.exists_cons_of_ne_nil hnone
    obtain ⟨k, hk'⟩ := Nat.exists_eq_succ_of_ne_zero hk
    rw [htxs, hk', records, List.drop_succ_cons] at hdrop
    have hmem : o ∈ records (0 + tx.serialize.length) txs := by
      apply List.mem_of_mem_drop
      rw [hdrop]
      exact List.mem_cons_self
    have hle := index_le_of_mem_records hmem
    have := serialize_pos tx
    dsimp only at ho
    omega
  rw [hk] at hclean hsync hrep
  cases hsync
  have hjournal := hjeq hclean
  subst hjournal
  rw [List.drop_zero] at hrep
  obtain ⟨hkept, hfits, m', hm', hdentry⟩ := checkLoop_kept (committed evs) hevs [] _ s.pool l.stored
    (rfl : (committed evs).flatMap serialize = [] ++ (committed evs).flatMap serialize)
    hlog.follows.stores (fun u => by rw [hnil u]; exact Nat.zero_le _) hres hrep
  refine ⟨hnone, hk, hfits hnone, ?_⟩
  intro tx htx
  refine ⟨(hkept tx htx).1, ?_, (hkept tx htx).2⟩
  intro hdeleted
  have hgone := dentry_eq_none_of_deleted (committed evs)
    (fun t ht => ⟨hevs t ht, (hkept t ht).1⟩) hlog.ref (.inr ⟨tx, htx, hdeleted⟩)
  have hexist := hmeta.exist
  rw [List.length_nil] at hm'
  rw [exist_of_storedAs hm'.dentry, exist_of_storedAs hlog.followsRef.stores.dentry, hgone,
    hdentry (.inl hnone)] at hexist
  cases hexist

/-- What the log can do, the code can do from some pool. -/
theorem exists_crash {dir : Uuid} {evs : List Event} (hevs : ∀ tx ∈ committed evs, Journaled dir tx)
    (dentry : Option Bytes)
    (h : (run Log.step ⟨⟨dentry, fun _ => []⟩, [], [], true⟩ (evs ++ List.replicate
      ((committed evs).length - checkpointed evs) .checkpoint)).isSome = true) :
    ∃ pool s ref, Crash dir evs pool s ref := by
  obtain ⟨lref, hrun⟩ := Option.isSome_iff_exists.mp h
  obtain ⟨l, hl, hlref⟩ := run_append.mp hrun
  obtain ⟨pool, hdentry, hothers⟩ := exists_storedAs .dentry dir.toStr dentry
  have hm : Stores pool dir ⟨dentry, fun _ => []⟩ :=
    ⟨hdentry, fun u => (hothers .inode u.toStr fun heq => nomatch (Prod.mk.inj heq).1).holds⟩
  have hj := hothers .journal dir.toStr fun heq => nomatch (Prod.mk.inj heq).1
  obtain ⟨s, hs, hf⟩ := run_followed (follows_start hm hj) (fresh_of_journaled hevs) hl
  have hqueue : s.queue.length = (committed evs).length - checkpointed evs := by
    rw [hf.queue.length_eq, (log_run hl).1, List.length_drop, List.nil_append]
  rw [← hqueue] at hlref
  obtain ⟨ref, href, -⟩ := run_followed hf (fresh_replicate dir _) hlref
  exact ⟨pool, s, ref, ⟨_, hm⟩, hj, hs, href⟩

/-- **When a crash is recovered from**: something has been committed, nothing of it has been
    checkpointed, the journal fits into one object, no transaction has the directory's inode or
    a link with a target, and the directory has not been deleted. -/
theorem recovers_iff (dir : Uuid) (evs : List Event) (hevs : ∀ tx ∈ committed evs, Journaled dir tx)
    (hposs : ∃ pool s ref, Crash dir evs pool s ref) : Recovers dir evs ↔ Recoverable evs :=
  ⟨recoverable_of_recovers hevs hposs, recovers_of_recoverable hevs⟩

/-- The root directory's transaction after a file in it has changed. -/
def fileChanged : Transaction := (new Uuid.rootIno).mutate [.chreg file]

theorem fileChanged_journaled : Journaled Uuid.rootIno fileChanged := by
  have hentries : fileChanged.fInodes.entries = [⟨fileIno, some file⟩] := by decide
  refine ⟨⟨[.chreg file], ?_, rfl, rfl, rfl, rfl, .refl _, .refl _⟩, ?_, ?_, by decide +kernel⟩
  · intro m hm
    rw [List.mem_singleton.mp hm]
    exact (by decide : IsFile file)
  · intro e he
    cases he
  · intro u i hi
    have hmem := liveInode_eq_some.mp hi
    rw [hentries, List.mem_singleton] at hmem
    cases hmem
    decide

theorem recovers_iff_fileChanged : Recovers Uuid.rootIno [.commit fileChanged] :=
  have hevs : ∀ tx ∈ committed [.commit fileChanged], Journaled Uuid.rootIno tx := by
    intro tx htx
    rw [List.mem_singleton.mp htx]
    exact fileChanged_journaled
  (recovers_iff Uuid.rootIno [.commit fileChanged] hevs
    (exists_crash hevs (some (List.replicate 8 0)) (by decide +kernel))).mpr
    ⟨by decide, rfl, by rw [objSize_eq]; decide +kernel, by
      intro tx htx
      rw [List.mem_singleton.mp htx]
      refine ⟨rfl, by decide, ?_⟩
      intro u i hi
      have hmem := liveInode_eq_some.mp hi
      have hentries : fileChanged.fInodes.entries = [⟨fileIno, some file⟩] := by decide
      rw [hentries, List.mem_singleton] at hmem
      cases hmem
      decide⟩

/-- A transaction that has been checkpointed is in the way of the next recovery. -/
theorem checkpointed_not_recovered :
    ¬ Recovers Uuid.rootIno [.commit fileChanged, .checkpoint] := by
  intro h
  have hevs : ∀ tx ∈ committed [.commit fileChanged, .checkpoint], Journaled Uuid.rootIno tx := by
    intro tx htx
    rw [List.mem_singleton.mp htx]
    exact fileChanged_journaled
  have hclean := (recoverable_of_recovers hevs
    (exists_crash hevs (some (List.replicate 8 0)) (by decide +kernel)) h).clean
  cases hclean

end Nmfs.Journal
