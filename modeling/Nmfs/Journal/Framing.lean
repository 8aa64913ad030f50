import Nmfs.Journal.Recovery
import Mathlib.Logic.Relation

/-
  `journal::check` on any bytes. No size that it reads is looked at: not `tx_size`, which takes the
  loop on to the next record and is how long the record is, nor the sizes in a record, by which
  `transaction::deserialize` goes on. A negative size of a record or of a name is an exception of the
  container; one of an inode takes the index back.

  `Fits` says of the bytes that a loop comes to that each of these sizes has as many bytes behind it,
  with the exceptions that end the loop before.
-/

namespace Nmfs

open Lib

namespace Transaction

/-! ## A record -/

/-- One round of the loop over the inodes, where the size -1 has not been read. -/
def fInodeRound (pool : Pool) (raw : Bytes) (index : Nat)
    (fInodes : AList (fun _ : Uuid => Option Inode)) :
    Except Err (Option (Nat × AList (fun _ : Uuid => Option Inode))) := do
  let size := leNat (← getRaw raw index 4)
  if size = 2 ^ 32 - 1 then return none
  else
    let value ← getRaw raw (index + 4) Inode.REG_INODE_SIZE
    let i ← Inode.deserialize pool none value
    if i.ino ∈ fInodes then .error duplicated
    else
      let index ← advance (index + 4) size
      return some (index, fInodes.insert i.ino (some i))

/-- Each round of the loop over the inodes brings the index forward. -/
def InodesAdvance (pool : Pool) (raw : Bytes) :
    Nat → Nat → AList (fun _ : Uuid => Option Inode) → Prop
  | 0, _, _ => True
  | fuel + 1, index, fInodes => ∀ index' fInodes',
    fInodeRound pool raw index fInodes = .ok (some (index', fInodes')) →
      index < index' ∧ InodesAdvance pool raw fuel index' fInodes'

/-- `deserialize` reads nothing outside the record, and brings its index forward. -/
def ReadsInside (pool : Pool) (selfIno : Uuid) (raw : Bytes) : Prop :=
  deserialize pool selfIno raw ≠ .error .undefined ∧
    (slice raw 4 1 ≠ [0] → ∀ start sInode index dentries,
      readSInode pool raw = .ok (start, sInode) →
      readDentries raw (raw.length + 1) start ∅ = .ok (index, dentries) →
      InodesAdvance pool raw (raw.length + 1) index ∅)

/-- The `int32_t` at a position, as a 32-bit pattern. -/
def sizeAt (raw : Bytes) (index : Nat) : Nat := leNat (slice raw index 4)

/-- The entries from `index` on, behind those with the given names; `Behind` is about what comes
    behind them all. -/
inductive EntriesFit (raw : Bytes) (Behind : Nat → Prop) : List Bytes → Nat → Prop
  | finished {names : List Bytes} {index : Nat} (here : index + 1 ≤ raw.length)
      (stat : slice raw index 1 = [255]) (behind : Behind (index + 1)) :
      EntriesFit raw Behind names index
  | negative {names : List Bytes} {index : Nat} (here : index + 5 ≤ raw.length)
      (stat : slice raw index 1 ≠ [255]) (size : 2 ^ 31 ≤ sizeAt raw (index + 1)) :
      EntriesFit raw Behind names index
  | duplicated {names : List Bytes} {index : Nat}
      (here : index + 21 + sizeAt raw (index + 1) ≤ raw.length)
      (stat : slice raw index 1 ≠ [255]) (size : sizeAt raw (index + 1) < 2 ^ 31)
      (name : slice raw (index + 5) (sizeAt raw (index + 1)) ∈ names) :
      EntriesFit raw Behind names index
  | entry {names : List Bytes} {index : Nat}
      (here : index + 21 + sizeAt raw (index + 1) ≤ raw.length)
      (stat : slice raw index 1 ≠ [255]) (size : sizeAt raw (index + 1) < 2 ^ 31)
      (name : slice raw (index + 5) (sizeAt raw (index + 1)) ∉ names)
      (rest : EntriesFit raw Behind
        (slice raw (index + 5) (sizeAt raw (index + 1)) :: names)
        (index + 21 + sizeAt raw (index + 1))) :
      EntriesFit raw Behind names index

/-- The inodes from `index` on, behind those with the given numbers. -/
inductive InodesFit (pool : Pool) (raw : Bytes) : List Uuid → Nat → Prop
  | finished {inos : List Uuid} {index : Nat} (here : index + 4 ≤ raw.length)
      (size : sizeAt raw index = 2 ^ 32 - 1) : InodesFit pool raw inos index
  | noTarget {inos : List Uuid} {index : Nat} {e : Err}
      (here : index + 4 + Inode.REG_INODE_SIZE ≤ raw.length) (size : sizeAt raw index ≠ 2 ^ 32 - 1)
      (inode : Inode.deserialize pool none (slice raw (index + 4) Inode.REG_INODE_SIZE) =
        .error e) : InodesFit pool raw inos index
  | duplicated {inos : List Uuid} {index : Nat} {i : Inode}
      (here : index + 4 + Inode.REG_INODE_SIZE ≤ raw.length) (size : sizeAt raw index ≠ 2 ^ 32 - 1)
      (inode : Inode.deserialize pool none (slice raw (index + 4) Inode.REG_INODE_SIZE) = .ok i)
      (ino : i.ino ∈ inos) : InodesFit pool raw inos index
  | inode {inos : List Uuid} {index index' : Nat} {i : Inode}
      (here : index + 4 + Inode.REG_INODE_SIZE ≤ raw.length) (size : sizeAt raw index ≠ 2 ^ 32 - 1)
      (inode : Inode.deserialize pool none (slice raw (index + 4) Inode.REG_INODE_SIZE) = .ok i)
      (ino : i.ino ∉ inos) (next : advance (index + 4) (sizeAt raw index) = .ok index')
      (forward : index < index') (rest : InodesFit pool raw (i.ino :: inos) index') :
      InodesFit pool raw inos index

/-- A record: the valid byte, the directory's own inode, the entries and the inodes. -/
def Fits (pool : Pool) (raw : Bytes) : Prop :=
  5 ≤ raw.length ∧ (slice raw 4 1 = [0] ∨ 9 ≤ raw.length ∧
    if sizeAt raw 5 = 2 ^ 32 - 1 then EntriesFit raw (InodesFit pool raw []) [] 9
    else 9 + Inode.REG_INODE_SIZE ≤ raw.length ∧
      ((∃ e, Inode.deserialize pool none (slice raw 9 Inode.REG_INODE_SIZE) = .error e) ∨
        EntriesFit raw (InodesFit pool raw []) [] (9 + Inode.sizeofInode)))

section

variable {pool : Pool} {raw : Bytes} {index len fuel : Nat}

theorem getRaw_inside (h : index + len ≤ raw.length) :
    getRaw raw index len = .ok (slice raw index len) := if_pos h

theorem getRaw_outside (h : ¬ index + len ≤ raw.length) :
    getRaw raw index len = .error .undefined := if_neg h

theorem error_bind {α β : Type} (e : Err) (f : α → Except Err β) :
    (Except.error e >>= f) = .error e := rfl

theorem error_ne_iff {α : Type} {e : Err} :
    (Except.error e : Except Err α) ≠ .error .undefined ↔ e ≠ .undefined :=
  not_congr ⟨Except.error.inj, congrArg Except.error⟩

theorem inode_deserialize_error {value : Bytes} {e : Err}
    (h : Inode.deserialize pool none value = .error e) : e = .noSuchObject := by
  unfold Inode.deserialize at h
  dsimp only at h
  split at h
  · split at h
    · cases h
    · cases h
      rfl
  · cases h

/-! ## The entries -/

/-- A round of the loop over the entries. -/
theorem readDentries_round {dentries : AList (fun _ : Bytes => Bool × Uuid)} :
    readDentries raw (fuel + 1) index dentries =
      if ¬ index + 1 ≤ raw.length then .error .undefined
      else if slice raw index 1 = [255] then .ok (index + 1, dentries)
      else if ¬ index + 5 ≤ raw.length then .error .undefined
      else if 2 ^ 31 ≤ sizeAt raw (index + 1) then .error .lengthError
      else if ¬ index + 21 + sizeAt raw (index + 1) ≤ raw.length then .error .undefined
      else if slice raw (index + 5) (sizeAt raw (index + 1)) ∈ dentries then .error duplicated
      else readDentries raw fuel (index + 21 + sizeAt raw (index + 1))
        (dentries.insert (slice raw (index + 5) (sizeAt raw (index + 1)))
          (decide (slice raw index 1 ≠ [0]),
            Inode.getUuid (slice raw (index + 5 + sizeAt raw (index + 1)) 16) 0)) := by
  rw [readDentries]
  split
  · rename_i h1
    rw [getRaw_outside h1, error_bind]
  rename_i h1
  rw [getRaw_inside (not_not.mp h1), ok_bind]
  split
  · rfl
  split
  · rename_i h5
    have h5' : ¬ index + 1 + 4 ≤ raw.length := by omega
    rw [getRaw_outside h5', error_bind]
  rename_i h5
  have h5' : index + 1 + 4 ≤ raw.length := by omega
  rw [getRaw_inside h5', ok_bind]
  unfold sizeAt
  generalize leNat (slice raw (index + 1) 4) = size
  dsimp only
  split
  · rfl
  split
  · rename_i hend
    by_cases hn : index + 5 + size ≤ raw.length
    · have hino : ¬ index + 5 + size + 16 ≤ raw.length := by omega
      rw [getRaw_inside hn, ok_bind, getRaw_outside hino, error_bind]
    · rw [getRaw_outside hn, error_bind]
  rename_i hend
  have hn : index + 5 + size ≤ raw.length := by omega
  have hino : index + 5 + size + 16 ≤ raw.length := by omega
  have hnext : index + 5 + size + 16 = index + 21 + size := by omega
  rw [getRaw_inside hn, ok_bind, getRaw_inside hino, ok_bind, hnext]

/-- The loop over the entries stays inside, and what comes behind it has `Behind`. -/
theorem entriesFit_iff {Behind : Nat → Prop} {dentries : AList (fun _ : Bytes => Bool × Uuid)}
    {names : List Bytes} (hfuel : raw.length < index + fuel)
    (hnames : ∀ name, name ∈ dentries ↔ name ∈ names) :
    (readDentries raw fuel index dentries ≠ .error .undefined ∧
      ∀ index' dentries', readDentries raw fuel index dentries = .ok (index', dentries') →
        Behind index') ↔ EntriesFit raw Behind names index := by
  induction fuel generalizing index dentries names with
  | zero =>
      refine iff_of_false (fun h => h.1 rfl) fun h => ?_
      cases h <;> omega
  | succ fuel ih =>
      rw [readDentries_round]
      split
      · rename_i h1
        refine iff_of_false (fun h => h.1 rfl) fun h => ?_
        cases h <;> omega
      rename_i h1
      split
      · rename_i hstat
        constructor
        · exact fun h => .finished (not_not.mp h1) hstat (h.2 _ _ rfl)
        · intro h
          cases h with
          | finished _ _ behind =>
              refine ⟨nofun, fun _ _ heq => ?_⟩
              cases heq
              exact behind
          | negative _ stat _ => exact absurd hstat stat
          | duplicated _ stat _ _ => exact absurd hstat stat
          | entry _ stat _ _ _ => exact absurd hstat stat
      rename_i hstat
      split
      · rename_i h5
        refine iff_of_false (fun h => h.1 rfl) fun h => ?_
        cases h with
        | finished _ stat _ => exact hstat stat
        | _ => omega
      rename_i h5
      split
      · rename_i hsize
        exact iff_of_true ⟨nofun, nofun⟩ (.negative (not_not.mp h5) hstat hsize)
      rename_i hsize
      have hsize' := Nat.lt_of_not_le hsize
      split
      · rename_i hend
        refine iff_of_false (fun h => h.1 rfl) fun h => ?_
        cases h with
        | finished _ stat _ => exact hstat stat
        | negative _ _ size => exact hsize size
        | duplicated here _ _ _ => exact hend here
        | entry here _ _ _ _ => exact hend here
      rename_i hend
      split
      · rename_i hname
        exact iff_of_true ⟨nofun, nofun⟩
          (.duplicated (not_not.mp hend) hstat hsize' ((hnames _).mp hname))
      rename_i hname
      have hnext : ∀ name, name ∈ dentries.insert
            (slice raw (index + 5) (sizeAt raw (index + 1)))
            (decide (slice raw index 1 ≠ [0]),
              Inode.getUuid (slice raw (index + 5 + sizeAt raw (index + 1)) 16) 0) ↔
          name ∈ slice raw (index + 5) (sizeAt raw (index + 1)) :: names := by
        intro name
        rw [AList.mem_insert, List.mem_cons, hnames]
      rw [ih (by omega) hnext]
      constructor
      · exact fun h => .entry (not_not.mp hend) hstat hsize' (fun hn => hname ((hnames _).mpr hn)) h
      · intro h
        cases h with
        | finished _ stat _ => exact absurd stat hstat
        | negative _ _ size => exact absurd size hsize
        | duplicated _ _ _ name => exact absurd ((hnames _).mpr name) hname
        | entry _ _ _ _ rest => exact rest

/-! ## The inodes -/

theorem readFInodes_round {fInodes : AList (fun _ : Uuid => Option Inode)} :
    readFInodes pool raw (fuel + 1) index fInodes =
      match fInodeRound pool raw index fInodes with
      | .error e => .error e
      | .ok none => .ok fInodes
      | .ok (some (index', fInodes')) => readFInodes pool raw fuel index' fInodes' := by
  rw [readFInodes, fInodeRound]
  cases getRaw raw index 4 with
  | error e => rfl
  | ok bytes =>
      simp only [ok_bind]
      split
      · rfl
      cases getRaw raw (index + 4) Inode.REG_INODE_SIZE with
      | error e => rfl
      | ok value =>
          simp only [ok_bind]
          cases Inode.deserialize pool none value with
          | error e => rfl
          | ok i =>
              simp only [ok_bind]
              split
              · rfl
              cases advance (index + 4) (leNat bytes) with
              | error e => rfl
              | ok index' => rfl

theorem fInodeRound_eq {fInodes : AList (fun _ : Uuid => Option Inode)} :
    fInodeRound pool raw index fInodes =
      if ¬ index + 4 ≤ raw.length then .error .undefined
      else if sizeAt raw index = 2 ^ 32 - 1 then .ok none
      else if ¬ index + 4 + Inode.REG_INODE_SIZE ≤ raw.length then .error .undefined
      else match Inode.deserialize pool none (slice raw (index + 4) Inode.REG_INODE_SIZE) with
        | .error e => .error e
        | .ok i =>
          if i.ino ∈ fInodes then .error duplicated
          else match advance (index + 4) (sizeAt raw index) with
            | .error e => .error e
            | .ok index' => .ok (some (index', fInodes.insert i.ino (some i))) := by
  rw [fInodeRound]
  split
  · rename_i h4
    rw [getRaw_outside h4, error_bind]
  rename_i h4
  rw [getRaw_inside (not_not.mp h4), ok_bind]
  unfold sizeAt
  generalize leNat (slice raw index 4) = size
  dsimp only
  split
  · rfl
  split
  · rename_i hvalue
    rw [getRaw_outside hvalue, error_bind]
  rename_i hvalue
  rw [getRaw_inside (not_not.mp hvalue), ok_bind]
  match Inode.deserialize pool none (slice raw (index + 4) Inode.REG_INODE_SIZE) with
  | .error e => rfl
  | .ok i =>
      simp only [ok_bind]
      split
      · rfl
      match advance (index + 4) size with
      | .error e => rfl
      | .ok index' => rfl

theorem advance_error {size : Nat} {e : Err} (h : advance index size = .error e) :
    e = .undefined := by
  unfold advance at h
  split at h
  · cases h
  · split at h
    · cases h
    · cases h
      rfl

/-- The loop over the inodes stays inside, and goes forward. -/
def InodesInside (pool : Pool) (raw : Bytes) (fuel index : Nat)
    (fInodes : AList (fun _ : Uuid => Option Inode)) : Prop :=
  readFInodes pool raw fuel index fInodes ≠ .error .undefined ∧
    InodesAdvance pool raw fuel index fInodes

section

variable {fInodes fInodes' : AList (fun _ : Uuid => Option Inode)} {index' : Nat}

theorem not_inside_of_undefined (h : fInodeRound pool raw index fInodes = .error .undefined) :
    ¬ InodesInside pool raw (fuel + 1) index fInodes := by
  intro ⟨hread, _⟩
  rw [readFInodes_round, h] at hread
  exact hread rfl

theorem inside_of_error {e : Err} (h : fInodeRound pool raw index fInodes = .error e)
    (he : e ≠ .undefined) : InodesInside pool raw (fuel + 1) index fInodes := by
  constructor
  · rw [readFInodes_round, h]
    exact fun heq => he (Except.error.inj heq)
  · intro index' fInodes' hnext
    rw [h] at hnext
    cases hnext

theorem inside_of_finished (h : fInodeRound pool raw index fInodes = .ok none) :
    InodesInside pool raw (fuel + 1) index fInodes := by
  constructor
  · rw [readFInodes_round, h]
    exact fun heq => nomatch heq
  · intro index' fInodes' hnext
    rw [h] at hnext
    cases hnext

theorem inside_of_next (h : fInodeRound pool raw index fInodes = .ok (some (index', fInodes'))) :
    InodesInside pool raw (fuel + 1) index fInodes ↔
      index < index' ∧ InodesInside pool raw fuel index' fInodes' := by
  unfold InodesInside
  rw [readFInodes_round, h]
  dsimp only
  constructor
  · intro ⟨hread, hadvance⟩
    obtain ⟨hforward, hadvance⟩ := hadvance index' fInodes' h
    exact ⟨hforward, hread, hadvance⟩
  · intro ⟨hforward, hread, hadvance⟩
    refine ⟨hread, fun index₁ fInodes₁ hnext => ?_⟩
    rw [h] at hnext
    cases hnext
    exact ⟨hforward, hadvance⟩

theorem inodesFit_iff {inos : List Uuid} (hfuel : raw.length < index + fuel)
    (hinos : ∀ u, u ∈ fInodes ↔ u ∈ inos) :
    InodesInside pool raw fuel index fInodes ↔ InodesFit pool raw inos index := by
  induction fuel generalizing index fInodes inos with
  | zero =>
      refine iff_of_false (fun h => h.1 rfl) fun h => ?_
      cases h <;> omega
  | succ fuel ih =>
      have hround := @fInodeRound_eq pool raw index fInodes
      by_cases h4 : index + 4 ≤ raw.length
      swap
      · rw [if_pos h4] at hround
        refine iff_of_false (not_inside_of_undefined hround) fun h => ?_
        cases h <;> omega
      rw [if_neg (not_not.mpr h4)] at hround
      by_cases hsize : sizeAt raw index = 2 ^ 32 - 1
      · rw [if_pos hsize] at hround
        exact iff_of_true (inside_of_finished hround) (.finished h4 hsize)
      rw [if_neg hsize] at hround
      by_cases hvalue : index + 4 + Inode.REG_INODE_SIZE ≤ raw.length
      swap
      · rw [if_pos hvalue] at hround
        refine iff_of_false (not_inside_of_undefined hround) fun h => ?_
        cases h with
        | finished _ size => exact hsize size
        | noTarget here _ _ => exact hvalue here
        | duplicated here _ _ _ => exact hvalue here
        | inode here _ _ _ _ _ _ => exact hvalue here
      rw [if_neg (not_not.mpr hvalue)] at hround
      match hi : Inode.deserialize pool none (slice raw (index + 4) Inode.REG_INODE_SIZE) with
      | .error e =>
          rw [hi] at hround
          have he : e ≠ .undefined := by
            rw [inode_deserialize_error hi]
            exact nofun
          exact iff_of_true (inside_of_error hround he) (.noTarget hvalue hsize hi)
      | .ok i =>
          rw [hi] at hround
          dsimp only at hround
          by_cases hino : i.ino ∈ fInodes
          · rw [if_pos hino] at hround
            exact iff_of_true (inside_of_error hround nofun)
              (.duplicated hvalue hsize hi ((hinos _).mp hino))
          rw [if_neg hino] at hround
          -- the inode is new, so it is where the round leads that matters
          have hrest : InodesFit pool raw inos index → ∃ index',
              advance (index + 4) (sizeAt raw index) = .ok index' ∧ index < index' ∧
                InodesFit pool raw (i.ino :: inos) index' := by
            intro h
            cases h with
            | finished _ size => exact absurd size hsize
            | noTarget _ _ inode =>
                rw [hi] at inode
                cases inode
            | duplicated _ _ inode ino =>
                rw [hi] at inode
                cases inode
                exact absurd ((hinos _).mpr ino) hino
            | inode _ _ inode _ next forward rest =>
                rw [hi] at inode
                cases inode
                exact ⟨_, next, forward, rest⟩
          match hnext : advance (index + 4) (sizeAt raw index) with
          | .error e =>
              rw [hnext, advance_error hnext] at hround
              refine iff_of_false (not_inside_of_undefined hround) fun h => ?_
              obtain ⟨index', hadvance, -⟩ := hrest h
              rw [hnext] at hadvance
              cases hadvance
          | .ok index' =>
              rw [hnext] at hround
              have hmem : ∀ u, u ∈ fInodes.insert i.ino (some i) ↔ u ∈ i.ino :: inos := by
                intro u
                rw [AList.mem_insert, List.mem_cons, hinos]
              rw [inside_of_next hround]
              constructor
              · intro ⟨hforward, hinside⟩
                exact .inode hvalue hsize hi (fun h => hino ((hinos _).mpr h)) hnext hforward
                  ((ih (by omega) hmem).mp hinside)
              · intro h
                obtain ⟨index₁, heq, hforward, hfit⟩ := hrest h
                rw [hnext] at heq
                cases heq
                exact ⟨hforward, (ih (by omega) hmem).mpr hfit⟩

end

/-! ## The record -/

theorem readSInode_eq : readSInode pool raw =
    if ¬ 9 ≤ raw.length then .error .undefined
    else if sizeAt raw 5 = 2 ^ 32 - 1 then .ok (9, none)
    else if ¬ 9 + Inode.REG_INODE_SIZE ≤ raw.length then .error .undefined
    else match Inode.deserialize pool none (slice raw 9 Inode.REG_INODE_SIZE) with
      | .error e => .error e
      | .ok s => .ok (9 + Inode.sizeofInode, some s) := by
  rw [readSInode]
  split
  · rename_i h9
    rw [getRaw_outside h9, error_bind]
  rename_i h9
  rw [getRaw_inside (not_not.mp h9), ok_bind]
  unfold sizeAt
  generalize leNat (slice raw 5 4) = size
  dsimp only
  split
  · rfl
  split
  · rename_i hvalue
    rw [getRaw_outside hvalue, error_bind]
  rename_i hvalue
  rw [getRaw_inside (not_not.mp hvalue), ok_bind]
  match Inode.deserialize pool none (slice raw 9 Inode.REG_INODE_SIZE) with
  | .error e => rfl
  | .ok s => rfl

/-- From the entries on, whatever is made of them. -/
theorem loops_iff {β : Type} (start : Nat)
    (k : AList (fun _ : Bytes => Bool × Uuid) → AList (fun _ : Uuid => Option Inode) → β) :
    ((do
        let (index, dentries) ← readDentries raw (raw.length + 1) start ∅
        let fInodes ← readFInodes pool raw (raw.length + 1) index ∅
        return k dentries fInodes : Except Err β) ≠ .error .undefined ∧
      ∀ index dentries, readDentries raw (raw.length + 1) start ∅ = .ok (index, dentries) →
        InodesAdvance pool raw (raw.length + 1) index ∅) ↔
      EntriesFit raw (InodesFit pool raw []) [] start := by
  have hinodes : ∀ index, InodesInside pool raw (raw.length + 1) index ∅ ↔
      InodesFit pool raw [] index := fun index =>
    inodesFit_iff (by omega) fun u => iff_of_false (AList.notMem_empty u) List.not_mem_nil
  rw [← @entriesFit_iff raw start (raw.length + 1) (InodesFit pool raw []) ∅ [] (by omega)
    fun name => iff_of_false (AList.notMem_empty name) List.not_mem_nil]
  match hd : readDentries raw (raw.length + 1) start ∅ with
  | .error e =>
      rw [error_bind, error_ne_iff, error_ne_iff]
      exact and_congr_right fun _ => iff_of_true (fun _ _ h => nomatch h) fun _ _ h => nomatch h
  | .ok (index, dentries) =>
      have hread : (do
          let fInodes ← readFInodes pool raw (raw.length + 1) index ∅
          return k dentries fInodes : Except Err β) ≠ .error .undefined ↔
          readFInodes pool raw (raw.length + 1) index ∅ ≠ .error .undefined := by
        match readFInodes pool raw (raw.length + 1) index ∅ with
        | .error e => rw [error_bind, error_ne_iff, error_ne_iff]
        | .ok fInodes => exact iff_of_true nofun nofun
      rw [ok_bind]
      dsimp only
      rw [hread]
      constructor
      · intro ⟨hinside, hadvance⟩
        refine ⟨nofun, fun index' dentries' heq => ?_⟩
        cases heq
        exact (hinodes index).mp ⟨hinside, hadvance index dentries rfl⟩
      · intro ⟨_, hbehind⟩
        have hinside := (hinodes index).mpr (hbehind index dentries rfl)
        refine ⟨hinside.1, fun index' dentries' heq => ?_⟩
        cases heq
        exact hinside.2

theorem readsInside_of_start {selfIno : Uuid} {start : Nat} {sInode : Option Inode}
    (h5 : 4 + 1 ≤ raw.length) (hvalid : slice raw 4 1 ≠ [0])
    (hs : readSInode pool raw = .ok (start, sInode)) :
    ReadsInside pool selfIno raw ↔ EntriesFit raw (InodesFit pool raw []) [] start := by
  rw [← loops_iff start fun dentries fInodes =>
    ((0 : Int), { new selfIno with sInode := sInode, dentries := dentries, fInodes := fInodes })]
  unfold ReadsInside deserialize
  rw [getRaw_inside h5, ok_bind, if_neg hvalid, hs, ok_bind]
  refine and_congr_right fun _ => ⟨fun h => ?_, fun h _ start' sInode' index dentries heq => ?_⟩
  · exact fun index dentries => h hvalid start sInode index dentries rfl
  · cases heq
    exact h index dentries

theorem deserialize_of_error {selfIno : Uuid} {e : Err} (h5 : 4 + 1 ≤ raw.length)
    (hvalid : slice raw 4 1 ≠ [0]) (hs : readSInode pool raw = .error e) :
    deserialize pool selfIno raw = .error e := by
  unfold deserialize
  rw [getRaw_inside h5, ok_bind, if_neg hvalid, hs]
  rfl

/-- A record is decoded inside its bounds, and forwards, if and only if it fits. -/
theorem readsInside_iff (selfIno : Uuid) : ReadsInside pool selfIno raw ↔ Fits pool raw := by
  unfold Fits
  by_cases h5 : 4 + 1 ≤ raw.length
  swap
  · refine iff_of_false (fun h => h.1 ?_) fun h => h5 h.1
    unfold deserialize
    rw [getRaw_outside h5]
    rfl
  rw [and_iff_right h5]
  by_cases hvalid : slice raw 4 1 = [0]
  · refine iff_of_true ⟨?_, fun h => absurd hvalid h⟩ (Or.inl hvalid)
    unfold deserialize
    rw [getRaw_inside h5, ok_bind, if_pos hvalid]
    exact nofun
  rw [or_iff_right hvalid]
  have hs := @readSInode_eq pool raw
  by_cases h9 : 9 ≤ raw.length
  swap
  · rw [if_pos h9] at hs
    exact iff_of_false (fun h => h.1 (deserialize_of_error h5 hvalid hs)) fun h => h9 h.1
  rw [if_neg (not_not.mpr h9)] at hs
  rw [and_iff_right h9]
  by_cases hsize : sizeAt raw 5 = 2 ^ 32 - 1
  · rw [if_pos hsize] at hs ⊢
    exact readsInside_of_start h5 hvalid hs
  rw [if_neg hsize] at hs ⊢
  by_cases hvalue : 9 + Inode.REG_INODE_SIZE ≤ raw.length
  swap
  · rw [if_pos hvalue] at hs
    exact iff_of_false (fun h => h.1 (deserialize_of_error h5 hvalid hs)) fun h => hvalue h.1
  rw [if_neg (not_not.mpr hvalue)] at hs
  rw [and_iff_right hvalue]
  match hi : Inode.deserialize pool none (slice raw 9 Inode.REG_INODE_SIZE) with
  | .error e =>
      rw [hi] at hs
      refine iff_of_true ⟨?_, fun _ start sInode index dentries heq => ?_⟩ (Or.inl ⟨e, rfl⟩)
      · rw [deserialize_of_error h5 hvalid hs, inode_deserialize_error hi]
        exact nofun
      · rw [hs] at heq
        cases heq
  | .ok s =>
      rw [hi] at hs
      rw [or_iff_right fun ⟨e, heq⟩ => nomatch heq]
      exact readsInside_of_start h5 hvalid hs

end

end Transaction

namespace Journal

open Transaction RadosIo

/-! ## The journal -/

/-- `check` at the head of its loop. -/
structure Walk where
  index : Nat
  pool : Pool

/-- A round of `check` after which there is another look at the index. -/
def nextRound (selfIno : Uuid) (value : Bytes) (size : Nat) (s : Walk) : Option Walk :=
  if s.index < size then
    match readRecord value s.index with
    | .error _ => none
    | .ok raw =>
      match deserialize s.pool selfIno raw with
      | .error _ => none
      | .ok (code, tx) =>
        if code = 0 then
          match tx.sync s.pool with
          | (.error _, _) => none
          | (.ok (), pool) => some ⟨s.index + raw.length, pool⟩
        else none
  else none

def Reaches (selfIno : Uuid) (value : Bytes) (size : Nat) : Walk → Walk → Prop :=
  Relation.ReflTransGen fun s t => nextRound selfIno value size s = some t

/-- The round reads nothing but the `size` bytes that were obtained, and brings the index forward. -/
structure InsideRound (selfIno : Uuid) (value : Bytes) (size : Nat) (s : Walk) : Prop where
  txSize : s.index + 4 ≤ size
  buffer : readRecord value s.index ≠ .error .undefined
  record : ∀ raw, readRecord value s.index = .ok raw →
    s.index + raw.length ≤ size ∧ ReadsInside s.pool selfIno raw
  forward : ∀ t, nextRound selfIno value size s = some t → s.index < t.index

/-- Every round is inside, and `check` ends with what its last round comes to. -/
structure SafeCheck (selfIno : Uuid) (pool : Pool) (value : Bytes) (size : Nat) : Prop where
  inside : ∀ t, Reaches selfIno value size ⟨0, pool⟩ t → t.index < size →
    InsideRound selfIno value size t
  ends : ∃ t, Reaches selfIno value size ⟨0, pool⟩ t ∧ nextRound selfIno value size t = none ∧
    (check pool selfIno).result = (checkLoop selfIno value size 1 t.index t.pool).result

/-- The record at the index is there as far as `tx_size` says, and fits; a negative `tx_size` is an
    exception. -/
def RecordFits (value : Bytes) (size : Nat) (s : Walk) : Prop :=
  s.index + 4 ≤ size ∧ (2 ^ 31 ≤ sizeAt value s.index ∨
    s.index + sizeAt value s.index ≤ size ∧
      Fits s.pool (slice value s.index (sizeAt value s.index)))

/-- Every record that the loop comes to fits. -/
def JournalFits (selfIno : Uuid) (pool : Pool) (value : Bytes) (size : Nat) : Prop :=
  ∀ t, Reaches selfIno value size ⟨0, pool⟩ t → t.index < size → RecordFits value size t

section

variable {selfIno : Uuid} {value : Bytes} {size fuel : Nat} {s t : Walk}

theorem readRecord_eq {index : Nat} (h : index + 4 ≤ value.length) : readRecord value index =
    if 2 ^ 31 ≤ sizeAt value index then .error .lengthError
    else getRaw value index (sizeAt value index) := by
  unfold readRecord
  rw [getRaw_inside h, ok_bind]
  rfl

theorem nextRound_some (h : nextRound selfIno value size s = some t) :
    ∃ raw tx pool, s.index < size ∧ readRecord value s.index = .ok raw ∧
      deserialize s.pool selfIno raw = .ok (0, tx) ∧ tx.sync s.pool = (.ok (), pool) ∧
      t = ⟨s.index + raw.length, pool⟩ := by
  unfold nextRound at h
  split at h
  · rename_i hindex
    split at h
    · cases h
    · rename_i raw hraw
      split at h
      · cases h
      · rename_i code tx hd
        split at h
        · rename_i hcode
          subst hcode
          split at h
          · cases h
          · rename_i pool hsync
            cases h
            exact ⟨raw, tx, pool, hindex, hraw, hd, hsync, rfl⟩
        · cases h
  · cases h

/-- A round is inside if and only if its record fits. -/
theorem insideRound_iff (hsize : size ≤ value.length) (s : Walk) :
    InsideRound selfIno value size s ↔ RecordFits value size s := by
  constructor
  · intro ⟨htx, hbuffer, hrecord, _⟩
    refine ⟨htx, ?_⟩
    have heq := readRecord_eq (htx.trans hsize)
    by_cases hneg : 2 ^ 31 ≤ sizeAt value s.index
    · exact Or.inl hneg
    · rw [if_neg hneg] at heq
      by_cases hlen : s.index + sizeAt value s.index ≤ value.length
      · rw [getRaw_inside hlen] at heq
        obtain ⟨hinside, hreads⟩ := hrecord _ heq
        rw [slice_length] at hinside
        have hmin : min (sizeAt value s.index) (value.length - s.index) = sizeAt value s.index := by
          omega
        rw [hmin] at hinside
        exact Or.inr ⟨hinside, (readsInside_iff selfIno).mp hreads⟩
      · rw [getRaw_outside hlen] at heq
        exact absurd heq hbuffer
  · intro ⟨htx, hfits⟩
    have heq := readRecord_eq (htx.trans hsize)
    obtain hneg | ⟨hinside, hfits⟩ := hfits
    · rw [if_pos hneg] at heq
      refine ⟨htx, ?_, fun raw hraw => ?_, fun t ht => ?_⟩
      · rw [heq]
        exact nofun
      · rw [heq] at hraw
        cases hraw
      · obtain ⟨raw, -, -, -, hraw, -⟩ := nextRound_some ht
        rw [heq] at hraw
        cases hraw
    · have hrecord : ∀ raw, readRecord value s.index = .ok raw →
          s.index + raw.length ≤ size ∧ ReadsInside s.pool selfIno raw := by
        intro raw hraw
        rw [heq] at hraw
        split at hraw
        · cases hraw
        · obtain ⟨-, rfl⟩ := getRaw_eq_ok.mp hraw
          refine ⟨?_, (readsInside_iff selfIno).mpr hfits⟩
          rw [getRaw_length hraw]
          exact hinside
      refine ⟨htx, ?_, hrecord, fun t ht => ?_⟩
      · rw [heq, getRaw_inside (hinside.trans hsize)]
        split
        · exact nofun
        · exact nofun
      · obtain ⟨raw, -, -, -, hraw, -, -, rfl⟩ := nextRound_some ht
        have hlen := ((readsInside_iff selfIno).mp (hrecord raw hraw).2).1
        dsimp only
        omega

/-! ## The loop ends -/

theorem checkLoop_next {pool : Pool} {index : Nat}
    (h : nextRound selfIno value size ⟨index, pool⟩ = some t) :
    (checkLoop selfIno value size (fuel + 1) index pool).result =
      (checkLoop selfIno value size fuel t.index t.pool).result := by
  obtain ⟨raw, tx, pool', hindex, hraw, hd, hsync, rfl⟩ := nextRound_some h
  rw [checkLoop_step hindex hraw hd hsync]

/-- The last round is the same however many could follow. -/
theorem checkLoop_last {pool : Pool} {index : Nat}
    (h : nextRound selfIno value size ⟨index, pool⟩ = none) :
    checkLoop selfIno value size (fuel + 1) index pool =
      checkLoop selfIno value size 1 index pool := by
  unfold nextRound at h
  dsimp only at h
  rw [checkLoop, checkLoop]
  split
  · rename_i hindex
    rw [if_pos hindex] at h
    split
    · rfl
    · rename_i raw hraw
      rw [hraw] at h
      dsimp only at h
      split
      · rfl
      · rename_i code tx hd
        rw [hd] at h
        dsimp only at h
        split
        · rename_i hcode
          rw [if_pos hcode] at h
          split
          · rfl
          · rename_i pool' hsync
            rw [hsync] at h
            cases h
        · rfl
  · rfl

/-- A loop whose index grows comes to an end before the fuel does. -/
theorem exists_last (hforward : ∀ t u, Reaches selfIno value size s t →
      nextRound selfIno value size t = some u → t.index < u.index)
    (hfuel : size ≤ s.index + fuel) :
    ∃ t, Reaches selfIno value size s t ∧ nextRound selfIno value size t = none ∧
      (checkLoop selfIno value size (fuel + 1) s.index s.pool).result =
        (checkLoop selfIno value size 1 t.index t.pool).result := by
  induction fuel generalizing s with
  | zero =>
      have hstop : nextRound selfIno value size s = none := by
        unfold nextRound
        rw [if_neg (by omega)]
      exact ⟨s, .refl, hstop, rfl⟩
  | succ fuel ih =>
      match hnext : nextRound selfIno value size s with
      | none => exact ⟨s, .refl, hnext, congrArg Checked.result (checkLoop_last hnext)⟩
      | some u =>
          have hlt := hforward s u .refl hnext
          obtain ⟨t, hreach, hstop, hresult⟩ := @ih u
            (fun t v ht => hforward t v (.head hnext ht)) (by omega)
          exact ⟨t, .head hnext hreach, hstop, (checkLoop_next hnext).trans hresult⟩

theorem index_lt_of_next (h : nextRound selfIno value size s = some t) : s.index < size := by
  obtain ⟨-, -, -, hindex, -⟩ := nextRound_some h
  exact hindex

end

/-- Whatever the JOURNAL object holds: `check` reads inside what it has obtained, goes forward with
    every round and ends, if and only if every record that it comes to fits. -/
theorem recovery_safe_iff (pool : Pool) (selfIno : Uuid) :
    (∀ bytes size, RadosIo.read pool .journal selfIno.toStr objSize 0 = .done bytes size →
      SafeCheck selfIno pool (resize 0 bytes objSize) size) ↔
    ∀ bytes size, RadosIo.read pool .journal selfIno.toStr objSize 0 = .done bytes size →
      JournalFits selfIno pool (resize 0 bytes objSize) size := by
  refine forall_congr' fun bytes => forall_congr' fun size => forall_congr' fun hread => ?_
  have hsize : size ≤ (resize 0 bytes objSize).length := by
    rw [resize_length]
    rw [read_head objSize_pos (Nat.le_refl _)] at hread
    unfold headOf at hread
    split at hread
    · cases hread
    · cases hread
      rw [slice_length]
      exact Nat.min_le_left _ _
  constructor
  · exact fun h t hreach hindex => (insideRound_iff hsize t).mp (h.inside t hreach hindex)
  · intro h
    have hinside : ∀ t, Reaches selfIno (resize 0 bytes objSize) size ⟨0, pool⟩ t →
        t.index < size → InsideRound selfIno (resize 0 bytes objSize) size t :=
      fun t hreach hindex => (insideRound_iff hsize t).mpr (h t hreach hindex)
    obtain ⟨t, hreach, hstop, hresult⟩ := @exists_last selfIno (resize 0 bytes objSize) size size
      ⟨0, pool⟩ (fun t u hreach hnext =>
        (hinside t hreach (index_lt_of_next hnext)).forward u hnext) (Nat.le_add_left _ _)
    refine ⟨hinside, t, hreach, hstop, ?_⟩
    unfold check
    rw [hread]
    exact hresult

/-- What is left of an empty transaction's record when `checkpoint` has written its zero byte. -/
def checkpointedRecord : Bytes := [0, 0, 0, 0, 1, 255, 255, 255, 255, 255, 255, 255, 255, 255]

/-- A pool with that journal. -/
def journalOf (journal : Bytes) : Pool :=
  (∅ : Pool).insert (objKey .journal Uuid.rootIno.toStr 0) journal

theorem read_journalOf (journal : Bytes) :
    RadosIo.read (journalOf journal) .journal Uuid.rootIno.toStr objSize 0 =
      .done (slice journal 0 objSize) (slice journal 0 objSize).length := by
  rw [read_head objSize_pos (Nat.le_refl _)]
  unfold journalOf
  rw [AList.lookup_insert]
  rfl

theorem sizeAt_buffer {journal : Bytes} {index : Nat} (hmax : index + 4 ≤ objSize)
    (hlen : index + 4 ≤ journal.length) : sizeAt (buffer journal) index = sizeAt journal index := by
  unfold sizeAt
  rw [slice_buffer hmax hlen]

/-- The zero is taken for a size, and the valid byte is read from an empty record. The last byte of a
    torn record is taken for four. -/
theorem recovery_unsafe :
    serialize (new Uuid.rootIno) = 14 :: checkpointedRecord.tail ∧
    ∀ journal ∈ [checkpointedRecord, [1]],
      ¬ ∀ bytes size,
        RadosIo.read (journalOf journal) .journal Uuid.rootIno.toStr objSize 0 = .done bytes size →
        SafeCheck Uuid.rootIno (journalOf journal) (resize 0 bytes objSize) size := by
  have hmax := objSize_eq
  refine ⟨by decide, fun journal hj h => ?_⟩
  have hsafe := h _ _ (read_journalOf journal)
  rw [slice_length, Nat.sub_zero] at hsafe
  have hsize : min objSize journal.length ≤ (buffer journal).length := by
    unfold buffer
    rw [resize_length]
    exact Nat.min_le_left _ _
  rw [List.mem_cons, List.mem_singleton] at hj
  obtain rfl | rfl := hj
  · have hround := hsafe.inside ⟨0, _⟩ .refl (by rw [hmax]; decide)
    obtain ⟨-, hfits⟩ := (insideRound_iff hsize _).mp hround
    have hzero : sizeAt (buffer checkpointedRecord) 0 = 0 := by
      rw [sizeAt_buffer (by omega) (by decide)]
      decide
    dsimp only at hfits
    rw [hzero] at hfits
    obtain hneg | ⟨-, hlen, -⟩ := hfits
    · exact absurd hneg (by decide)
    · rw [slice_length] at hlen
      omega
  · have hround := hsafe.inside ⟨0, _⟩ .refl (by rw [hmax]; decide)
    have htx := hround.txSize
    rw [hmax] at htx
    exact absurd htx (by decide)

end Journal

end Nmfs
