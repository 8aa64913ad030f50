import Nmfs.InMemory.DirectoryTable

/-
  `find_remote_dentry_table_again`: after `-ENOTLEADER` the client gets the table of the directory
  again and takes the leader's address from it. `told` is who leads a directory as the manager's last
  answer to the client says; where the answer is 0, that is the client itself. `lc->acquire` sets an
  address only where the lease is refused, so a LOCAL table has none.
-/

namespace Nmfs.DirectoryTable

open Lib Lease

/-- What the retry loop goes by: the directory of a `remote_inode`, and the address of its leader. -/
structure RemoteHandle where
  dentryTableIno : Uuid
  leaderIp : Addr
  deriving DecidableEq

/-- The clients with their `remote_inode`s. -/
structure Retrying (C I : Type) where
  dir : State C
  inodes : I → RemoteHandle
  /-- the call that the holder of the mutex is in -/
  finding : C → Option I
  /-- history: who leads a directory, as the client was last told -/
  told : C → Uuid → Option Addr

namespace Retrying

variable {C I : Type}

def init (inodes : I → RemoteHandle) : Retrying C I :=
  ⟨State.init C, inodes, fun _ => none, fun _ _ => none⟩

inductive Action (C I : Type) where
  /-- anything else that a client or the manager does -/
  | dir (a : DirectoryTable.Action C)
  | findRemoteDentryTableAgain (c : C) (i : I)

/-- Who has the lease, in the manager's words to `c`. -/
def leaderOf (remote : C ↪ Addr) (c : C) (answer : Answer) : Addr :=
  if answer.granted then remote c else answer.remoteAddr

/-- What `lease_dentry_table` returns when the new table is made. -/
def builtTable (s : State C) (c : C) : Option DentryTable :=
  match s.phase c with
  | .acquired mkdir _ granted tempAddress =>
    if granted then some ⟨.LOCAL, tempAddress, s.lease.grants.length⟩
    else if mkdir then none
    else some ⟨.REMOTE, tempAddress, s.lease.grants.length⟩
  | _ => none

variable [DecidableEq C] [DecidableEq I]

def setLeaderIp (s : Retrying C I) (i : I) (leaderIp : Addr) : Retrying C I :=
  { s with inodes := Function.update s.inodes i { s.inodes i with leaderIp } }

omit [DecidableEq I] in
/-- The client hears an answer. -/
def hear (remote : C ↪ Addr) (s : Retrying C I) : DirectoryTable.Action C → Retrying C I
  | .deliver c =>
    match s.dir.phase c with
    | .acquiring _ ino k =>
      match s.dir.lease.calls[k]? with
      | some ⟨_, _, .answered answer⟩ =>
        let toldHere := Function.update (s.told c) ino (some (leaderOf remote c answer))
        { s with told := Function.update s.told c toldHere }
      | _ => s
    | _ => s
  | _ => s

/-- The holder of the mutex leaves, and the call it was in goes on with the table. -/
def leave (s : Retrying C I) : DirectoryTable.Action C → Retrying C I
  | .build c =>
    let s' := { s with finding := Function.update s.finding c none }
    match s.finding c, builtTable s.dir c with
    | some i, some table => s'.setLeaderIp i table.leaderIp
    | _, _ => s'
  | .fail c => { s with finding := Function.update s.finding c none }
  | .buildFail c => { s with finding := Function.update s.finding c none }
  | _ => s

def step (remote : C ↪ Addr) (s : Retrying C I) : Action C I → Option (Retrying C I)
  | .dir a => (DirectoryTable.step remote s.dir a).map fun dir =>
      { (s.hear remote a).leave a with dir := dir }
  | .findRemoteDentryTableAgain c i =>
    let ino := (s.inodes i).dentryTableIno
    (DirectoryTable.step remote s.dir (.getDentryTable c ino false)).map fun dir =>
      match cachedTable s.dir c ino with
      | some table => { s.setLeaderIp i table.leaderIp with dir := dir }
      | none => { s with dir := dir, finding := Function.update s.finding c (some i) }

/-- A call of `c` for `i` comes to its end in this step, with this table. -/
def Returns (s : Retrying C I) (c : C) (i : I) (table : DentryTable) : Action C I → Prop
  | .findRemoteDentryTableAgain c' i' => c' = c ∧ i' = i ∧ s.dir.phase c = .idle ∧
    cachedTable s.dir c (s.inodes i).dentryTableIno = some table
  | .dir (.build c') => c' = c ∧ s.finding c = some i ∧ builtTable s.dir c = some table
  | .dir _ => False

/-- The `remote_inode` has the address of who has the lease. -/
def TargetsLeader (remote : C ↪ Addr) (s : Retrying C I) (a : Action C I) : Prop :=
  ∀ s' c i table, step remote s a = some s' → Returns s c i table a →
    s'.told c (s.inodes i).dentryTableIno = some (s'.inodes i).leaderIp

/-- The lease is somebody else's: the table at hand is REMOTE, or the lease was refused. -/
def LeaseElsewhere (remote : C ↪ Addr) (s : Retrying C I) : Action C I → Prop
  | .findRemoteDentryTableAgain c i => s.dir.phase c = .idle →
    ∀ table, cachedTable s.dir c (s.inodes i).dentryTableIno = some table →
      table.loc = .REMOTE ∨ remote c = []
  | .dir (.build c) => ∀ i mkdir ino granted addr, s.finding c = some i →
    s.dir.phase c = .acquired mkdir ino granted addr → granted = false ∨ remote c = []
  | .dir _ => True

/-! ## What is known of the addresses -/

/-- On the way to a table of the directory. -/
def Looks (phase : Phase) (ino : Uuid) : Prop :=
  (∃ k, phase = .acquiring false ino k) ∨ ∃ granted addr, phase = .acquired false ino granted addr

/-- What the client was told is what its tables say, except that a LOCAL one has no address. -/
structure Told (remote : C ↪ Addr) (s : State C) (told : C → Uuid → Option Addr) : Prop where
  leader : ∀ c ino d, s.lease.tables c ino = some ⟨d, true⟩ → told c ino = some (remote c)
  acquired : ∀ c mkdir ino granted addr, s.phase c = .acquired mkdir ino granted addr →
    told c ino = some (if granted then remote c else addr) ∧ (granted = true → addr = [])
  cached : ∀ c ino table, s.tables c ino = some table →
    told c ino = some (if table.loc = .REMOTE then table.leaderIp else remote c) ∧
      (table.loc ≠ .REMOTE → table.leaderIp = [])

structure Known (remote : C ↪ Addr) (s : Retrying C I) : Prop where
  inv : Inv remote s.dir
  told : Told remote s.dir s.told
  finding : ∀ c i, s.finding c = some i → Looks (s.dir.phase c) (s.inodes i).dentryTableIno

section

omit [DecidableEq I]

variable {remote : C ↪ Addr} {s s' : State C} {told : C → Uuid → Option Addr} {c : C} {ino : Uuid}

omit [DecidableEq C] in
theorem Told.lease (h : Told remote s told) {lease : System C}
    (htables : lease.tables = s.lease.tables) : Told remote { s with lease := lease } told := by
  refine ⟨fun c ino d hd => h.leader c ino d ?_, h.acquired, h.cached⟩
  rw [← htables]
  exact hd

theorem Told.eraseTable (h : Told remote s told) (c : C) (ino : Uuid) :
    Told remote (setTable s c ino none) told := by
  refine ⟨h.leader, h.acquired, fun c' ino' table ht => h.cached c' ino' table ?_⟩
  rw [tables_setTable] at ht
  split at ht
  · cases ht
  · exact ht

theorem Told.setPhase (h : Told remote s told) {phase : Phase}
    (hacquired : ∀ mkdir ino granted addr, phase = .acquired mkdir ino granted addr →
      told c ino = some (if granted then remote c else addr) ∧ (granted = true → addr = [])) :
    Told remote (setPhase s c phase) told := by
  refine ⟨h.leader, fun c' mkdir ino granted addr hp => ?_, h.cached⟩
  rw [phase_setPhase] at hp
  split at hp
  · subst c'
    exact hacquired mkdir ino granted addr hp
  · exact h.acquired c' mkdir ino granted addr hp

theorem Told.setIdle (h : Told remote s told) (c : C) :
    Told remote (DirectoryTable.setPhase s c .idle) told := h.setPhase nofun

theorem Told.acquire (h : Told remote s told) {mkdir : Bool}
    (hs : acquire remote s c mkdir ino = some s') : Told remote s' told := by
  obtain ⟨hmine, rfl⟩ | ⟨lease, hlease, rfl⟩ := acquire_eq hs
  · refine h.setPhase fun mkdir' ino' granted addr hp => ?_
    cases hp
    obtain ⟨d, hd, -⟩ := isMine_iff.mp hmine
    exact ⟨h.leader c ino d hd, fun _ => rfl⟩
  · exact (h.lease (tables_of_step hlease nofun)).setPhase nofun

theorem Told.addDentryTable (h : Told remote s told) {table : DentryTable}
    (htable : told c ino = some (if table.loc = .REMOTE then table.leaderIp else remote c) ∧
      (table.loc ≠ .REMOTE → table.leaderIp = [])) :
    Told remote (addDentryTable s c ino table) told := by
  unfold DirectoryTable.addDentryTable
  split
  · exact h
  · refine ⟨h.leader, h.acquired, fun c' ino' table' ht => ?_⟩
    rw [tables_setTable] at ht
    split at ht
    · rename_i hsame
      obtain ⟨rfl, rfl⟩ := hsame
      cases ht
      exact htable
    · exact h.cached c' ino' table' ht

omit [DecidableEq C] in
/-- The table that is made of what was acquired. -/
theorem Told.built (h : Told remote s told) {mkdir granted : Bool} {addr : Addr}
    (hp : s.phase c = .acquired mkdir ino granted addr) :
    told c ino = some (if (if granted then MetaLocation.LOCAL else .REMOTE) = .REMOTE
      then addr else remote c) ∧
    ((if granted then MetaLocation.LOCAL else .REMOTE) ≠ .REMOTE → addr = []) := by
  obtain ⟨htold, haddr⟩ := h.acquired c mkdir ino granted addr hp
  match granted with
  | true => exact ⟨htold, fun _ => haddr rfl⟩
  | false => exact ⟨htold, fun hne => absurd rfl hne⟩

theorem Told.build (h : Told remote s told)
    (hs : DirectoryTable.step remote s (.build c) = some s') : Told remote s' told := by
  have hidle := h.setIdle c
  obtain ⟨mkdir, ino, granted, addr, hp, ⟨-, -, rfl⟩ | rfl⟩ := build_eq hs
  · exact hidle
  · exact hidle.addDentryTable (h.built hp)

/-- Nothing is heard but from an answer. -/
theorem Told.step (h : Told remote s told) {a : DirectoryTable.Action C}
    (ha : ∀ c, a ≠ .deliver c) (hs : DirectoryTable.step remote s a = some s') :
    Told remote s' told := by
  cases a with
  | lease a =>
      obtain ⟨lease, hl, rfl, hnd⟩ := step_lease hs
      exact h.lease (tables_of_step hl hnd)
  | getDentryTable c ino fromRemote =>
      have hlook : Told remote { s with seen := ino :: s.seen } told := ⟨h.1, h.2, h.3⟩
      have herase := hlook.eraseTable c ino
      obtain ⟨-, ⟨-, rfl⟩ | ⟨-, ⟨-, rfl⟩ | ⟨-, hacq⟩⟩⟩ := getDentryTable_eq hs
      · exact hlook
      · exact herase
      · exact herase.acquire hacq
  | leaseDentryTableMkdir c ino =>
      have hlook : Told remote { s with seen := ino :: s.seen } told := ⟨h.1, h.2, h.3⟩
      exact hlook.acquire (leaseDentryTableMkdir_eq hs).2.2
  | deliver c => exact absurd rfl (ha c)
  | fail c =>
      obtain ⟨-, rfl⟩ := fail_eq hs
      exact h.setIdle c
  | build c => exact h.build hs
  | buildFail c =>
      obtain ⟨-, rfl⟩ := buildFail_eq hs
      exact h.setIdle c
  | deleteDentryTable c ino =>
      obtain ⟨-, rfl⟩ := deleteDentryTable_eq hs
      exact h.eraseTable c ino

omit [DecidableEq C] in
/-- After an answer the client's entry says of the leader what the answer said. -/
theorem entry_of_delivered {l l' : System C} {k : Nat} {answer : Answer}
    (hd : Delivered l l' k c ino answer) (hnew : NewerThan (l.tables c ino) answer) {d : Nat}
    {leader : Bool} (he : l'.tables c ino = some ⟨d, leader⟩) : leader = answer.granted := by
  rw [hd.tables, LeaseTableClient.update, Function.update_self] at he
  cases ht : l.tables c ino with
  | none =>
      rw [ht] at he
      cases he
      rfl
  | some known =>
      obtain ⟨d₀, leader₀⟩ := known
      rw [ht] at he
      dsimp only [ClientEntry.setInfo] at he
      split at he
      · cases he
        rfl
      · rename_i hle
        cases he
        obtain hlt | ⟨-, hsame⟩ := hnew d leader ht
        · exact absurd hlt hle
        · exact hsame

theorem told_update (x : Option Addr) (c' : C) (ino' : Uuid) :
    Function.update told c (Function.update (told c) ino x) c' ino' =
      if c' = c ∧ ino' = ino then x else told c' ino' := by
  simp only [Function.update_apply]
  by_cases hc : c' = c
  · subst hc
    by_cases hino : ino' = ino <;> simp [hino]
  · simp [hc]

theorem Told.deliver (h : Told remote s told) (hi : Inv remote s)
    {mkdir : Bool} {k : Nat} {c₁ : C} {ino₁ : Uuid} {answer : Answer} {lease : System C}
    (hp : s.phase c = .acquiring mkdir ino k)
    (hk : s.lease.calls[k]? = some ⟨c₁, ino₁, .answered answer⟩)
    (hl : Lease.step remote s.lease (.deliver k) = some lease) :
    Told remote (DirectoryTable.setPhase { s with lease := lease } c
        (.acquired mkdir ino answer.granted (if answer.granted then [] else answer.remoteAddr)))
      (Function.update told c
        (Function.update (told c) ino (some (leaderOf remote c answer)))) := by
  obtain ⟨stage, hk', -, hnew⟩ := hi.acquiring c mkdir ino k hp
  rw [hk] at hk'
  cases hk'
  obtain ⟨-, hnone⟩ := hi.busy c ino (by rw [hp]; rfl)
  have hd := delivered_of_step hk hl
  constructor
  · intro c' ino' d he
    rw [told_update]
    by_cases hsame : c' = c ∧ ino' = ino
    · rw [if_pos hsame]
      obtain ⟨rfl, rfl⟩ := hsame
      have hgranted := entry_of_delivered hd (hnew answer rfl) he
      unfold leaderOf
      rw [← hgranted, if_pos rfl]
    · rw [if_neg hsame]
      refine h.leader c' ino' d ?_
      rw [← tables_of_delivered hd (not_and_or.mp hsame)]
      exact he
  · intro c' mkdir' ino' granted addr hp'
    rw [phase_setPhase] at hp'
    rw [told_update]
    by_cases hc : c' = c
    · rw [if_pos hc] at hp'
      cases hp'
      rw [if_pos ⟨hc, rfl⟩, hc]
      unfold leaderOf
      by_cases hg : answer.granted = true
      · simp [hg]
      · simp [hg]
    · rw [if_neg hc] at hp'
      rw [if_neg fun hsame => hc hsame.1]
      exact h.acquired c' mkdir' ino' granted addr hp'
  · intro c' ino' table ht
    have ht' : s.tables c' ino' = some table := ht
    rw [told_update, if_neg]
    · exact h.cached c' ino' table ht'
    · -- there is no table while the lease is being acquired
      rintro ⟨rfl, rfl⟩
      rw [hnone] at ht'
      cases ht'

end

/-! ## The call that is under way -/

section

omit [DecidableEq I]

variable {remote : C ↪ Addr} {s s' : State C} {c : C} {ino : Uuid}

theorem not_idle_of_looks {phase : Phase} (h : Looks phase ino) : phase ≠ .idle := by
  obtain ⟨k, rfl⟩ | ⟨granted, addr, rfl⟩ := h
  · exact nofun
  · exact nofun

/-- A client that is on its way to a table stays so until it has it, or has failed. -/
theorem looks_step {a : DirectoryTable.Action C} (h : Looks (s.phase c) ino)
    (hs : DirectoryTable.step remote s a = some s')
    (ha : a ≠ .build c ∧ a ≠ .fail c ∧ a ≠ .buildFail c) : Looks (s'.phase c) ino := by
  have hidle := not_idle_of_looks h
  cases a with
  | lease a =>
      obtain ⟨lease, -, rfl, -⟩ := step_lease hs
      exact h
  | getDentryTable c' ino' fromRemote =>
      obtain ⟨hfree, ⟨-, rfl⟩ | ⟨-, ⟨-, rfl⟩ | ⟨-, hacq⟩⟩⟩ := getDentryTable_eq hs
      · exact h
      · exact h
      · have hne : c ≠ c' := fun heq => hidle (heq ▸ hfree)
        rw [phase_acquire hne hacq]
        exact h
  | leaseDentryTableMkdir c' ino' =>
      obtain ⟨hfree, -, hacq⟩ := leaseDentryTableMkdir_eq hs
      have hne : c ≠ c' := fun heq => hidle (heq ▸ hfree)
      rw [phase_acquire hne hacq]
      exact h
  | deliver c' =>
      obtain ⟨mkdir, ino', k, c₁, ino₁, answer, lease, hp, -, -, rfl⟩ := deliver_eq hs
      rw [phase_setPhase]
      split
      · subst c'
        obtain ⟨k', hp'⟩ | ⟨granted, addr, hp'⟩ := h
        · rw [hp] at hp'
          cases hp'
          exact Or.inr ⟨_, _, rfl⟩
        · rw [hp] at hp'
          cases hp'
      · exact h
  | fail c' =>
      have hne : c ≠ c' := fun heq => ha.2.1 (heq ▸ rfl)
      obtain ⟨-, rfl⟩ := fail_eq hs
      rw [phase_setPhase, if_neg hne]
      exact h
  | build c' =>
      have hne : c ≠ c' := fun heq => ha.1 (heq ▸ rfl)
      obtain ⟨mkdir, ino', granted, addr, -, ⟨-, -, rfl⟩ | rfl⟩ := build_eq hs
      · rw [phase_setPhase, if_neg hne]
        exact h
      · rw [phase_addDentryTable, phase_setPhase, if_neg hne]
        exact h
  | buildFail c' =>
      have hne : c ≠ c' := fun heq => ha.2.2 (heq ▸ rfl)
      obtain ⟨-, rfl⟩ := buildFail_eq hs
      rw [phase_setPhase, if_neg hne]
      exact h
  | deleteDentryTable c' ino' =>
      obtain ⟨-, rfl⟩ := deleteDentryTable_eq hs
      exact h

/-- A call that finds no table that it may use goes on to acquire the lease. -/
theorem looks_getDentryTable (hmiss : cachedTable s c ino = none)
    (hs : DirectoryTable.step remote s (.getDentryTable c ino false) = some s') :
    Looks (s'.phase c) ino := by
  obtain ⟨-, ⟨hhit, -⟩ | ⟨-, ⟨hremote, -⟩ | ⟨-, hacq⟩⟩⟩ := getDentryTable_eq hs
  · rw [hmiss] at hhit
    cases hhit
  · cases hremote
  · obtain ⟨-, rfl⟩ | ⟨lease, -, rfl⟩ := acquire_eq hacq
    · rw [phase_setPhase, if_pos rfl]
      exact Or.inr ⟨_, _, rfl⟩
    · rw [phase_setPhase, if_pos rfl]
      exact Or.inl ⟨_, rfl⟩

end

/-! ## Steps -/

section

variable {remote : C ↪ Addr} {s s' : Retrying C I} {c : C} {i : I}

omit [DecidableEq I] in
theorem hear_other {a : DirectoryTable.Action C} (ha : ∀ c, a ≠ .deliver c) :
    s.hear remote a = s := by
  unfold hear
  split
  · exact absurd rfl (ha _)
  · rfl

omit [DecidableEq I] in
theorem hear_deliver {mkdir : Bool} {ino : Uuid} {k : Nat} {c₁ : C} {ino₁ : Uuid} {answer : Answer}
    (hp : s.dir.phase c = .acquiring mkdir ino k)
    (hk : s.dir.lease.calls[k]? = some ⟨c₁, ino₁, .answered answer⟩) :
    s.hear remote (.deliver c) =
      let toldHere := Function.update (s.told c) ino (some (leaderOf remote c answer))
      { s with told := Function.update s.told c toldHere } := by
  simp only [hear, hp, hk]

omit [DecidableEq C] in
theorem setLeaderIp_ino {i j : I} {leaderIp : Addr} :
    ((s.setLeaderIp i leaderIp).inodes j).dentryTableIno = (s.inodes j).dentryTableIno := by
  unfold setLeaderIp
  dsimp only
  by_cases hj : j = i
  · rw [hj, Function.update_self]
  · rw [Function.update_of_ne hj]

omit [DecidableEq C] in
theorem setLeaderIp_leaderIp {leaderIp : Addr} :
    ((s.setLeaderIp i leaderIp).inodes i).leaderIp = leaderIp := by
  unfold setLeaderIp
  dsimp only
  rw [Function.update_self]

theorem leave_told {a : DirectoryTable.Action C} : (s.leave a).told = s.told := by
  unfold leave
  split
  · dsimp only
    split <;> rfl
  · rfl
  · rfl
  · rfl

theorem leave_ino {a : DirectoryTable.Action C} {j : I} :
    ((s.leave a).inodes j).dentryTableIno = (s.inodes j).dentryTableIno := by
  unfold leave
  split
  · dsimp only
    split
    · rw [setLeaderIp_ino]
    · rfl
  · rfl
  · rfl
  · rfl

omit [DecidableEq I] in
theorem update_none_eq_some {c' : C} (h : Function.update s.finding c' none c = some i) :
    s.finding c = some i ∧ c' ≠ c := by
  by_cases hc : c = c'
  · subst hc
    rw [Function.update_self] at h
    cases h
  · rw [Function.update_of_ne hc] at h
    exact ⟨h, fun heq => hc heq.symm⟩

theorem leave_finding {a : DirectoryTable.Action C} (h : (s.leave a).finding c = some i) :
    s.finding c = some i ∧ a ≠ .build c ∧ a ≠ .fail c ∧ a ≠ .buildFail c := by
  unfold leave at h
  split at h
  · rename_i c'
    have hupdate : Function.update s.finding c' none c = some i := by
      dsimp only at h
      split at h
      · exact h
      · exact h
    obtain ⟨hf, hne⟩ := update_none_eq_some hupdate
    exact ⟨hf, by simp [hne], by simp, by simp⟩
  · obtain ⟨hf, hne⟩ := update_none_eq_some h
    exact ⟨hf, by simp, by simp [hne], by simp⟩
  · obtain ⟨hf, hne⟩ := update_none_eq_some h
    exact ⟨hf, by simp, by simp, by simp [hne]⟩
  · rename_i hbuild hfail hbuildFail
    exact ⟨h, hbuild c, hfail c, hbuildFail c⟩

omit [DecidableEq C] [DecidableEq I] in
theorem known_init (inodes : I → RemoteHandle) : Known remote (init (C := C) inodes) :=
  ⟨inv_init, ⟨nofun, nofun, nofun⟩, nofun⟩

theorem known_step {a : Action C I} (h : Known remote s) (hs : step remote s a = some s') :
    Known remote s' := by
  cases a with
  | dir a =>
      obtain ⟨dir, hdir, rfl⟩ := Option.map_eq_some_iff.mp hs
      have hinv := inv_step h.inv hdir
      by_cases ha : ∃ c, a = .deliver c
      · obtain ⟨c, rfl⟩ := ha
        obtain ⟨mkdir, ino, k, c₁, ino₁, answer, lease, hp, hk, hl, rfl⟩ := deliver_eq hdir
        rw [hear_deliver hp hk]
        refine ⟨hinv, h.told.deliver h.inv hp hk hl, fun c' i hf => ?_⟩
        exact looks_step (h.finding c' i hf) hdir (by simp)
      · have ha' : ∀ c, a ≠ .deliver c := fun c heq => ha ⟨c, heq⟩
        rw [hear_other ha']
        refine ⟨hinv, ?_, fun c' i hf => ?_⟩
        · show Told remote dir (s.leave a).told
          rw [leave_told]
          exact h.told.step ha' hdir
        · obtain ⟨hf, hne⟩ := leave_finding hf
          have hlooks := looks_step (h.finding c' i hf) hdir hne
          show Looks (dir.phase c') ((s.leave a).inodes i).dentryTableIno
          rw [leave_ino]
          exact hlooks
  | findRemoteDentryTableAgain c i =>
      obtain ⟨dir, hdir, rfl⟩ := Option.map_eq_some_iff.mp hs
      have hinv := inv_step h.inv hdir
      have htold := h.told.step (by simp) hdir
      have hkeep : ∀ c' j, s.finding c' = some j →
          Looks (dir.phase c') (s.inodes j).dentryTableIno :=
        fun c' j hf => looks_step (h.finding c' j hf) hdir (by simp)
      dsimp only
      split
      · rename_i table htable
        refine ⟨hinv, htold, fun c' j hf => ?_⟩
        show Looks _ ((s.setLeaderIp i table.leaderIp).inodes j).dentryTableIno
        rw [setLeaderIp_ino]
        exact hkeep c' j hf
      · rename_i hmiss
        refine ⟨hinv, htold, fun c' j hf => ?_⟩
        by_cases hc : c' = c
        · have hf' : Function.update s.finding c (some i) c' = some j := hf
          subst hc
          rw [Function.update_self] at hf'
          cases hf'
          exact looks_getDentryTable hmiss hdir
        · have hf' : Function.update s.finding c (some i) c' = some j := hf
          rw [Function.update_of_ne hc] at hf'
          exact hkeep c' j hf'

omit [DecidableEq C] [DecidableEq I] in
theorem told_eq_iff {x : Option Addr} {leaderIp own : Addr} {loc : MetaLocation}
    (hx : x = some (if loc = .REMOTE then leaderIp else own)) (hip : loc ≠ .REMOTE → leaderIp = []) :
    x = some leaderIp ↔ loc = .REMOTE ∨ own = [] := by
  subst hx
  by_cases hloc : loc = .REMOTE
  · simp [hloc]
  · rw [if_neg hloc, hip hloc, or_iff_right hloc, Option.some.injEq]

theorem step_find_hit {table : DentryTable} (hidle : s.dir.phase c = .idle)
    (htable : cachedTable s.dir c (s.inodes i).dentryTableIno = some table) :
    step remote s (.findRemoteDentryTableAgain c i) =
      some { s.setLeaderIp i table.leaderIp with
        dir := { s.dir with seen := (s.inodes i).dentryTableIno :: s.dir.seen } } := by
  have hdir : DirectoryTable.step remote s.dir
      (.getDentryTable c (s.inodes i).dentryTableIno false) =
      some { s.dir with seen := (s.inodes i).dentryTableIno :: s.dir.seen } := by
    have hhit : (cachedTable { s.dir with seen := (s.inodes i).dentryTableIno :: s.dir.seen } c
        (s.inodes i).dentryTableIno).isSome := Option.isSome_iff_exists.mpr ⟨table, htable⟩
    simp only [DirectoryTable.step]
    rw [if_neg (not_not.mpr hidle), if_pos hhit]
  simp only [step]
  rw [hdir, htable]
  rfl

/-- At a hit. -/
theorem targetsLeader_find_iff (h : Known remote s) :
    TargetsLeader remote s (.findRemoteDentryTableAgain c i) ↔
      LeaseElsewhere remote s (.findRemoteDentryTableAgain c i) := by
  have hiff : ∀ table, cachedTable s.dir c (s.inodes i).dentryTableIno = some table →
      (s.told c (s.inodes i).dentryTableIno = some table.leaderIp ↔
        table.loc = .REMOTE ∨ remote c = []) := by
    intro table htable
    obtain ⟨hx, hip⟩ := h.told.cached c _ table (cachedTable_eq_some htable).1
    exact told_eq_iff hx hip
  constructor
  · intro hall hidle table htable
    have hfind : step remote s (.findRemoteDentryTableAgain c i) = _ := step_find_hit hidle htable
    refine (hiff table htable).mp ((hall _ c i table hfind ⟨rfl, rfl, hidle, htable⟩).trans ?_)
    exact congrArg some setLeaderIp_leaderIp
  · rintro hall s' c' i' table hs ⟨rfl, rfl, hidle, htable⟩
    obtain ⟨dir, hdir, rfl⟩ := Option.map_eq_some_iff.mp hs
    rw [htable]
    refine ((hiff table htable).mpr (hall hidle table htable)).trans ?_
    exact congrArg some setLeaderIp_leaderIp.symm

omit [DecidableEq C] [DecidableEq I] in
theorem builtTable_eq {t : State C} {ino : Uuid} {granted : Bool} {addr : Addr}
    (hp : t.phase c = .acquired false ino granted addr) :
    builtTable t c =
      some ⟨if granted then .LOCAL else .REMOTE, addr, t.lease.grants.length⟩ := by
  simp only [builtTable, hp]
  match granted with
  | true => rfl
  | false => rfl

omit [DecidableEq I] in
theorem build_isSome {t : State C} {ino : Uuid} {granted : Bool} {addr : Addr}
    (hp : t.phase c = .acquired false ino granted addr) :
    ∃ t', DirectoryTable.step remote t (.build c) = some t' := by
  simp only [DirectoryTable.step, hp]
  cases granted with
  | true => exact ⟨_, rfl⟩
  | false => exact ⟨_, rfl⟩

theorem leave_leaderIp {table : DentryTable} (hf : s.finding c = some i)
    (ht : builtTable s.dir c = some table) :
    ((s.leave (.build c)).inodes i).leaderIp = table.leaderIp := by
  simp only [leave, hf, ht]
  exact setLeaderIp_leaderIp

/-- When the lease has been asked for. -/
theorem targetsLeader_build_iff (h : Known remote s) :
    TargetsLeader remote s (.dir (.build c)) ↔ LeaseElsewhere remote s (.dir (.build c)) := by
  -- the table says where the lease is, and `told` says it too
  have hiff : ∀ i granted addr, s.dir.phase c =
        .acquired false (s.inodes i).dentryTableIno granted addr →
      (s.told c (s.inodes i).dentryTableIno = some addr ↔ granted = false ∨ remote c = []) := by
    intro i granted addr hp
    obtain ⟨hx, hip⟩ := h.told.built hp
    rw [told_eq_iff hx hip]
    match granted with
    | true => simp
    | false => simp
  have hphase : ∀ i mkdir ino granted addr, s.finding c = some i →
      s.dir.phase c = .acquired mkdir ino granted addr →
      mkdir = false ∧ ino = (s.inodes i).dentryTableIno := by
    intro i mkdir ino granted addr hf hp
    obtain ⟨k, hlooks⟩ | ⟨granted', addr', hlooks⟩ := h.finding c i hf
    · rw [hp] at hlooks
      cases hlooks
    · rw [hp] at hlooks
      cases hlooks
      exact ⟨rfl, rfl⟩
  constructor
  · intro hall i mkdir ino granted addr hf hp
    obtain ⟨rfl, rfl⟩ := hphase i mkdir ino granted addr hf hp
    have htable := builtTable_eq hp
    obtain ⟨dir, hdir⟩ : ∃ dir, DirectoryTable.step remote s.dir (.build c) = some dir :=
      build_isSome hp
    have hstep : step remote s (.dir (.build c)) =
        some { s.leave (.build c) with dir := dir } := by
      simp only [step]
      rw [hdir, hear_other (by simp)]
      rfl
    have htold := hall _ c i _ hstep ⟨rfl, hf, htable⟩
    refine (hiff i granted addr hp).mp ?_
    have hip : ((s.leave (.build c)).inodes i).leaderIp = addr := leave_leaderIp hf htable
    calc s.told c (s.inodes i).dentryTableIno
        = (s.leave (.build c)).told c (s.inodes i).dentryTableIno := by rw [leave_told]
      _ = some ((s.leave (.build c)).inodes i).leaderIp := htold
      _ = some addr := by rw [hip]
  · rintro hall s' c' i table hs ⟨rfl, hf, htable⟩
    obtain ⟨dir, hdir, rfl⟩ := Option.map_eq_some_iff.mp hs
    rw [hear_other (by simp)]
    obtain ⟨k, hp⟩ | ⟨granted, addr, hp⟩ := h.finding c i hf
    · simp [builtTable, hp] at htable
    · have htable' := builtTable_eq hp
      rw [htable] at htable'
      cases htable'
      have hip : ((s.leave (.build c)).inodes i).leaderIp = addr := leave_leaderIp hf htable
      show (s.leave (.build c)).told c (s.inodes i).dentryTableIno = _
      rw [leave_told, (hiff i granted addr hp).mpr (hall i false _ granted addr hf hp)]
      exact congrArg some hip.symm

/-- One step. -/
theorem targetsLeader_iff (h : Known remote s) (a : Action C I) :
    TargetsLeader remote s a ↔ LeaseElsewhere remote s a := by
  match a with
  | .findRemoteDentryTableAgain c i => exact targetsLeader_find_iff h
  | .dir (.build c) => exact targetsLeader_build_iff h
  | .dir (.lease a) => exact iff_of_true (fun _ _ _ _ _ hr => hr.elim) trivial
  | .dir (.getDentryTable c ino r) => exact iff_of_true (fun _ _ _ _ _ hr => hr.elim) trivial
  | .dir (.leaseDentryTableMkdir c ino) => exact iff_of_true (fun _ _ _ _ _ hr => hr.elim) trivial
  | .dir (.deliver c) => exact iff_of_true (fun _ _ _ _ _ hr => hr.elim) trivial
  | .dir (.fail c) => exact iff_of_true (fun _ _ _ _ _ hr => hr.elim) trivial
  | .dir (.buildFail c) => exact iff_of_true (fun _ _ _ _ _ hr => hr.elim) trivial
  | .dir (.deleteDentryTable c ino) => exact iff_of_true (fun _ _ _ _ _ hr => hr.elim) trivial

end

/-! ## Runs -/

/-- In every run, each call leaves the address of the lease's holder if and only if each finds the
    lease with somebody else. -/
theorem targets_leader_iff (remote : C ↪ Addr) (inodes : I → RemoteHandle)
    (acts : List (Action C I)) :
    StepsMeet (step remote) (TargetsLeader remote) (init inodes) acts ↔
      StepsMeet (step remote) (LeaseElsewhere remote) (init inodes) acts :=
  stepsMeet_congr (I := Known remote) (F := fun _ _ => True)
    (fun _ a h _ => targetsLeader_iff h a) (fun _ _ _ h _ _ hs => known_step h hs)
    (known_init inodes) (StepsMeet.of_forall fun _ _ _ => trivial)

/-- The leader has gone, and the client that tries again is given the lease itself. -/
def takeoverRun : List (Action Bool Unit) :=
  [.findRemoteDentryTableAgain true (), .dir (.lease (.lookup 0)), .dir (.lease (.insert 0)),
    .dir (.deliver true), .dir (.build true)]

def rootHandle : RemoteHandle := ⟨Uuid.rootIno, twoClients false⟩

/-- It then sends its operation to no address at all. -/
theorem self_takeover_untargeted :
    ∃ s, run (step twoClients) (init fun _ => rootHandle) takeoverRun = some s ∧
      s.told true Uuid.rootIno = some (twoClients true) ∧ (s.inodes ()).leaderIp = [] ∧
      ¬ StepsMeet (step twoClients) (TargetsLeader twoClients) (init fun _ => rootHandle)
        takeoverRun := by
  refine ⟨_, rfl, by decide, by decide, fun h => ?_⟩
  obtain ⟨s, hs⟩ : ∃ s, run (step twoClients) (init fun _ => rootHandle) (takeoverRun.take 4) =
      some s := ⟨_, rfl⟩
  have hsplit : takeoverRun = takeoverRun.take 4 ++ [.dir (.build true)] := rfl
  rw [hsplit] at h
  have hlast := (h.after hs).1
  cases hs
  exact absurd (hlast _ true () _ rfl ⟨rfl, rfl, rfl⟩) (by decide)

end Retrying

end Nmfs.DirectoryTable
