import Nmfs.Lease.Exclusion

/-
  `directory_table`: each client caches a `dentry_table` for every directory it has looked up,
  LOCAL where it got the lease and REMOTE where another client had it. The calls of one client run
  under its `directory_table_mutex`, which they keep while they wait for the manager; a client's
  `Phase` is what the holder of that mutex is doing.

  What the table holds is left out here: `builtAt` is the number of leases granted before it was
  built, which is all that staleness is about.
-/

namespace Nmfs.DirectoryTable

open Lib Lease

inductive MetaLocation where
  | LOCAL
  | REMOTE
  | UNKNOWN
  deriving DecidableEq, Repr

/-- A cached `dentry_table`. -/
structure DentryTable where
  loc : MetaLocation
  leaderIp : Addr
  builtAt : Nat
  deriving DecidableEq, Repr

/-- The holder of a client's `directory_table_mutex`; `mkdir` tells `lease_dentry_table_mkdir` from
    `lease_dentry_table`. -/
inductive Phase where
  | idle
  /-- in `lc->acquire`, waiting for call `k` -/
  | acquiring (mkdir : Bool) (ino : Uuid) (k : Nat)
  /-- `lc->acquire` has returned -/
  | acquired (mkdir : Bool) (ino : Uuid) (granted : Bool) (tempAddress : Addr)
  deriving DecidableEq

/-- The directory that the holder of the mutex is at. -/
def Phase.ino? : Phase → Option Uuid
  | .idle => none
  | .acquiring _ ino _ => some ino
  | .acquired _ ino _ _ => some ino

structure State (C : Type) where
  lease : System C
  tables : C → Uuid → Option DentryTable
  phase : C → Phase
  /-- history: the inode numbers looked up or created so far -/
  seen : List Uuid

def State.init (C : Type) : State C := ⟨System.init C, fun _ _ => none, fun _ => .idle, []⟩

variable {C : Type}

def isValid (s : State C) (c : C) (ino : Uuid) : Bool :=
  (s.lease.tables c).isValid ino s.lease.now

/-- HIT with a valid lease: what `get_dentry_table` returns without asking anybody. -/
def cachedTable (s : State C) (c : C) (ino : Uuid) : Option DentryTable :=
  match s.tables c ino with
  | none => none
  | some table => if isValid s c ino then some table else none

inductive Action (C : Type) where
  /-- a step of the clock or of the manager -/
  | lease (a : Lease.Action C)
  | getDentryTable (c : C) (ino : Uuid) (remote : Bool)
  | leaseDentryTableMkdir (c : C) (ino : Uuid)
  /-- the answer arrives, and `lc->acquire` returns -/
  | deliver (c : C)
  /-- the RPC fails, and `lc->acquire` throws -/
  | fail (c : C)
  /-- the new table is made and added -/
  | build (c : C)
  /-- making the table throws -/
  | buildFail (c : C)
  | deleteDentryTable (c : C) (ino : Uuid)
  deriving DecidableEq

section

variable [DecidableEq C]

def setTable (s : State C) (c : C) (ino : Uuid) (table : Option DentryTable) : State C :=
  { s with tables := Function.update s.tables c (Function.update (s.tables c) ino table) }

def setPhase (s : State C) (c : C) (phase : Phase) : State C :=
  { s with phase := Function.update s.phase c phase }

/-- The start of `lc->acquire`: it returns 0 at once when the lease is the client's own. -/
def acquire (remote : C ↪ Addr) (s : State C) (c : C) (mkdir : Bool) (ino : Uuid) :
    Option (State C) :=
  if isMine s.lease c ino then some (setPhase s c (.acquired mkdir ino true []))
  else
    (Lease.step remote s.lease (.request c ino)).map fun lease =>
      setPhase { s with lease := lease } c (.acquiring mkdir ino s.lease.calls.length)

/-- `insert` does nothing when there is an entry. -/
def addDentryTable (s : State C) (c : C) (ino : Uuid) (table : DentryTable) : State C :=
  if (s.tables c ino).isSome then s else setTable s c ino (some table)

def step (remote : C ↪ Addr) (s : State C) : Action C → Option (State C)
  | .lease (.request _ _) => none
  | .lease (.deliver _) => none
  | .lease a => (Lease.step remote s.lease a).map fun lease => { s with lease := lease }
  | .getDentryTable c ino fromRemote =>
    if s.phase c ≠ .idle then none
    else
      let s := { s with seen := ino :: s.seen }
      if (cachedTable s c ino).isSome then some s
      else
        -- an expired table is erased
        let s := setTable s c ino none
        -- `not_leader` is thrown to a handler, the others go on to `lease_dentry_table`
        if fromRemote then some s else acquire remote s c false ino
  | .leaseDentryTableMkdir c ino =>
    -- the inode number is freshly allocated
    if s.phase c ≠ .idle ∨ ino ∈ s.seen then none
    else acquire remote { s with seen := ino :: s.seen } c true ino
  | .deliver c =>
    match s.phase c with
    | .acquiring mkdir ino k =>
      match s.lease.calls[k]? with
      | some ⟨_, _, .answered answer⟩ =>
        (Lease.step remote s.lease (.deliver k)).map fun lease =>
          setPhase { s with lease := lease } c
            (.acquired mkdir ino answer.granted (if answer.granted then [] else answer.remoteAddr))
      | _ => none
    | _ => none
  | .fail c =>
    match s.phase c with
    | .acquiring _ _ _ => some (setPhase s c .idle)
    | _ => none
  | .build c =>
    match s.phase c with
    | .acquired mkdir ino granted tempAddress =>
      let s := setPhase s c .idle
      if granted then some (addDentryTable s c ino ⟨.LOCAL, tempAddress, s.lease.grants.length⟩)
      else if mkdir then some s
      else some (addDentryTable s c ino ⟨.REMOTE, tempAddress, s.lease.grants.length⟩)
    | _ => none
  | .buildFail c =>
    match s.phase c with
    | .acquired _ _ _ _ => some (setPhase s c .idle)
    | _ => none
  | .deleteDentryTable c ino =>
    if s.phase c ≠ .idle then none else some (setTable s c ino none)

end

/-! ## Leading a directory since a moment -/

variable {remote : C ↪ Addr} {s s' : State C} {c : C} {ino : Uuid}

theorem cachedTable_eq_some {table : DentryTable} (h : cachedTable s c ino = some table) :
    s.tables c ino = some table ∧ isValid s c ino = true := by
  unfold cachedTable at h
  split at h
  · cases h
  · split at h
    · cases h
      exact ⟨‹_›, ‹_›⟩
    · cases h

/-- The client's entry says "leader", and either its due has passed or nobody else has been granted
    the lease after the first `n` grants. -/
def Led (lease : System C) (c : C) (ino : Uuid) (n : Nat) : Prop :=
  ∃ d, lease.tables c ino = some ⟨d, true⟩ ∧
    (d ≤ lease.now ∨ ∀ g ∈ lease.grants.drop n, g.1 = ino → g.2 = c)

/-- The answer is at least as new as the client's entry, and of the same mind where they have the
    same due. -/
def NewerThan (entry : Option ClientEntry) (answer : Answer) : Prop :=
  ∀ d leader, entry = some ⟨d, leader⟩ →
    d < answer.due ∨ d = answer.due ∧ leader = answer.granted

/-- Call `k` is the client's, not yet returned. -/
def Waiting (lease : System C) (c : C) (ino : Uuid) (k : Nat) : Prop :=
  ∃ stage, lease.calls[k]? = some ⟨c, ino, stage⟩ ∧ (∀ answer, stage ≠ .returned answer) ∧
    ∀ answer, stage = .answered answer → NewerThan (lease.tables c ino) answer

section

variable {l l' : System C} {n k k' : Nat} {c' : C} {ino' : Uuid} {answer : Answer}
  {e' : LeaseEntry}

theorem Led.quiet (h : Led l c ino n) (hq : Quiet l l') : Led l' c ino n := by
  obtain ⟨d, ht, hd⟩ := h
  refine ⟨d, by rw [hq.tables]; exact ht, ?_⟩
  rw [hq.grants]
  exact hd.imp_left fun h => h.trans hq.now

/-- Only the client itself is granted a lease that it holds. -/
theorem Led.served (h : Led l c ino n) (hi : AllInfoOk remote l)
    (hs : Served remote l l' k c' ino' answer e') : Led l' c ino n := by
  obtain ⟨d, ht, hd⟩ := h
  refine ⟨d, by rw [hs.tables]; exact ht, ?_⟩
  rcases hd with hd | hall
  · exact Or.inl (hd.trans hs.now)
  · by_cases hexp : d ≤ l.now
    · exact Or.inl (hexp.trans hs.now)
    · refine Or.inr fun g hg hgi => ?_
      rw [hs.grants, List.drop_append, List.mem_append] at hg
      rcases hg with hg | hg
      · exact hall g hg hgi
      · have hg := List.mem_of_mem_drop hg
        unfold Call.grant at hg
        split at hg
        · rename_i hgr
          rw [List.mem_singleton] at hg
          subst hg
          dsimp only at hgi ⊢
          subst hgi
          obtain ⟨e, he, hle, -, hmine⟩ := hi c ino' d true (Or.inl ht)
          have haddr : e.addr = remote c := (hmine rfl).resolve_right hexp
          have hsame : e' = e := (hs.renew e he).resolve_right fun h => by omega
          have := hs.granted.mp hgr
          rw [hsame, haddr] at this
          exact (remote.injective this).symm
        · cases hg

theorem Waiting.quiet (h : Waiting l c ino k) (hq : Quiet l l') : Waiting l' c ino k := by
  obtain ⟨stage, hk, hret, hnew⟩ := h
  obtain ⟨stage', hk', hst⟩ := hq.keep k c ino stage hk
  rw [Waiting, hq.tables]
  rcases hst with rfl | rfl | rfl
  · exact ⟨_, hk', hret, hnew⟩
  · exact ⟨_, hk', by simp, by simp⟩
  · exact ⟨_, hk', by simp, by simp⟩

/-- The manager's answer is newer than anything the client has been told. -/
theorem Waiting.served (h : Waiting l c ino k) (hi : AllInfoOk remote l)
    (hs : Served remote l l' k' c' ino' answer e') : Waiting l' c ino k := by
  obtain ⟨stage, hk, hret, hnew⟩ := h
  rw [Waiting, hs.tables, hs.calls]
  by_cases hkk : k' = k
  · subst hkk
    obtain ⟨stage', hk', -⟩ := hs.call
    rw [hk] at hk'
    cases hk'
    refine ⟨_, List.getElem?_set_self (List.getElem?_eq_some_iff.mp hk).1, by simp, ?_⟩
    rintro answer' heq d leader ht
    cases heq
    obtain ⟨e, he, hle, heq, -⟩ := hi c ino d leader (Or.inl ht)
    have hdue := hs.due
    rcases hs.renew e he with rfl | ⟨-, hgrow⟩
    · by_cases hd : d = e'.due
      · refine Or.inr ⟨hd.trans hdue.symm, ?_⟩
        rw [Bool.eq_iff_iff, heq hd, hs.granted]
      · exact Or.inl (by omega)
    · exact Or.inl (by omega)
  · exact ⟨stage, (List.getElem?_set_ne hkk).trans hk, hret, hnew⟩

/-- Taking an answer 0 that is new enough makes the client the leader. -/
theorem leader_of_delivered (hd : Delivered l l' k c ino answer)
    (hnew : NewerThan (l.tables c ino) answer) (hgr : answer.granted = true) :
    ∃ d, l'.tables c ino = some ⟨d, true⟩ := by
  rw [hd.tables, LeaseTableClient.update, Function.update_self, hgr]
  cases ht : l.tables c ino with
  | none => exact ⟨_, rfl⟩
  | some e =>
      obtain ⟨d, leader⟩ := e
      dsimp only [ClientEntry.setInfo]
      split
      · exact ⟨_, rfl⟩
      · rcases hnew d leader ht with hlt | ⟨-, hl⟩
        · exact absurd hlt ‹_›
        · exact ⟨d, by rw [hl, hgr]⟩

theorem tables_of_delivered (hd : Delivered l l' k c ino answer) (hne : c' ≠ c ∨ ino' ≠ ino) :
    l'.tables c' ino' = l.tables c' ino' := by
  by_cases hc : c' = c
  · subst hc
    rw [hd.tables, LeaseTableClient.update, Function.update_of_ne (hne.resolve_left (by simp))]
  · rw [hd.others c' hc]

theorem Led.delivered (h : Led l c' ino' n) (hd : Delivered l l' k c ino answer)
    (hne : c' ≠ c ∨ ino' ≠ ino) : Led l' c' ino' n := by
  obtain ⟨d, ht, hg⟩ := h
  refine ⟨d, by rw [tables_of_delivered hd hne]; exact ht, ?_⟩
  rw [hd.now, hd.grants]
  exact hg

theorem Waiting.delivered (h : Waiting l c' ino' k') (hd : Delivered l l' k c ino answer)
    (hne : c' ≠ c) : Waiting l' c' ino' k' := by
  obtain ⟨stage, hk, hret, hnew⟩ := h
  have hkk : k ≠ k' := by
    rintro rfl
    have := hd.call
    rw [hk] at this
    cases this
    exact hne rfl
  rw [Waiting, hd.calls, tables_of_delivered hd (Or.inl hne)]
  exact ⟨stage, (List.getElem?_set_ne hkk).trans hk, hret, hnew⟩

end

/-! ## What a step does -/

section

variable [DecidableEq C]

theorem step_lease {a : Lease.Action C} (h : step remote s (.lease a) = some s') :
    ∃ lease, Lease.step remote s.lease a = some lease ∧ s' = { s with lease := lease } ∧
      ∀ k, a ≠ .deliver k := by
  have run : ((Lease.step remote s.lease a).map fun lease => { s with lease := lease }) = some s' →
      ∃ lease, Lease.step remote s.lease a = some lease ∧ s' = { s with lease := lease } := by
    intro h
    obtain ⟨lease, hl, rfl⟩ := Option.map_eq_some_iff.mp h
    exact ⟨lease, hl, rfl⟩
  cases a with
  | request c ino => cases h
  | deliver k => cases h
  | tick d => exact (run h).imp fun _ hl => ⟨hl.1, hl.2, nofun⟩
  | lookup k => exact (run h).imp fun _ hl => ⟨hl.1, hl.2, nofun⟩
  | cas k d => exact (run h).imp fun _ hl => ⟨hl.1, hl.2, nofun⟩
  | insert k => exact (run h).imp fun _ hl => ⟨hl.1, hl.2, nofun⟩

/-- What a delivery is. -/
theorem deliver_eq (hs : step remote s (.deliver c) = some s') :
    ∃ mkdir ino k c₁ ino₁ answer lease, s.phase c = .acquiring mkdir ino k ∧
      s.lease.calls[k]? = some ⟨c₁, ino₁, .answered answer⟩ ∧
      Lease.step remote s.lease (.deliver k) = some lease ∧
      s' = setPhase { s with lease := lease } c
        (.acquired mkdir ino answer.granted (if answer.granted then [] else answer.remoteAddr)) := by
  simp only [step] at hs
  split at hs
  · rename_i mkdir ino k hp
    split at hs
    · rename_i c₁ ino₁ answer hk
      obtain ⟨lease, hl, rfl⟩ := Option.map_eq_some_iff.mp hs
      exact ⟨mkdir, ino, k, c₁, ino₁, answer, lease, hp, hk, hl, rfl⟩
    · cases hs
  · cases hs

theorem getDentryTable_eq {fromRemote : Bool}
    (h : step remote s (.getDentryTable c ino fromRemote) = some s') :
    s.phase c = .idle ∧
      ((cachedTable s c ino).isSome = true ∧ s' = { s with seen := ino :: s.seen } ∨
        cachedTable s c ino = none ∧
          (fromRemote = true ∧ s' = setTable { s with seen := ino :: s.seen } c ino none ∨
            fromRemote = false ∧
              acquire remote (setTable { s with seen := ino :: s.seen } c ino none) c false ino =
                some s')) := by
  have hcached : cachedTable { s with seen := ino :: s.seen } c ino = cachedTable s c ino := rfl
  simp only [step] at h
  split at h
  · cases h
  · rename_i hidle
    refine ⟨not_not.mp hidle, ?_⟩
    rw [hcached] at h
    split at h
    · rename_i hhit
      cases h
      exact Or.inl ⟨hhit, rfl⟩
    · rename_i hmiss
      refine Or.inr ⟨Option.not_isSome_iff_eq_none.mp hmiss, ?_⟩
      split at h
      · rename_i hremote
        cases h
        exact Or.inl ⟨hremote, rfl⟩
      · rename_i hhere
        exact Or.inr ⟨Bool.eq_false_iff.mpr hhere, h⟩

theorem leaseDentryTableMkdir_eq (h : step remote s (.leaseDentryTableMkdir c ino) = some s') :
    s.phase c = .idle ∧ ino ∉ s.seen ∧
      acquire remote { s with seen := ino :: s.seen } c true ino = some s' := by
  simp only [step] at h
  split at h
  · cases h
  · rename_i hguard
    obtain ⟨hidle, hseen⟩ := not_or.mp hguard
    exact ⟨not_not.mp hidle, hseen, h⟩

theorem fail_eq (h : step remote s (.fail c) = some s') :
    (∃ mkdir ino k, s.phase c = .acquiring mkdir ino k) ∧ s' = setPhase s c .idle := by
  simp only [step] at h
  split at h
  · rename_i mkdir ino k hp
    cases h
    exact ⟨⟨mkdir, ino, k, hp⟩, rfl⟩
  · cases h

/-- The new table is LOCAL if the lease was granted; a refused `mkdir` makes none. -/
theorem build_eq (h : step remote s (.build c) = some s') :
    ∃ mkdir ino granted addr, s.phase c = .acquired mkdir ino granted addr ∧
      (granted = false ∧ mkdir = true ∧ s' = setPhase s c .idle ∨
        s' = addDentryTable (setPhase s c .idle) c ino
          ⟨if granted then .LOCAL else .REMOTE, addr, s.lease.grants.length⟩) := by
  simp only [step] at h
  split at h
  · rename_i mkdir ino granted addr hp
    refine ⟨mkdir, ino, granted, addr, hp, ?_⟩
    match granted, mkdir with
    | true, _ =>
        cases h
        exact Or.inr rfl
    | false, true =>
        cases h
        exact Or.inl ⟨rfl, rfl, rfl⟩
    | false, false =>
        cases h
        exact Or.inr rfl
  · cases h

theorem buildFail_eq (h : step remote s (.buildFail c) = some s') :
    (∃ mkdir ino granted addr, s.phase c = .acquired mkdir ino granted addr) ∧
      s' = setPhase s c .idle := by
  simp only [step] at h
  split at h
  · rename_i mkdir ino granted addr hp
    cases h
    exact ⟨⟨mkdir, ino, granted, addr, hp⟩, rfl⟩
  · cases h

theorem deleteDentryTable_eq (h : step remote s (.deleteDentryTable c ino) = some s') :
    s.phase c = .idle ∧ s' = setTable s c ino none := by
  simp only [step] at h
  split at h
  · cases h
  · rename_i hidle
    cases h
    exact ⟨not_not.mp hidle, rfl⟩

theorem acquire_eq {mkdir : Bool} (h : acquire remote s c mkdir ino = some s') :
    isMine s.lease c ino = true ∧ s' = setPhase s c (.acquired mkdir ino true []) ∨
      ∃ lease, Lease.step remote s.lease (.request c ino) = some lease ∧
        s' = setPhase { s with lease := lease } c (.acquiring mkdir ino s.lease.calls.length) := by
  unfold acquire at h
  split at h
  · rename_i hmine
    cases h
    exact Or.inl ⟨hmine, rfl⟩
  · obtain ⟨lease, hl, rfl⟩ := Option.map_eq_some_iff.mp h
    exact Or.inr ⟨lease, hl, rfl⟩

theorem lease_addDentryTable (s : State C) (c : C) (ino : Uuid) (table : DentryTable) :
    (addDentryTable s c ino table).lease = s.lease := by
  unfold addDentryTable
  split
  · rfl
  · rfl

theorem lease_of_build (h : step remote s (.build c) = some s') : s'.lease = s.lease := by
  obtain ⟨mkdir, ino, granted, addr, -, ⟨-, -, rfl⟩ | rfl⟩ := build_eq h
  · rfl
  · rw [lease_addDentryTable]
    rfl

theorem lease_of_acquire {mkdir : Bool} (h : acquire remote s c mkdir ino = some s') :
    s'.lease = s.lease ∨ Lease.step remote s.lease (.request c ino) = some s'.lease := by
  obtain ⟨-, rfl⟩ | ⟨lease, hl, rfl⟩ := acquire_eq h
  · exact Or.inl rfl
  · exact Or.inr hl

/-- What a step does to the lease system: a step of its own, a request, a delivery or nothing. -/
theorem lease_of_step {a : Action C} (h : step remote s a = some s') :
    s'.lease = s.lease ∨ ∃ b, Lease.step remote s.lease b = some s'.lease ∧
      (a = .lease b ∨ (∃ c ino, b = .request c ino) ∨ ∃ k, b = .deliver k) := by
  have hacquire : ∀ {t : State C} {c : C} {mkdir : Bool} {ino : Uuid},
      acquire remote t c mkdir ino = some s' → t.lease = s.lease → s'.lease = s.lease ∨
        ∃ b, Lease.step remote s.lease b = some s'.lease ∧
          (a = .lease b ∨ (∃ c ino, b = .request c ino) ∨ ∃ k, b = .deliver k) := by
    intro t c mkdir ino hacq ht
    rw [← ht]
    exact (lease_of_acquire hacq).imp_right fun hl => ⟨_, hl, Or.inr (Or.inl ⟨c, ino, rfl⟩)⟩
  cases a with
  | lease b =>
      obtain ⟨lease, hl, rfl, -⟩ := step_lease h
      exact Or.inr ⟨b, hl, Or.inl rfl⟩
  | getDentryTable c ino fromRemote =>
      obtain ⟨-, ⟨-, rfl⟩ | ⟨-, ⟨-, rfl⟩ | ⟨-, hacq⟩⟩⟩ := getDentryTable_eq h
      · exact Or.inl rfl
      · exact Or.inl rfl
      · exact hacquire hacq rfl
  | leaseDentryTableMkdir c ino => exact hacquire (leaseDentryTableMkdir_eq h).2.2 rfl
  | deliver c =>
      obtain ⟨mkdir, ino, k, c₁, ino₁, answer, lease, -, -, hl, rfl⟩ := deliver_eq h
      exact Or.inr ⟨_, hl, Or.inr (Or.inr ⟨k, rfl⟩)⟩
  | fail c =>
      obtain ⟨-, rfl⟩ := fail_eq h
      exact Or.inl rfl
  | build c => exact Or.inl (lease_of_build h)
  | buildFail c =>
      obtain ⟨-, rfl⟩ := buildFail_eq h
      exact Or.inl rfl
  | deleteDentryTable c ino =>
      obtain ⟨-, rfl⟩ := deleteDentryTable_eq h
      exact Or.inl rfl

end

/-! ## The invariant -/

structure Inv (remote : C ↪ Addr) (s : State C) : Prop where
  info : AllInfoOk remote s.lease
  fresh : ∀ ino, ino ∉ s.seen → ∀ c, s.tables c ino = none
  busy : ∀ c ino, (s.phase c).ino? = some ino → ino ∈ s.seen ∧ s.tables c ino = none
  acquiring : ∀ c mkdir ino k, s.phase c = .acquiring mkdir ino k → Waiting s.lease c ino k
  acquired : ∀ c mkdir ino addr, s.phase c = .acquired mkdir ino true addr →
    ∃ d, s.lease.tables c ino = some ⟨d, true⟩
  cached : ∀ c ino table, s.tables c ino = some table → table.loc = .LOCAL →
    Led s.lease c ino table.builtAt

theorem inv_init : Inv remote (State.init C) :=
  ⟨allInfoOk_init, fun _ _ _ => rfl, nofun, nofun, nofun, nofun⟩

/-- A step of the lease system that delivers nothing. -/
theorem Inv.lease {lease : System C} (hi : Inv remote s) (hinfo : AllInfoOk remote lease)
    (h : Quiet s.lease lease ∨
      ∃ k c ino answer e', Served remote s.lease lease k c ino answer e') :
    Inv remote { s with lease := lease } := by
  have htab : lease.tables = s.lease.tables := by
    rcases h with hq | ⟨k', c', ino', answer, e', hs⟩
    · exact hq.tables
    · exact hs.tables
  refine ⟨hinfo, hi.fresh, hi.busy, fun c mkdir ino k hp => ?_, fun c mkdir ino addr hp => ?_,
    fun c ino table ht hl => ?_⟩
  · have hw := hi.acquiring c mkdir ino k hp
    rcases h with hq | ⟨k', c', ino', answer, e', hs⟩
    · exact hw.quiet hq
    · exact hw.served hi.info hs
  · dsimp only
    rw [htab]
    exact hi.acquired c mkdir ino addr hp
  · have hled := hi.cached c ino table ht hl
    rcases h with hq | ⟨k, c', ino', answer, e', hs⟩
    · exact hled.quiet hq
    · exact hled.served hi.info hs

theorem Inv.look (hi : Inv remote s) (ino : Uuid) :
    Inv remote { s with seen := ino :: s.seen } :=
  ⟨hi.info, fun _ h => hi.fresh _ fun hm => h (List.mem_cons_of_mem _ hm),
    fun c ino h => ⟨List.mem_cons_of_mem _ (hi.busy c ino h).1, (hi.busy c ino h).2⟩,
    hi.acquiring, hi.acquired, hi.cached⟩

variable [DecidableEq C]

theorem tables_setTable (s : State C) (c : C) (ino : Uuid) (table : Option DentryTable) (c' : C)
    (ino' : Uuid) : (setTable s c ino table).tables c' ino' =
      if c' = c ∧ ino' = ino then table else s.tables c' ino' := by
  simp only [setTable, Function.update_apply]
  by_cases hc : c' = c
  · subst hc
    by_cases hino : ino' = ino <;> simp [hino]
  · simp [hc]

theorem phase_setPhase (s : State C) (c : C) (phase : Phase) (c' : C) :
    (setPhase s c phase).phase c' = if c' = c then phase else s.phase c' := by
  simp only [setPhase, Function.update_apply]

theorem phase_addDentryTable (s : State C) (c : C) (ino : Uuid) (table : DentryTable) :
    (addDentryTable s c ino table).phase = s.phase := by
  unfold addDentryTable
  split
  · rfl
  · rfl

theorem Inv.eraseTable (hi : Inv remote s) (c : C) (ino : Uuid) :
    Inv remote (setTable s c ino none) := by
  have hnone : ∀ c' ino', s.tables c' ino' = none →
      (setTable s c ino none).tables c' ino' = none := by
    intro c' ino' h
    rw [tables_setTable]
    split
    · rfl
    · exact h
  refine ⟨hi.info, fun ino' h c' => hnone _ _ (hi.fresh ino' h c'),
    fun c' ino' hb => ⟨(hi.busy c' ino' hb).1, hnone _ _ (hi.busy c' ino' hb).2⟩, hi.acquiring,
    hi.acquired, fun c' ino' table ht hl => ?_⟩
  rw [tables_setTable] at ht
  split at ht
  · cases ht
  · exact hi.cached c' ino' table ht hl

/-- The holder of the mutex moves on. -/
theorem Inv.setPhase (hi : Inv remote s) (c : C) (phase : Phase)
    (hbusy : ∀ ino, phase.ino? = some ino → ino ∈ s.seen ∧ s.tables c ino = none)
    (hacquiring : ∀ mkdir ino k, phase = .acquiring mkdir ino k → Waiting s.lease c ino k)
    (hacquired : ∀ mkdir ino addr, phase = .acquired mkdir ino true addr →
      ∃ d, s.lease.tables c ino = some ⟨d, true⟩) :
    Inv remote (setPhase s c phase) := by
  refine ⟨hi.info, hi.fresh, fun c' ino hb => ?_, fun c' mkdir ino k hp => ?_,
    fun c' mkdir ino addr hp => ?_, hi.cached⟩
  all_goals rw [phase_setPhase] at *
  · split at hb
    · subst c'
      exact hbusy ino hb
    · exact hi.busy c' ino hb
  · split at hp
    · subst c'
      exact hacquiring mkdir ino k hp
    · exact hi.acquiring c' mkdir ino k hp
  · split at hp
    · subst c'
      exact hacquired mkdir ino addr hp
    · exact hi.acquired c' mkdir ino addr hp

theorem Inv.setIdle (hi : Inv remote s) (c : C) : Inv remote (DirectoryTable.setPhase s c .idle) :=
  hi.setPhase c .idle nofun nofun nofun

theorem inv_acquire (hi : Inv remote s) {mkdir : Bool} (hseen : ino ∈ s.seen)
    (ht : s.tables c ino = none) (h : acquire remote s c mkdir ino = some s') :
    Inv remote s' := by
  have hbusy : ∀ ino', some ino = some ino' → ino' ∈ s.seen ∧ s.tables c ino' = none := by
    rintro ino' heq
    cases heq
    exact ⟨hseen, ht⟩
  obtain ⟨hmine, rfl⟩ | ⟨lease, hstep, rfl⟩ := acquire_eq h
  · refine hi.setPhase c _ hbusy nofun ?_
    rintro mkdir' ino' addr heq
    cases heq
    obtain ⟨d, hd, -⟩ := isMine_iff.mp hmine
    exact ⟨d, hd⟩
  · have hlease := hi.lease (allInfoOk_step hi.info hstep) (quiet_or_served hstep nofun)
    refine hlease.setPhase c _ hbusy ?_ nofun
    rintro mkdir' ino' k heq
    cases heq
    rw [request_eq hstep]
    exact ⟨.lookup, List.getElem?_concat_length, by simp, by simp⟩

theorem inv_deliver (hi : Inv remote s) (h : step remote s (.deliver c) = some s') :
    Inv remote s' := by
  obtain ⟨mkdir, ino, k, c₁, ino₁, answer, lease, hp, hk', hstep, rfl⟩ := deliver_eq h
  obtain ⟨hseen, ht⟩ := hi.busy c ino (by rw [hp]; rfl)
  obtain ⟨stage, hk, -, hnew⟩ := hi.acquiring c mkdir ino k hp
  rw [hk'] at hk
  cases hk
  have hd := delivered_of_step hk' hstep
  have hlead := leader_of_delivered hd (hnew answer rfl)
  refine ⟨allInfoOk_step hi.info hstep, hi.fresh, fun c' ino' hb => ?_,
    fun c' mkdir' ino' k' hp' => ?_, fun c' mkdir' ino' addr hp' => ?_,
    fun c' ino' table ht' hl => ?_⟩
  · rw [phase_setPhase] at hb
    split at hb
    · subst c'
      cases hb
      exact ⟨hseen, ht⟩
    · exact hi.busy c' ino' hb
  · rw [phase_setPhase] at hp'
    split at hp'
    · cases hp'
    · exact (hi.acquiring c' mkdir' ino' k' hp').delivered hd ‹_›
  · rw [phase_setPhase] at hp'
    split at hp'
    · subst c'
      simp only [Phase.acquired.injEq] at hp'
      obtain ⟨-, rfl, hgr, -⟩ := hp'
      exact hlead hgr
    · obtain ⟨d, hl⟩ := hi.acquired c' mkdir' ino' addr hp'
      exact ⟨d, (tables_of_delivered hd (Or.inl ‹_›)).trans hl⟩
  · refine (hi.cached c' ino' table ht' hl).delivered hd ?_
    -- the directory being leased has no table
    by_contra hsame
    simp only [not_or, not_not] at hsame
    obtain ⟨rfl, rfl⟩ := hsame
    exact absurd (ht.symm.trans ht') (by simp)

theorem Inv.addDentryTable (hi : Inv remote s) {table : DentryTable} (hseen : ino ∈ s.seen)
    (hphase : s.phase c = .idle)
    (hled : table.loc = .LOCAL → Led s.lease c ino table.builtAt) :
    Inv remote (addDentryTable s c ino table) := by
  unfold DirectoryTable.addDentryTable
  split
  · exact hi
  · refine ⟨hi.info, fun ino' h c' => ?_, fun c' ino' hb => ⟨(hi.busy c' ino' hb).1, ?_⟩,
      hi.acquiring, hi.acquired, fun c' ino' table' ht hl => ?_⟩
    all_goals rw [tables_setTable] at *
    · split
      · rename_i hsame
        exact absurd (hsame.2 ▸ hseen) h
      · exact hi.fresh ino' h c'
    · split
      · rename_i hsame
        obtain ⟨rfl, -⟩ := hsame
        have hb' : (s.phase c').ino? = some ino' := hb
        rw [hphase] at hb'
        cases hb'
      · exact (hi.busy c' ino' hb).2
    · split at ht
      · rename_i hsame
        obtain ⟨rfl, rfl⟩ := hsame
        cases ht
        exact hled hl
      · exact hi.cached c' ino' table' ht hl

theorem inv_build (hi : Inv remote s) (h : step remote s (.build c) = some s') :
    Inv remote s' := by
  have hidle := hi.setIdle c
  obtain ⟨mkdir, ino, granted, addr, hp, ⟨-, -, rfl⟩ | rfl⟩ := build_eq h
  · exact hidle
  · obtain ⟨hseen, -⟩ := hi.busy c ino (by rw [hp]; rfl)
    refine hidle.addDentryTable hseen (by rw [phase_setPhase, if_pos rfl]) fun hloc => ?_
    match granted with
    | true =>
        obtain ⟨d, hd⟩ := hi.acquired c mkdir ino addr hp
        refine ⟨d, hd, Or.inr ?_⟩
        simp only [DirectoryTable.setPhase, List.drop_length]
        exact nofun
    | false => cases hloc

theorem phase_acquire {mkdir : Bool} {c' : C} (hne : c ≠ c')
    (hs : acquire remote s c' mkdir ino = some s') : s'.phase c = s.phase c := by
  obtain ⟨-, rfl⟩ | ⟨lease, -, rfl⟩ := acquire_eq hs
  · rw [phase_setPhase, if_neg hne]
  · rw [phase_setPhase, if_neg hne]

/-- Every step keeps the invariant. -/
theorem inv_step {a : Action C} (hi : Inv remote s) (h : step remote s a = some s') :
    Inv remote s' := by
  cases a with
  | lease a =>
      obtain ⟨lease, hl, rfl, hnd⟩ := step_lease h
      exact hi.lease (allInfoOk_step hi.info hl) (quiet_or_served hl hnd)
  | getDentryTable c ino fromRemote =>
      have hlook := hi.look ino
      have herase := hlook.eraseTable c ino
      obtain ⟨-, ⟨-, rfl⟩ | ⟨-, ⟨-, rfl⟩ | ⟨-, hacq⟩⟩⟩ := getDentryTable_eq h
      · exact hlook
      · exact herase
      · exact inv_acquire herase List.mem_cons_self (by rw [tables_setTable]; simp) hacq
  | leaseDentryTableMkdir c ino =>
      obtain ⟨-, hseen, hacq⟩ := leaseDentryTableMkdir_eq h
      exact inv_acquire (hi.look ino) List.mem_cons_self (hi.fresh ino hseen c) hacq
  | deliver c => exact inv_deliver hi h
  | fail c =>
      obtain ⟨-, rfl⟩ := fail_eq h
      exact hi.setIdle c
  | build c => exact inv_build hi h
  | buildFail c =>
      obtain ⟨-, rfl⟩ := buildFail_eq h
      exact hi.setIdle c
  | deleteDentryTable c ino =>
      obtain ⟨-, rfl⟩ := deleteDentryTable_eq h
      exact hi.eraseTable c ino

theorem inv_run {acts : List (Action C)} (h : run (step remote) (State.init C) acts = some s) :
    Inv remote s :=
  run_invariant (fun _ _ _ => inv_step) inv_init h

/-- When `get_dentry_table` returns a cached LOCAL table, the client is marked as the leader in its
    own lease table, and no other client has been granted the lease since the table was built. -/
theorem cached_local_not_stale (remote : C ↪ Addr) (acts : List (Action C)) (s : State C)
    (hrun : run (step remote) (State.init C) acts = some s) (c : C) (ino : Uuid)
    (table : DentryTable) (hhit : cachedTable s c ino = some table) (hloc : table.loc = .LOCAL) :
    (∃ d, s.lease.tables c ino = some ⟨d, true⟩) ∧
      ∀ g ∈ s.lease.grants.drop table.builtAt, g.1 = ino → g.2 = c := by
  obtain ⟨ht, hv⟩ := cachedTable_eq_some hhit
  obtain ⟨d, hd, hled⟩ := (inv_run hrun).cached c ino table ht hloc
  refine ⟨⟨d, hd⟩, hled.resolve_left ?_⟩
  unfold isValid LeaseTableClient.isValid at hv
  rw [hd] at hv
  simpa using hv

/-- The first client gets the root directory and asks for it again while the second one is
    refused. -/
def hitRun : List (Action Bool) :=
  [.getDentryTable false Uuid.rootIno false, .lease (.lookup 0), .lease (.insert 0),
    .deliver false, .build false, .getDentryTable true Uuid.rootIno false, .lease (.lookup 1),
    .lease (.cas 1 3), .deliver true, .build true]

theorem cached_local_not_stale_hit :
    ∃ s table, run (step twoClients) (State.init Bool) hitRun = some s ∧
      cachedTable s false Uuid.rootIno = some table ∧ table.loc = .LOCAL ∧
      (∃ d, s.lease.tables false Uuid.rootIno = some ⟨d, true⟩) ∧
      ∀ g ∈ s.lease.grants.drop table.builtAt, g.1 = Uuid.rootIno → g.2 = false :=
  ⟨_, _, rfl, rfl, rfl, cached_local_not_stale twoClients hitRun _ rfl false Uuid.rootIno _ rfl rfl⟩

end Nmfs.DirectoryTable
