import Nmfs.InMemory.DirectoryTable
import Nmfs.Lease.Answers

/-
  `mkdir`: the parent's leader adds the entry, in `local_mkdir` or `rpc_mkdir`, then the creator
  journals the new INODE with `mkself`, and only then comes `lease_dentry_table_mkdir`. From the
  first of these on anybody who finds the entry may ask for the lease; a client that gets it before
  the INODE is stored cannot make its table of it.
-/

namespace Nmfs.DirectoryTable

open Lib Lease

/-- How far the `mkdir` of a directory has come, and whose it is. -/
inductive Mkdir (C : Type) where
  /-- `create_child_inode` at the parent's leader -/
  | created (c : C)
  | mkself (c : C)
  /-- in `lease_dentry_table_mkdir`, or done -/
  | leased (c : C)
  deriving DecidableEq

/-- The clients with the directories that they make. -/
structure Making (C : Type) where
  dir : State C
  mkdirs : Uuid → Option (Mkdir C)
  /-- the directories that can be read from their objects -/
  stored : List Uuid

namespace Making

variable {C : Type}

def init (C : Type) (stored : List Uuid) : Making C := ⟨State.init C, fun _ => none, stored⟩

/-- Some directory has an entry with this number, or has had one. -/
def Visible (s : Making C) (ino : Uuid) : Prop := ino ∈ s.stored ∨ (s.mkdirs ino).isSome

instance (s : Making C) (ino : Uuid) : Decidable (s.Visible ino) :=
  inferInstanceAs (Decidable (_ ∨ _))

inductive Action (C : Type) where
  /-- anything else that a client or the manager does -/
  | dir (a : DirectoryTable.Action C)
  | createChildInode (c : C) (ino : Uuid)
  | mkself (c : C) (ino : Uuid)
  /-- the new INODE gets out of the creator's journal -/
  | store (ino : Uuid)
  | leaseDentryTableMkdir (c : C) (ino : Uuid)

/-- What the directories have to say: nobody looks up a number that no entry has, a LOCAL table is
    made of what is stored unless `mkdir` has it at hand, and the manager answers `mkdir`. -/
def Allowed (s : Making C) : DirectoryTable.Action C → Prop
  | .getDentryTable _ ino _ => s.Visible ino
  | .leaseDentryTableMkdir _ _ => False
  | .fail c => ∀ ino k, s.dir.phase c ≠ .acquiring true ino k
  | .build c => ∀ ino addr, s.dir.phase c = .acquired false ino true addr → ino ∈ s.stored
  | .buildFail c => ∀ mkdir ino granted addr, s.dir.phase c = .acquired mkdir ino granted addr →
      mkdir = false ∧ granted = true ∧ ino ∉ s.stored
  | _ => True

instance (s : Making C) (a : DirectoryTable.Action C) : Decidable (s.Allowed a) :=
  match a with
  | .lease _ | .deliver _ | .deleteDentryTable _ _ => inferInstanceAs (Decidable True)
  | .getDentryTable _ ino _ => inferInstanceAs (Decidable (s.Visible ino))
  | .leaseDentryTableMkdir _ _ => inferInstanceAs (Decidable False)
  | .fail c =>
    match h : s.dir.phase c with
    | .acquiring true _ _ => isFalse fun hall => hall _ _ h
    | .acquiring false _ _ | .idle | .acquired _ _ _ _ => isTrue fun _ _ heq => by
        rw [h] at heq
        cases heq
  | .build c =>
    match h : s.dir.phase c with
    | .acquired false ino true _ =>
      decidable_of_iff (ino ∈ s.stored) ⟨fun hin ino' addr heq => by
        rw [h] at heq
        cases heq
        exact hin, fun hall => hall _ _ h⟩
    | .acquired true _ _ _ | .acquired false _ false _ | .idle | .acquiring _ _ _ =>
      isTrue fun _ _ heq => by
        rw [h] at heq
        cases heq
  | .buildFail c =>
    match h : s.dir.phase c with
    | .acquired mkdir ino granted _ =>
      decidable_of_iff (mkdir = false ∧ granted = true ∧ ino ∉ s.stored)
        ⟨fun hin _ _ _ _ heq => by
          rw [h] at heq
          cases heq
          exact hin, fun hall => hall _ _ _ _ h⟩
    | .idle | .acquiring _ _ _ => isTrue fun _ _ _ _ heq => by
        rw [h] at heq
        cases heq

variable [DecidableEq C]

def setMkdir (s : Making C) (ino : Uuid) (mkdir : Mkdir C) : Making C :=
  { s with mkdirs := Function.update s.mkdirs ino (some mkdir) }

def step (remote : C ↪ Addr) (s : Making C) : Action C → Option (Making C)
  | .dir a =>
    if s.Allowed a then (DirectoryTable.step remote s.dir a).map fun dir => { s with dir := dir }
    else none
  | .createChildInode c ino =>
    -- the inode number is freshly allocated
    if s.Visible ino then none else some (s.setMkdir ino (.created c))
  | .mkself c ino =>
    if s.mkdirs ino = some (.created c) then some (s.setMkdir ino (.mkself c)) else none
  | .store ino =>
    match s.mkdirs ino with
    | some (.mkself _) | some (.leased _) => some { s with stored := ino :: s.stored }
    | _ => none
  | .leaseDentryTableMkdir c ino =>
    if s.dir.phase c = .idle ∧ s.mkdirs ino = some (.mkself c) then
      (acquire remote s.dir c true ino).map fun dir =>
        { s.setMkdir ino (.leased c) with dir := dir }
    else none

/-- Nobody but `c` holds the lease. -/
def Alone (remote : C ↪ Addr) (lease : System C) (c : C) (ino : Uuid) : Prop :=
  ∀ c', Holds remote lease c' ino → c' = c

/-- If the step answers an `mkdir`, then with 0 and the lease is its creator's; and if the call
    ends, it does not raise, and nobody else has the lease before that of the creator has run
    out. -/
def LedByCreator (remote : C ↪ Addr) (s : Making C) (a : Action C) : Prop :=
  ∀ s', step remote s a = some s' →
    (∀ c ino k answer, s.dir.phase c = .acquiring true ino k →
      AnswersCall s.dir.lease s'.dir.lease k c ino answer →
      answer.granted = true ∧ Alone remote s'.dir.lease c ino) ∧
    ∀ c ino granted addr, a = .dir (.build c) → s.dir.phase c = .acquired true ino granted addr →
      granted = true ∧ ∃ d, s'.dir.lease.tables c ino = some ⟨d, true⟩ ∧
        (s'.dir.lease.now < d → Alone remote s'.dir.lease c ino)

/-- The manager comes to an `mkdir` before anybody else has the lease. -/
def Untaken (remote : C ↪ Addr) (s : Making C) : Action C → Prop
  | .dir (.lease (.cas k _)) => ∀ c ino e, s.dir.phase c = .acquiring true ino k →
      s.dir.lease.calls[k]? = some ⟨c, ino, .cas⟩ → s.dir.lease.manager ino = some e →
      e.due ≤ s.dir.lease.now ∨ e.addr = remote c
  | .dir (.lease (.insert k)) => ∀ c ino e, s.dir.phase c = .acquiring true ino k →
      s.dir.lease.calls[k]? = some ⟨c, ino, .insert⟩ → s.dir.lease.manager ino = some e →
      e.addr = remote c
  | _ => True

/-! ## What is granted -/

omit [DecidableEq C] in
theorem cas_granted_iff (e : LeaseEntry) (now now' : Nat) (r : Addr) :
    (e.cas now now' r).1.granted = true ↔ e.due ≤ now ∨ e.addr = r := by
  unfold LeaseEntry.cas
  by_cases hexp : e.due ≤ now
  · simp [hexp]
  · by_cases haddr : e.addr = r
    · simp [hexp, haddr]
    · simp [hexp, haddr]

omit [DecidableEq C] in
theorem insert_granted_iff (map : LeaseTable) (ino : Uuid) (now : Nat) (r : Addr) :
    (map.insert ino now r).1.granted = true ↔ ∀ e, map ino = some e → e.addr = r := by
  unfold LeaseTable.insert
  match hm : map ino with
  | none => simp
  | some e => simp

variable {remote : C ↪ Addr} {l l' : System C} {c : C} {ino : Uuid} {k : Nat}

omit [DecidableEq C] in
theorem alone_of_entry {e : LeaseEntry} (he : l.manager ino = some e) (haddr : e.addr = remote c) :
    Alone remote l c ino := by
  intro c' ⟨e', he', haddr', _⟩
  rw [he] at he'
  cases he'
  exact remote.injective (haddr'.symm.trans haddr)

omit [DecidableEq C] in
/-- A client that has been told "leader" is alone until its lease runs out. -/
theorem alone_of_leader (hi : AllInfoOk remote l) {d : Nat}
    (ht : l.tables c ino = some ⟨d, true⟩) (hd : l.now < d) : Alone remote l c ino := by
  obtain ⟨e, he, -, -, hmine⟩ := hi c ino d true (Or.inl ht)
  exact alone_of_entry he ((hmine rfl).resolve_right (Nat.not_le.mpr hd))

/-- A caller that is answered 0 is alone. -/
theorem alone_of_granted {a : Lease.Action C} {answer : Answer} (hs : Lease.step remote l a = some l')
    (hans : AnswersCall l l' k c ino answer) (hgranted : answer.granted = true) :
    Alone remote l' c ino := by
  obtain ⟨d, e, rfl, -, -, rfl, hmanager⟩ | ⟨rfl, hk, rfl, hmanager⟩ := answersCall_cases hs hans
  · obtain ⟨-, haddr, -⟩ := cas_spec e (Nat.le_add_right l.now d) (remote c)
    exact alone_of_entry hmanager (haddr.mp hgranted)
  · obtain ⟨e', hmap, -, haddr, -⟩ := insert_spec l.manager ino l.now (remote c)
    have hmap' : (l.manager.insert ino l.now (remote c)).2 =
      Function.update l.manager ino (some e') := hmap
    have he' : l'.manager ino = some e' := by rw [hmanager, hmap', Function.update_self]
    exact alone_of_entry he' (haddr.mp hgranted)

/-! ## The invariant -/

/-- Every `mkdir` that has been answered has its lease. -/
structure Granted (remote : C ↪ Addr) (s : State C) : Prop where
  info : AllInfoOk remote s.lease
  waiting : ∀ c mkdir ino k, s.phase c = .acquiring mkdir ino k → Waiting s.lease c ino k
  answered : ∀ c ino k answer, s.phase c = .acquiring true ino k →
    s.lease.calls[k]? = some ⟨c, ino, .answered answer⟩ → answer.granted = true
  acquired : ∀ c ino granted addr, s.phase c = .acquired true ino granted addr →
    granted = true ∧ ∃ d, s.lease.tables c ino = some ⟨d, true⟩

omit [DecidableEq C] in
theorem granted_init : Granted remote (State.init C) := ⟨allInfoOk_init, nofun, nofun, nofun⟩

section

variable {s s' : State C}

theorem Granted.setIdle (h : Granted remote s) (c : C) :
    Granted remote (setPhase s c .idle) := by
  have hphase : ∀ c' phase, (setPhase s c .idle).phase c' = phase → phase ≠ .idle →
      s.phase c' = phase := by
    intro c' phase hp hne
    rw [phase_setPhase] at hp
    split at hp
    · exact absurd hp.symm hne
    · exact hp
  exact ⟨h.info, fun c' mkdir ino k hp => h.waiting c' mkdir ino k (hphase c' _ hp nofun),
    fun c' ino k answer hp => h.answered c' ino k answer (hphase c' _ hp nofun),
    fun c' ino granted addr hp => h.acquired c' ino granted addr (hphase c' _ hp nofun)⟩

theorem Granted.setTable (h : Granted remote s) (c : C) (ino : Uuid)
    (table : Option DentryTable) : Granted remote (setTable s c ino table) :=
  ⟨h.info, h.waiting, h.answered, h.acquired⟩

theorem Granted.addDentryTable (h : Granted remote s) (c : C) (ino : Uuid) (table : DentryTable) :
    Granted remote (addDentryTable s c ino table) := by
  unfold DirectoryTable.addDentryTable
  split
  · exact h
  · exact h.setTable c ino (some table)

theorem Granted.acquire (h : Granted remote s) {mkdir : Bool}
    (hs : acquire remote s c mkdir ino = some s') : Granted remote s' := by
  obtain ⟨hmine, rfl⟩ | ⟨lease, hl, rfl⟩ := acquire_eq hs
  · obtain ⟨d, hd, -⟩ := isMine_iff.mp hmine
    refine ⟨h.info, fun c' mkdir' ino' k hp => ?_, fun c' ino' k answer hp => ?_,
      fun c' ino' granted addr hp => ?_⟩
    all_goals rw [phase_setPhase] at hp
    · split at hp
      · cases hp
      · exact h.waiting c' mkdir' ino' k hp
    · split at hp
      · cases hp
      · exact h.answered c' ino' k answer hp
    · split at hp
      · subst c'
        cases hp
        exact ⟨rfl, d, hd⟩
      · exact h.acquired c' ino' granted addr hp
  · have hinfo := allInfoOk_step h.info hl
    have heq := request_eq hl
    subst heq
    refine ⟨hinfo, fun c' mkdir' ino' k hp => ?_, fun c' ino' k answer hp hk => ?_,
      fun c' ino' granted addr hp => ?_⟩
    all_goals rw [phase_setPhase] at hp
    · split at hp
      · subst c'
        cases hp
        exact ⟨.lookup, List.getElem?_concat_length, nofun, nofun⟩
      · obtain ⟨stage, hk, hret, hnew⟩ := h.waiting c' mkdir' ino' k hp
        have hlt := (List.getElem?_eq_some_iff.mp hk).1
        exact ⟨stage, (List.getElem?_append_left hlt).trans hk, hret, hnew⟩
    · split at hp
      · subst c'
        cases hp
        have hnew := hk.symm.trans List.getElem?_concat_length
        cases hnew
      · obtain ⟨stage, hk', -⟩ := h.waiting c' true ino' k hp
        have hlt := (List.getElem?_eq_some_iff.mp hk').1
        exact h.answered c' ino' k answer hp ((List.getElem?_append_left hlt).symm.trans hk)
    · split at hp
      · cases hp
      · exact h.acquired c' ino' granted addr hp

theorem Granted.deliver (h : Granted remote s)
    (hs : DirectoryTable.step remote s (.deliver c) = some s') : Granted remote s' := by
  obtain ⟨mkdir, ino, k, c₁, ino₁, answer, lease, hp, hk, hl, rfl⟩ := deliver_eq hs
  obtain ⟨stage, hk', -, hnew⟩ := h.waiting c mkdir ino k hp
  rw [hk] at hk'
  cases hk'
  have hd := delivered_of_step hk hl
  refine ⟨allInfoOk_step h.info hl, fun c' mkdir' ino' k' hp' => ?_,
    fun c' ino' k' answer' hp' hk' => ?_, fun c' ino' granted addr hp' => ?_⟩
  all_goals rw [phase_setPhase] at hp'
  · split at hp'
    · cases hp'
    · exact (h.waiting c' mkdir' ino' k' hp').delivered hd ‹_›
  · split at hp'
    · cases hp'
    · have hcalls : lease.calls[k']? = some ⟨c', ino', .answered answer'⟩ := hk'
      rw [hd.calls] at hcalls
      by_cases hkk : k = k'
      · subst hkk
        rw [List.getElem?_set_self (List.getElem?_eq_some_iff.mp hk).1] at hcalls
        cases hcalls
      · exact h.answered c' ino' k' answer' hp' ((List.getElem?_set_ne hkk).symm.trans hcalls)
  · split at hp'
    · subst c'
      simp only [Phase.acquired.injEq] at hp'
      obtain ⟨rfl, rfl, rfl, -⟩ := hp'
      have hgranted := h.answered c ino k answer hp hk
      exact ⟨hgranted, leader_of_delivered hd (hnew answer rfl) hgranted⟩
    · obtain ⟨hgranted, d, ht⟩ := h.acquired c' ino' granted addr hp'
      exact ⟨hgranted, d, (tables_of_delivered hd (Or.inl ‹_›)).trans ht⟩

/-- A step of the manager that answers `mkdir` with 0 only. -/
theorem Granted.lease (h : Granted remote s) {a : Lease.Action C}
    (hs : DirectoryTable.step remote s (.lease a) = some s')
    (hans : ∀ c ino k answer, s.phase c = .acquiring true ino k →
      AnswersCall s.lease s'.lease k c ino answer → answer.granted = true) :
    Granted remote s' := by
  obtain ⟨lease, hl, rfl, hnd⟩ := step_lease hs
  have hwaiting : ∀ c ino k, Waiting s.lease c ino k → Waiting lease c ino k := by
    intro c ino k hw
    obtain hq | ⟨k, c, ino, answer, e', hserved⟩ := quiet_or_served hl hnd
    · exact hw.quiet hq
    · exact hw.served h.info hserved
  refine ⟨allInfoOk_step h.info hl, fun c mkdir ino k hp => hwaiting c ino k (h.waiting c _ ino k hp),
    fun c ino k answer hp hk => ?_, fun c ino granted addr hp => ?_⟩
  · obtain hk₀ | hnow := answered_cases hl hk
    · exact h.answered c ino k answer hp hk₀
    · exact hans c ino k answer hp hnow
  · obtain ⟨hgranted, d, ht⟩ := h.acquired c ino granted addr hp
    refine ⟨hgranted, d, ?_⟩
    dsimp only
    rw [tables_of_step hl hnd]
    exact ht

end

/-! ## Steps -/

variable {s s' : Making C}

/-- A step is one of the directory tables, or the creator's acquisition, or changes neither. -/
theorem step_cases {a : Action C} (hs : step remote s a = some s') :
    s'.dir = s.dir ∨
      (∃ c ino, a = .leaseDentryTableMkdir c ino ∧
        acquire remote s.dir c true ino = some s'.dir) ∨
      ∃ b, a = .dir b ∧ s.Allowed b ∧ DirectoryTable.step remote s.dir b = some s'.dir := by
  cases a with
  | createChildInode c ino =>
      simp only [step] at hs
      split at hs
      · cases hs
      · cases hs
        exact Or.inl rfl
  | mkself c ino =>
      simp only [step] at hs
      split at hs
      · cases hs
        exact Or.inl rfl
      · cases hs
  | store ino =>
      simp only [step] at hs
      split at hs
      · cases hs
        exact Or.inl rfl
      · cases hs
        exact Or.inl rfl
      · cases hs
  | leaseDentryTableMkdir c ino =>
      simp only [step] at hs
      split at hs
      · obtain ⟨dir, hdir, rfl⟩ := Option.map_eq_some_iff.mp hs
        exact Or.inr (Or.inl ⟨c, ino, rfl, hdir⟩)
      · cases hs
  | dir b =>
      simp only [step] at hs
      split at hs
      · obtain ⟨dir, hdir, rfl⟩ := Option.map_eq_some_iff.mp hs
        exact Or.inr (Or.inr ⟨b, rfl, ‹_›, hdir⟩)
      · cases hs

/-- Calls are answered by the manager's steps. -/
theorem lease_of_answers {a : Action C} {answer : Answer} (hs : step remote s a = some s')
    (hans : AnswersCall s.dir.lease s'.dir.lease k c ino answer) :
    ∃ b, a = .dir (.lease b) ∧ Lease.step remote s.dir.lease b = some s'.dir.lease := by
  have hsame : s'.dir.lease ≠ s.dir.lease := by
    intro heq
    rw [heq] at hans
    exact not_answersCall (fun _ hk => hk) hans
  have hrequest : ∀ b, Lease.step remote s.dir.lease b = some s'.dir.lease →
      ¬ ((∃ c ino, b = .request c ino) ∨ ∃ k, b = .deliver k) := by
    intro b hl hb
    obtain ⟨d, e, rfl, -⟩ | ⟨rfl, -⟩ := answersCall_cases hl hans
    · obtain ⟨c, ino, hb⟩ | ⟨k, hb⟩ := hb
      · cases hb
      · cases hb
    · obtain ⟨c, ino, hb⟩ | ⟨k, hb⟩ := hb
      · cases hb
      · cases hb
  obtain heq | ⟨c', ino', -, hacq⟩ | ⟨b, rfl, -, hdir⟩ := step_cases hs
  · exact absurd (congrArg State.lease heq) hsame
  · obtain heq | hl := lease_of_acquire hacq
    · exact absurd heq hsame
    · exact absurd (Or.inl ⟨c', ino', rfl⟩) (hrequest _ hl)
  · obtain heq | ⟨b', hl, rfl | hb⟩ := lease_of_step hdir
    · exact absurd heq hsame
    · exact ⟨b', rfl, hl⟩
    · exact absurd hb (hrequest b' hl)

theorem granted_step {a : Action C} (h : Granted remote s.dir) (hled : LedByCreator remote s a)
    (hs : step remote s a = some s') : Granted remote s'.dir := by
  have hans := (hled s' hs).1
  obtain heq | ⟨c, ino, -, hacq⟩ | ⟨b, rfl, hallowed, hdir⟩ := step_cases hs
  · rw [heq]
    exact h
  · exact h.acquire hacq
  generalize s'.dir = t at hdir hans
  cases b with
  | lease b => exact h.lease hdir fun c ino k answer hp ha => (hans c ino k answer hp ha).1
  | getDentryTable c ino fromRemote =>
      have hlook : Granted remote { s.dir with seen := ino :: s.dir.seen } :=
        ⟨h.info, h.waiting, h.answered, h.acquired⟩
      have herase := hlook.setTable c ino none
      obtain ⟨-, ⟨-, rfl⟩ | ⟨-, ⟨-, rfl⟩ | ⟨-, hacq⟩⟩⟩ := getDentryTable_eq hdir
      · exact hlook
      · exact herase
      · exact herase.acquire hacq
  | leaseDentryTableMkdir c ino => exact hallowed.elim
  | deliver c => exact h.deliver hdir
  | fail c =>
      obtain ⟨-, rfl⟩ := fail_eq hdir
      exact h.setIdle c
  | build c =>
      have hidle := h.setIdle c
      obtain ⟨mkdir, ino, granted, addr, -, ⟨-, -, rfl⟩ | rfl⟩ := build_eq hdir
      · exact hidle
      · exact hidle.addDentryTable c _ _
  | buildFail c =>
      obtain ⟨-, rfl⟩ := buildFail_eq hdir
      exact h.setIdle c
  | deleteDentryTable c ino =>
      obtain ⟨-, rfl⟩ := deleteDentryTable_eq hdir
      exact h.setTable c ino none

theorem step_lease_some {b : Lease.Action C} {lease : System C} (hb : ∀ k, b ≠ .deliver k)
    (hr : ∀ c ino, b ≠ .request c ino) (hl : Lease.step remote s.dir.lease b = some lease) :
    step remote s (.dir (.lease b)) = some { s with dir := { s.dir with lease := lease } } := by
  have hdir : DirectoryTable.step remote s.dir (.lease b) =
      some { s.dir with lease := lease } := by
    match b with
    | .request c ino => exact absurd rfl (hr c ino)
    | .deliver k => exact absurd rfl (hb k)
    | .tick d | .lookup k | .cas k d | .insert k => simp only [DirectoryTable.step, hl, Option.map_some]
  have hallowed : s.Allowed (.lease b) := trivial
  simp only [step]
  rw [if_pos hallowed, hdir]
  rfl

/-- One step. -/
theorem ledByCreator_iff (h : Granted remote s.dir) (a : Action C) :
    LedByCreator remote s a ↔ Untaken remote s a := by
  constructor
  · intro hled
    unfold Untaken
    split
    · rename_i k d
      intro c ino e hp hk he
      obtain ⟨lease, hl, hans⟩ := @cas_answers _ remote _ _ _ d _ _ _ hk he
      have hs := step_lease_some (by simp) (by simp) hl
      exact (cas_granted_iff e _ _ _).mp ((hled _ hs).1 c ino k _ hp hans).1
    · rename_i k
      intro c ino e hp hk he
      obtain ⟨lease, hl, hans, -⟩ := @insert_answers _ remote _ _ _ _ _ hk
      have hs := step_lease_some (by simp) (by simp) hl
      exact (insert_granted_iff _ _ _ _).mp ((hled _ hs).1 c ino k _ hp hans).1 e he
    · trivial
  · intro hfree s' hs
    constructor
    · intro c ino k answer hp hans
      obtain ⟨b, rfl, hl⟩ := lease_of_answers hs hans
      have hgranted : answer.granted = true := by
        obtain ⟨d, e, rfl, hk, he, rfl, -⟩ | ⟨rfl, hk, rfl, -⟩ := answersCall_cases hl hans
        · exact (cas_granted_iff e _ _ _).mpr (hfree c ino e hp hk he)
        · exact (insert_granted_iff _ _ _ _).mpr fun e he => hfree c ino e hp hk he
      exact ⟨hgranted, alone_of_granted hl hans hgranted⟩
    · intro c ino granted addr ha hp
      subst ha
      obtain ⟨hgranted, d, ht⟩ := h.acquired c ino granted addr hp
      have hlease : s'.dir.lease = s.dir.lease := by
        obtain heq | ⟨c', ino', hb, -⟩ | ⟨b, hb, -, hdir⟩ := step_cases hs
        · rw [heq]
        · cases hb
        · cases hb
          exact lease_of_build hdir
      rw [hlease]
      exact ⟨hgranted, d, ht, fun hd => alone_of_leader h.info ht hd⟩

/-! ## Runs -/

/-- In every run, each `mkdir` gets the lease of its directory if and only if the manager comes to
    each before anybody else has that lease. -/
theorem led_by_creator_iff (remote : C ↪ Addr) (stored : List Uuid) (acts : List (Action C)) :
    StepsMeet (step remote) (LedByCreator remote) (init C stored) acts ↔
      StepsMeet (step remote) (Untaken remote) (init C stored) acts :=
  stepsMeet_congr (I := fun s => Granted remote s.dir) (F := fun _ _ => True)
    (fun _ a h _ => ledByCreator_iff h a)
    (fun _ a _ h _ hfree hs => granted_step h ((ledByCreator_iff h a).mpr hfree) hs)
    granted_init (StepsMeet.of_forall fun _ _ _ => trivial)

/-- A new directory. -/
def newIno : Uuid := ⟨List.replicate 15 0 ++ [2], rfl⟩

/-- Somebody lists the new directory before its creator has come to the lease. -/
def overtakenRun : List (Action Bool) :=
  [.createChildInode false newIno, .dir (.getDentryTable true newIno false),
    .dir (.lease (.lookup 0)), .dir (.lease (.insert 0)), .dir (.deliver true),
    .dir (.buildFail true), .mkself false newIno, .leaseDentryTableMkdir false newIno,
    .dir (.lease (.lookup 1)), .dir (.lease (.cas 1 0)), .dir (.deliver false),
    .dir (.build false)]

/-- The creator is refused, and the other client, which has the lease, could not make its table. -/
theorem creator_overtaken :
    ∃ s, run (step twoClients) (init Bool []) overtakenRun = some s ∧ s.Visible newIno ∧
      newIno ∉ s.stored ∧ Holds twoClients s.dir.lease true newIno ∧
      ¬ StepsMeet (step twoClients) (LedByCreator twoClients) (init Bool []) overtakenRun := by
  refine ⟨_, rfl, by decide, by decide, ⟨_, rfl, by decide, by decide⟩, fun h => ?_⟩
  obtain ⟨s, hs⟩ : ∃ s, run (step twoClients) (init Bool []) (overtakenRun.take 11) = some s :=
    ⟨_, rfl⟩
  have hsplit : overtakenRun = overtakenRun.take 11 ++ [.dir (.build false)] := rfl
  rw [hsplit] at h
  have hlast := (h.after hs).1
  cases hs
  have hgranted := ((hlast _ rfl).2 false newIno false _ rfl rfl).1
  cases hgranted

end Making

end Nmfs.DirectoryTable
