import Nmfs.Rpc.RpcServer
import Nmfs.InMemory.DentryTable

/-
  `readdir` of a directory that another client leads: the stream that `rpc_readdir` writes, the loop
  of `rpc_client::readdir` that reads it, and the loop of `fuse_ops::readdir` around the calls.

  The children are what the directory has at its leader, under names that are valid UTF-8 and so can
  be sent. A table that is not LOCAL never pulled them, and goes over an empty map.
-/

namespace Nmfs

open Lib

structure NameRespond where
  filename : Bytes
  ret : Int
  deriving DecidableEq

namespace RpcServer

open DirectoryTable

variable {C : Type} [DecidableEq C]

/-- `std::map` goes over the names in their order. -/
def childNames (childInodes : AList (fun _ : Bytes => MemInode)) : List Bytes :=
  childInodes.keys.mergeSort fun a b => decide (a ≤ b)

def childInodesOf (table : DirectoryTable.DentryTable)
    (children : AList (fun _ : Bytes => MemInode)) : AList (fun _ : Bytes => MemInode) :=
  if table.loc = .LOCAL then children else ∅

/-- The messages of the stream. There is one `response`, whose `ret` stays 0: where it is set to
    `-ENOTLEADER`, it is not written. -/
def readdirStream (s : State C) (c : C) (ino : Uuid)
    (children : AList (fun _ : Bytes => MemInode)) : State C × List NameRespond :=
  match getDentryTable s c ino with
  | (s, none) => (s, [])
  | (s, some table) =>
    (s, ([46] :: [46, 46] :: childNames (childInodesOf table children)).map fun name => ⟨name, 0⟩)

end RpcServer

namespace RpcClient

def ENEEDRECOV : Int := 8001

/-- The loop over the stream: the last message read, and the names passed to the filler. -/
def readLoop : List NameRespond → NameRespond → List Bytes → NameRespond × List Bytes
  | [], output, filled => (output, filled)
  | message :: rest, _, filled =>
    if message.ret = 0 then readLoop rest message (filled ++ [Dentry.cString message.filename])
    else (message, filled)

def readdir (stream : List NameRespond) : Int × List Bytes :=
  let (output, filled) := readLoop stream ⟨[], 0⟩ []
  if output.ret = -RpcServer.ENOTLEADER then (-RpcServer.ENOTLEADER, filled)
  else (output.ret, filled)

end RpcClient

namespace FuseOps

/-- The loop around the calls; `none` where the streams come to an end before the loop does. -/
def readdir : List (List NameRespond) → List Bytes → Option (Except Err Int × List Bytes)
  | [], _ => none
  | stream :: streams, filled =>
    let (ret, names) := RpcClient.readdir stream
    if ret = -RpcServer.ENOTLEADER then readdir streams (filled ++ names)
    else if ret = -RpcClient.ENEEDRECOV then
      some (.error (.runtimeError "Need Recovery of remote dentry_table"), filled ++ names)
    else some (.ok ret, filled ++ names)

end FuseOps

namespace Readdir

open DirectoryTable Lease

/-- `.`, `..` and every child, each once. -/
def Complete (children : AList (fun _ : Bytes => MemInode)) (filled : List Bytes) : Prop :=
  filled.Perm ([46] :: [46, 46] :: children.keys)

/-- A call passes everything and gives 0, or passes nothing and gives `-ENOTLEADER`. -/
def CompleteOrRetried (children : AList (fun _ : Bytes => MemInode))
    (result : Int × List Bytes) : Prop :=
  (result.1 = 0 ∧ Complete children result.2) ∨
    (result.1 = -RpcServer.ENOTLEADER ∧ result.2 = [])

variable {C : Type} [DecidableEq C]

/-- A call of the loop: who is contacted, and what the directory has then. -/
structure Attempt (C : Type) where
  state : State C
  server : C
  children : AList (fun _ : Bytes => MemInode)

def Attempt.stream (a : Attempt C) (ino : Uuid) : List NameRespond :=
  (RpcServer.readdirStream a.state a.server ino a.children).2

/-- The server has the directory with a valid lease, as LOCAL where there is anything to list. -/
def Attempt.Lists (a : Attempt C) (ino : Uuid) : Prop :=
  ∃ table, cachedTable a.state a.server ino = some table ∧
    (table.loc = .LOCAL ∨ a.children.keys = [])

/-- Names are C strings. -/
def Named (children : AList (fun _ : Bytes => MemInode)) : Prop :=
  ∀ name ∈ children.keys, 0 ∉ name

/-! ## The stream -/

theorem readLoop_names (names : List Bytes) (output : NameRespond) (filled : List Bytes)
    (h : output.ret = 0) :
    (RpcClient.readLoop (names.map fun name => ⟨name, 0⟩) output filled).1.ret = 0 ∧
      (RpcClient.readLoop (names.map fun name => ⟨name, 0⟩) output filled).2 =
        filled ++ names.map Dentry.cString := by
  induction names generalizing output filled with
  | nil => exact ⟨h, (List.append_nil _).symm⟩
  | cons name names ih =>
      obtain ⟨hret, hfilled⟩ := ih ⟨name, 0⟩ (filled ++ [Dentry.cString name]) rfl
      rw [List.map_cons, RpcClient.readLoop, if_pos rfl]
      refine ⟨hret, hfilled.trans ?_⟩
      rw [List.map_cons, List.append_assoc]
      rfl

/-- What comes without a code is passed to the filler. -/
theorem readdir_names (names : List Bytes) :
    RpcClient.readdir (names.map fun name => ⟨name, 0⟩) = (0, names.map Dentry.cString) := by
  obtain ⟨hret, hfilled⟩ := readLoop_names names ⟨[], 0⟩ [] rfl
  unfold RpcClient.readdir
  dsimp only
  rw [hret, if_neg (by decide), hfilled, List.nil_append]

theorem cString_eq_self {name : Bytes} (h : 0 ∉ name) : Dentry.cString name = name := by
  unfold Dentry.cString
  apply List.takeWhile_eq_self_iff.mpr
  intro b hb
  have hne : b ≠ 0 := fun h0 => h (h0 ▸ hb)
  simpa using hne

theorem childNames_perm (children : AList (fun _ : Bytes => MemInode)) :
    (RpcServer.childNames children).Perm children.keys :=
  List.mergeSort_perm _ _

theorem childNames_empty : RpcServer.childNames ∅ = [] :=
  List.perm_nil.mp (childNames_perm ∅)

/-- `.`, `..` and the children are not changed by `c_str`. -/
theorem map_cString {children : AList (fun _ : Bytes => MemInode)} (h : Named children) :
    ([46] :: [46, 46] :: RpcServer.childNames children).map Dentry.cString =
      [46] :: [46, 46] :: RpcServer.childNames children := by
  have hall : ∀ name ∈ [46] :: [46, 46] :: RpcServer.childNames children, (0 : UInt8) ∉ name := by
    simp only [List.forall_mem_cons]
    refine ⟨by decide, by decide, fun name hname => ?_⟩
    exact h name ((childNames_perm children).mem_iff.mp hname)
  exact List.map_congr_left (fun name hname => cString_eq_self (hall name hname)) |>.trans
    (List.map_id _)

/-! ## A call -/

variable {a : Attempt C} {ino : Uuid}

theorem stream_not_cached (h : cachedTable a.state a.server ino = none) : a.stream ino = [] := by
  have hseen : cachedTable { a.state with seen := ino :: a.state.seen } a.server ino = none := h
  simp only [Attempt.stream, RpcServer.readdirStream, RpcServer.getDentryTable, hseen]

theorem stream_cached {table : DirectoryTable.DentryTable}
    (h : cachedTable a.state a.server ino = some table) :
    a.stream ino = ([46] :: [46, 46] ::
      RpcServer.childNames (RpcServer.childInodesOf table a.children)).map fun name => ⟨name, 0⟩ := by
  have hseen : cachedTable { a.state with seen := ino :: a.state.seen } a.server ino =
      some table := h
  simp only [Attempt.stream, RpcServer.readdirStream, RpcServer.getDentryTable, hseen]

/-- Without the table the stream is empty, and an empty stream is a success. -/
theorem readdir_not_cached (h : cachedTable a.state a.server ino = none) :
    RpcClient.readdir (a.stream ino) = (0, []) := by
  rw [stream_not_cached h]
  exact readdir_names []

theorem readdir_cached {table : DirectoryTable.DentryTable}
    (h : cachedTable a.state a.server ino = some table) (hnames : Named a.children) :
    RpcClient.readdir (a.stream ino) = (0, [46] :: [46, 46] ::
      RpcServer.childNames (RpcServer.childInodesOf table a.children)) := by
  have hnamed : Named (RpcServer.childInodesOf table a.children) := by
    unfold RpcServer.childInodesOf
    split
    · exact hnames
    · exact fun name hname => nomatch hname
  rw [stream_cached h, readdir_names, map_cString hnamed]

theorem not_complete_nil (children : AList (fun _ : Bytes => MemInode)) :
    ¬ Complete children [] := by
  intro h
  exact nomatch h.length_eq

/-- The names are those of the directory where the table is LOCAL, and there are none elsewhere. -/
theorem complete_childNames_iff (table : DirectoryTable.DentryTable)
    (children : AList (fun _ : Bytes => MemInode)) :
    Complete children
        ([46] :: [46, 46] :: RpcServer.childNames (RpcServer.childInodesOf table children)) ↔
      table.loc = .LOCAL ∨ children.keys = [] := by
  unfold Complete RpcServer.childInodesOf
  rw [List.perm_cons, List.perm_cons]
  by_cases hloc : table.loc = .LOCAL
  · rw [if_pos hloc]
    exact iff_of_true (childNames_perm children) (.inl hloc)
  · rw [if_neg hloc, or_iff_right hloc, childNames_empty]
    exact List.nil_perm

/-- Every call succeeds, whatever it has passed. -/
theorem readdir_ret (hnames : Named a.children) : (RpcClient.readdir (a.stream ino)).1 = 0 := by
  cases h : cachedTable a.state a.server ino with
  | none => rw [readdir_not_cached h]
  | some table => rw [readdir_cached h hnames]

theorem complete_iff (hnames : Named a.children) :
    Complete a.children (RpcClient.readdir (a.stream ino)).2 ↔ a.Lists ino := by
  unfold Attempt.Lists
  cases h : cachedTable a.state a.server ino with
  | none =>
      rw [readdir_not_cached h]
      exact iff_of_false (not_complete_nil a.children) fun ⟨_, heq, _⟩ => nomatch heq
  | some table =>
      rw [readdir_cached h hnames, complete_childNames_iff]
      exact ⟨fun hl => ⟨table, rfl, hl⟩, fun ⟨_, heq, hl⟩ => Option.some.inj heq ▸ hl⟩

theorem completeOrRetried_iff (hnames : Named a.children) :
    CompleteOrRetried a.children (RpcClient.readdir (a.stream ino)) ↔ a.Lists ino := by
  unfold CompleteOrRetried
  rw [readdir_ret hnames, complete_iff hnames, and_iff_right rfl, or_iff_left]
  exact fun h => nomatch h.1

/-- So the first call ends the loop. -/
theorem fuse_readdir (hnames : Named a.children) (as : List (Attempt C)) :
    FuseOps.readdir ((a :: as).map fun b => b.stream ino) [] =
      some (.ok 0, (RpcClient.readdir (a.stream ino)).2) := by
  rw [List.map_cons, FuseOps.readdir]
  dsimp only
  rw [readdir_ret hnames, if_neg (by decide), if_neg (by decide), List.nil_append]

/-- A call is complete or retried, and a success of `fuse_ops::readdir` complete, exactly if the first
    server contacted can list the directory. -/
theorem readdir_complete_iff (ino : Uuid) (a : Attempt C) (as : List (Attempt C))
    (hnames : Named a.children) :
    (CompleteOrRetried a.children (RpcClient.readdir (a.stream ino)) ↔ a.Lists ino) ∧
      ((∀ filled, FuseOps.readdir ((a :: as).map fun b => b.stream ino) [] = some (.ok 0, filled) →
        Complete a.children filled) ↔ a.Lists ino) := by
  refine ⟨completeOrRetried_iff hnames, ?_⟩
  rw [fuse_readdir hnames, ← complete_iff hnames]
  constructor
  · exact fun h => h _ rfl
  · intro h filled heq
    cases heq
    exact h

/-- Whoever does not have the table answers as if the directory did not even have `.`. -/
theorem fuse_readdir_not_cached (h : cachedTable a.state a.server ino = none)
    (hnames : Named a.children) :
    FuseOps.readdir [a.stream ino] [] = some (.ok 0, []) := by
  have hf : FuseOps.readdir [a.stream ino] [] =
      some (.ok 0, (RpcClient.readdir (a.stream ino)).2) := fuse_readdir hnames []
  rw [readdir_not_cached h] at hf
  exact hf

/-- Whoever has been refused the lease answers as if the directory were empty. -/
theorem fuse_readdir_remote {table : DirectoryTable.DentryTable}
    (h : cachedTable a.state a.server ino = some table) (hloc : table.loc = .REMOTE)
    (hnames : Named a.children) :
    FuseOps.readdir [a.stream ino] [] = some (.ok 0, [[46], [46, 46]]) := by
  have hf : FuseOps.readdir [a.stream ino] [] =
      some (.ok 0, (RpcClient.readdir (a.stream ino)).2) := fuse_readdir hnames []
  have hempty : RpcServer.childInodesOf table a.children = ∅ := by
    unfold RpcServer.childInodesOf
    rw [hloc]
    exact if_neg (by decide)
  rw [readdir_cached h hnames, hempty, childNames_empty] at hf
  exact hf

/-- A file. -/
def oneChild : AList (fun _ : Bytes => MemInode) :=
  (∅ : AList (fun _ : Bytes => MemInode)).insert [97]
    ⟨⟨⟨0x81A4, 0, 0, Uuid.nil, 1, 0, ⟨0, 0⟩, ⟨0, 0⟩, ⟨0, 0⟩, 0⟩, none⟩, Uuid.rootIno⟩

theorem named_oneChild : Named oneChild := by
  unfold Named
  decide

/-- The leader of a directory, and a client that has been refused the lease. -/
theorem leader_and_refused : ∃ s t t',
    Lib.run (DirectoryTable.step twoClients) (State.init Bool) hitRun = some s ∧
    cachedTable s false Uuid.rootIno = some t ∧ t.loc = .LOCAL ∧
    cachedTable s true Uuid.rootIno = some t' ∧ t'.loc = .REMOTE :=
  ⟨_, _, _, rfl, rfl, rfl, rfl, rfl⟩

/-- The leader of the directory is contacted. -/
theorem readdir_complete_iff_leader : ∃ s,
    Lib.run (DirectoryTable.step twoClients) (State.init Bool) hitRun = some s ∧
      CompleteOrRetried oneChild
        (RpcClient.readdir (Attempt.stream ⟨s, false, oneChild⟩ Uuid.rootIno)) := by
  obtain ⟨s, t, -, hr, ht, hloc, -⟩ := leader_and_refused
  refine ⟨s, hr, ?_⟩
  exact (readdir_complete_iff Uuid.rootIno ⟨s, false, oneChild⟩ [] named_oneChild).1.mpr
    ⟨t, ht, .inl hloc⟩

/-- The listing of a directory with one file, from a server that does not lead it. -/
theorem readdir_reports_incomplete : ∃ s,
    Lib.run (DirectoryTable.step twoClients) (State.init Bool) hitRun = some s ∧
      FuseOps.readdir [Attempt.stream ⟨State.init Bool, true, oneChild⟩ Uuid.rootIno] [] =
        some (.ok 0, []) ∧
      FuseOps.readdir [Attempt.stream ⟨s, true, oneChild⟩ Uuid.rootIno] [] =
        some (.ok 0, [[46], [46, 46]]) ∧
      ¬ CompleteOrRetried oneChild
        (RpcClient.readdir (Attempt.stream ⟨State.init Bool, true, oneChild⟩ Uuid.rootIno)) ∧
      ¬ CompleteOrRetried oneChild
        (RpcClient.readdir (Attempt.stream ⟨s, true, oneChild⟩ Uuid.rootIno)) := by
  obtain ⟨s, -, t, hr, -, -, ht, hloc⟩ := leader_and_refused
  refine ⟨s, hr, fuse_readdir_not_cached rfl named_oneChild,
    fuse_readdir_remote ht hloc named_oneChild, ?_, ?_⟩
  · intro h
    obtain ⟨_, hnone, -⟩ := (completeOrRetried_iff (a := ⟨_, _, _⟩) named_oneChild).mp h
    cases hnone
  · intro h
    obtain ⟨t', ht', hl⟩ := (completeOrRetried_iff (a := ⟨_, _, _⟩) named_oneChild).mp h
    rw [show cachedTable s true Uuid.rootIno = some t from ht] at ht'
    cases ht'
    rw [hloc] at hl
    exact hl.elim (fun h => nomatch h) (fun h => nomatch h)

end Readdir

end Nmfs
