import Nmfs.InMemory.DirectoryTable
import Nmfs.Lib.Op
import Nmfs.Util.Path

/-
  The guard of the `rpc_server` handlers. Each one gets its table with `get_dentry_table(ino, true)`
  and answers `-ENOTLEADER` when that throws; otherwise it goes on to the table. A handler is given
  here up to its first access to the table. `rpc_readdir` sets its answer and never writes it to the
  stream. The three handlers of a rename split their paths before they look for the table, and
  `rpc_symlink` splits its path after that.

  `get_dentry_table(ino, true)` asks `is_valid` and not `is_mine`, so a table that is cached as
  REMOTE passes too. `serve_leaderOnly_iff`: these are the only three ways the guard fails.
-/

namespace Nmfs.RpcServer

open Lib Lease DirectoryTable

def ENOTLEADER : Int := 8000

/-- What a handler does first with its table. -/
inductive Access where
  | checkChildInode
  | getChildInode
  | getThisDirInode
  | childInodes
  | getChildNum
  deriving DecidableEq, Repr

/-- What the access reaches. -/
inductive Target where
  /-- the directory's own metadata -/
  | own
  /-- a fresh `remote_inode` -/
  | remoteInode (leaderIp : Addr)
  /-- an RPC to the other leader -/
  | rpc (leaderIp : Addr)
  /-- the child map of a table that never pulled its metadata -/
  | emptyMap
  /-- `dentries` of such a table, a null pointer -/
  | nullDentries
  /-- the fall-through `return` of a table that is neither LOCAL nor REMOTE -/
  | nothing
  deriving DecidableEq, Repr

/-- `get_child_inode`, `check_child_inode` and `get_this_dir_inode` look at the location; the two
    wrappers below do not. -/
def Access.target (table : DirectoryTable.DentryTable) : Access → Target
  | .checkChildInode =>
    match table.loc with
    | .LOCAL => .own
    | .REMOTE => .rpc table.leaderIp
    | .UNKNOWN => .nothing
  | .getChildInode =>
    match table.loc with
    | .LOCAL => .own
    | .REMOTE => .remoteInode table.leaderIp
    | .UNKNOWN => .nothing
  | .getThisDirInode =>
    match table.loc with
    | .LOCAL => .own
    | .REMOTE => .remoteInode table.leaderIp
    | .UNKNOWN => .nothing
  | .childInodes => if table.loc = .LOCAL then .own else .emptyMap
  | .getChildNum => if table.loc = .LOCAL then .own else .nullDentries

inductive Outcome where
  | proceeds (table : DirectoryTable.DentryTable) (access : Access)
  | replies (ret : Int)
  /-- the stream ends without a message -/
  | endsStream
  | throws (e : Err)
  deriving DecidableEq, Repr

/-- The fields of the requests that are read before the table is. -/
structure Request where
  ino : Uuid
  targetIsParent : Bool := false
  oldPath : Bytes := []
  newPath : Bytes := []
  dst : Bytes := []
  deriving DecidableEq

variable {C : Type} [DecidableEq C]

/-- `get_dentry_table(ino, true)`: the table, or `none` for the exception `not_leader`. -/
def getDentryTable (s : State C) (c : C) (ino : Uuid) : State C × Option DirectoryTable.DentryTable :=
  let s := { s with seen := ino :: s.seen }
  match cachedTable s c ino with
  | some table => (s, some table)
  | none => (setTable s c ino none, none)

abbrev Serve (C : Type) := State C → C → Request → State C × Outcome

/-- The guard that all handlers share, and what comes before the first access. -/
def guarded (notLeader : Outcome) (access : Request → Except Err Access) : Serve C :=
  fun s c request =>
    match getDentryTable s c request.ino with
    | (s, none) => (s, notLeader)
    | (s, some table) =>
      match access request with
      | .ok access => (s, .proceeds table access)
      | .error e => (s, .throws e)

/-- The paths are split before the guard. -/
def splitting (paths : Request → List Bytes) (serve : Serve C) : Serve C := fun s c request =>
  match (paths request).mapM Path.getFilenameFromPath with
  | .ok _ => serve s c request
  | .error e => (s, .throws e)

def notLeaderReply : Outcome := .replies (-ENOTLEADER)

def thisDirOrChild (request : Request) : Except Err Access :=
  .ok (if request.targetIsParent then .getThisDirInode else .getChildInode)

def rpcCheckChildInode : Serve C := guarded notLeaderReply fun _ => .ok .checkChildInode
def rpcGetMode : Serve C := guarded notLeaderReply fun _ => .ok .getChildInode
def rpcPermissionCheck : Serve C := guarded notLeaderReply thisDirOrChild
def rpcGetattr : Serve C := guarded notLeaderReply thisDirOrChild
def rpcAccess : Serve C := guarded notLeaderReply thisDirOrChild
def rpcOpendir : Serve C := guarded notLeaderReply thisDirOrChild
/-- `response.set_ret(-ENOTLEADER)` is not followed by `writer->Write(response)`. -/
def rpcReaddir : Serve C := guarded .endsStream fun _ => .ok .childInodes
def rpcMkdir : Serve C := guarded notLeaderReply fun _ => .ok .getThisDirInode
def rpcRmdirTop : Serve C := guarded notLeaderReply fun _ => .ok .getChildNum
def rpcRmdirDown : Serve C := guarded notLeaderReply fun _ => .ok .getThisDirInode
def rpcSymlink : Serve C := guarded notLeaderReply fun request =>
  (Path.getFilenameFromPath request.dst).map fun _ => .checkChildInode
def rpcReadlink : Serve C := guarded notLeaderReply fun _ => .ok .getChildInode
def rpcRenameSameParent : Serve C :=
  splitting (fun request => [request.oldPath, request.newPath])
    (guarded notLeaderReply fun _ => .ok .getChildInode)
def rpcRenameNotSameParentSrc : Serve C :=
  splitting (fun request => [request.oldPath]) (guarded notLeaderReply fun _ => .ok .getChildInode)
def rpcRenameNotSameParentDst : Serve C :=
  splitting (fun request => [request.newPath]) (guarded notLeaderReply fun _ => .ok .getThisDirInode)
def rpcOpen : Serve C := guarded notLeaderReply fun _ => .ok .getChildInode
def rpcCreate : Serve C := guarded notLeaderReply fun _ => .ok .getThisDirInode
def rpcUnlink : Serve C := guarded notLeaderReply fun _ => .ok .getThisDirInode
def rpcWrite : Serve C := guarded notLeaderReply fun _ => .ok .getChildInode
def rpcChmod : Serve C := guarded notLeaderReply thisDirOrChild
def rpcChown : Serve C := guarded notLeaderReply thisDirOrChild
def rpcUtimens : Serve C := guarded notLeaderReply thisDirOrChild
def rpcTruncate : Serve C := guarded notLeaderReply thisDirOrChild

inductive Handler where
  | checkChildInode | getMode | permissionCheck | getattr | access | opendir | readdir | mkdir
  | rmdirTop | rmdirDown | symlink | readlink | renameSameParent | renameNotSameParentSrc
  | renameNotSameParentDst | open | create | unlink | write | chmod | chown | utimens | truncate
  deriving DecidableEq, Repr

def Handler.serve : Handler → Serve C
  | .checkChildInode => rpcCheckChildInode
  | .getMode => rpcGetMode
  | .permissionCheck => rpcPermissionCheck
  | .getattr => rpcGetattr
  | .access => rpcAccess
  | .opendir => rpcOpendir
  | .readdir => rpcReaddir
  | .mkdir => rpcMkdir
  | .rmdirTop => rpcRmdirTop
  | .rmdirDown => rpcRmdirDown
  | .symlink => rpcSymlink
  | .readlink => rpcReadlink
  | .renameSameParent => rpcRenameSameParent
  | .renameNotSameParentSrc => rpcRenameNotSameParentSrc
  | .renameNotSameParentDst => rpcRenameNotSameParentDst
  | .open => rpcOpen
  | .create => rpcCreate
  | .unlink => rpcUnlink
  | .write => rpcWrite
  | .chmod => rpcChmod
  | .chown => rpcChown
  | .utimens => rpcUtimens
  | .truncate => rpcTruncate

/-- What is split before the guard. -/
def Handler.paths : Handler → Request → List Bytes
  | .renameSameParent, request => [request.oldPath, request.newPath]
  | .renameNotSameParentSrc, request => [request.oldPath]
  | .renameNotSameParentDst, request => [request.newPath]
  | _, _ => []

/-! ## What the guard does -/

variable {remote : C ↪ Addr} {s : State C} {c : C} {ino : Uuid}

omit [DecidableEq C] in
theorem isValid_of_isMine (h : isMine s.lease c ino = true) : isValid s c ino = true := by
  obtain ⟨d, ht, hd⟩ := isMine_iff.mp h
  unfold isValid LeaseTableClient.isValid
  rw [ht]
  simpa using hd

/-- All handlers are the shared guard, with `rpc_readdir`'s own end, behind what they split. -/
theorem serve_eq (h : Handler) : ∃ access, (h.serve : Serve C) =
    splitting h.paths (guarded (if h = .readdir then .endsStream else notLeaderReply) access) := by
  cases h <;> exact ⟨_, rfl⟩

omit [DecidableEq C] in
theorem splitting_ok {paths : Request → List Bytes} {serve : Serve C} {request : Request}
    (h : ∀ path ∈ paths request, Path.delimiter ∈ path) :
    splitting paths serve s c request = serve s c request := by
  have hsplit : ∀ l : List Bytes, (∀ path ∈ l, Path.delimiter ∈ path) →
      ∃ names, l.mapM Path.getFilenameFromPath = .ok names := by
    intro l
    induction l with
    | nil => exact fun _ => ⟨[], rfl⟩
    | cons path l ih =>
        intro hl
        obtain ⟨name, hname⟩ := Path.getFilenameFromPath_ok_iff.mpr (hl path List.mem_cons_self)
        obtain ⟨names, hnames⟩ := ih fun path hp => hl path (List.mem_cons_of_mem _ hp)
        refine ⟨name :: names, ?_⟩
        rw [List.mapM_cons, hname, hnames]
        rfl
  obtain ⟨names, hnames⟩ := hsplit _ h
  unfold splitting
  rw [hnames]

omit [DecidableEq C] in
theorem splitting_throws {paths : Request → List Bytes} {serve : Serve C} {request : Request}
    (h : ¬ ∀ path ∈ paths request, Path.delimiter ∈ path) :
    ∃ e, splitting paths serve s c request = (s, .throws e) := by
  have hsplit : ∀ l : List Bytes, ∀ names, l.mapM Path.getFilenameFromPath = .ok names →
      ∀ path ∈ l, Path.delimiter ∈ path := by
    intro l
    induction l with
    | nil => exact fun _ _ _ hp => nomatch hp
    | cons path l ih =>
        intro names hnames
        rw [List.mapM_cons] at hnames
        obtain ⟨name, hname, hrest⟩ := bind_eq_ok.mp hnames
        obtain ⟨rest, hl, -⟩ := bind_eq_ok.mp hrest
        exact List.forall_mem_cons.mpr ⟨Path.getFilenameFromPath_ok_iff.mp ⟨name, hname⟩, ih rest hl⟩
  unfold splitting
  cases hnames : (paths request).mapM Path.getFilenameFromPath with
  | ok names => exact absurd (hsplit _ names hnames) h
  | error e => exact ⟨e, rfl⟩

/-- The client has the table of the directory as LOCAL, and its own lease of it is valid. -/
def Leads (s : State C) (c : C) (ino : Uuid) : Prop :=
  (∃ table, s.tables c ino = some table ∧ table.loc = .LOCAL) ∧ isMine s.lease c ino = true

/-- Nothing but the index of the directory tables differs, and there only an expired table of this
    directory is dropped. -/
def Unchanged (s s' : State C) (c : C) (ino : Uuid) : Prop :=
  s'.lease = s.lease ∧ s'.phase = s.phase ∧
    ∀ c' ino', s'.tables c' ino' = s.tables c' ino' ∨
      (c' = c ∧ ino' = ino ∧ isValid s c ino = false)

/-- A handler goes on only as the leader, and otherwise answers `-ENOTLEADER` and changes
    nothing. -/
def LeaderOnly (s : State C) (c : C) (ino : Uuid) (result : State C × Outcome) : Prop :=
  (∀ table access, result.2 = .proceeds table access → table.loc = .LOCAL ∧ Leads s c ino) ∧
    (¬ Leads s c ino → result.2 = .replies (-ENOTLEADER) ∧ Unchanged s result.1 c ino)

omit [DecidableEq C] in
/-- In a reachable state, leading a directory is having its table cached as LOCAL. -/
theorem leads_iff (c : C) (ino : Uuid) (hi : Inv remote s) :
    Leads s c ino ↔ ∃ table, cachedTable s c ino = some table ∧ table.loc = .LOCAL := by
  constructor
  · rintro ⟨⟨table, ht, hloc⟩, hmine⟩
    refine ⟨table, ?_, hloc⟩
    simp only [cachedTable, ht, isValid_of_isMine hmine, if_true]
  · rintro ⟨table, hc, hloc⟩
    obtain ⟨ht, hv⟩ := cachedTable_eq_some hc
    refine ⟨⟨table, ht, hloc⟩, isMine_iff.mpr ?_⟩
    obtain ⟨d, hd, -⟩ := hi.cached c ino table ht hloc
    refine ⟨d, hd, ?_⟩
    unfold isValid LeaseTableClient.isValid at hv
    rw [hd] at hv
    simpa using hv

/-- A handler that finds a table goes on with it, or throws. -/
theorem serve_of_cached (h : Handler) (request : Request) {table : DirectoryTable.DentryTable}
    (hc : cachedTable s c request.ino = some table) :
    (∃ access, (h.serve s c request).2 = .proceeds table access) ∨
      ∃ e, (h.serve s c request).2 = .throws e := by
  have hseen : cachedTable { s with seen := request.ino :: s.seen } c request.ino = some table := hc
  obtain ⟨access, he⟩ := serve_eq (C := C) h
  rw [he]
  by_cases hpaths : ∀ path ∈ h.paths request, Path.delimiter ∈ path
  · rw [splitting_ok hpaths]
    simp only [guarded, getDentryTable, hseen]
    cases access request with
    | ok access => exact .inl ⟨access, rfl⟩
    | error e => exact .inr ⟨e, rfl⟩
  · obtain ⟨e, hthrows⟩ := splitting_throws (c := c) (s := s) hpaths
    rw [hthrows]
    exact .inr ⟨e, rfl⟩

theorem serve_of_not_cached (h : Handler) (request : Request)
    (hpaths : ∀ path ∈ h.paths request, Path.delimiter ∈ path)
    (hc : cachedTable s c request.ino = none) :
    h.serve s c request =
      (setTable { s with seen := request.ino :: s.seen } c request.ino none,
        if h = .readdir then .endsStream else notLeaderReply) := by
  have hseen : cachedTable { s with seen := request.ino :: s.seen } c request.ino = none := hc
  obtain ⟨access, he⟩ := serve_eq (C := C) h
  rw [he, splitting_ok hpaths]
  simp only [guarded, getDentryTable, hseen]

theorem serve_throws (h : Handler) (request : Request)
    (hpaths : ¬ ∀ path ∈ h.paths request, Path.delimiter ∈ path) :
    ∃ e, h.serve s c request = (s, .throws e) := by
  obtain ⟨access, he⟩ := serve_eq (C := C) h
  rw [he]
  exact splitting_throws hpaths

/-- Dropping a table that is not returned drops nothing or an expired table. -/
theorem unchanged_of_not_cached (hc : cachedTable s c ino = none) :
    Unchanged s (setTable { s with seen := ino :: s.seen } c ino none) c ino := by
  refine ⟨rfl, rfl, fun c' ino' => ?_⟩
  rw [tables_setTable]
  split
  · rename_i hsame
    obtain ⟨rfl, rfl⟩ := hsame
    cases ht : s.tables c' ino' with
    | none => exact Or.inl rfl
    | some table =>
        refine Or.inr ⟨rfl, rfl, ?_⟩
        simp only [cachedTable, ht] at hc
        split at hc
        · cases hc
        · exact Bool.eq_false_iff.mpr ‹_›
  · exact Or.inl rfl

/-- In every reachable state every handler acts only as the leader, exactly if the table cached with
    a valid lease, where there is one, is LOCAL, `rpc_readdir` finds one, and where none is found the
    paths that are split before can be split. -/
theorem serve_leaderOnly_iff (remote : C ↪ Addr) (acts : List (DirectoryTable.Action C))
    (s : State C) (hrun : run (DirectoryTable.step remote) (State.init C) acts = some s)
    (c : C) (h : Handler) (request : Request) :
    LeaderOnly s c request.ino (h.serve s c request) ↔
      (∀ table, cachedTable s c request.ino = some table → table.loc = .LOCAL) ∧
      (h = .readdir → (cachedTable s c request.ino).isSome = true) ∧
      (cachedTable s c request.ino = none → ∀ path ∈ h.paths request, Path.delimiter ∈ path) := by
  have hleads := leads_iff c request.ino (inv_run hrun)
  cases hc : cachedTable s c request.ino with
  | some table =>
      have hserve := serve_of_cached h request hc
      constructor
      · intro honly
        refine ⟨fun table' heq => ?_, fun _ => rfl, fun hnone => nomatch hnone⟩
        cases heq
        by_contra hloc
        have hnl : ¬ Leads s c request.ino := by
          rw [hleads, hc]
          rintro ⟨table', heq, hlocal⟩
          cases heq
          exact hloc hlocal
        have hans := (honly.2 hnl).1
        rcases hserve with ⟨access, hgo⟩ | ⟨e, hthrows⟩
        · exact nomatch hgo.symm.trans hans
        · exact nomatch hthrows.symm.trans hans
      · rintro ⟨hloc, -, -⟩
        have hl : Leads s c request.ino := hleads.mpr ⟨table, hc, hloc table rfl⟩
        refine ⟨fun table' access' hgo' => ?_, fun hn => absurd hl hn⟩
        rcases hserve with ⟨access, hgo⟩ | ⟨e, hthrows⟩
        · cases hgo.symm.trans hgo'
          exact ⟨hloc table rfl, hl⟩
        · exact nomatch hthrows.symm.trans hgo'
  | none =>
      have hnl : ¬ Leads s c request.ino := by
        rw [hleads, hc]
        rintro ⟨table, heq, -⟩
        cases heq
      by_cases hpaths : ∀ path ∈ h.paths request, Path.delimiter ∈ path
      · rw [serve_of_not_cached h request hpaths hc]
        constructor
        · rintro ⟨-, hans⟩
          refine ⟨nofun, fun hread => ?_, fun _ => hpaths⟩
          have hreply := (hans hnl).1
          rw [if_pos hread] at hreply
          cases hreply
        · rintro ⟨-, hread, -⟩
          have hne : h ≠ .readdir := fun heq => nomatch hread heq
          rw [if_neg hne]
          exact ⟨nofun, fun _ => ⟨rfl, unchanged_of_not_cached hc⟩⟩
      · obtain ⟨e, hthrows⟩ := serve_throws (c := c) (s := s) h request hpaths
        rw [hthrows]
        exact iff_of_false (fun honly => nomatch (honly.2 hnl).1) fun hall => hpaths (hall.2.2 rfl)

/-- A client that has been refused the lease serves `rpc_unlink` from its REMOTE table. -/
theorem remote_table_is_served :
    ∃ s table access, run (DirectoryTable.step twoClients) (State.init Bool) hitRun = some s ∧
      (rpcUnlink s true { ino := Uuid.rootIno }).2 = .proceeds table access ∧
      table.loc = .REMOTE ∧ isMine s.lease true Uuid.rootIno = false ∧
      ¬ LeaderOnly s true Uuid.rootIno (rpcUnlink s true { ino := Uuid.rootIno }) := by
  refine ⟨_, _, _, rfl, rfl, rfl, by decide, ?_⟩
  rintro ⟨hgo, -⟩
  cases (hgo _ _ rfl).1

/-- The leader itself serves the request. -/
theorem serve_leaderOnly_iff_leader :
    ∃ s, run (DirectoryTable.step twoClients) (State.init Bool) hitRun = some s ∧
      LeaderOnly s false Uuid.rootIno (rpcUnlink s false { ino := Uuid.rootIno }) := by
  refine ⟨_, rfl, (serve_leaderOnly_iff twoClients hitRun _ rfl false .unlink
    { ino := Uuid.rootIno }).mpr ⟨fun table ht => ?_, nofun, nofun⟩⟩
  cases ht
  rfl

/-- A rename that nobody can be asked for runs out of its string. -/
example : (rpcRenameSameParent (State.init Bool) true
    { ino := Uuid.rootIno, oldPath := [97], newPath := [98] }).2 = .throws .undefined := rfl

end Nmfs.RpcServer
