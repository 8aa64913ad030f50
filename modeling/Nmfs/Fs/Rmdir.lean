import Nmfs.Fs.Creation

/-
  An rmdir that runs against creations in the directory. A request first gets the directory's table
  from `directory_table` and takes its mutex later; until then the table may have been deleted, or
  built anew, and the request still has the old one. As long as its message is on the way, a request
  has not got a table yet.
-/

namespace Nmfs

open Lib

namespace Rmdir

open DirectoryOps Creation

variable {C : Type} [DecidableEq C]

/-- A `dentry_table` and the client in whose memory it is. -/
structure Object (C : Type) where
  owner : C
  table : DentryTable

/-- How far the rmdir is; `emptied` is after `rmdir_top`, which found no child. -/
inductive Phase where
  | idle
  | holds (o : Nat)
  | emptied
  | ended (result : Except Err Int)

structure State (C : Type) where
  /-- the tables of the directory, old ones too -/
  objects : List (Object C)
  /-- the one that a client's `directory_table` has -/
  cached : C → Option Nat
  jtables : C → JournalTable
  dataPool : Pool
  parent : Object C
  /-- the table that a creation has got -/
  held : Nat → Option Nat
  rmdir : Phase
  /-- the creations until the rmdir ended: in which table, and with what result -/
  served : List (Nat × Except Err Reply)

inductive Action (C : Type) where
  /-- the entry of `directory_table` is erased: the lease is not valid any more -/
  | expire (c : C)
  /-- `lease_dentry_table`, with what the meta pool is by then -/
  | lease (c : C) (pool : Pool)
  /-- the commit thread takes the transaction of a directory -/
  | commit (c : C) (d : Uuid)
  | lookup (i : Nat) (c : C)
  | create (i : Nat) (r : Request)
  | topLookup (c : C)
  | top (rpc : Bool)
  | down (rpc : Bool) (ts : Timespec)

def Phase.Ended : Phase → Prop
  | ended _ => True
  | _ => False

instance : DecidablePred Phase.Ended
  | .ended _ => .isTrue trivial
  | .idle | .holds _ | .emptied => .isFalse id

/-- A section under the mutex of a table, with the journal of the client that has it. -/
def State.perform (s : State C) (x : Object C) (m : Section Reply) : Except Err Reply × Led :=
  m ⟨x.table, s.jtables x.owner, s.dataPool⟩

/-- The state with what a section leaves of the client's journal and the data pool. -/
def State.after (s : State C) (x : Object C) (led : Led) : State C :=
  { s with jtables := Function.update s.jtables x.owner led.jtable, dataPool := led.dataPool }

def topSection (dir : Uuid) (rpc : Bool) : Section Reply :=
  if rpc then RpcServer.rmdirTopHandler dir else LocalOps.localRmdirTop dir

def downSection (dir : Uuid) (targetName : Bytes) (rpc : Bool) (ts : Timespec) : Section Reply :=
  if rpc then RpcServer.rmdirDownHandler ts dir targetName
  else LocalOps.localRmdirDown ts dir targetName

/-- `dir` is removed, whose name in its parent is `targetName`. -/
def step (dir : Uuid) (targetName : Bytes) (s : State C) : Action C → Option (State C)
  | .expire c => some { s with cached := Function.update s.cached c none }
  | .lease c pool =>
    match DentryTable.pull pool dir with
    | .error _ => none
    | .ok table => some { s with
        objects := s.objects ++ [⟨c, table⟩]
        cached := Function.update s.cached c (some s.objects.length) }
  | .commit c d => some { s with
      jtables := Function.update s.jtables c ((s.jtables c).erase d) }
  | .lookup i c =>
    (s.cached c).map fun o => { s with held := Function.update s.held i (some o) }
  | .create i r =>
    if r.newIno.isNone then none
    else
      (s.held i).bind fun o => (s.objects[o]?).map fun x =>
        let (result, led) := s.perform x r.serve
        { s.after x led with
          objects := s.objects.set o ⟨x.owner, led.table⟩
          held := Function.update s.held i none
          served := if s.rmdir.Ended then s.served else s.served ++ [(o, result)] }
  | .topLookup c =>
    match s.rmdir with
    | .idle => (s.cached c).map fun o => { s with rmdir := .holds o }
    | _ => none
  | .top rpc =>
    match s.rmdir with
    | .holds o => (s.objects[o]?).map fun x =>
      let (result, led) := s.perform x (topSection dir rpc)
      match result with
      | .error e => { s.after x led with rmdir := .ended (.error e) }
      | .ok reply =>
        if reply.ret = 0 then
          { s.after x led with cached := Function.update s.cached x.owner none, rmdir := .emptied }
        else { s.after x led with rmdir := .ended (.ok reply.ret) }
    | _ => none
  | .down rpc ts =>
    match s.rmdir with
    | .emptied =>
      let (result, led) := s.perform s.parent (downSection dir targetName rpc ts)
      some { s.after s.parent led with
        parent := ⟨s.parent.owner, led.table⟩
        cached := Function.update s.cached s.parent.owner none
        rmdir := .ended (result.map Reply.ret) }
    | _ => none

/-- The creation has been answered with success. -/
def Succeeds (result : Except Err Reply) : Prop := ∃ reply, result = .ok reply ∧ reply.ret = 0

/-- If the rmdir returns 0, every creation before its end has failed. -/
def NothingLost (s : State C) : Prop :=
  s.rmdir = .ended (.ok 0) → ∀ e ∈ s.served, ¬ Succeeds e.2

/-- No creation takes the mutex between the two parts of the rmdir, and the table that `rmdir_top`
    looks at is the one in which all creations have been. -/
def Undisturbed (s : State C) : Action C → Prop
  | .create _ _ => s.rmdir ≠ .emptied
  | .top _ => ∀ o, s.rmdir = .holds o → ∀ e ∈ s.served, e.1 = o
  | _ => True

/-! ## What a creation does to a table -/

/-- Every child that has an inode is listed. -/
def Lists (t : DentryTable) : Prop := ∀ name, t.listed name = none → t.child name = none

/-- `rmdir_top` refuses it. -/
def Filled (t : DentryTable) : Prop := 0 < t.getChildNum

theorem filled_of_listed {t : DentryTable} {name : Bytes} (h : t.listed name ≠ none) : Filled t := by
  unfold Filled DentryTable.getChildNum Dentry.getChildNum
  apply List.length_pos_of_ne_nil
  intro hnil
  apply h
  unfold DentryTable.listed AList.lookup
  rw [hnil]
  rfl

theorem Lists.create {t : DentryTable} (h : Lists t) (name : Bytes) (i : MemInode) :
    Lists (t.createChildInode name i).2 ∧ Filled (t.createChildInode name i).2 := by
  cases hc : t.child name with
  | none =>
      have hl := DentryTable.listed_create (i := i) hc
      have hchild := DentryTable.child_create (i := i) hc
      refine ⟨?_, @filled_of_listed _ name ?_⟩
      · intro n hn
        rw [hl] at hn
        rw [hchild]
        by_cases heq : n = name
        · rw [heq, Function.update_self] at hn
          cases hn
        · rw [Function.update_of_ne heq] at hn ⊢
          exact h n hn
      · rw [hl, Function.update_self]
        exact Option.some_ne_none _
  | some c =>
      rw [DentryTable.create_present hc]
      refine ⟨h, @filled_of_listed _ name ?_⟩
      intro hn
      rw [h name hn] at hc
      cases hc

theorem Lists.setChild {t : DentryTable} (h : Lists t) (name : Bytes) (f : Inode) :
    Lists (t.setChildInode name f) := by
  intro n hn
  rw [DentryTable.listed_setChild] at hn
  rw [DentryTable.child_setChild, h n hn]
  rfl

theorem Filled.setChild {t : DentryTable} (h : Filled t) (name : Bytes) (f : Inode) :
    Filled (t.setChildInode name f) := by
  unfold DentryTable.setChildInode
  split
  · exact h
  · split
    · exact h
    · exact h

/-- The table is sound enough, and has children if `p`. -/
def Has (p : Prop) (s : Led) : Prop := Lists s.table ∧ (p → Filled s.table)

section

variable {p : Prop}

theorem keeps_journalAt (dir : Uuid) (m : Transaction.Mutation) :
    Op.Keeps (Has p) (Led.journalAt dir m) := fun _ h => h

theorem keeps_journal (m : Inode → Transaction.Mutation) : Op.Keeps (Has p) (Led.journal m) :=
  fun _ h => h

theorem keeps_setParentTimes (ts : Timespec) : Op.Keeps (Has p) (Led.setParentTimes ts) :=
  fun _ h => h

theorem keeps_setChildInode (name : Bytes) (f : Inode) :
    Op.Keeps (Has p) (Led.setChildInode name f) :=
  fun _ h => ⟨h.1.setChild name f, fun hp => (h.2 hp).setChild name f⟩

theorem createChildInode_has (name : Bytes) (i : MemInode) :
    Op.Ensures (Has p) (Led.createChildInode name i) fun _ => Has True := by
  intro s h
  have hc := h.1.create name i
  exact ⟨hc.1, fun _ => hc.2⟩

/-- After a section that has created a child there are children, whatever comes of it. -/
theorem has_of_create {m : Section Reply} (h : Op.Ensures (Has p) m fun _ => Has True) :
    Op.Ensures (Has p) m fun result => Has (p ∨ Succeeds result) :=
  h.weaken fun _ _ hs => ⟨hs.1, fun _ => hs.2 trivial⟩

theorem createChild_has (env : Env) (name : Bytes) (mode : UInt32) :
    Op.Ensures (Has p) (createChild env name mode) fun _ => Has True := by
  unfold createChild
  refine Op.Ensures.read_bind fun parent => (createChildInode_has name _).bind ?_ fun _ _ h => h
  intro _
  refine (keeps_setParentTimes env.now).bind fun _ => ?_
  exact (keeps_journal _).bind fun _ => Op.Keeps.pure _

theorem localMkdir_has (env : Env) (name : Bytes) (mode : UInt32) :
    Op.Ensures (Has p) (LocalOps.localMkdir env name mode) fun _ => Has True := by
  unfold LocalOps.localMkdir
  refine Op.Ensures.read_bind fun parent => (createChildInode_has name _).bind ?_ fun _ _ h => h
  intro _
  refine (keeps_setParentTimes env.now).bind fun _ => (keeps_journal _).bind fun _ => ?_
  refine (keeps_setChildInode name _).bind fun _ => (keeps_journalAt _ _).bind fun _ => ?_
  exact Op.Keeps.pure _

theorem mkdirHandler_has (env : Env) (name : Bytes) (mode : UInt32) :
    Op.Ensures (Has p) (RpcServer.mkdirHandler env name mode) fun _ => Has True := by
  unfold RpcServer.mkdirHandler
  refine Op.Ensures.read_bind fun parent => (createChildInode_has name _).bind ?_ fun _ _ h => h
  intro _
  refine (keeps_setChildInode name _).bind fun _ => (keeps_setParentTimes env.now).bind fun _ => ?_
  exact (keeps_journal _).bind fun _ => Op.Keeps.pure _

/-- Where the name is taken, `-EEXIST` is no success, and nothing has changed. -/
theorem symlinkChild_has (env : Env) (src name : Bytes) :
    Op.Ensures (Has p) (symlinkChild env src name) fun result => Has (p ∨ Succeeds result) := by
  unfold symlinkChild
  refine Op.Ensures.read_bind fun there => ?_
  by_cases ht : there = Uuid.nil
  · rw [if_neg (not_not.mpr ht)]
    apply has_of_create
    refine Op.Ensures.read_bind fun parent => (createChildInode_has name _).bind ?_ fun _ _ h => h
    exact fun _ => (keeps_journal _).bind fun _ => Op.Keeps.pure _
  · rw [if_pos ht]
    intro s h
    refine ⟨h.1, fun hs => h.2 (hs.resolve_right ?_)⟩
    intro ⟨reply, hr, hz⟩
    cases hr
    exact absurd hz (by decide)

/-- After a creation there are children, if there were some, or it succeeds. -/
theorem serve_has {r : Request} (hr : r.newIno ≠ none) :
    Op.Ensures (Has p) r.serve fun result => Has (p ∨ Succeeds result) := by
  cases r with
  | localCreate env name mode => exact has_of_create (createChild_has env name mode)
  | rpcCreate env name mode => exact has_of_create (createChild_has env name mode)
  | localMkdir env name mode => exact has_of_create (localMkdir_has env name mode)
  | rpcMkdir env name mode => exact has_of_create (mkdirHandler_has env name mode)
  | localSymlink env src name => exact symlinkChild_has env src name
  | rpcSymlink env src name => exact symlinkChild_has env src name
  | localUnlink ts name => exact absurd rfl hr
  | rpcUnlink ts name => exact absurd rfl hr

end

/-! ## Every run -/

structure Inv (s : State C) : Prop where
  lists : ∀ x ∈ s.objects, Lists x.table
  filled : ∀ e ∈ s.served, Succeeds e.2 → ∃ x, s.objects[e.1]? = some x ∧ Filled x.table
  emptied : s.rmdir = .emptied → ∀ e ∈ s.served, ¬ Succeeds e.2
  ended : NothingLost s

/-- The tables are sound enough, and neither a creation nor the rmdir has been served. -/
structure Starts (s : State C) : Prop where
  lists : ∀ x ∈ s.objects, Lists x.table
  rmdir : s.rmdir = .idle
  served : s.served = []

section

variable {dir : Uuid} {targetName : Bytes} {s s' : State C}

omit [DecidableEq C] in
theorem Starts.inv (h : Starts s) : Inv s := by
  refine ⟨h.lists, ?_, ?_, ?_⟩
  · rw [h.served]
    exact fun e he => (nomatch he)
  · rw [h.rmdir]
    exact fun he => (nomatch he)
  · intro he
    rw [h.rmdir] at he
    cases he

/-- `rmdir_top` succeeds on a table without children only. -/
theorem not_filled_of_top {led : Led} {rpc : Bool} {reply : Reply}
    (h : (topSection dir rpc led).1 = .ok reply) (hz : reply.ret = 0) : ¬ Filled led.table := by
  intro hf
  have htop : topSection dir rpc led = rmdirTop dir led := by cases rpc <;> rfl
  have hfull : (rmdirTop dir led).1 = .ok ⟨-ENOTEMPTY, none⟩ := by
    have hread : (Op.read fun s : Led => s.table.getChildNum) led =
        ((.ok led.table.getChildNum, led) : Except Err Nat × Led) := rfl
    unfold rmdirTop
    rw [Op.bind_ok hread, if_pos (show led.table.getChildNum > 0 from hf)]
    rfl
  rw [htop, hfull] at h
  cases h
  exact absurd hz (by decide)

theorem Inv.lease (h : Inv s) {c : C} {pool : Pool}
    (hstep : step dir targetName s (.lease c pool) = some s') : Inv s' := by
  unfold step at hstep
  dsimp only at hstep
  split at hstep
  · cases hstep
  · rename_i table ht
    cases hstep
    refine ⟨?_, ?_, h.emptied, h.ended⟩
    · intro x hx
      rcases List.mem_append.mp hx with hx | hx
      · exact h.lists x hx
      · rw [List.mem_singleton.mp hx]
        exact (DentryTable.pull_ok ht).absent
    · intro e he hs
      obtain ⟨x, hx, hf⟩ := h.filled e he hs
      exact ⟨x, List.getElem?_append_left (List.getElem?_eq_some_iff.mp hx).1 ▸ hx, hf⟩

theorem Inv.create (h : Inv s) {i : Nat} {r : Request} (hu : s.rmdir ≠ .emptied)
    (hstep : step dir targetName s (.create i r) = some s') : Inv s' := by
  unfold step at hstep
  dsimp only at hstep
  split at hstep
  · cases hstep
  · rename_i hnew
    obtain ⟨o, -, hstep⟩ := Option.bind_eq_some_iff.mp hstep
    obtain ⟨x, hx, hstep⟩ := Option.map_eq_some_iff.mp hstep
    have hlists : Lists x.table := h.lists x (List.mem_of_getElem? hx)
    have hhas := serve_has (p := Filled x.table) (r := r) (fun hn => hnew (by rw [hn]; rfl))
      ⟨x.table, s.jtables x.owner, s.dataPool⟩ ⟨hlists, fun hf => hf⟩
    unfold State.perform at hstep
    revert hstep hhas
    generalize r.serve ⟨x.table, s.jtables x.owner, s.dataPool⟩ = out
    obtain ⟨result, led⟩ := out
    intro hstep hhas
    subst hstep
    have ho : o < s.objects.length := (List.getElem?_eq_some_iff.mp hx).1
    refine ⟨?_, ?_, fun he => absurd he hu, ?_⟩
    · intro y hy
      rcases List.mem_or_eq_of_mem_set hy with hy | rfl
      · exact h.lists y hy
      · exact hhas.1
    · intro e he hs
      have hmem : e ∈ s.served ++ [(o, result)] := by
        dsimp only at he
        split at he
        · exact List.mem_append_left _ he
        · exact he
      by_cases heq : e.1 = o
      · refine ⟨⟨x.owner, led.table⟩, ?_, hhas.2 ?_⟩
        · rw [heq]
          exact List.getElem?_set_self ho
        · rcases List.mem_append.mp hmem with hold | hnow
          · obtain ⟨y, hy, hf⟩ := h.filled e hold hs
            rw [heq, hx] at hy
            cases hy
            exact .inl hf
          · rw [List.mem_singleton.mp hnow] at hs
            exact .inr hs
      · rcases List.mem_append.mp hmem with hold | hnow
        · obtain ⟨y, hy, hf⟩ := h.filled e hold hs
          exact ⟨y, (List.getElem?_set_ne (Ne.symm heq)).trans hy, hf⟩
        · exact absurd (congrArg Prod.fst (List.mem_singleton.mp hnow)) heq
    · intro hend e he
      have hended : s.rmdir.Ended := by
        rw [show s.rmdir = .ended (.ok 0) from hend]
        trivial
      dsimp only at he
      rw [if_pos hended] at he
      exact h.ended hend e he

theorem Inv.top (h : Inv s) {rpc : Bool}
    (hu : ∀ o, s.rmdir = .holds o → ∀ e ∈ s.served, e.1 = o)
    (hstep : step dir targetName s (.top rpc) = some s') : Inv s' := by
  unfold step at hstep
  dsimp only at hstep
  split at hstep
  · rename_i o ho
    obtain ⟨x, hx, hstep⟩ := Option.map_eq_some_iff.mp hstep
    have htop := @not_filled_of_top dir ⟨x.table, s.jtables x.owner, s.dataPool⟩ rpc
    unfold State.perform at hstep
    revert hstep htop
    generalize topSection dir rpc ⟨x.table, s.jtables x.owner, s.dataPool⟩ = out
    obtain ⟨result, led⟩ := out
    intro hstep htop
    dsimp only at hstep
    split at hstep
    · subst hstep
      exact ⟨h.lists, h.filled, fun he => (nomatch he), fun he => (nomatch he)⟩
    · rename_i reply
      split at hstep
      · rename_i hz
        subst hstep
        refine ⟨h.lists, h.filled, ?_, fun he => (nomatch he)⟩
        intro _ e he hs
        obtain ⟨y, hy, hf⟩ := h.filled e he hs
        rw [hu o ho e he, hx] at hy
        cases hy
        exact htop rfl hz hf
      · rename_i hz
        subst hstep
        refine ⟨h.lists, h.filled, fun he => (nomatch he), ?_⟩
        exact fun he => absurd (Except.ok.inj (Phase.ended.inj he)) hz
  · cases hstep

theorem Inv.down (h : Inv s) {rpc : Bool} {ts : Timespec}
    (hstep : step dir targetName s (.down rpc ts) = some s') : Inv s' := by
  unfold step at hstep
  dsimp only at hstep
  split at hstep
  · rename_i he
    cases hstep
    exact ⟨h.lists, h.filled, fun he => (nomatch he), fun _ => h.emptied he⟩
  · cases hstep

theorem step_inv {a : Action C} (h : Inv s) (hu : Undisturbed s a)
    (hstep : step dir targetName s a = some s') : Inv s' := by
  cases a with
  | expire c =>
      cases hstep
      exact ⟨h.lists, h.filled, h.emptied, h.ended⟩
  | lease c pool => exact h.lease hstep
  | commit c d =>
      cases hstep
      exact ⟨h.lists, h.filled, h.emptied, h.ended⟩
  | lookup i c =>
      obtain ⟨o, -, hstep⟩ := Option.map_eq_some_iff.mp hstep
      subst hstep
      exact ⟨h.lists, h.filled, h.emptied, h.ended⟩
  | create i r => exact h.create hu hstep
  | topLookup c =>
      unfold step at hstep
      dsimp only at hstep
      split at hstep
      · obtain ⟨o, -, hstep⟩ := Option.map_eq_some_iff.mp hstep
        subst hstep
        exact ⟨h.lists, h.filled, fun he => (nomatch he), fun he => (nomatch he)⟩
      · cases hstep
  | top rpc => exact h.top hu hstep
  | down rpc ts => exact h.down hstep

end

/-- An rmdir that returns 0 loses no creation, in every run in which none disturbs it. -/
theorem undisturbed_nothingLost (dir : Uuid) (targetName : Bytes) (s s' : State C)
    (as : List (Action C)) (hs : Starts s)
    (hu : StepsMeet (step dir targetName) Undisturbed s as)
    (hr : run (step dir targetName) s as = some s') : NothingLost s' := by
  have hinv : Inv s' := run_invariant_of_stepsMeet (fun _ _ _ => step_inv) hs.inv hu hr
  exact hinv.ended

/-! ## One creation and one rmdir -/

/-- The parent of `homeInode`, with the name "d" for it. -/
def parentTable : DentryTable :=
  let self : Inode := ⟨{ homeInode.core with iIno := (envOf 9).newIno }, none⟩
  ((DentryTable.ofNew self).createChildInode [100] ⟨homeInode, self.ino⟩).2

/-- An empty directory, which one client leads together with its parent. -/
def emptyDir : State Bool where
  objects := [⟨false, .ofNew homeInode⟩]
  cached := fun c => if c then none else some 0
  jtables := fun _ => ∅
  dataPool := ∅
  parent := ⟨false, parentTable⟩
  held := fun _ => none
  rmdir := .idle
  served := []

theorem emptyDir_starts : Starts emptyDir where
  lists := fun x hx => by
    rw [List.mem_singleton.mp hx]
    exact fun _ _ => rfl
  rmdir := rfl
  served := rfl

/-- A file is created before the rmdir, which is then refused. -/
def createThenRmdir : List (Action Bool) :=
  [.lookup 0 false, .create 0 (.localCreate (envOf 1) [97] 0x1A4), .topLookup false, .top false]

/-- A file is created after `rmdir_top`, by one who got the table before. -/
def createInBetween : List (Action Bool) :=
  [.lookup 0 false, .topLookup false, .top false,
    .create 0 (.localCreate (envOf 1) [97] 0x1A4), .down false ⟨2, 0⟩]

theorem undisturbed_nothingLost_createThenRmdir :
    ∃ s, run (step homeInode.ino [100]) emptyDir createThenRmdir = some s ∧ NothingLost s := by
  have hu : StepsMeet (step homeInode.ino [100]) Undisturbed emptyDir createThenRmdir := by
    refine ⟨trivial, fun t ht => ⟨?_, fun u hu => ⟨trivial, fun v hv => ⟨?_, fun _ _ => trivial⟩⟩⟩⟩
    · cases ht
      exact fun he => (nomatch he)
    · cases ht
      cases hu
      cases hv
      intro o ho e he
      cases ho
      rw [List.mem_singleton.mp he]
  exact ⟨_, rfl, undisturbed_nothingLost homeInode.ino [100] emptyDir _ createThenRmdir
    emptyDir_starts hu rfl⟩

/-- Both are answered 0; the name of the directory is gone, and its transaction deletes it with the
    file in it. -/
theorem created_file_lost : ∃ s, run (step homeInode.ino [100]) emptyDir createInBetween = some s ∧
    s.rmdir = .ended (.ok 0) ∧ s.served = [(0, .ok ⟨0, some (envOf 1).newIno⟩)] ∧
    s.parent.table.listed [100] = none ∧
    ((s.jtables false).getEntry homeInode.ino).status = .S_DELETED ∧ ¬ NothingLost s := by
  refine ⟨_, rfl, rfl, rfl, by decide, rfl, ?_⟩
  intro h
  exact h rfl _ (List.mem_singleton.mpr rfl) ⟨⟨0, some (envOf 1).newIno⟩, rfl, rfl⟩

end Rmdir

end Nmfs
