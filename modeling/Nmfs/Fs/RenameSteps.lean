import Nmfs.Fs.Placement
import Nmfs.Fs.Sections

/-
  A rename from one directory to another as the three steps that it is: the lookup of the new name,
  the source and the destination. Between them other clients work in the destination directory, and
  what is pending is committed. The RPC to the destination's leader may fail, before it is served or
  after. Nothing is undone.
-/

namespace Nmfs

open Lib

namespace RenameSteps

open DirectoryOps FuseOps

variable {C : Type} [DecidableEq C]

/-- The client that renames, and the two directories that the parents' paths lead to. -/
structure Task (C : Type) where
  me : C
  paths : RenamePaths
  src : Uuid
  dst : Uuid
  flags : UInt32

inductive Phase where
  | idle
  | looked (checkDstIno : Uuid)
  | taken (checkDstIno : Uuid) (target : Inode)
  | ended (result : Except Err Int)

structure State (C : Type) where
  cluster : Cluster C
  phase : Phase

/-- What becomes of the RPC of the destination step. -/
inductive Rpc where
  | answered
  | unreachable
  | answerLost
  deriving DecidableEq

inductive Action where
  | lookup
  | source
  | destination (rpc : Rpc)
  /-- another client, in the destination directory -/
  | other (o : Refinement.Operation)
  /-- the commit thread of the leader takes the transaction of a directory -/
  | commit (dir : Uuid)

/-- The end of the `try` block. -/
def caught (result : Except Err Int) : Except Err Int :=
  match result with
  | .ok ret => .ok ret
  | .error e =>
    match renameCatch e with
    | some ret => .ok ret
    | none => .error e

/-- LOCAL, there is no RPC. -/
def destinationStep (t : Task C) (rpc : Rpc) (checkDstIno : Uuid) (target : Inode) :
    ClientOp C Int := fun s =>
  let out := renameNotSameParentDst t.me t.dst target checkDstIno t.paths.newPath t.flags s
  if s.leader t.dst = t.me then out
  else
    match rpc with
    | .answered => out
    | .unreachable => (.error (.runtimeError needRecovery), s)
    | .answerLost => (.error (.runtimeError needRecovery), out.2)

def commit (s : Cluster C) (dir : Uuid) : Cluster C :=
  { s with jtables :=
      Function.update s.jtables (s.leader dir) ((s.jtables (s.leader dir)).erase dir) }

def step (t : Task C) (s : State C) : Action → Option (State C)
  | .lookup =>
    match s.phase with
    | .idle =>
      match checkChildInode t.me t.dst t.paths.newName s.cluster with
      | (.ok ino, cluster) => some ⟨cluster, .looked ino⟩
      | (.error e, cluster) => some ⟨cluster, .ended (caught (.error e))⟩
    | _ => none
  | .source =>
    match s.phase with
    | .looked ino =>
      match renameNotSameParentSrc t.me t.src t.paths.oldPath t.flags s.cluster with
      | (.ok target, cluster) => some ⟨cluster, .taken ino target⟩
      | (.error e, cluster) => some ⟨cluster, .ended (caught (.error e))⟩
    | _ => none
  | .destination rpc =>
    match s.phase with
    | .taken ino target =>
      let out := destinationStep t rpc ino target s.cluster
      some ⟨out.2, .ended (caught out.1)⟩
    | _ => none
  | .other o =>
    match s.phase with
    | .ended _ => none
    | _ => some { s with
        cluster := (onDir t.dst (fun led => o.perform led : Section Reply) s.cluster).2 }
  | .commit dir =>
    match s.phase with
    | .ended _ => none
    | _ => some { s with cluster := commit s.cluster dir }

def AtSource (t : Task C) (ino : Uuid) (s : Cluster C) : Prop :=
  s.entries t.src t.paths.oldName = some ino

def AtDestination (t : Task C) (ino : Uuid) (s : Cluster C) : Prop :=
  s.entries t.dst t.paths.newName = some ino

/-- When the rename has ended, exactly one of the two names has the file, and the old one does unless
    the rename returned 0. -/
def NothingLost (t : Task C) (ino : Uuid) (s : State C) : Prop :=
  match s.phase with
  | .ended result => (AtSource t ino s.cluster ∧ ¬ AtDestination t ino s.cluster ∨
      ¬ AtSource t ino s.cluster ∧ AtDestination t ino s.cluster) ∧
      (result ≠ .ok 0 → AtSource t ino s.cluster)
  | _ => True

/-- The new name is taken if and only if the lookup found it taken, and the journal takes what the
    destination step records. -/
structure Takes (led : Led) (checkDstIno : Uuid) (name : Bytes) (ino : Uuid) : Prop where
  lookedUp : checkDstIno = Uuid.nil ↔ led.table.child name = none
  removal : ∀ c, led.table.child name = some c → led.tx.TakesRemoval name c.inode.ino
  new : (led.freed name).tx.TakesNew name ino

/-- The journal takes what the source step records; the destination takes the file, and its leader is
    the client itself or answers. -/
def Meets (t : Task C) (s : State C) : Action → Prop
  | .source => t.flags = 0 → ∀ led x, s.cluster.led t.src = some led →
    led.table.child t.paths.oldName = some x → led.tx.TakesRemoval t.paths.oldName x.inode.ino
  | .destination rpc => ∀ ino target, s.phase = .taken ino target →
    (s.cluster.leader t.dst = t.me ∨ rpc = .answered) ∧
      ∀ led, s.cluster.led t.dst = some led → Takes led ino t.paths.newName target.ino
  | _ => True

/-- The other clients do not bring the file itself into the destination. -/
def Foreign (ino : Uuid) : Action → Prop
  | .other o => Sections.Brings (· ≠ ino) o
  | _ => True

/-- The steps of `rename`, where nobody comes in between. -/
theorem rename_run {t : Task C} {s : Cluster C} {ts : Timespec} {led : Led}
    (hc : t.paths.Components) (hne : t.paths.srcNames ≠ t.paths.dstNames)
    (hroot : (s.tables Uuid.rootIno).isSome = true)
    (hsrc : s.Resolves t.paths.srcNames Uuid.rootIno t.src)
    (hdst : s.Resolves t.paths.dstNames Uuid.rootIno t.dst) (ho : t.paths.Opens s)
    (hl : (s.tables t.src).isSome = true) (hl' : s.led t.dst = some led) :
    ∃ as, (as = [.lookup, .source] ∨ as = [.lookup, .source, .destination .answered]) ∧
      run (step t) ⟨s, .idle⟩ as =
        some ⟨(rename t.me t.paths.oldPath t.paths.newPath t.flags ts s).2,
          .ended (rename t.me t.paths.oldPath t.paths.newPath t.flags ts s).1⟩ := by
  have hlookup : checkChildInode t.me t.dst t.paths.newName s =
      (.ok (led.table.checkChildInode t.paths.newName), s) := checkChildInode_led hl'
  have hrename : ∀ (r : Except Err Int) (s' : Cluster C),
      (do
        let target ← renameNotSameParentSrc t.me t.src t.paths.oldPath t.flags
        renameNotSameParentDst t.me t.dst target (led.table.checkChildInode t.paths.newName)
          t.paths.newPath t.flags : ClientOp C Int) s = (r, s') →
      rename t.me t.paths.oldPath t.paths.newPath t.flags ts s = (caught r, s') := by
    intro r s' hr
    have hblock : renameBlock t.me t.paths.oldPath t.paths.newPath t.flags ts s = (r, s') := by
      rw [renameBlock_parts hc hne hroot hsrc hdst ho hl hl']
      exact hr
    unfold rename
    rw [if_neg (hc.paths_ne hne)]
    unfold Op.handle caught
    rw [hblock]
    cases r with
    | ok ret => rfl
    | error e =>
        dsimp only
        cases renameCatch e <;> rfl
  have hfirst : step t ⟨s, .idle⟩ .lookup =
      some ⟨s, .looked (led.table.checkChildInode t.paths.newName)⟩ := by
    unfold step
    dsimp only
    rw [hlookup]
  rcases hs : renameNotSameParentSrc t.me t.src t.paths.oldPath t.flags s with ⟨rs, s₁⟩
  cases rs with
  | error e =>
      have hsecond : step t ⟨s, .looked (led.table.checkChildInode t.paths.newName)⟩ .source =
          some ⟨s₁, .ended (caught (.error e))⟩ := by
        unfold step
        dsimp only
        rw [hs]
      rw [hrename _ _ (Op.bind_error hs)]
      refine ⟨_, .inl rfl, ?_⟩
      exact run_cons.mpr ⟨_, hfirst, run_cons.mpr ⟨_, hsecond, rfl⟩⟩
  | ok target =>
      let out := renameNotSameParentDst t.me t.dst target
        (led.table.checkChildInode t.paths.newName) t.paths.newPath t.flags s₁
      have hsecond : step t ⟨s, .looked (led.table.checkChildInode t.paths.newName)⟩ .source =
          some ⟨s₁, .taken (led.table.checkChildInode t.paths.newName) target⟩ := by
        unfold step
        dsimp only
        rw [hs]
      have hthird : step t ⟨s₁, .taken (led.table.checkChildInode t.paths.newName) target⟩
          (.destination .answered) = some ⟨out.2, .ended (caught out.1)⟩ := by
        unfold step destinationStep
        dsimp only
        rw [ite_self]
      rw [hrename out.1 out.2 (Op.bind_ok hs)]
      refine ⟨_, .inr rfl, ?_⟩
      exact run_cons.mpr ⟨_, hfirst, run_cons.mpr ⟨_, hsecond, run_cons.mpr ⟨_, hthird, rfl⟩⟩⟩

/-! ## The destination section -/

section

variable {led led' : Led} {k : Uuid} {name : Bytes} {i : MemInode} {dir : Uuid}

theorem dstSection_takes (i : MemInode) (h : Takes led k name i.inode.ino) :
    dstSection i k name led = (.ok ⟨0, none⟩, (led.freed name).inserted name i) := by
  have hremove : removeDst k name led = (.ok (), led.freed name) := by
    unfold Led.freed
    cases hc : led.table.child name with
    | none => exact removeDst_absent (h.lookedUp.mpr hc)
    | some c =>
        refine removeDst_present (fun hk => ?_) hc (h.removal c hc)
        rw [h.lookedUp.mp hk] at hc
        cases hc
  unfold dstSection
  rw [Op.bind_ok hremove, Op.bind_ok (insertTarget_ok h.new)]
  rfl

theorem freed_child : (led.freed name).table.child name = none := by
  unfold Led.freed
  split
  · assumption
  · show (led.table.deleteChildInode name).2.child name = none
    rw [DentryTable.child_delete, Function.update_self]

/-- The destination has the file afterwards. -/
theorem takes_listed :
    ((led.freed name).inserted name i).table.listed name = some i.inode.ino := by
  show ((led.freed name).table.createChildInode name i).2.listed name = _
  rw [DentryTable.listed_create freed_child, Function.update_self]

/-- Where it does not take the file, the section raises, or does not bring the file in. -/
theorem takes_of_dstSection (i : MemInode) {reply : Reply} (hw : led.Within (· ≠ i.inode.ino) dir)
    (h : dstSection i k name led = (.ok reply, led'))
    (hl : led'.table.listed name = some i.inode.ino) : Takes led k name i.inode.ino := by
  have hu := hw.uncommitted led.table.thisDirInode.ino
  have hsplit : ∀ {s₁ : Led}, removeDst k name led = (.ok (), s₁) → s₁.jtable.Uncommitted →
      s₁.tx.TakesNew name i.inode.ino ∧ led' = s₁.inserted name i := by
    intro s₁ hr hu₁
    unfold dstSection at h
    rw [Op.bind_ok hr] at h
    cases hi : (insertTarget name i s₁).1 with
    | error e =>
        rw [Op.bind_error (Prod.ext hi rfl)] at h
        cases h
    | ok u =>
        have ht := takesNew_of_insert (hu₁ s₁.table.thisDirInode.ino) hi
        rw [Op.bind_ok (insertTarget_ok ht)] at h
        cases h
        exact ⟨ht, rfl⟩
  by_cases hk : k = Uuid.nil
  · obtain ⟨ht, rfl⟩ := hsplit (removeDst_absent hk) hw.uncommitted
    cases hc : led.table.child name with
    | none =>
        refine ⟨⟨fun _ => hc, fun _ => hk⟩, fun c hc' => ?_, ?_⟩
        · rw [hc] at hc'
          cases hc'
        · unfold Led.freed
          rw [hc]
          exact ht
    | some c =>
        -- `create_child_inode` has left what is there
        exfalso
        have hsame : (led.inserted name i).table = led.table :=
          congrArg Prod.snd (DentryTable.create_present hc)
        rw [hsame, hw.sound, hc] at hl
        exact hw.within name c hc (Option.some.inj hl)
  · cases hc : led.table.child name with
    | none =>
        exfalso
        have hr : removeDst k name led = (.error .noEntry, led) := by
          unfold removeDst
          rw [if_pos hk, Op.bind_error (Led.getChildInode_absent hc)]
        unfold dstSection at h
        rw [Op.bind_error hr] at h
        cases h
    | some c =>
        cases hr : (removeDst k name led).1 with
        | error e =>
            exfalso
            unfold dstSection at h
            rw [Op.bind_error (Prod.ext hr rfl)] at h
            cases h
        | ok u =>
            have htake := takesRemoval_of_removeDst hk hc hu hr
            have hremoved := removeDst_present hk hc htake
            have hkeep : (removeDst k name led).2.Within (· ≠ i.inode.ino) dir :=
              Sections.keeps_removeDst k name led hw
            rw [hremoved] at hkeep
            obtain ⟨ht, -⟩ := hsplit hremoved hkeep.uncommitted
            refine ⟨⟨fun hk' => absurd hk' hk, fun hn => ?_⟩, fun c' hc' => ?_, ?_⟩
            · rw [hn] at hc
              cases hc
            · rw [hc] at hc'
              cases hc'
              exact htake
            · unfold Led.freed
              rw [hc]
              exact ht

end

/-! ## The source section -/

section

variable {s : Cluster C} {me : C} {led : Led} {dir : Uuid} {name path : Bytes} {x : MemInode}

/-- The child is gone, and the section raises. -/
theorem source_fails (me : C) {P : Uuid → Prop} (hp : Path.getFilenameFromPath path = .ok name)
    (hl : s.led dir = some led) (hw : led.Within P dir) (hx : led.table.child name = some x)
    (ht : ¬ led.tx.TakesRemoval name x.inode.ino) :
    ∃ e led', renameNotSameParentSrc me dir path 0 s = (.error e, s.put dir led') ∧
      led'.Within P dir ∧ led'.table.child name = none := by
  have hu := hw.uncommitted led.table.thisDirInode.ino
  obtain ⟨e, he⟩ : ∃ e, (removeSrc name x led).1 = .error e := by
    cases hr : (removeSrc name x led).1 with
    | ok u => exact absurd (takesRemoval_of_removeSrc hu hr) ht
    | error e => exact ⟨e, rfl⟩
  have hremove : removeSrc name x led = (.error e, (removeSrc name x led).2) := Prod.ext he rfl
  have hkeep : (removeSrc name x led).2.Within P dir := Sections.keeps_removeSrc name x led hw
  have hchild : (removeSrc name x led).2.table.child name = none := by
    show (led.table.deleteChildInode name).2.child name = none
    rw [DentryTable.child_delete, Function.update_self]
  have hlocal : onDir dir (LocalOps.localRenameNotSameParentSrc name 0) s =
      (.error e, s.put dir (removeSrc name x led).2) := by
    unfold LocalOps.localRenameNotSameParentSrc
    rw [onDir_led hl, Op.bind_ok (Led.getChildInode_present hx), if_pos rfl, Op.bind_error hremove]
  have hremote : onDir dir (RpcServer.renameNotSameParentSrcHandler name 0) s =
      (.error e, s.put dir (removeSrc name x led).2) := by
    unfold RpcServer.renameNotSameParentSrcHandler
    rw [onDir_led hl, Op.bind_ok (Led.getChildInode_present hx), if_pos rfl, Op.bind_error hremove]
  unfold renameNotSameParentSrc whereLed
  by_cases hme : s.leader dir = me
  · rw [if_pos hme, Op.bind_ok (Op.lift_ok hp), Op.bind_error hlocal]
    exact ⟨e, _, rfl, hkeep, hchild⟩
  · rw [if_neg hme, Op.bind_error (remotely_error ((Op.bind_ok (Op.lift_ok hp)).trans hremote))]
    exact ⟨_, _, rfl, hkeep, hchild⟩

theorem source_flags (me : C) {flags : UInt32} (hp : Path.getFilenameFromPath path = .ok name)
    (hl : s.led dir = some led) (hx : led.table.child name = some x) (hf : flags ≠ 0) :
    ∃ what, renameNotSameParentSrc me dir path flags s = (.error (.runtimeError what), s) := by
  have hlocal : onDir dir (LocalOps.localRenameNotSameParentSrc name flags) s =
      (.error (.runtimeError "NOT IMPLEMENTED"), s) := by
    unfold LocalOps.localRenameNotSameParentSrc
    rw [onDir_led hl, Op.bind_ok (Led.getChildInode_present hx), if_neg hf]
    show (_, s.put dir led) = _
    rw [Cluster.put_led hl]
    rfl
  have hremote : onDir dir (RpcServer.renameNotSameParentSrcHandler name flags) s =
      (.ok (-ENOSYS, none), s) := by
    unfold RpcServer.renameNotSameParentSrcHandler
    rw [onDir_led hl, Op.bind_ok (Led.getChildInode_present hx), if_neg hf]
    show (_, s.put dir led) = _
    rw [Cluster.put_led hl]
    rfl
  unfold renameNotSameParentSrc whereLed
  by_cases hme : s.leader dir = me
  · rw [if_pos hme, Op.bind_ok (Op.lift_ok hp), Op.bind_error hlocal]
    exact ⟨_, rfl⟩
  · rw [if_neg hme, Op.bind_ok (remotely_ok ((Op.bind_ok (Op.lift_ok hp)).trans hremote))]
    exact ⟨_, rfl⟩

end

/-! ## The destination step -/

section

variable {t : Task C} {s : Cluster C} {led : Led} {x : MemInode} {k : Uuid}

theorem caught_error (e : Err) : caught (.error e) ≠ .ok 0 := by
  cases e <;> simp [caught, renameCatch, ENOENT, EACCES, ENOSYS]

theorem caught_eq_zero {result : Except Err Reply} {r : Except Err Int}
    (hok : ∀ reply, result = .ok reply → r = .ok reply.ret)
    (herror : ∀ e, result = .error e → ∃ e', r = .error e') :
    caught r = .ok 0 ↔ ∃ reply, result = .ok reply ∧ reply.ret = 0 := by
  cases result with
  | error e =>
      obtain ⟨e', rfl⟩ := herror e rfl
      exact ⟨fun he => absurd he (caught_error e'), fun ⟨_, he, _⟩ => (nomatch he)⟩
  | ok reply =>
      rw [hok reply rfl]
      constructor
      · exact fun he => ⟨reply, rfl, Except.ok.inj he⟩
      · rintro ⟨reply', he, hret⟩
        cases he
        exact congrArg Except.ok hret

/-- In the destination directory and at the client. -/
theorem destinationStep_cases (rpc : Rpc) (hc : t.paths.Components) (hz : t.flags = 0)
    (hl : s.led t.dst = some led) (hself : led.table.thisDirInode.ino = t.dst)
    (hsend : x.inode.Sendable) {result : Except Err Reply} {led' : Led}
    (h : dstSection ⟨x.inode, t.dst⟩ k t.paths.newName led = (result, led')) :
    (s.leader t.dst = t.me ∨ rpc = .answered) ∧
      (destinationStep t rpc k x.inode s).2 = s.put t.dst led' ∧
      (caught (destinationStep t rpc k x.inode s).1 = .ok 0 ↔
        ∃ reply, result = .ok reply ∧ reply.ret = 0) ∨
    ¬ (s.leader t.dst = t.me ∨ rpc = .answered) ∧
      ((destinationStep t rpc k x.inode s).2 = s.put t.dst led' ∨
        (destinationStep t rpc k x.inode s).2 = s) ∧
      caught (destinationStep t rpc k x.inode s).1 ≠ .ok 0 := by
  unfold destinationStep
  rw [hz]
  dsimp only
  by_cases hme : s.leader t.dst = t.me
  · left
    rw [if_pos hme, renameNotSameParentDst_here hc.newFile hme hl hself h]
    refine ⟨.inl hme, rfl, caught_eq_zero (fun reply hr => ?_) fun e he => ⟨e, ?_⟩⟩
    · rw [hr]
      rfl
    · rw [he]
      rfl
  · rw [if_neg hme, renameNotSameParentDst_there hc.newFile hme hl hself hsend h]
    cases rpc with
    | answered =>
        left
        refine ⟨.inr rfl, rfl, caught_eq_zero (fun reply hr => ?_) fun e he =>
          ⟨.runtimeError needRecovery, ?_⟩⟩
        · rw [hr]
          rfl
        · rw [he]
          rfl
    | unreachable => exact .inr ⟨fun hor => hor.elim hme nofun, .inr rfl, caught_error _⟩
    | answerLost => exact .inr ⟨fun hor => hor.elim hme nofun, .inl rfl, caught_error _⟩

end

/-! ## Every step -/

/-- What does not change in the course of the rename. -/
structure Fixed (t : Task C) (x : MemInode) : Prop where
  components : t.paths.Components
  ne : t.src ≠ t.dst
  sendable : x.inode.Sendable

/-- Both directories are led, and the file is not in the destination. -/
structure Frame (t : Task C) (x : MemInode) (s : Cluster C) : Prop where
  src : ∃ led, s.led t.src = some led ∧ led.Within (fun _ => True) t.src
  dst : ∃ led, s.led t.dst = some led ∧ led.Within (· ≠ x.inode.ino) t.dst

/-- Where the file is as long as the rename has not ended. -/
def Held (t : Task C) (x : MemInode) (s : State C) : Prop :=
  match s.phase with
  | .idle | .looked _ => s.cluster.child t.src t.paths.oldName = some x
  | .taken _ target => target = x.inode ∧ t.flags = 0 ∧
    s.cluster.child t.src t.paths.oldName = none
  | .ended _ => False

structure Inv (t : Task C) (x : MemInode) (s : State C) : Prop where
  frame : Frame t x s.cluster
  held : Held t x s

section

variable {t : Task C} {x : MemInode} {s : Cluster C} {a b : Uuid} {led led' : Led}
  {P Q : Uuid → Prop}

/-- Another directory stays as it is. -/
theorem within_put_of_ne (hl : s.led a = some led) (hw : led.Within P a) (hne : a ≠ b)
    (hw' : led'.Within Q b) : ∃ la, (s.put b led').led a = some la ∧ la.Within P a ∧
      la.table = led.table := by
  obtain ⟨htable, hj, -⟩ := Cluster.led_eq_some.mp hl
  refine ⟨⟨led.table, (s.put b led').jtables (s.leader a), led'.dataPool⟩, ?_, ?_, rfl⟩
  · refine Cluster.led_eq_some.mpr ⟨?_, rfl, rfl⟩
    show Function.update s.tables b _ a = _
    rw [Function.update_of_ne hne]
    exact htable
  · refine ⟨hw.self, hw.sound, hw.within, ?_⟩
    show JournalTable.Uncommitted (Function.update s.jtables (s.leader b) led'.jtable (s.leader a))
    by_cases hleader : s.leader a = s.leader b
    · rw [hleader, Function.update_self]
      exact hw'.uncommitted
    · rw [Function.update_of_ne hleader, ← hj]
      exact hw.uncommitted

theorem Frame.put_dst (h : Frame t x s) (hne : t.src ≠ t.dst)
    (hw : led'.Within (· ≠ x.inode.ino) t.dst) :
    Frame t x (s.put t.dst led') ∧ (s.put t.dst led').child t.src = s.child t.src := by
  obtain ⟨ls, hl, hws⟩ := h.src
  obtain ⟨ls', hl', hws', -⟩ := within_put_of_ne hl hws hne hw
  refine ⟨⟨⟨ls', hl', hws'⟩, ⟨led', Cluster.led_put_self, hw⟩⟩, ?_⟩
  rw [Cluster.child_put, Function.update_of_ne hne]

theorem Frame.put_src (h : Frame t x s) (hne : t.src ≠ t.dst)
    (hw : led'.Within (fun _ => True) t.src) : Frame t x (s.put t.src led') := by
  obtain ⟨ld, hl, hwd⟩ := h.dst
  obtain ⟨ld', hl', hwd', -⟩ := within_put_of_ne hl hwd hne.symm hw
  exact ⟨⟨led', Cluster.led_put_self, hw⟩, ⟨ld', hl', hwd'⟩⟩

omit [DecidableEq C] in
theorem Frame.entries_src (h : Frame t x s) (name : Bytes) :
    s.entries t.src name = (s.child t.src name).map fun c => c.inode.ino := by
  obtain ⟨led, hl, hw⟩ := h.src
  rw [Cluster.entries_of_led hl, Cluster.child_of_led hl]
  exact hw.sound name

omit [DecidableEq C] in
theorem Frame.not_atDestination (h : Frame t x s) : ¬ AtDestination t x.inode.ino s := by
  intro hd
  obtain ⟨led, hl, hw⟩ := h.dst
  unfold AtDestination at hd
  rw [Cluster.entries_of_led hl, hw.sound] at hd
  obtain ⟨c, hc, hi⟩ := Option.map_eq_some_iff.mp hd
  exact hw.within _ c hc hi

omit [DecidableEq C] in
theorem nothingLost_iff {ino : Uuid} (hs : s.entries t.src t.paths.oldName = none)
    {result : Except Err Int} : NothingLost t ino ⟨s, .ended result⟩ ↔
      AtDestination t ino s ∧ result = .ok 0 := by
  have ha : ¬ AtSource t ino s := by
    unfold AtSource
    rw [hs]
    exact nofun
  unfold NothingLost
  dsimp only
  constructor
  · rintro ⟨⟨hsource, -⟩ | ⟨-, hb⟩, hsafe⟩
    · exact absurd hsource ha
    · exact ⟨hb, by_contra fun hr => ha (hsafe hr)⟩
  · rintro ⟨hb, hr⟩
    exact ⟨.inr ⟨ha, hb⟩, fun hne => absurd hr hne⟩

omit [DecidableEq C] in
/-- With no name left, the rename has lost the file. -/
theorem Frame.lost (h : Frame t x s) (hc : s.child t.src t.paths.oldName = none)
    {result : Except Err Int} : ¬ NothingLost t x.inode.ino ⟨s, .ended result⟩ := by
  have hs : s.entries t.src t.paths.oldName = none := by
    rw [h.entries_src, hc]
    rfl
  rw [nothingLost_iff hs]
  exact fun hn => h.not_atDestination hn.1

theorem Frame.commit (h : Frame t x s) (dir : Uuid) : Frame t x (commit s dir) := by
  have hled : ∀ {P : Uuid → Prop} {d : Uuid} {l : Led}, s.led d = some l → l.Within P d →
      ∃ l', (RenameSteps.commit s dir).led d = some l' ∧ l'.Within P d := by
    intro P d l hl hw
    obtain ⟨htable, hj, hd⟩ := Cluster.led_eq_some.mp hl
    refine ⟨⟨l.table, (RenameSteps.commit s dir).jtables (s.leader d), s.dataPool⟩,
      Cluster.led_eq_some.mpr ⟨htable, rfl, rfl⟩, hw.self, hw.sound, hw.within, ?_⟩
    show JournalTable.Uncommitted (Function.update s.jtables (s.leader dir) _ (s.leader d))
    by_cases hleader : s.leader d = s.leader dir
    · rw [hleader, Function.update_self, ← hleader, ← hj]
      exact hw.uncommitted.erase dir
    · rw [Function.update_of_ne hleader, ← hj]
      exact hw.uncommitted
  obtain ⟨ls, hl, hws⟩ := h.src
  obtain ⟨ld, hl', hwd⟩ := h.dst
  exact ⟨hled hl hws, hled hl' hwd⟩

end

section

variable {t : Task C} {x : MemInode} {s s' : State C}

theorem step_lookup (h : Inv t x s) (hstep : step t s .lookup = some s') : Inv t x s' := by
  unfold step at hstep
  dsimp only at hstep
  split at hstep
  · rename_i hp
    obtain ⟨led, hl, -⟩ := h.frame.dst
    rw [checkChildInode_led hl] at hstep
    cases hstep
    have hheld := h.held
    unfold Held at hheld
    rw [hp] at hheld
    exact ⟨h.frame, hheld⟩
  · cases hstep

theorem step_other (hf : Fixed t x) (h : Inv t x s) {o : Refinement.Operation}
    (ho : Sections.Brings (· ≠ x.inode.ino) o) (hstep : step t s (.other o) = some s') :
    Inv t x s' := by
  obtain ⟨led, hl, hw⟩ := h.frame.dst
  obtain ⟨hframe, hchild⟩ := h.frame.put_dst hf.ne (Sections.operation_within hw ho)
  have hheld := h.held
  unfold step at hstep
  dsimp only at hstep
  rw [onDir_led hl] at hstep
  split at hstep
  · cases hstep
  · cases hstep
    refine ⟨hframe, ?_⟩
    unfold Held at hheld ⊢
    dsimp only
    rw [hchild]
    exact hheld

theorem step_commit (h : Inv t x s) {dir : Uuid} (hstep : step t s (.commit dir) = some s') :
    Inv t x s' := by
  have hheld := h.held
  unfold step at hstep
  dsimp only at hstep
  split at hstep
  · cases hstep
  · cases hstep
    exact ⟨h.frame.commit dir, hheld⟩

/-- After the source step the file is on its way, or still there, or lost already. -/
theorem step_source (hf : Fixed t x) (h : Inv t x s) (hstep : step t s .source = some s') :
    (Inv t x s' ∧ Meets t s .source) ∨
      ((∃ r, s'.phase = .ended r) ∧ (NothingLost t x.inode.ino s' ↔ Meets t s .source)) := by
  unfold step at hstep
  dsimp only at hstep
  split at hstep
  · rename_i k hp
    have hchild : s.cluster.child t.src t.paths.oldName = some x := by
      have hheld := h.held
      unfold Held at hheld
      rw [hp] at hheld
      exact hheld
    obtain ⟨led, hl, hw⟩ := h.frame.src
    have hx : led.table.child t.paths.oldName = some x := by
      rw [← Cluster.child_of_led hl]
      exact hchild
    have hmeets : Meets t s .source ↔
        (t.flags = 0 → led.tx.TakesRemoval t.paths.oldName x.inode.ino) := by
      constructor
      · exact fun hm hz => hm hz led x hl hx
      · intro hm hz led' x' hl' hx'
        rw [hl] at hl'
        cases hl'
        rw [hx] at hx'
        cases hx'
        exact hm hz
    by_cases hz : t.flags = 0
    · by_cases ht : led.tx.TakesRemoval t.paths.oldName x.inode.ino
      · left
        rw [hz, renameNotSameParentSrc_eq hf.components.oldFile hl hx ht hf.sendable] at hstep
        cases hstep
        have hremoved : (led.removed t.paths.oldName x.inode.ino).Within (fun _ => True) t.src := by
          have hkeep : (removeSrc t.paths.oldName x led).2.Within (fun _ => True) t.src :=
            Sections.keeps_removeSrc t.paths.oldName x led hw
          rw [removeSrc_ok ht] at hkeep
          exact hkeep
        refine ⟨⟨h.frame.put_src hf.ne hremoved, rfl, hz, ?_⟩, hmeets.mpr fun _ => ht⟩
        rw [Cluster.child_put, Function.update_self]
        show (led.table.deleteChildInode _).2.child _ = none
        rw [DentryTable.child_delete, Function.update_self]
      · right
        obtain ⟨e, led', hfail, hw', hgone⟩ := source_fails t.me hf.components.oldFile hl hw hx ht
        rw [hz, hfail] at hstep
        cases hstep
        refine ⟨⟨_, rfl⟩, fun hn => ?_, fun hm => absurd (hmeets.mp hm hz) ht⟩
        have hnone : (s.cluster.put t.src led').child t.src t.paths.oldName = none := by
          rw [Cluster.child_put, Function.update_self]
          exact hgone
        exact absurd hn ((h.frame.put_src hf.ne hw').lost hnone)
    · right
      obtain ⟨what, hfail⟩ := source_flags t.me hf.components.oldFile hl hx hz
      rw [hfail] at hstep
      cases hstep
      have hat : AtSource t x.inode.ino s.cluster := by
        unfold AtSource
        rw [h.frame.entries_src, hchild]
        rfl
      refine ⟨⟨_, rfl⟩, fun _ => hmeets.mpr fun hz' => absurd hz' hz, fun _ => ?_⟩
      exact ⟨.inl ⟨hat, h.frame.not_atDestination⟩, fun _ => hat⟩
  · cases hstep

theorem step_destination (hf : Fixed t x) (h : Inv t x s) {rpc : Rpc}
    (hstep : step t s (.destination rpc) = some s') :
    (∃ r, s'.phase = .ended r) ∧ (NothingLost t x.inode.ino s' ↔ Meets t s (.destination rpc)) := by
  unfold step at hstep
  dsimp only at hstep
  split at hstep
  · rename_i k target hp
    cases hstep
    obtain ⟨rfl, hz, hnone⟩ : target = x.inode ∧ t.flags = 0 ∧
        s.cluster.child t.src t.paths.oldName = none := by
      have hheld := h.held
      unfold Held at hheld
      rw [hp] at hheld
      exact hheld
    obtain ⟨led, hl, hw⟩ := h.frame.dst
    have hmeets : Meets t s (.destination rpc) ↔
        (s.cluster.leader t.dst = t.me ∨ rpc = .answered) ∧
          Takes led k t.paths.newName x.inode.ino := by
      constructor
      · intro hm
        obtain ⟨hanswer, htakes⟩ := hm k x.inode hp
        exact ⟨hanswer, htakes led hl⟩
      · rintro ⟨hanswer, htakes⟩ k' target' hp'
        rw [hp] at hp'
        cases hp'
        refine ⟨hanswer, fun led' hl' => ?_⟩
        rw [hl] at hl'
        cases hl'
        exact htakes
    have hsource : ∀ led', (s.cluster.put t.dst led').entries t.src t.paths.oldName = none := by
      intro led'
      rw [Cluster.entries_put, Function.update_of_ne hf.ne, h.frame.entries_src, hnone]
      rfl
    refine ⟨⟨_, rfl⟩, ?_⟩
    rw [hmeets]
    rcases hd : dstSection ⟨x.inode, t.dst⟩ k t.paths.newName led with ⟨result, led'⟩
    rcases destinationStep_cases rpc hf.components hz hl hw.self hf.sendable hd with
      ⟨hanswer, hcluster, hret⟩ | ⟨hanswer, hcluster, hret⟩
    · have hat : AtDestination t x.inode.ino (s.cluster.put t.dst led') ↔
          led'.table.listed t.paths.newName = some x.inode.ino := by
        unfold AtDestination
        rw [Cluster.entries_put, Function.update_self]
      rw [hcluster, nothingLost_iff (hsource led'), hret, hat]
      constructor
      · rintro ⟨hb, reply, rfl, -⟩
        exact ⟨hanswer, takes_of_dstSection ⟨x.inode, t.dst⟩ hw hd hb⟩
      · rintro ⟨-, htakes⟩
        rw [dstSection_takes ⟨x.inode, t.dst⟩ htakes] at hd
        cases hd
        exact ⟨takes_listed, ⟨0, none⟩, rfl, rfl⟩
    · have hgone : (destinationStep t rpc k x.inode s.cluster).2.entries t.src t.paths.oldName =
          none := by
        rcases hcluster with hc | hc
        · rw [hc]
          exact hsource led'
        · rw [hc, h.frame.entries_src, hnone]
          rfl
      rw [nothingLost_iff hgone]
      exact ⟨fun hn => absurd hn.2 hret, fun hm => absurd hm.1 hanswer⟩
  · cases hstep

/-- A rename that has ended stays as it is; any other step leaves it going on, or ends it. -/
theorem step_inv (hf : Fixed t x) (h : Inv t x s) {a : Action} (ha : Foreign x.inode.ino a)
    (hstep : step t s a = some s') : (Inv t x s' ∧ Meets t s a) ∨
      ((∃ r, s'.phase = .ended r) ∧ (NothingLost t x.inode.ino s' ↔ Meets t s a)) := by
  cases a with
  | lookup => exact .inl ⟨step_lookup h hstep, trivial⟩
  | source => exact step_source hf h hstep
  | destination rpc => exact .inr (step_destination hf h hstep)
  | other o => exact .inl ⟨step_other hf h ha hstep, trivial⟩
  | commit dir => exact .inl ⟨step_commit h hstep, trivial⟩

theorem no_step {r : Except Err Int} (h : s.phase = .ended r) (a : Action) :
    step t s a = none := by
  unfold step
  cases a <;> rw [h]

omit [DecidableEq C] in
theorem Inv.nothingLost (h : Inv t x s) : NothingLost t x.inode.ino s := by
  have hheld := h.held
  unfold Held at hheld
  unfold NothingLost
  split
  · rename_i hp
    rw [hp] at hheld
    exact hheld.elim
  · trivial

end

/-! ## A whole rename -/

/-- The rename begins: the file has the old name, and is not in the destination. -/
structure Starts (t : Task C) (x : MemInode) (s : State C) : Prop where
  fixed : Fixed t x
  frame : Frame t x s.cluster
  phase : s.phase = .idle
  present : s.cluster.child t.src t.paths.oldName = some x

omit [DecidableEq C] in
theorem Starts.inv {t : Task C} {x : MemInode} {s : State C} (h : Starts t x s) : Inv t x s := by
  refine ⟨h.frame, ?_⟩
  unfold Held
  rw [h.phase]
  exact h.present

theorem run_nothingLost {t : Task C} {x : MemInode} (hf : Fixed t x) {as : List Action}
    (ha : ∀ a ∈ as, Foreign x.inode.ino a) {s s' : State C} (h : Inv t x s)
    (hr : run (step t) s as = some s') :
    NothingLost t x.inode.ino s' ↔ StepsMeet (step t) (Meets t) s as := by
  induction as generalizing s with
  | nil =>
      cases hr
      exact iff_of_true h.nothingLost trivial
  | cons a as ih =>
      obtain ⟨u, hu, hr⟩ := run_cons.mp hr
      have hrest : StepsMeet (step t) (Meets t) s (a :: as) ↔
          Meets t s a ∧ StepsMeet (step t) (Meets t) u as := by
        refine and_congr_right fun _ => ⟨fun hall => hall u hu, fun hu' v hv => ?_⟩
        rw [hu] at hv
        cases hv
        exact hu'
      rw [hrest]
      rcases step_inv hf h (ha a List.mem_cons_self) hu with ⟨hinv, hmeets⟩ | ⟨⟨r, hended⟩, hiff⟩
      · rw [ih (fun b hb => ha b (List.mem_cons_of_mem _ hb)) hinv hr]
        exact (and_iff_right hmeets).symm
      · -- the rename has ended, and so has the run
        cases as with
        | nil =>
            cases hr
            rw [hiff]
            exact (and_iff_left trivial).symm
        | cons b bs =>
            obtain ⟨v, hv, -⟩ := run_cons.mp hr
            rw [no_step hended b] at hv
            cases hv

/-- No file is lost by a rename if and only if every step of it finds what it relies on. -/
theorem nothingLost_iff_stepsMeet {t : Task C} {x : MemInode} {s s' : State C} {as : List Action}
    (h : Starts t x s) (ha : ∀ a ∈ as, Foreign x.inode.ino a)
    (hr : run (step t) s as = some s') :
    NothingLost t x.inode.ino s' ↔ StepsMeet (step t) (Meets t) s as :=
  run_nothingLost h.fixed ha h.inv hr

/-! ## From "/a" to "/b/a" -/

open Placement

def moveTask : Task Bool := ⟨false, moveInto, Uuid.rootIno, (envOf 1).newIno, 0⟩

theorem rootWithFile_within : rootWithFile.Within (fun _ => True) Uuid.rootIno := by
  have hempty : JournalTable.Uncommitted ∅ := fun _ => rfl
  have hnew : rootNew.Within (fun _ => True) Uuid.rootIno :=
    ⟨rfl, rootNew_names.sound, fun _ _ _ => trivial,
      hempty.record Uuid.rootIno (.mkself rootInode)⟩
  have hdir : rootWithDir.Within (fun _ => True) Uuid.rootIno :=
    @Sections.keeps_mkdirHandler (fun _ => True) _ (envOf 1) trivial [98] 0x1ED rootNew hnew
  exact @Sections.keeps_createChild (fun _ => True) _ (envOf 2) trivial [97] 0x1A4 rootWithDir hdir

theorem dirNew_within : dirNew.Within (· ≠ file.ino) (envOf 1).newIno := by
  have hempty : JournalTable.Uncommitted ∅ := fun _ => rfl
  exact ⟨rfl, dirNew_names.sound, fun _ _ hc => (nomatch hc),
    hempty.record (envOf 1).newIno (.mkself (newDirInode (envOf 1) 0x1ED clock))⟩

theorem moveTask_starts : Starts moveTask ⟨file, Uuid.rootIno⟩ ⟨made, .idle⟩ where
  fixed := ⟨⟨by decide, by decide⟩, by decide, file_sendable⟩
  frame := ⟨⟨rootWithFile, rfl, rootWithFile_within⟩, ⟨dirNew, rfl, dirNew_within⟩⟩
  phase := rfl
  present := rfl

/-- What `rename` itself leaves behind. -/
def moveDone : State Bool :=
  ⟨(rename false moveInto.oldPath moveInto.newPath 0 clock made).2,
    .ended (rename false moveInto.oldPath moveInto.newPath 0 clock made).1⟩

theorem moveTask_run :
    run (step moveTask) ⟨made, .idle⟩ [.lookup, .source, .destination .answered] =
      some moveDone := by
  have hopens : moveInto.Opens made := by
    refine ⟨Cluster.opens_nil, fun dir hdir table ht => ?_⟩
    obtain rfl : dir = (envOf 1).newIno := List.mem_singleton.mp hdir
    cases ht
    decide
  have hdst : made.Resolves moveInto.dstNames Uuid.rootIno moveTask.dst :=
    ⟨_, rfl, rfl, by decide, by decide, rfl, rfl⟩
  have hled : made.led moveTask.dst = some dirNew := rfl
  obtain ⟨as, rfl | rfl, hrun⟩ : ∃ as, (as = [.lookup, .source] ∨
      as = [.lookup, .source, .destination .answered]) ∧
      run (step moveTask) ⟨made, .idle⟩ as = some moveDone :=
    rename_run moveTask_starts.fixed.components (by decide) rfl rfl hdst hopens rfl hled
  · -- the source step does not end it
    exact nomatch congrArg (Option.map State.phase) hrun
  · exact hrun

theorem nothingLost_iff_stepsMeet_alone : moveDone.phase = .ended (.ok 0) ∧
    NothingLost moveTask file.ino moveDone ∧
    StepsMeet (step moveTask) (Meets moveTask) ⟨made, .idle⟩
      [.lookup, .source, .destination .answered] := by
  have hlost : NothingLost moveTask file.ino moveDone :=
    ⟨.inr ⟨nofun, rfl⟩, fun hne => absurd rfl hne⟩
  have ha : ∀ a ∈ [Action.lookup, .source, .destination .answered], Foreign file.ino a := by
    simp [Foreign]
  exact ⟨rfl, hlost, (nothingLost_iff_stepsMeet moveTask_starts ha moveTask_run).mp hlost⟩

/-- The other client makes "/b/a" after the lookup, and the commit thread takes that away from the
    journal. -/
def overtaken : List Action :=
  [.lookup, .other (.request (.localCreate (envOf 3) [97] 0x1A4)), .commit (envOf 1).newIno,
    .source, .destination .answered]

/-- The rename returns 0, and the file has neither name. -/
theorem overtaken_loses : Starts moveTask ⟨file, Uuid.rootIno⟩ ⟨made, .idle⟩ ∧
    (∀ a ∈ overtaken, Foreign file.ino a) ∧
    ∃ s', run (step moveTask) ⟨made, .idle⟩ overtaken = some s' ∧ s'.phase = .ended (.ok 0) ∧
      ¬ AtSource moveTask file.ino s'.cluster ∧ ¬ AtDestination moveTask file.ino s'.cluster ∧
      ¬ NothingLost moveTask file.ino s' := by
  have ha : ∀ a ∈ overtaken, Foreign file.ino a := by
    have hnew : Foreign file.ino (.other (.request (.localCreate (envOf 3) [97] 0x1A4))) := by
      intro ino hino
      cases hino
      decide
    refine List.forall_mem_cons.mpr ⟨trivial, List.forall_mem_cons.mpr ⟨hnew, ?_⟩⟩
    simp [Foreign]
  refine ⟨moveTask_starts, ha, _, rfl, rfl, ?_, ?_, ?_⟩
  · exact nofun
  · intro hb
    exact absurd (Option.some.inj hb) (by decide)
  · rintro ⟨⟨hs, -⟩ | ⟨-, hb⟩, -⟩
    · exact nomatch hs
    · exact absurd (Option.some.inj hb) (by decide)

end RenameSteps

end Nmfs
