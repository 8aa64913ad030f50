import Nmfs.Rpc.Permission
import Nmfs.InMemory.NameBounds

/-
  `directory_table::path_traversal`: the loop over the names of a path, with the table of the
  directory it is in and the inode it has reached. Where a name is that of a directory, both move
  there; where it is not, only the inode does, and the next name is looked up in the same directory.
  The search permission is asked for at the directory that is entered, so never at the root. A mode
  and a permission of a REMOTE inode are asked for at the leader.
-/

namespace Nmfs

open Lib

namespace PathTraversal

open Inode Nmfs.Path

variable {C : Type} [DecidableEq C]

/-! ## One name -/

/-- What the traversal has reached. -/
inductive Found where
  | local (i : Inode)
  | remote (i : RemoteTarget)

def getDentryTable (s : Cluster C) (ino : Uuid) : Except Err DentryTable :=
  match s.tables ino with
  | none => .error .noEntry
  | some t => .ok t

def getThisDirInode (s : Cluster C) (me : C) (dir : Uuid) (t : DentryTable) : Found :=
  if s.leader dir = me then .local t.thisDirInode else .remote ⟨⟨dir, [], dir⟩, true⟩

def getChildInode (s : Cluster C) (me : C) (dir : Uuid) (t : DentryTable) (filename : Bytes)
    (targetIno : Uuid) : Except Err Found :=
  if s.leader dir = me then
    match t.getChildInode filename with
    | .error e => .error e
    | .ok c => .ok (.local c.inode)
  else .ok (.remote ⟨⟨dir, filename, targetIno⟩, false⟩)

/-- A request to the leader of a directory that is there. -/
def ask {α : Type} (s : Cluster C) (dir : Uuid) (m : Stub α) : Except Err α :=
  match s.led dir with
  | none => .error .noEntry
  | some led => (m led).1

def getMode (s : Cluster C) : Found → Except Err UInt32
  | .local i => .ok i.core.iMode
  | .remote i => ask s i.dentryTableIno (RpcClient.getMode i.fileName)

def permissionCheck (s : Cluster C) (me : C) (mask : UInt32) :
    Found → Except Err Unit
  | .local i => i.permissionCheck (s.ids me) mask
  | .remote i => ask s i.dentryTableIno
      (RpcClient.permissionCheck (s.ids (s.leader i.dentryTableIno)) i mask)

/-- The body of the loop, from the name on. The table at hand is that of `parent`. -/
def lookUp (s : Cluster C) (me : C) (parent : Uuid) (targetName : Bytes) :
    Except Err (Uuid × Found) := do
  let t ← getDentryTable s parent
  let checkTargetIno := t.checkChildInode targetName
  if checkTargetIno = Uuid.nil then throw .noEntry
  let target ← getChildInode s me parent t targetName checkTargetIno
  let mode ← getMode s target
  if isDir mode then
    let t ← getDentryTable s checkTargetIno
    let target := getThisDirInode s me checkTargetIno t
    permissionCheck s me X_OK target
    return (checkTargetIno, target)
  else return (parent, target)

/-! ## The loop -/

/-- Each round begins behind the last one, so there are fewer rounds than the path has bytes. -/
def loop (s : Cluster C) (me : C) (path : Bytes) (pathLen : Int) :
    Nat → Int → Uuid → Found → Except Err Found
  | 0, _, _, _ => .error .undefined
  | fuel + 1, endName, parent, target =>
    match setNameBound endName path pathLen with
    | .error e => .error e
    | .ok none => .ok target
    | .ok (some (startName, endName)) => do
      let (parent, target) ← lookUp s me parent (nameAt path startName endName)
      loop s me path pathLen fuel endName parent target

def pathTraversal (s : Cluster C) (me : C) (path : Bytes) :
    Except Err Found := do
  let t ← getDentryTable s Uuid.rootIno
  loop s me path (intLength path) (path.length + 1) (-1) Uuid.rootIno
    (getThisDirInode s me Uuid.rootIno t)

/-! ## The loop over names -/

/-- The rounds of a path that is made of these names. -/
def rounds (s : Cluster C) (me : C) :
    List Bytes → Uuid → Found → Except Err Found
  | [], _, target => .ok target
  | name :: path, parent, _ => do
    let (parent, target) ← lookUp s me parent name
    rounds s me path parent target

/-- The loop looks up the names that its bounds take, one after the other. -/
theorem loop_eq (s : Cluster C) (me : C) {path : Bytes} {pathLen endName : Int}
    {n : Nat} {taken all : List Bytes}
    (h : Lib.loop (nameRound path pathLen) n (endName, taken) = some (.ok all)) :
    ∃ names, all = taken ++ names ∧ ∀ parent target,
      loop s me path pathLen n endName parent target = rounds s me names parent target := by
  induction n generalizing endName taken with
  | zero => exact nomatch h
  | succ n ih =>
      match hb : setNameBound endName path pathLen with
      | .error e =>
          rw [loop_leave (nameRound_error hb)] at h
          exact nomatch h
      | .ok none =>
          rw [loop_leave (nameRound_stop hb)] at h
          obtain rfl : taken = all := Except.ok.inj (Option.some.inj h)
          refine ⟨[], (List.append_nil _).symm, fun parent target => ?_⟩
          simp only [loop, hb, rounds]
      | .ok (some (startName, endName')) =>
          rw [loop_round (nameRound_next hb)] at h
          obtain ⟨names, hall, hloop⟩ := ih h
          refine ⟨nameAt path startName endName' :: names, by simp [hall], fun parent target => ?_⟩
          simp only [loop, hb, rounds]
          congr 1
          funext ⟨parent', target'⟩
          exact hloop parent' target'

theorem length_le_text (path : List Bytes) : path.length ≤ (text path).length := by
  cases path with
  | nil => exact Nat.zero_le _
  | cons name path =>
      rw [text_cons]
      induction name :: path with
      | nil => exact Nat.le_refl _
      | cons name names ih =>
          rw [List.flatMap_cons, List.length_append, List.length_cons, List.length_cons]
          omega

/-- A path is traversed name by name. -/
theorem pathTraversal_text {s : Cluster C} {me : C} (path : List Bytes)
    (hpath : ∀ name ∈ path, IsComponent name) (hlen : (text path).length ≤ 2 ^ 31 - 2)
    {t : DentryTable} (ht : s.tables Uuid.rootIno = some t) :
    pathTraversal s me (text path) =
      rounds s me path Uuid.rootIno (getThisDirInode s me Uuid.rootIno t) := by
  have htable : getDentryTable s Uuid.rootIno = .ok t := by
    unfold getDentryTable
    rw [ht]
  have hcount := length_le_text path
  have hnames := loop_stable _ _ _ ((text path).length + 1) _ (by omega) (nameRound_text hpath hlen)
  obtain ⟨names, hall, hloop⟩ := loop_eq s me hnames
  obtain rfl : path = names := hall
  unfold pathTraversal
  rw [htable]
  exact (pure_bind t _).trans (hloop _ _)

end PathTraversal

end Nmfs
