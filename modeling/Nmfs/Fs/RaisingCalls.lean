import Nmfs.Fs.VolumeSteps
import Nmfs.Journal.TransactionFlow

/-
  What a mutator of `transaction` leaves behind when it raises. All of them look the name up before
  they change anything. `mkreg` and `rmreg` look the file up as well, when the name and the
  directory's own inode are in already. That check fails where the transaction has heard of the file
  through another name, or through no name at all: a change through an open handle is told to the
  directory that the file was in.
-/

namespace Nmfs

open Lib

namespace Transaction

/-- What a mutator can change is as it was. -/
structure Unchanged (tx tx' : Transaction) : Prop where
  dentries : tx'.dentries = tx.dentries
  sInode : tx'.sInode = tx.sInode
  fInodes : tx'.fInodes = tx.fInodes
  status : tx'.status = tx.status

theorem Unchanged.refl (tx : Transaction) : Unchanged tx tx := ⟨rfl, rfl, rfl, rfl⟩

/-- If the call raises, the transaction is as it was. -/
def RaisesUnchanged (tx : Transaction) (m : Mutation) : Prop :=
  ∀ what, (m.apply tx).1 = .error (.logicError what) → Unchanged tx (m.apply tx).2

/-- The call is turned away, or its first check refuses it, or the second one has nothing to
    refuse. -/
def CheckedFirst (tx : Transaction) : Mutation → Prop
  | .mkreg _ fName fInode => tx.committed = true ∨ ¬ tx.Turns fName true ∨
      ∀ g, tx.fInodes.lookup fInode.ino ≠ some (some g)
  | .rmreg _ fName fInode => tx.committed = true ∨ ¬ tx.Turns fName false ∨
      tx.fInodes.lookup fInode.ino ≠ some none
  | _ => True

/-- A call is made, whatever comes of it. -/
def call (tx : Transaction) (m : Mutation) : Option Transaction := some (m.apply tx).2

/-! ## One call -/

section

variable {tx : Transaction} {m : Mutation} {self f : Inode} {name : Bytes} {ino : Uuid}

theorem raisesUnchanged_of_ok {code : Int} {tx' : Transaction} (h : m.apply tx = (.ok code, tx')) :
    RaisesUnchanged tx m := by
  intro what hraise
  rw [h] at hraise
  cases hraise

theorem raisesUnchanged_of_same {e : Err} (h : m.apply tx = (.error e, tx)) :
    RaisesUnchanged tx m := by
  intro what _
  rw [h]
  exact .refl tx

/-- The name is in when the file is refused. -/
theorem not_unchanged_withEntry {alive : Bool} (ht : tx.Turns name alive) :
    ¬ Unchanged tx (tx.withEntry self name alive ino) := by
  intro h
  have hlookup := h.dentries
  rw [withEntry_dentries] at hlookup
  apply ht ino
  rw [← hlookup, AList.lookup_insert]

theorem not_raisesUnchanged_of_late {alive : Bool} {what : String} (ht : tx.Turns name alive)
    (h : m.apply tx = (.error (.logicError what), tx.withEntry self name alive ino)) :
    ¬ RaisesUnchanged tx m := by
  intro hkeep
  have hsame := hkeep what (by rw [h])
  rw [h] at hsame
  exact not_unchanged_withEntry ht hsame

theorem mkdir_raisesUnchanged (hc : tx.committed = false) :
    RaisesUnchanged tx (.mkdir self name ino) := by
  by_cases ht : tx.Turns name true
  · exact raisesUnchanged_of_ok (mkdir_eq hc ht)
  · exact raisesUnchanged_of_same (mkdir_taken hc ht)

theorem rmdir_raisesUnchanged (hc : tx.committed = false) :
    RaisesUnchanged tx (.rmdir self name ino) := by
  by_cases ht : tx.Turns name false
  · exact raisesUnchanged_of_ok (rmdir_eq hc ht)
  · exact raisesUnchanged_of_same (rmdir_gone hc ht)

theorem mkreg_raisesUnchanged_iff (hc : tx.committed = false) :
    RaisesUnchanged tx (.mkreg self name f) ↔
      ¬ tx.Turns name true ∨ ∀ g, tx.fInodes.lookup f.ino ≠ some (some g) := by
  by_cases ht : tx.Turns name true
  · rw [or_iff_right (not_not_intro ht)]
    by_cases hfile : ∀ g, tx.fInodes.lookup f.ino ≠ some (some g)
    · exact iff_of_true (raisesUnchanged_of_ok (mkreg_eq ⟨hc, ht, hfile⟩)) hfile
    · obtain ⟨g, hg⟩ := not_forall_not.mp hfile
      exact iff_of_false (not_raisesUnchanged_of_late ht (mkreg_late hc ht hg)) hfile
  · exact iff_of_true (raisesUnchanged_of_same (mkreg_taken hc ht)) (Or.inl ht)

theorem rmreg_raisesUnchanged_iff (hc : tx.committed = false) :
    RaisesUnchanged tx (.rmreg self name f) ↔
      ¬ tx.Turns name false ∨ tx.fInodes.lookup f.ino ≠ some none := by
  by_cases ht : tx.Turns name false
  · rw [or_iff_right (not_not_intro ht)]
    by_cases hfile : tx.fInodes.lookup f.ino = some none
    · exact iff_of_false (not_raisesUnchanged_of_late ht (rmreg_late hc ht hfile))
        (not_not_intro hfile)
    · exact iff_of_true (raisesUnchanged_of_ok (rmreg_eq ⟨hc, ht, hfile⟩)) hfile
  · exact iff_of_true (raisesUnchanged_of_same (rmreg_gone hc ht)) (Or.inl ht)

theorem raisesUnchanged_iff (tx : Transaction) (m : Mutation) :
    RaisesUnchanged tx m ↔ CheckedFirst tx m := by
  by_cases hc : tx.committed = true
  · refine iff_of_true (raisesUnchanged_of_ok (apply_committed hc)) ?_
    cases m with
    | mkreg self name f => exact Or.inl hc
    | rmreg self name f => exact Or.inl hc
    | _ => trivial
  · have hopen := Bool.eq_false_iff.mpr hc
    cases m with
    | mkself self => exact iff_of_true (raisesUnchanged_of_ok (mkself_eq hopen)) trivial
    | rmself => exact iff_of_true (raisesUnchanged_of_ok (rmself_eq hopen)) trivial
    | chself self => exact iff_of_true (raisesUnchanged_of_ok (chself_eq hopen)) trivial
    | chreg f => exact iff_of_true (raisesUnchanged_of_ok (chreg_eq hopen)) trivial
    | mkdir self name ino => exact iff_of_true (mkdir_raisesUnchanged hopen) trivial
    | rmdir self name ino => exact iff_of_true (rmdir_raisesUnchanged hopen) trivial
    | mkreg self name f => exact (mkreg_raisesUnchanged_iff hopen).trans (or_iff_right hc).symm
    | rmreg self name f => exact (rmreg_raisesUnchanged_iff hopen).trans (or_iff_right hc).symm

end

/-! ## Every run of calls -/

/-- In a run of calls from any transaction, each one that raises leaves the transaction as it was if
    and only if each one finds nothing in its second check. -/
theorem raising_calls_iff (tx : Transaction) (ms : List Mutation) :
    StepsMeet call RaisesUnchanged tx ms ↔ StepsMeet call CheckedFirst tx ms :=
  stepsMeet_congr (I := fun _ => True) (F := fun _ _ => True)
    (fun tx m _ _ => raisesUnchanged_iff tx m) (fun _ _ _ _ _ _ _ => trivial) trivial
    (.of_forall fun _ _ _ => trivial)

end Transaction

/-! ## A file that comes back -/

namespace Volume

open Placement Refinement Transaction

def otherDir : Uuid := (envOf 1).newIno

/-- The file as `create` makes it. -/
def movedFile : Inode := Inode.make (envOf 2) (0x1A4 ||| Inode.S_IFREG)

/-- The client `true` makes "/d" and moves the file "/a" of `false` into it. -/
def movesAway : List (Action Bool) :=
  [.mkdir true (envOf 1) Uuid.rootIno [100] 0x41ED clock,
    .perform Uuid.rootIno (.request (.localCreate (envOf 2) [97] 0x1A4)),
    .perform Uuid.rootIno (.rpcRenameSrc [97])]

/-- It is changed through a handle that `false` still has, and taken out of "/d" again. -/
def comesBack : List (Action Bool) :=
  [.perform otherDir (.localRenameDst movedFile Uuid.nil [97]),
    .handle movedFile Uuid.rootIno (.chmod 0x81A4),
    .perform otherDir (.localRenameSrc [97])]

/-- The directories "/" and "/d", neither of which has the file. -/
structure Between (s : Volume Bool) : Prop where
  root : ∃ t, s.cluster.tables Uuid.rootIno = some t ∧
    t.dentries.childList.entries = [⟨[100], otherDir⟩]
  other : ∃ t, s.cluster.tables otherDir = some t ∧ t.dentries.childList.entries = []
  rest : ∀ dir, dir ≠ Uuid.rootIno → dir ≠ otherDir → s.cluster.tables dir = none
  removed : s.removed = []

theorem Between.homeless {s : Volume Bool} (h : s.Between) : s.Homeless movedFile.ino := by
  refine ⟨fun dir name hlisted => ?_, by rw [h.removed]; exact List.not_mem_nil⟩
  obtain ⟨t, ht, hname⟩ := Option.bind_eq_some_iff.mp hlisted
  have hmem := AList.mem_lookup_iff.mp hname
  by_cases hroot : dir = Uuid.rootIno
  · obtain ⟨root, htable, hentries⟩ := h.root
    obtain rfl : root = t := Option.some.inj ((hroot ▸ htable).symm.trans ht)
    rw [hentries] at hmem
    cases List.mem_singleton.mp hmem
  · by_cases hother : dir = otherDir
    · obtain ⟨other, htable, hentries⟩ := h.other
      obtain rfl : other = t := Option.some.inj ((hother ▸ htable).symm.trans ht)
      rw [hentries] at hmem
      cases hmem
    · rw [h.rest dir hroot hother] at ht
      cases ht

theorem fresh_rest {dir : Uuid} (h : dir ≠ Uuid.rootIno) : fresh.cluster.tables dir = none := by
  show Function.update (fun _ => none) Uuid.rootIno (some (DentryTable.ofNew rootInode)) dir = none
  rw [Function.update_of_ne h]

theorem movesAway_run : ∃ s, run step fresh movesAway = some s ∧ s.Between := by
  refine ⟨_, rfl, ⟨_, rfl, rfl⟩, ⟨_, rfl, rfl⟩, fun dir hroot hother => ?_, rfl⟩
  have hfresh := fresh_rest hroot
  exact (Function.update_of_ne hroot _ _).trans ((Function.update_of_ne hroot _ _).trans
    ((Function.update_of_ne hother _ _).trans ((Function.update_of_ne hroot _ _).trans hfresh)))

/-- The name is free in the root's transaction, and the file is in it. -/
theorem comesBack_run : ∃ s led, run step fresh (movesAway ++ comesBack) = some s ∧ s.Between ∧
    s.cluster.led Uuid.rootIno = some led ∧ led.tx.committed = false ∧
    led.tx.dentries.lookup [97] = some (false, movedFile.ino) ∧
    (∃ g, led.tx.fInodes.lookup movedFile.ino = some (some g)) ∧
    ((Operation.rpcRenameDst movedFile Uuid.nil [97]).perform led).1 =
      .error (.logicError "transaction::mkreg() failed (file already exists)") := by
  refine ⟨_, _, rfl, ⟨⟨_, rfl, rfl⟩, ⟨_, rfl, rfl⟩, fun dir hroot hother => ?_, rfl⟩, rfl, rfl, rfl,
    ⟨_, rfl⟩, rfl⟩
  obtain ⟨s, hs, hbetween⟩ := movesAway_run
  cases hs
  exact (Function.update_of_ne hother _ _).trans
    ((Function.update_of_ne hother _ _).trans (hbetween.rest dir hroot hother))

theorem movesAway_legal : StepsMeet step Legal fresh movesAway := by
  refine .cons ?_ rfl (.cons ?_ rfl (.cons ?_ rfl trivial))
  · exact ⟨⟨⟨by decide, by decide⟩, by decide⟩, by decide, by decide⟩
  · rintro led -
    refine ⟨⟨by decide, by decide⟩, ?_⟩
    rintro ino ⟨⟩
    decide
  · rintro led -
    exact ⟨by decide, by decide⟩

theorem comesBack_legal : StepsMeet step Legal fresh (movesAway ++ comesBack) := by
  refine movesAway_legal.append fun t ht => ?_
  obtain ⟨s, hs, hbetween⟩ := movesAway_run
  obtain rfl := Option.some.inj (hs.symm.trans ht)
  cases hs
  refine .cons ?_ rfl (.cons ?_ rfl (.cons ?_ rfl trivial))
  · rintro led -
    exact ⟨⟨by decide, by decide⟩, hbetween.homeless⟩
  · have hvalid : HasType 0x81A4 (movedFile.core.iMode &&& Inode.S_IFMT) := by decide
    exact ⟨hvalid, .file rfl (by decide) ⟨rfl, by decide⟩ (.inl rfl)⟩
  · rintro led -
    exact ⟨by decide, by decide⟩

/-- The rename back to "/a" is refused when the name is already in. -/
theorem refused_with_name : fresh.Start ∧
    StepsMeet step Legal fresh
      (movesAway ++ comesBack ++ [.perform Uuid.rootIno (.rpcRenameDst movedFile Uuid.nil [97])]) ∧
    ∃ s led, run step fresh (movesAway ++ comesBack) = some s ∧
      s.cluster.led Uuid.rootIno = some led ∧
      ((Operation.rpcRenameDst movedFile Uuid.nil [97]).perform led).1 =
        .error (.logicError "transaction::mkreg() failed (file already exists)") ∧
      ¬ RaisesUnchanged led.tx (.mkreg led.table.thisDirInode [97] movedFile) := by
  obtain ⟨s, led, hr, hbetween, hled, hopen, hname, ⟨g, hg⟩, hraise⟩ := comesBack_run
  refine ⟨fresh_start, comesBack_legal.append fun t ht => ?_, s, led, hr, hled, hraise, ?_⟩
  · obtain rfl := Option.some.inj (hr.symm.trans ht)
    exact ⟨fun led _ => ⟨⟨by decide, by decide⟩, hbetween.homeless⟩, fun _ _ => trivial⟩
  · have hturns : led.tx.Turns [97] true := by
      intro ino hino
      rw [hname] at hino
      cases hino
    exact not_raisesUnchanged_of_late hturns (mkreg_late hopen hturns hg)

end Volume

end Nmfs
