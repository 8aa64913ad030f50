import Nmfs.Journal.RoundTrip

/-
  The journal of a client between two commits: `journal_table`, and what the functions of `journal`
  do to it.
-/

namespace Nmfs

open Lib

/-- `journal_table`, to the directory's pending transaction. -/
abbrev JournalTable := AList (fun _ : Uuid => Transaction)

namespace JournalTable

/-- `get_entry`, where a new transaction is not entered yet. -/
def getEntry (jtable : JournalTable) (dir : Uuid) : Transaction :=
  (jtable.lookup dir).getD (Transaction.new dir)

/-- `journal::mkself` to `journal::chreg`. The loop ends at the first round: what is in the table has
    not been committed. -/
def record (jtable : JournalTable) (dir : Uuid) (m : Transaction.Mutation) :
    Except Err Unit × JournalTable :=
  let (result, tx) := m.apply (jtable.getEntry dir)
  (result.map fun _ => (), jtable.insert dir tx)

variable (jtable : JournalTable) (dir : Uuid) (m : Transaction.Mutation)

@[simp] theorem getEntry_record : (jtable.record dir m).2.getEntry dir =
    (m.apply (jtable.getEntry dir)).2 := by
  unfold record getEntry
  rw [AList.lookup_insert]
  rfl

theorem getEntry_record_ne {dir' : Uuid} (h : dir' ≠ dir) :
    (jtable.record dir m).2.getEntry dir' = jtable.getEntry dir' := by
  unfold record getEntry
  rw [AList.lookup_insert_ne h]

theorem record_of_ok {jtable : JournalTable} {dir : Uuid} {m : Transaction.Mutation} {code : Int}
    {tx : Transaction} (h : m.apply (jtable.getEntry dir) = (.ok code, tx)) :
    jtable.record dir m = (.ok (), jtable.insert dir tx) := by
  unfold record
  rw [h]
  rfl

theorem record_mkself {self : Inode} : (jtable.record dir (.mkself self)).1 = .ok () := by
  show Except.map _ ((jtable.getEntry dir).mkself self).1 = _
  unfold Transaction.mkself Transaction.unlessCommitted
  split <;> rfl

theorem record_rmself : (jtable.record dir .rmself).1 = .ok () := by
  show Except.map _ (jtable.getEntry dir).rmself.1 = _
  unfold Transaction.rmself Transaction.unlessCommitted
  split <;> rfl

theorem record_chreg {f : Inode} : (jtable.record dir (.chreg f)).1 = .ok () := by
  show Except.map _ ((jtable.getEntry dir).chreg f).1 = _
  unfold Transaction.chreg Transaction.unlessCommitted
  split <;> rfl

theorem record_error {e : Err} (h : (jtable.record dir m).1 = .error e) :
    ∃ what, e = .logicError what := by
  unfold record at h
  dsimp only at h
  apply @Transaction.apply_error (jtable.getEntry dir) m
  revert h
  cases (m.apply (jtable.getEntry dir)).1 with
  | error e' => exact fun h => congrArg _ (Except.error.inj h)
  | ok code => exact fun h => (nomatch h)

theorem getEntry_insert {tx : Transaction} :
    JournalTable.getEntry (jtable.insert dir tx) dir = tx := by
  unfold getEntry
  rw [AList.lookup_insert]
  rfl

theorem getEntry_insert_ne {tx : Transaction} {dir' : Uuid} (h : dir' ≠ dir) :
    JournalTable.getEntry (jtable.insert dir tx) dir' = jtable.getEntry dir' := by
  unfold getEntry
  rw [AList.lookup_insert_ne h]

theorem getEntry_erase : JournalTable.getEntry (jtable.erase dir) dir = Transaction.new dir := by
  unfold getEntry
  rw [AList.lookup_erase]
  rfl

end JournalTable

end Nmfs
