import Nmfs.Lease.Terms

/-
  Who holds a lease, by the history of the manager's grants: the client that was granted it last, for
  one period from then on. What a client has been told goes back to such a grant, however late the
  answer comes.
-/

namespace Nmfs.Lease

open Lib

/-- History: when the manager last granted a client a directory's lease for a new period. -/
abbrev GrantTimes (C : Type) := C → Uuid → Option Nat

/-- The history after a step: an entry that has changed is a new grant. -/
def GrantTimes.next {C : Type} (times : GrantTimes C) (remote : C ↪ Addr) (s s' : System C) :
    GrantTimes C := fun c ino =>
  if s'.manager ino ≠ s.manager ino ∧
      (s'.manager ino).map LeaseEntry.addr = some (remote c) then some s'.now
  else times c ino

/-- The manager's entries, and what the clients have been told, come from the grants. -/
structure GrantsKnown {C : Type} (remote : C ↪ Addr) (s : System C) (times : GrantTimes C) :
    Prop where
  entry : ∀ c ino e, s.manager ino = some e → e.addr = remote c →
    ∃ t, times c ino = some t ∧ e.due = t + period
  term : ∀ c ino t, times c ino = some t → s.now < t + period →
    ∃ e, s.manager ino = some e ∧ e.addr = remote c
  told : ∀ c ino d, HasInfo s c ino d true → (times c ino).isSome = true

variable {C : Type} {remote : C ↪ Addr} {s s' : System C} {times : GrantTimes C} {c : C}
  {ino : Uuid}

theorem grantsKnown_init : GrantsKnown remote (System.init C) fun _ _ => none := by
  refine ⟨nofun, nofun, ?_⟩
  rintro c ino d (ht | ⟨call, hmem, -⟩)
  · cases ht
  · cases hmem

/-- A client holds a lease for one period from its last grant on. -/
theorem GrantsKnown.holds_iff (h : GrantsKnown remote s times) :
    Holds remote s c ino ↔ ∃ t, times c ino = some t ∧ s.now < t + period := by
  constructor
  · rintro ⟨e, he, haddr, hnow⟩
    obtain ⟨t, ht, hdue⟩ := h.entry c ino e he haddr
    exact ⟨t, ht, hdue ▸ hnow⟩
  · rintro ⟨t, ht, hnow⟩
    obtain ⟨e, he, haddr⟩ := h.term c ino t ht hnow
    obtain ⟨t', ht', hdue⟩ := h.entry c ino e he haddr
    rw [ht] at ht'
    cases ht'
    exact ⟨e, he, haddr, hdue ▸ hnow⟩

theorem GrantTimes.next_keep (h : s'.manager ino = s.manager ino) :
    times.next remote s s' c ino = times c ino :=
  if_neg fun hnew => hnew.1 h

theorem GrantTimes.next_self : times.next remote s s = times :=
  funext fun _ => funext fun _ => GrantTimes.next_keep rfl

theorem GrantTimes.next_isSome (h : (times c ino).isSome = true) :
    (times.next remote s s' c ino).isSome = true := by
  unfold GrantTimes.next
  split
  · rfl
  · exact h

variable [DecidableEq C]

theorem grantsKnown_step {a : Action C} (h : GrantsKnown remote s times)
    (hs : step remote s a = some s') : GrantsKnown remote s' (times.next remote s s') := by
  have hle := now_le_of_step hs
  have hentry : ∀ c ino e, s'.manager ino = some e → e.addr = remote c →
      ∃ t, times.next remote s s' c ino = some t ∧ e.due = t + period := by
    intro c ino e he haddr
    obtain hkeep | hbegins := entry_or_begins hs ino
    · rw [GrantTimes.next_keep hkeep]
      exact h.entry c ino e (hkeep ▸ he) haddr
    · have hchanged := hbegins.changes hle
      obtain ⟨addr, he'⟩ := hbegins.entry
      rw [he] at he'
      cases he'
      refine ⟨s'.now, if_pos ⟨hchanged, ?_⟩, rfl⟩
      rw [he]
      exact congrArg some haddr
  refine ⟨hentry, fun c ino t ht hnow => ?_, fun c ino d hi => ?_⟩
  · unfold GrantTimes.next at ht
    split at ht
    · rename_i hnew
      obtain ⟨e, he, haddr⟩ := Option.map_eq_some_iff.mp hnew.2
      exact ⟨e, he, haddr⟩
    · obtain ⟨e, he, haddr⟩ := h.term c ino t ht (by omega)
      obtain hkeep | hbegins := entry_or_begins hs ino
      · exact ⟨e, hkeep ▸ he, haddr⟩
      · -- the term is not over, so no other one begins
        obtain ⟨t', ht', hdue⟩ := h.entry c ino e he haddr
        rw [ht] at ht'
        cases ht'
        have := hbegins.ended e he
        omega
  · obtain hold | ⟨e, he, -, hmine⟩ := hasInfo_cases hs hi
    · exact GrantTimes.next_isSome (h.told c ino d hold)
    · obtain ⟨t, ht, -⟩ := hentry c ino e he (hmine.mp rfl)
      rw [ht]
      rfl

end Nmfs.Lease
