import Nmfs.Lib.Run
import Mathlib.Data.List.Perm.Basic

/-
  `mqueue`, the queue between the commit thread and a checkpoint thread, for any number of threads
  on either side. A step is what a thread does with the mutex in hand: `issue` pushes and wakes one
  sleeper, whichever the condition variable picks; a turn of the loop in `dispatch` pops, or finds
  nothing and sleeps. Sleepers may also wake for no reason.
-/

namespace Nmfs.Mqueue

open Lib

/-- `T` names the callers of `dispatch`. -/
structure State (T α : Type) where
  q : List α
  /-- in `cv.wait` -/
  sleeping : List T
  /-- in `dispatch`, and next to look at the queue -/
  awake : List T
  /-- history: the values issued and the values dispatched, oldest first -/
  issued : List α
  dispatched : List (T × α)

def init (T α : Type) : State T α := ⟨[], [], [], [], []⟩

inductive Action (T α : Type) where
  | call (t : T)
  /-- `k` is the sleeper that `notify_one` wakes, if there is any -/
  | issue (value : α) (k : Nat)
  | look (t : T)
  | wakeUp (k : Nat)

variable {T α : Type} [DecidableEq T]

def wake (s : State T α) (k : Nat) : Option (State T α) :=
  s.sleeping[k]?.map fun t =>
    { s with sleeping := s.sleeping.eraseIdx k, awake := s.awake ++ [t] }

def push (s : State T α) (value : α) : State T α :=
  { s with q := s.q ++ [value], issued := s.issued ++ [value] }

def step (s : State T α) : Action T α → Option (State T α)
  | .call t => some { s with awake := s.awake ++ [t] }
  | .issue value k => if s.sleeping = [] then some (push s value) else wake (push s value) k
  | .look t =>
    if t ∈ s.awake then
      match s.q with
      | [] => some { s with awake := s.awake.erase t, sleeping := s.sleeping ++ [t] }
      | value :: q =>
        some { s with
          q := q
          awake := s.awake.erase t
          dispatched := s.dispatched ++ [(t, value)] }
    else none
  | .wakeUp k => wake s k

variable {s s' : State T α}

/-- The values come out in order, and when somebody sleeps there are no more values than callers
    about to look. -/
structure Inv (s : State T α) : Prop where
  fifo : s.issued = s.dispatched.map Prod.snd ++ s.q
  woken : s.sleeping ≠ [] → s.q.length ≤ s.awake.length

omit [DecidableEq T] in
theorem inv_init : Inv (init T α) := ⟨rfl, fun h => absurd rfl h⟩

omit [DecidableEq T] in
theorem wake_cases {k : Nat} (h : wake s k = some s') :
    s'.q = s.q ∧ s'.issued = s.issued ∧ s'.dispatched = s.dispatched ∧ s.sleeping ≠ [] ∧
      s'.awake.length = s.awake.length + 1 := by
  obtain ⟨t, ht, rfl⟩ := Option.map_eq_some_iff.mp h
  refine ⟨rfl, rfl, rfl, ?_, by simp⟩
  intro hnil
  rw [hnil] at ht
  cases ht

theorem inv_step {a : Action T α} (h : Inv s) (hs : step s a = some s') : Inv s' := by
  obtain ⟨hfifo, hwoken⟩ := h
  cases a with
  | call t =>
      cases hs
      refine ⟨hfifo, fun hsleep => ?_⟩
      have hlen : (s.awake ++ [t]).length = s.awake.length + 1 := by simp
      exact Nat.le_trans (hwoken hsleep) (by rw [hlen]; exact Nat.le_succ _)
  | issue value k =>
      have hpushed : (push s value).issued = s.dispatched.map Prod.snd ++ (push s value).q := by
        simp [push, hfifo]
      simp only [step] at hs
      split at hs
      · rename_i hnil
        cases hs
        exact ⟨hpushed, fun hsleep => absurd hnil hsleep⟩
      · rename_i hsome
        obtain ⟨hq, hissued, hdispatched, -, hawake⟩ := wake_cases hs
        refine ⟨by rw [hissued, hdispatched, hq]; exact hpushed, fun _ => ?_⟩
        have hlen : (push s value).q.length = s.q.length + 1 := by simp [push]
        have := hwoken hsome
        rw [hq, hlen, hawake]
        exact Nat.succ_le_succ this
  | look t =>
      simp only [step] at hs
      split at hs
      · rename_i hmem
        have hlen := List.length_erase_of_mem hmem
        split at hs
        · rename_i hq
          cases hs
          refine ⟨hfifo, fun _ => ?_⟩
          dsimp only
          rw [hq]
          exact Nat.zero_le _
        · rename_i value q hq
          cases hs
          refine ⟨by rw [hfifo, hq]; simp, fun hsleep => ?_⟩
          have := hwoken hsleep
          rw [hq, List.length_cons] at this
          dsimp only
          omega
      · cases hs
  | wakeUp k =>
      obtain ⟨hq, hissued, hdispatched, hsome, hawake⟩ := wake_cases hs
      refine ⟨by rw [hissued, hdispatched, hq]; exact hfifo, fun _ => ?_⟩
      have := hwoken hsome
      rw [hq, hawake]
      omega

/-- A caller that is awake can look. -/
theorem look_of_mem {t : T} (h : t ∈ s.awake) :
    ∃ s', step s (.look t) = some s' ∧ s'.awake = s.awake.erase t := by
  simp only [step, if_pos h]
  cases s.q with
  | nil => exact ⟨_, rfl, rfl⟩
  | cons value q => exact ⟨_, rfl, rfl⟩

theorem looks_run (order : List T) (h : order.Perm s.awake) :
    ∃ s', run step s (order.map .look) = some s' ∧ s'.awake = [] := by
  induction order generalizing s with
  | nil => exact ⟨s, rfl, h.symm.eq_nil⟩
  | cons t order ih =>
      obtain ⟨hmem, hrest⟩ := List.cons_perm_iff_perm_erase.mp h
      obtain ⟨s₁, hs₁, hawake⟩ := look_of_mem hmem
      rw [← hawake] at hrest
      obtain ⟨s', hs', hnone⟩ := ih hrest
      exact ⟨s', run_cons.mpr ⟨s₁, hs₁, hs'⟩, hnone⟩

/-- The values are dispatched in the order in which they were issued, each once. No wake-up is lost:
    once every caller that is awake has had its turn, in whatever order, no value waits in the queue
    while a caller sleeps. -/
theorem fifo_no_lost_wakeUp (acts : List (Action T α)) (s : State T α)
    (hrun : run step (init T α) acts = some s) :
    s.issued = s.dispatched.map Prod.snd ++ s.q ∧
      ∀ order : List T, order.Perm s.awake →
        ∃ s', run step s (order.map .look) = some s' ∧ s'.awake = [] ∧
          (s'.q = [] ∨ s'.sleeping = []) := by
  have hinv : Inv s := run_invariant (fun _ _ _ => inv_step) inv_init hrun
  refine ⟨hinv.fifo, fun order hperm => ?_⟩
  obtain ⟨s', hs', hnone⟩ := looks_run order hperm
  refine ⟨s', hs', hnone, ?_⟩
  have hinv' : Inv s' := run_invariant (fun _ _ _ => inv_step) hinv hs'
  by_cases hsleep : s'.sleeping = []
  · exact Or.inr hsleep
  · have hle := hinv'.woken hsleep
    rw [hnone] at hle
    exact Or.inl (List.eq_nil_of_length_eq_zero (Nat.le_zero.mp hle))

/-- Two callers sleep, two values wake them, and a third caller is faster than the first one. -/
def overtaken : List (Action Nat Nat) :=
  [.call 0, .call 1, .look 0, .look 1, .issue 7 0, .issue 8 0, .call 2, .look 2]

theorem fifo_no_lost_wakeUp_overtaken :
    ∃ s, run step (init Nat Nat) overtaken = some s ∧ s.awake = [0, 1] ∧
      (s.issued = s.dispatched.map Prod.snd ++ s.q ∧
        ∀ order : List Nat, order.Perm s.awake →
          ∃ s', run step s (order.map .look) = some s' ∧ s'.awake = [] ∧
            (s'.q = [] ∨ s'.sleeping = [])) :=
  ⟨_, rfl, rfl, fifo_no_lost_wakeUp overtaken _ rfl⟩

end Nmfs.Mqueue
