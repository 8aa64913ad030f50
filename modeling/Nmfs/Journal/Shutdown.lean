import Nmfs.Journal.ExactlyOnce

/-
  `journal::~journal`: it sets the flag that the commit thread looks at once in a cycle, and joins
  the commit thread and then the checkpoint threads. The commit thread leaves its loop without a last
  `replace_map`, so what has been recorded since the one before stays in the map.

  `atCall` is the history when the destructor was called.
-/

namespace Nmfs.Shutdown

open Lib CommitCycle

variable {T : Type}

/-- Where the destructor is. -/
inductive Destructor where
  | notCalled
  | joinCommit
  | joinCheckpoint (i : Nat)
  | returned
  deriving DecidableEq

structure State (T : Type) where
  journal : CommitCycle.State T
  stopped : Bool
  /-- the commit thread has found the flag down, and is about to replace the map -/
  entered : Bool
  destructor : Destructor
  atCall : List Event

inductive Action (T : Type) where
  | journal (a : CommitCycle.Action T)
  /-- `stopped = true` -/
  | destroy
  /-- `while (!(*stopped))` -/
  | testFlag
  | joinCommit
  | joinCheckpoint

def State.init : State T := ⟨.init, false, false, .notCalled, []⟩

variable [DecidableEq T]

/-- The commit thread replaces the map only after it has looked at the flag, and stops only where it
    has found it set. -/
def step (s : State T) : Action T → Option (State T)
  | .journal .stop => none
  | .journal (.replaceMap order) =>
    if s.entered then
      (CommitCycle.step s.journal (.replaceMap order)).map fun j =>
        { s with journal := j, entered := false }
    else none
  | .journal a => (CommitCycle.step s.journal a).map fun j => { s with journal := j }
  | .destroy =>
    if s.destructor = .notCalled then
      some { s with stopped := true, destructor := .joinCommit, atCall := s.journal.events }
    else none
  | .testFlag =>
    if s.entered then none
    else
      match s.journal.committer with
      | .cycle [] =>
        if s.stopped then
          (CommitCycle.step s.journal .stop).map fun j => { s with journal := j }
        else some { s with entered := true }
      | _ => none
  | .joinCommit =>
    match s.destructor, s.journal.committer with
    | .joinCommit, .stopping n =>
      if n = NUM_CP_THREAD then some { s with destructor := .joinCheckpoint 0 } else none
    | _, _ => none
  | .joinCheckpoint =>
    match s.destructor with
    | .joinCheckpoint i =>
      match s.journal.checkpointers i with
      | .stopped =>
        some { s with
          destructor := if i + 1 < NUM_CP_THREAD then .joinCheckpoint (i + 1) else .returned }
      | _ => none
    | _ => none

/-- Every operation that had returned when the destructor was called is in the journal and in the
    meta pool. -/
def NothingLost (s : State T) : Prop :=
  ∀ op, .returned op ∈ s.atCall → ∃ tx, recordedOf op s.journal.events = [tx] ∧
    tx ∈ serialised s.journal.events ∧ tx ∈ checkpointed s.journal.events

/-- The map has nothing of an operation that had returned when the destructor was called. -/
def MapDone (s : State T) : Prop :=
  ∀ ino tx, s.journal.map.lookup ino = some tx →
    ∀ op, .recorded op tx ∈ s.journal.events → .returned op ∉ s.atCall

/-- When the commit thread finds the flag set. -/
def StopsDone (s : State T) (a : Action T) : Prop :=
  a = .testFlag → s.stopped = true → MapDone s

/-! ## Steps -/

/-- The ways a step can go. -/
inductive Steps (s : State T) : Action T → State T → Prop
  | journal (a : CommitCycle.Action T) (j : CommitCycle.State T) (entered : Bool)
      (h : CommitCycle.step s.journal a = some j) (ha : a ≠ .stop) :
      Steps s (.journal a) { s with journal := j, entered := entered }
  | destroy (h : s.destructor = .notCalled) :
      Steps s .destroy
        { s with stopped := true, destructor := .joinCommit, atCall := s.journal.events }
  | enter (h : s.stopped = false) : Steps s .testFlag { s with entered := true }
  | stop (j : CommitCycle.State T) (hs : s.stopped = true)
      (hc : s.journal.committer = .cycle []) (h : CommitCycle.step s.journal .stop = some j) :
      Steps s .testFlag { s with journal := j }
  | joinCommit (hd : s.destructor = .joinCommit)
      (hc : s.journal.committer = .stopping NUM_CP_THREAD) :
      Steps s .joinCommit { s with destructor := .joinCheckpoint 0 }
  | joinCheckpoint (i : Nat) (hd : s.destructor = .joinCheckpoint i)
      (hc : s.journal.checkpointers i = .stopped) :
      Steps s .joinCheckpoint { s with
        destructor := if i + 1 < NUM_CP_THREAD then .joinCheckpoint (i + 1) else .returned }

theorem step_steps {s s' : State T} {a : Action T} (h : step s a = some s') : Steps s a s' := by
  cases a with
  | journal a =>
      cases a with
      | stop => cases h
      | replaceMap order =>
          simp only [step] at h
          split at h
          · obtain ⟨j, hj, rfl⟩ := Option.map_eq_some_iff.mp h
            exact .journal _ j false hj (fun heq => nomatch heq)
          · cases h
      | _ =>
          obtain ⟨j, hj, rfl⟩ := Option.map_eq_some_iff.mp h
          exact .journal _ j s.entered hj (fun heq => nomatch heq)
  | destroy =>
      simp only [step] at h
      split at h
      · rename_i hd
        cases h
        exact .destroy hd
      · cases h
  | testFlag =>
      simp only [step] at h
      split at h
      · cases h
      · split at h
        · rename_i hc
          split at h
          · rename_i hs
            obtain ⟨j, hj, rfl⟩ := Option.map_eq_some_iff.mp h
            exact .stop j hs hc hj
          · rename_i hs
            cases h
            exact .enter (Bool.not_eq_true _ ▸ hs)
        · cases h
  | joinCommit =>
      simp only [step] at h
      split at h
      · rename_i n hd hc
        split at h
        · rename_i hn
          subst hn
          cases h
          exact .joinCommit hd hc
        · cases h
      · cases h
  | joinCheckpoint =>
      simp only [step] at h
      split at h
      · rename_i i hd
        split at h
        · rename_i hc
          cases h
          exact .joinCheckpoint i hd hc
        · cases h
      · cases h

/-! ## The commit thread has left its loop -/

def Stopping (j : CommitCycle.State T) : Prop := ∃ n, j.committer = .stopping n

section

variable {j j' : CommitCycle.State T}

/-- It takes nothing any more, and goes on to the next null pointer. -/
theorem stopping_moves (hm : Moves j j') {n : Nat} (h : j.committer = .stopping n) :
    taken j'.events = taken j.events ∧
      (j'.committer = .stopping n ∨ n < NUM_CP_THREAD ∧ j'.committer = .stopping (n + 1)) := by
  cases hm with
  | take order hc ho =>
      rw [h] at hc
      cases hc
  | flag p rest x hc hx hc' =>
      rw [h] at hc
      cases hc
  | write p rest x objSize hc hx =>
      rw [h] at hc
      cases hc
  | issue p rest hc =>
      rw [h] at hc
      cases hc
  | stop hc =>
      rw [h] at hc
      cases hc
  | issueNull m hc hm =>
      rw [h] at hc
      cases hc
      exact ⟨rfl, .inr ⟨hm, rfl⟩⟩
  | call thread ino m hs => exact ⟨by simp [State.log, State.setStage, taken], .inl h⟩
  | record thread op tx x x' hs hx ha =>
      exact ⟨by simp [State.log, State.setStage, taken], .inl h⟩
  | ret thread op hs => exact ⟨by simp [State.log, State.setStage, taken], .inl h⟩
  | checkpoint i tx hc => exact ⟨by simp [State.log, taken], .inl h⟩
  | _ => exact ⟨rfl, .inl h⟩

theorem Stopping.moves (h : Stopping j) (hm : Moves j j') : Stopping j' := by
  obtain ⟨n, hn⟩ := h
  rcases (stopping_moves hm hn).2 with h | ⟨-, h⟩
  · exact ⟨_, h⟩
  · exact ⟨_, h⟩

/-- Only `stop` ends the loop. -/
theorem stopping_of_step {a : CommitCycle.Action T} (h : CommitCycle.step j a = some j')
    (ha : a ≠ .stop) (hs : Stopping j') : Stopping j := by
  obtain ⟨n, hn⟩ := hs
  cases a with
  | stop => exact absurd rfl ha
  | issueNull =>
      simp only [CommitCycle.step] at h
      split at h
      · exact ⟨_, ‹_›⟩
      · cases h
  | _ =>
      simp only [CommitCycle.step] at h
      repeat' split at h
      all_goals
        first
        | (cases h; done)
        | (cases h
           first
           | exact ⟨n, hn⟩
           | cases hn)

theorem stopped_of_moves (hm : Moves j j') {i : Nat} (h : j.checkpointers i = .stopped) :
    j'.checkpointers i = .stopped := by
  have hother : ∀ {k : Nat} {c : Checkpointer}, j.checkpointers k ≠ .stopped →
      Function.update j.checkpointers k c i = .stopped := by
    intro k c hk
    rw [Function.update_of_ne]
    · exact h
    · rintro rfl
      exact hk h
  cases hm with
  | dispatch k tx queue hc hq => exact hother (by rw [hc]; exact fun heq => nomatch heq)
  | dispatchNull k queue hc hq => exact hother (by rw [hc]; exact fun heq => nomatch heq)
  | checkpoint k tx hc => exact hother (by rw [hc]; exact fun heq => nomatch heq)
  | _ => exact h

end

/-! ## The destructor -/

namespace Destructor

def called : Destructor → Bool
  | notCalled => false
  | _ => true

/-- How many checkpoint threads have been joined, once the commit thread has. -/
def joined : Destructor → Option Nat
  | joinCheckpoint i => some i
  | returned => some NUM_CP_THREAD
  | _ => none

end Destructor

structure Inv (s : State T) : Prop where
  journal : CommitCycle.Invariant s.journal
  flag : s.stopped = s.destructor.called
  atCall : s.atCall ⊆ s.journal.events
  joined : ∀ n, s.destructor.joined = some n →
    s.journal.committer = .stopping NUM_CP_THREAD ∧
      ∀ i < n, s.journal.checkpointers i = .stopped

omit [DecidableEq T] in
theorem inv_init : Inv (State.init : State T) :=
  ⟨invariant_init, rfl, List.nil_subset _, fun _ h => nomatch h⟩

theorem Inv.atCall_moves {s : State T} {j : CommitCycle.State T} (hi : Inv s)
    (hm : Moves s.journal j) : s.atCall ⊆ j.events := by
  obtain ⟨fs, he⟩ := hm.events
  rw [he]
  exact List.Subset.trans hi.atCall (List.subset_append_left _ _)

theorem step_inv {s s' : State T} {a : Action T} (hi : Inv s) (h : step s a = some s') :
    Inv s' := by
  cases step_steps h with
  | journal b j entered hj hb =>
      have hm := step_moves hj
      refine ⟨step_invariant hi.journal hj, hi.flag, hi.atCall_moves hm, fun n hn => ?_⟩
      obtain ⟨hc, hall⟩ := hi.joined n hn
      refine ⟨?_, fun i hlt => stopped_of_moves hm (hall i hlt)⟩
      exact (stopping_moves hm hc).2.resolve_right fun h => Nat.lt_irrefl _ h.1
  | destroy hd => exact ⟨hi.journal, rfl, List.Subset.refl _, fun n hn => (nomatch hn)⟩
  | enter hs => exact ⟨hi.journal, hi.flag, hi.atCall, hi.joined⟩
  | stop j hs hc hj =>
      have hm := step_moves hj
      refine ⟨step_invariant hi.journal hj, hi.flag, hi.atCall_moves hm, fun n hn => ?_⟩
      rw [(hi.joined n hn).1] at hc
      cases hc
  | joinCommit hd hc =>
      refine ⟨hi.journal, by rw [hi.flag, hd]; rfl, hi.atCall, fun n hn => ?_⟩
      cases hn
      exact ⟨hc, fun i hlt => absurd hlt (Nat.not_lt_zero i)⟩
  | joinCheckpoint k hd hc =>
      obtain ⟨hcom, hall⟩ := hi.joined k (by rw [hd]; rfl)
      have hnext : ∀ i < k + 1, s.journal.checkpointers i = .stopped := by
        intro i hlt
        rcases Nat.lt_succ_iff_lt_or_eq.mp hlt with hlt | rfl
        · exact hall i hlt
        · exact hc
      refine ⟨hi.journal, ?_, hi.atCall, fun n hn => ⟨hcom, ?_⟩⟩
      · rw [hi.flag, hd]
        dsimp only
        split <;> rfl
      · dsimp only at hn
        split at hn
        · cases hn
          exact hnext
        · rename_i hlast
          cases hn
          exact fun i hlt => hnext i (by omega)

theorem run_inv {s s' : State T} {as : List (Action T)} (hi : Inv s)
    (hr : run step s as = some s') : Inv s' :=
  run_invariant (fun _ _ _ => step_inv) hi hr

omit [DecidableEq T] in
/-- The destructor returns only when all that has been taken is through. -/
theorem Inv.settled {s : State T} (hi : Inv s) (hd : s.destructor = .returned) :
    Settled s.journal := by
  obtain ⟨hc, hall⟩ := hi.joined NUM_CP_THREAD (by rw [hd]; rfl)
  refine ⟨by rw [hc]; rfl, by rw [hc]; rfl, fun i => ?_⟩
  by_cases hlt : i < NUM_CP_THREAD
  · rw [hall i hlt, hi.journal.nulls.stopped i (hall i hlt)]
    exact ⟨rfl, rfl⟩
  · -- nothing is ever issued to a queue of that number
    have hnone : issuedTo i s.journal.events = [] := by
      rw [List.eq_nil_iff_forall_not_mem]
      intro t ht
      obtain ⟨ino, -, rfl⟩ := hi.journal.pipeline.index i t ht
      exact hlt (queueIndex_lt ino)
    have hqueue := hi.journal.pipeline.queue i
    rw [hnone, eq_comm, List.append_eq_nil_iff, List.append_eq_nil_iff] at hqueue
    exact ⟨hqueue.1.2, hqueue.2⟩

/-! ## What has been taken in time -/

/-- The transactions of what had returned when the destructor was called have been taken. -/
def AllTaken (s : State T) : Prop :=
  ∀ op, .returned op ∈ s.atCall → ∀ tx, .recorded op tx ∈ s.journal.events →
    tx ∈ taken s.journal.events

section

omit [DecidableEq T]

variable {s : State T} {op : CommitCycle.Op} {tx : Nat}

/-- What had returned has been recorded in one transaction. -/
theorem Inv.once (hi : Inv s) (hop : .returned op ∈ s.atCall) :
    ∃ tx, recordedOf op s.journal.events = [tx] ∧
      ∀ t, .recorded op t ∈ s.journal.events ↔ t = tx := by
  obtain ⟨hcalled, ⟨tx, htx⟩, -⟩ := hi.journal.calls.returned op (hi.atCall hop)
  refine ⟨tx, htx, fun t => ?_⟩
  rw [← hi.journal.calls.mem_recordedOf hcalled, htx, List.mem_singleton]

/-- What is in no map has been taken. -/
theorem Inv.mapDone_iff (hi : Inv s) : MapDone s ↔ AllTaken s := by
  constructor
  · intro h op hop tx htx
    rcases hi.journal.table.known tx op.ino (hi.journal.content.recorded op tx htx) with hmap | ht
    · exact absurd hop (h op.ino tx hmap op htx)
    · exact ht
  · intro h ino tx hmap op htx hop
    exact (hi.journal.table.mapped ino tx hmap).2.1 (h op hop tx htx)

end

omit [DecidableEq T] in
/-- When the destructor returns, what has been taken in time is through. -/
theorem Inv.nothingLost_iff {s : State T} (hi : Inv s) (hd : s.destructor = .returned) :
    NothingLost s ↔ AllTaken s := by
  obtain ⟨hser, hcheck⟩ := hi.journal.settled (hi.settled hd)
  refine forall₂_congr fun op hop => ?_
  obtain ⟨tx, hof, hrec⟩ := hi.once hop
  constructor
  · rintro ⟨tx', hof', hmem, -⟩ t ht
    rw [hof, List.singleton_inj] at hof'
    rw [(hrec t).mp ht, hof', ← hser]
    exact hmem
  · intro h
    have htx := h tx ((hrec tx).mpr rfl)
    exact ⟨tx, hof, hser ▸ htx, hcheck.mem_iff.mpr htx⟩

/-- Nothing more is taken in time once the commit thread has left its loop. -/
theorem allTaken_of_step {s s' : State T} {a : Action T} (hi : Inv s) (hs : s.stopped = true)
    (hstop : Stopping s.journal) (h : step s a = some s') :
    s'.stopped = true ∧ Stopping s'.journal ∧ (AllTaken s' ↔ AllTaken s) := by
  have hi' := step_inv hi h
  cases step_steps h with
  | journal b j entered hj hb =>
      have hm := step_moves hj
      obtain ⟨n, hn⟩ := hstop
      refine ⟨hs, Stopping.moves ⟨n, hn⟩ hm, forall₂_congr fun op hop => ?_⟩
      dsimp only
      rw [(stopping_moves hm hn).1]
      -- a returned operation is recorded nowhere else
      obtain ⟨tx, -, hrec⟩ := hi.once hop
      obtain ⟨tx', -, hrec'⟩ := hi'.once hop
      obtain ⟨fs, he⟩ := hm.events
      have hsame : tx = tx' := by
        apply (hrec' tx).mp
        show _ ∈ j.events
        rw [he]
        exact List.mem_append_left _ ((hrec tx).mpr rfl)
      refine forall_congr' fun t => imp_congr_left ?_
      rw [hrec t, hsame]
      exact hrec' t
  | destroy hd =>
      rw [hi.flag, hd] at hs
      cases hs
  | enter hs' =>
      rw [hs] at hs'
      cases hs'
  | stop j hs' hc hj =>
      obtain ⟨n, hn⟩ := hstop
      rw [hn] at hc
      cases hc
  | joinCommit hd hc => exact ⟨hs, hstop, Iff.rfl⟩
  | joinCheckpoint i hd hc => exact ⟨hs, hstop, Iff.rfl⟩

/-- After the loop the flag is not looked at again. -/
theorem stopsDone_of_stopping {s s' : State T} {as : List (Action T)} (hi : Inv s)
    (hs : s.stopped = true) (hstop : Stopping s.journal) (hr : run step s as = some s') :
    StepsMeet step StopsDone s as ∧ (AllTaken s' ↔ AllTaken s) := by
  induction as generalizing s with
  | nil =>
      cases hr
      exact ⟨trivial, Iff.rfl⟩
  | cons a as ih =>
      obtain ⟨t, ht, hr⟩ := run_cons.mp hr
      obtain ⟨hs', hstop', hiff⟩ := allTaken_of_step hi hs hstop ht
      obtain ⟨hmeet, hiff'⟩ := ih (step_inv hi ht) hs' hstop' hr
      refine ⟨⟨?_, fun u hu => ?_⟩, hiff'.trans hiff⟩
      · rintro rfl -
        obtain ⟨n, hn⟩ := hstop
        simp only [step, hn] at ht
        split at ht <;> cases ht
      · rw [ht] at hu
        cases hu
        exact hmeet

/-- The commit thread leaves its loop once, and what is in the map then is what matters. -/
theorem stopsDone_iff {s s' : State T} {as : List (Action T)} (hi : Inv s)
    (hstop : ¬ Stopping s.journal) (hstop' : Stopping s'.journal)
    (hr : run step s as = some s') : StepsMeet step StopsDone s as ↔ AllTaken s' := by
  induction as generalizing s with
  | nil =>
      cases hr
      exact absurd hstop' hstop
  | cons a as ih =>
      obtain ⟨t, ht, hr⟩ := run_cons.mp hr
      have only : StepsMeet step StopsDone s (a :: as) ↔
          StopsDone s a ∧ StepsMeet step StopsDone t as := by
        refine and_congr_right fun _ => ⟨fun h => h t ht, fun h u hu => ?_⟩
        rw [ht] at hu
        cases hu
        exact h
      have hi' := step_inv hi ht
      rw [only]
      have go : StopsDone s a → ¬ Stopping t.journal →
          (StopsDone s a ∧ StepsMeet step StopsDone t as ↔ AllTaken s') :=
        fun hdone hnot => (and_iff_right hdone).trans (ih hi' hnot hr)
      cases step_steps ht with
      | stop j hs hc hj =>
          have hj' := hj
          simp only [CommitCycle.step, hc] at hj'
          cases hj'
          obtain ⟨hmeet, hiff⟩ := stopsDone_of_stopping hi' hs ⟨0, rfl⟩ hr
          have hmap : MapDone s ↔ AllTaken s' := hi.mapDone_iff.trans hiff.symm
          exact ⟨fun h => hmap.mp (h.1 rfl hs), fun h => ⟨fun _ _ => hmap.mpr h, hmeet⟩⟩
      | journal b j entered hj hb =>
          exact go (by intro heq; cases heq) fun h => hstop (stopping_of_step hj hb h)
      | enter hs =>
          refine go (fun _ hs' => ?_) hstop
          rw [hs] at hs'
          cases hs'
      | destroy hd => exact go (by intro heq; cases heq) hstop
      | joinCommit hd hc => exact go (by intro heq; cases heq) hstop
      | joinCheckpoint i hd hc => exact go (by intro heq; cases heq) hstop

/-- In every run that gets to the end of the destructor, nothing is lost exactly if the map has
    nothing that had returned when the commit thread finds the flag set. -/
theorem nothingLost_iff_stopsDone (as : List (Action T)) (s : State T)
    (hr : run step State.init as = some s) (hd : s.destructor = .returned) :
    NothingLost s ↔ StepsMeet step StopsDone State.init as := by
  have hi := run_inv inv_init hr
  have hstop : Stopping s.journal := ⟨_, (hi.joined NUM_CP_THREAD (by rw [hd]; rfl)).1⟩
  rw [hi.nothingLost_iff hd]
  exact (stopsDone_iff inv_init (fun ⟨n, hn⟩ => nomatch hn) hstop hr).symm

/-- One operation. -/
def removal : List (Action Unit) :=
  [.journal (.call () Uuid.rootIno .rmself), .journal (.find ()), .journal (.insert ()),
    .journal (.mutate ()), .journal (.ret ())]

/-- The threads stop one after the other. -/
def joinAll : List (Action Unit) :=
  [.destroy, .testFlag] ++ List.replicate NUM_CP_THREAD (.journal .issueNull) ++ [.joinCommit] ++
    (List.range NUM_CP_THREAD).map (fun i => .journal (.dispatch i)) ++
    List.replicate NUM_CP_THREAD .joinCheckpoint

/-- A cycle of the commit thread, and the checkpoint. -/
def cycle : List (Action Unit) :=
  [.testFlag, .journal (.replaceMap [⟨Uuid.rootIno, 0⟩]), .journal .setCommitted,
    .journal (.write 0), .journal .issue, .journal (.dispatch 0), .journal (.checkpoint 0)]

/-- There is time for a cycle. -/
theorem nothingLost_iff_stopsDone_cycle : ∃ s,
    run step State.init (removal ++ cycle ++ joinAll) = some s ∧
      (NothingLost s ↔ StepsMeet step StopsDone State.init (removal ++ cycle ++ joinAll)) :=
  ⟨_, rfl, nothingLost_iff_stopsDone _ _ rfl rfl⟩

/-- The flag is set before the first cycle. -/
theorem shutdown_loses_operation : ∃ s, run step State.init (removal ++ joinAll) = some s ∧
    s.destructor = .returned ∧ .returned ⟨0, Uuid.rootIno, .rmself⟩ ∈ s.atCall ∧
    serialised s.journal.events = [] ∧ ¬ NothingLost s := by
  refine ⟨_, rfl, rfl, List.mem_of_getElem? (i := 2) rfl, rfl, fun h => ?_⟩
  obtain ⟨tx, -, hmem, -⟩ := h ⟨0, Uuid.rootIno, .rmself⟩ (List.mem_of_getElem? (i := 2) rfl)
  exact nomatch hmem

end Nmfs.Shutdown
