import Nmfs.Lease.Exclusion

/-
  What `lease_table::acquire` tells its caller: 0 and the due of the caller's own lease, or -1, the
  due and the address of who has the lease. An answer is judged by the entry that the answering
  section leaves behind. Of the three ways out, the lost insertion fills in only one of the two.
-/

namespace Nmfs.Lease

open Lib

/-- The answer to a caller with the address `r` says what the entry has. -/
def Truthful (r : Addr) (answer : Answer) (e : LeaseEntry) : Prop :=
  answer.due = e.due ∧
    if answer.granted then e.addr = r else answer.remoteAddr = e.addr ∧ e.addr ≠ r

instance (r : Addr) (answer : Answer) (e : LeaseEntry) : Decidable (Truthful r answer e) :=
  inferInstanceAs (Decidable (answer.due = e.due ∧
    if answer.granted = true then e.addr = r else answer.remoteAddr = e.addr ∧ e.addr ≠ r))

/-! ## The sections -/

theorem cas_truthful (e : LeaseEntry) (now now' : Nat) (r : Addr) :
    Truthful r (e.cas now now' r).1 (e.cas now now' r).2 := by
  unfold LeaseEntry.cas Truthful
  by_cases hexp : e.due ≤ now
  · simp [hexp]
  · by_cases haddr : e.addr = r
    · simp [hexp, haddr]
    · simp [hexp, haddr]

/-- A caller that finds somebody else's entry is told its own address. -/
theorem insert_truthful_iff (map : LeaseTable) (ino : Uuid) (now : Nat) (r : Addr) :
    (∃ e, (map.insert ino now r).2 ino = some e ∧ Truthful r (map.insert ino now r).1 e) ↔
      ∀ e, map ino = some e → e.addr = r := by
  unfold LeaseTable.insert
  match hm : map ino with
  | none => simp [Truthful]
  | some e =>
      by_cases haddr : e.addr = r
      · simp [Truthful, hm, haddr]
      · have hne : r ≠ e.addr := fun h => haddr h.symm
        simp [Truthful, hm, haddr, hne]

/-! ## Steps -/

variable {C : Type} {remote : C ↪ Addr} {s s' : System C}

/-- The step ends call `k` on the manager's side, with this answer. -/
def AnswersCall (s s' : System C) (k : Nat) (c : C) (ino : Uuid) (answer : Answer) : Prop :=
  ∃ stage, s.calls[k]? = some ⟨c, ino, stage⟩ ∧ (stage = .cas ∨ stage = .insert) ∧
    s'.calls[k]? = some ⟨c, ino, .answered answer⟩

/-- A call that is as before is not answered. -/
theorem not_answersCall {k : Nat} {c : C} {ino : Uuid} {answer : Answer}
    (hkeep : ∀ call, s.calls[k]? = some call → s'.calls[k]? = some call) :
    ¬ AnswersCall s s' k c ino answer := by
  intro ⟨stage, hk, hstage, hk'⟩
  rw [hkeep _ hk] at hk'
  cases hk'
  obtain h | h := hstage <;> cases h

theorem answersCall_set {k j : Nat} {call : Call C} {c : C} {ino : Uuid} {answer : Answer}
    (hcalls : s'.calls = s.calls.set k call) (h : AnswersCall s s' j c ino answer) :
    j = k ∧ call = ⟨c, ino, .answered answer⟩ := by
  by_cases hk : k = j
  · subst hk
    obtain ⟨stage, hj, -, hj'⟩ := h
    have hlt := (List.getElem?_eq_some_iff.mp hj).1
    rw [hcalls, List.getElem?_set_self hlt] at hj'
    exact ⟨rfl, Option.some.inj hj'⟩
  · refine absurd h (not_answersCall fun call' hj => ?_)
    rw [hcalls, List.getElem?_set_ne hk]
    exact hj

variable [DecidableEq C]

/-- If the step answers a call, then truthfully. -/
def AnswersTruly (remote : C ↪ Addr) (s : System C) (a : Action C) : Prop :=
  ∀ s' k c ino answer, step remote s a = some s' → AnswersCall s s' k c ino answer →
    ∃ e, s'.manager ino = some e ∧ Truthful (remote c) answer e

/-- The step is not an insertion that finds the entry of another address. -/
def NoLostRace (remote : C ↪ Addr) (s : System C) (a : Action C) : Prop :=
  ∀ k c ino e, a = .insert k → s.calls[k]? = some ⟨c, ino, .insert⟩ → s.manager ino = some e →
    e.addr = remote c

/-- Calls are answered by the two sections that take the entry's lock or the map's. -/
theorem answersCall_cases {a : Action C} {k : Nat} {c : C} {ino : Uuid} {answer : Answer}
    (hs : step remote s a = some s') (h : AnswersCall s s' k c ino answer) :
    (∃ (d : Nat) (e : LeaseEntry), a = .cas k d ∧ s.calls[k]? = some ⟨c, ino, .cas⟩ ∧
      s.manager ino = some e ∧ answer = (e.cas s.now (s.now + d) (remote c)).1 ∧
      s'.manager ino = some (e.cas s.now (s.now + d) (remote c)).2) ∨
    (a = .insert k ∧ s.calls[k]? = some ⟨c, ino, .insert⟩ ∧
      answer = (s.manager.insert ino s.now (remote c)).1 ∧
      s'.manager = (s.manager.insert ino s.now (remote c)).2) := by
  cases a with
  | tick d =>
      cases hs
      exact absurd h (not_answersCall fun _ hk => hk)
  | request c' ino' =>
      refine absurd h (not_answersCall fun _ hk => ?_)
      rw [request_eq hs]
      exact (List.getElem?_append_left (List.getElem?_eq_some_iff.mp hk).1).trans hk
  | lookup j =>
      simp only [step] at hs
      split at hs
      · cases hs
        have hcall := (answersCall_set rfl h).2
        dsimp only at hcall
        split at hcall <;> cases hcall
      · cases hs
  | cas j d =>
      simp only [step] at hs
      split at hs
      · rename_i hj
        obtain ⟨e, he, rfl⟩ := Option.map_eq_some_iff.mp hs
        obtain ⟨rfl, hcall⟩ := answersCall_set rfl h
        cases hcall
        exact Or.inl ⟨d, e, rfl, hj, he, rfl, Function.update_self _ _ _⟩
      · cases hs
  | insert j =>
      simp only [step] at hs
      split at hs
      · rename_i hj
        cases hs
        obtain ⟨rfl, hcall⟩ := answersCall_set rfl h
        cases hcall
        exact Or.inr ⟨rfl, hj, rfl, rfl⟩
      · cases hs
  | deliver j =>
      simp only [step] at hs
      split at hs
      · cases hs
        have hcall := (answersCall_set rfl h).2
        cases hcall
      · cases hs

/-- A call that is answered after a step was answered before, or is answered by it. -/
theorem answered_cases {a : Action C} {k : Nat} {c : C} {ino : Uuid} {answer : Answer}
    (hs : step remote s a = some s') (hk : s'.calls[k]? = some ⟨c, ino, .answered answer⟩) :
    s.calls[k]? = some ⟨c, ino, .answered answer⟩ ∨ AnswersCall s s' k c ino answer := by
  -- where one call changes, either it is `k` or `k` is as before
  have hset : ∀ {j : Nat} {call call' : Call C}, s.calls[j]? = some call →
      s'.calls = s.calls.set j call' → s.calls[k]? = some ⟨c, ino, .answered answer⟩ ∨
        call' = ⟨c, ino, .answered answer⟩ ∧ s.calls[k]? = some call := by
    intro j call call' hj hcalls
    have hk' := hk
    rw [hcalls] at hk'
    by_cases hjk : j = k
    · subst hjk
      rw [List.getElem?_set_self (List.getElem?_eq_some_iff.mp hj).1] at hk'
      exact Or.inr ⟨Option.some.inj hk', hj⟩
    · rw [List.getElem?_set_ne hjk] at hk'
      exact Or.inl hk'
  cases a with
  | tick d =>
      cases hs
      exact Or.inl hk
  | request c' ino' =>
      rw [request_eq hs] at hk
      dsimp only at hk
      rw [List.getElem?_append] at hk
      split at hk
      · exact Or.inl hk
      · have hmem := List.mem_singleton.mp (List.mem_of_getElem? hk)
        cases hmem
  | lookup j =>
      simp only [step] at hs
      split at hs
      · rename_i hj
        cases hs
        obtain hk' | ⟨hcall, -⟩ := hset hj rfl
        · exact Or.inl hk'
        · dsimp only at hcall
          split at hcall <;> cases hcall
      · cases hs
  | cas j d =>
      simp only [step] at hs
      split at hs
      · rename_i hj
        obtain ⟨e, he, rfl⟩ := Option.map_eq_some_iff.mp hs
        obtain hk' | ⟨hcall, hj'⟩ := hset hj rfl
        · exact Or.inl hk'
        · cases hcall
          exact Or.inr ⟨.cas, hj', Or.inl rfl, hk⟩
      · cases hs
  | insert j =>
      simp only [step] at hs
      split at hs
      · rename_i hj
        cases hs
        obtain hk' | ⟨hcall, hj'⟩ := hset hj rfl
        · exact Or.inl hk'
        · cases hcall
          exact Or.inr ⟨.insert, hj', Or.inr rfl, hk⟩
      · cases hs
  | deliver j =>
      simp only [step] at hs
      split at hs
      · rename_i hj
        cases hs
        obtain hk' | ⟨hcall, -⟩ := hset hj rfl
        · exact Or.inl hk'
        · cases hcall
      · cases hs

/-- An insertion is taken, and answers its call. -/
theorem insert_answers {k : Nat} {c : C} {ino : Uuid} (hk : s.calls[k]? = some ⟨c, ino, .insert⟩) :
    ∃ s', step remote s (.insert k) = some s' ∧
      AnswersCall s s' k c ino (s.manager.insert ino s.now (remote c)).1 ∧
      s'.manager = (s.manager.insert ino s.now (remote c)).2 := by
  simp only [step, hk]
  refine ⟨_, rfl, ⟨.insert, hk, Or.inr rfl, ?_⟩, rfl⟩
  exact List.getElem?_set_self (List.getElem?_eq_some_iff.mp hk).1

theorem cas_answers {k d : Nat} {c : C} {ino : Uuid} {e : LeaseEntry}
    (hk : s.calls[k]? = some ⟨c, ino, .cas⟩) (he : s.manager ino = some e) :
    ∃ s', step remote s (.cas k d) = some s' ∧
      AnswersCall s s' k c ino (e.cas s.now (s.now + d) (remote c)).1 := by
  simp only [step, hk, he, Option.map_some]
  refine ⟨_, rfl, .cas, hk, Or.inl rfl, ?_⟩
  exact List.getElem?_set_self (List.getElem?_eq_some_iff.mp hk).1

/-- Only an insertion can say the wrong thing. -/
theorem answersTruly_iff (s : System C) (a : Action C) :
    AnswersTruly remote s a ↔ NoLostRace remote s a := by
  constructor
  · intro h k c ino e ha hk he
    subst ha
    obtain ⟨s', hs, hans, hmanager⟩ := @insert_answers _ remote _ _ _ _ _ hk
    have hin := h s' k c ino _ hs hans
    rw [hmanager] at hin
    exact (insert_truthful_iff _ _ _ _).mp hin e he
  · intro h s' k c ino answer hs hans
    obtain ⟨d, e, rfl, -, -, rfl, hmanager⟩ | ⟨rfl, hk, rfl, hmanager⟩ := answersCall_cases hs hans
    · exact ⟨_, hmanager, cas_truthful e _ _ _⟩
    · rw [hmanager]
      exact (insert_truthful_iff _ _ _ _).mpr fun e => h k c ino e rfl hk

/-! ## Runs -/

/-- In a run of any calls, every answer is true if and only if no call comes to insert an entry
    that another address has inserted since its look-up. -/
theorem answers_truthful_iff (remote : C ↪ Addr) (acts : List (Action C)) :
    StepsMeet (step remote) (AnswersTruly remote) (System.init C) acts ↔
      StepsMeet (step remote) (NoLostRace remote) (System.init C) acts :=
  stepsMeet_congr (I := fun _ => True) (F := fun _ _ => True)
    (fun s a _ _ => answersTruly_iff s a) (fun _ _ _ _ _ _ _ => trivial) trivial
    (StepsMeet.of_forall fun _ _ _ => trivial)

/-- Two clients look up a new inode number before either of them inserts it. -/
def racingRun : List (Action Bool) :=
  [.request false Uuid.rootIno, .request true Uuid.rootIno, .lookup 0, .lookup 1, .insert 0,
    .insert 1]

/-- The second one is refused and told that it is itself the leader. -/
theorem lost_race_untruthful :
    ∃ s, run (step twoClients) (System.init Bool) racingRun = some s ∧
      s.calls[1]? = some ⟨true, Uuid.rootIno,
        .answered ⟨false, milliseconds leasePeriodMs, twoClients true⟩⟩ ∧
      s.manager Uuid.rootIno = some ⟨milliseconds leasePeriodMs, twoClients false⟩ ∧
      ¬ StepsMeet (step twoClients) (AnswersTruly twoClients) (System.init Bool) racingRun := by
  refine ⟨_, rfl, by decide, by decide, fun h => ?_⟩
  obtain ⟨s, hs⟩ : ∃ s, run (step twoClients) (System.init Bool) (racingRun.take 5) = some s :=
    ⟨_, rfl⟩
  have hsplit : racingRun = racingRun.take 5 ++ [.insert 1] := rfl
  rw [hsplit] at h
  have hlast := (h.after hs).1
  have haddr := (answersTruly_iff s (.insert 1)).mp hlast 1 true Uuid.rootIno
    ⟨milliseconds leasePeriodMs, twoClients false⟩ rfl (by cases hs; decide) (by cases hs; decide)
  exact absurd haddr (by decide)

end Nmfs.Lease
