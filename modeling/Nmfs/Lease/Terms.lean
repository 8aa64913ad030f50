import Nmfs.Lease.Exclusion

/-
  Terms. An entry of the manager changes only after its due, and is then good for a whole period, so
  a directory cannot change hands more often than that. The other way round, a directory whose
  lease has run out goes to whoever asks next.
-/

namespace Nmfs.Lease

open Lib

variable {C : Type} {remote : C ↪ Addr} {s s' : System C} {c : C} {ino : Uuid}

def period : Nat := milliseconds leasePeriodMs

theorem period_pos : 0 < period := milliseconds_leasePeriodMs_pos

/-- The entry had run out, or there was none, and a new one is good for a period from now on. -/
structure Begins (s s' : System C) (ino : Uuid) : Prop where
  ended : ∀ e, s.manager ino = some e → e.due ≤ s.now
  entry : ∃ addr, s'.manager ino = some ⟨s'.now + period, addr⟩

theorem Begins.changes (h : Begins s s' ino) (hn : s.now ≤ s'.now) :
    s'.manager ino ≠ s.manager ino := by
  obtain ⟨addr, he⟩ := h.entry
  intro heq
  have hover := h.ended _ (heq ▸ he)
  have hp := period_pos
  dsimp only at hover
  omega

/-- No term of `ino` begins before. -/
def earliestTerm (s : System C) (ino : Uuid) : Nat :=
  max s.now (((s.manager ino).map LeaseEntry.due).getD 0)

theorem now_le_earliestTerm : s.now ≤ earliestTerm s ino := Nat.le_max_left _ _

theorem earliestTerm_keep (hn : s.now ≤ s'.now) (h : s'.manager ino = s.manager ino) :
    earliestTerm s ino ≤ earliestTerm s' ino := by
  unfold earliestTerm
  rw [h]
  omega

theorem Begins.earliest (hn : s.now ≤ s'.now) (h : Begins s s' ino) :
    earliestTerm s ino ≤ s'.now ∧ earliestTerm s ino + period ≤ earliestTerm s' ino := by
  obtain ⟨addr, he⟩ := h.entry
  have hold : earliestTerm s ino = s.now := by
    unfold earliestTerm
    cases hm : s.manager ino with
    | none => simp
    | some e =>
        have := h.ended e hm
        simp [this]
  have hnew : earliestTerm s' ino = s'.now + period := by
    unfold earliestTerm
    rw [he]
    simp
  omega

variable [DecidableEq C]

theorem now_le_of_step {a : Action C} (h : step remote s a = some s') : s.now ≤ s'.now :=
  (step_spec h).1.now

/-- The manager's entry is kept, or a new term begins. -/
theorem entry_or_begins {a : Action C} (h : step remote s a = some s') (ino : Uuid) :
    s'.manager ino = s.manager ino ∨ Begins s s' ino := by
  cases a with
  | tick d =>
      cases h
      exact Or.inl rfl
  | request c ino' =>
      rw [request_eq h]
      exact Or.inl rfl
  | lookup k =>
      simp only [step] at h
      split at h
      · cases h
        exact Or.inl rfl
      · cases h
  | cas k d =>
      simp only [step] at h
      split at h
      · rename_i c ino' hk
        obtain ⟨e, he, rfl⟩ := Option.map_eq_some_iff.mp h
        by_cases hino : ino = ino'
        · subst hino
          dsimp only
          rw [Function.update_self]
          unfold LeaseEntry.cas
          by_cases hexp : e.due ≤ s.now
          · rw [if_pos hexp]
            refine Or.inr ⟨fun e' he' => ?_, remote c, Function.update_self _ _ _⟩
            rw [he] at he'
            cases he'
            exact hexp
          · rw [if_neg hexp]
            left
            split <;> exact he.symm
        · exact Or.inl (Function.update_of_ne hino _ _)
      · cases h
  | insert k =>
      simp only [step] at h
      split at h
      · rename_i c ino' hk
        cases h
        unfold LeaseTable.insert
        cases hm : s.manager ino' with
        | some e => exact Or.inl rfl
        | none =>
            by_cases hino : ino = ino'
            · subst hino
              refine Or.inr ⟨fun e he => ?_, remote c, Function.update_self _ _ _⟩
              rw [hm] at he
              cases he
            · exact Or.inl (Function.update_of_ne hino _ _)
      · cases h
  | deliver k =>
      simp only [step] at h
      split at h
      · cases h
        exact Or.inl rfl
      · cases h

/-! ## How often a directory changes hands -/

/-- How many terms of `ino` begin in a run. -/
def terms (remote : C ↪ Addr) (ino : Uuid) : System C → List (Action C) → Nat
  | _, [] => 0
  | s, a :: as =>
    match step remote s a with
    | none => 0
    | some t => (if t.manager ino = s.manager ino then 0 else 1) + terms remote ino t as

theorem now_le_of_run {acts : List (Action C)} (h : run (step remote) s acts = some s') :
    s.now ≤ s'.now :=
  run_invariant (I := fun t => s.now ≤ t.now) (fun _ _ _ hle h => hle.trans (now_le_of_step h))
    (Nat.le_refl _) h

/-- After the first term that begins, each other one takes a period more. -/
theorem earliestTerm_run (acts : List (Action C)) (h : run (step remote) s acts = some s') {n : Nat}
    (hn : terms remote ino s acts = n + 1) : earliestTerm s ino + n * period ≤ s'.now := by
  induction acts generalizing s n with
  | nil => cases hn
  | cons a as ih =>
      obtain ⟨t, ht, hrest⟩ := run_cons.mp h
      have hle := now_le_of_step ht
      rw [terms, ht] at hn
      dsimp only at hn
      rcases entry_or_begins ht ino with hkeep | hbegins
      · rw [if_pos hkeep, Nat.zero_add] at hn
        have := earliestTerm_keep hle hkeep
        have := ih hrest hn
        omega
      · rw [if_neg (hbegins.changes hle)] at hn
        obtain ⟨hnow, hgrow⟩ := hbegins.earliest hle
        cases n with
        | zero =>
            have := now_le_of_run hrest
            omega
        | succ n =>
            have := ih hrest (n := n) (by omega)
            rw [Nat.succ_mul]
            omega

/-- In any run, from any state on, a directory's lease is given out anew at most once for each period
    that passes, and once more. -/
theorem terms_bounded (remote : C ↪ Addr) (acts : List (Action C)) (s s' : System C) (ino : Uuid)
    (hrun : run (step remote) s acts = some s') :
    s.now + terms remote ino s acts * period ≤ s'.now + period := by
  have hle := now_le_of_run hrun
  cases hn : terms remote ino s acts with
  | zero => omega
  | succ n =>
      have h := earliestTerm_run acts hrun hn
      have : s.now ≤ earliestTerm s ino := now_le_earliestTerm
      rw [Nat.succ_mul]
      omega

/-- Two takeovers, one after the other. -/
def twoTerms : List (Action Bool) :=
  [.request false Uuid.rootIno, .lookup 0, .insert 0, .tick period, .request true Uuid.rootIno,
    .lookup 1, .cas 1 0]

theorem terms_bounded_twoTerms :
    ∃ s', run (step twoClients) (System.init Bool) twoTerms = some s' ∧
      terms twoClients Uuid.rootIno (System.init Bool) twoTerms = 2 ∧
      (System.init Bool).now + terms twoClients Uuid.rootIno (System.init Bool) twoTerms * period ≤
        s'.now + period :=
  ⟨_, rfl, by decide, terms_bounded twoClients twoTerms _ _ _ rfl⟩

/-! ## A lease that has run out -/

def RunOut (s : System C) (ino : Uuid) : Prop := ∀ e, s.manager ino = some e → e.due ≤ s.now

/-- A call of `acquire`, from the request to the answer, with nothing in between. -/
def acquireCall (s : System C) (c : C) (ino : Uuid) : List (Action C) :=
  let k := s.calls.length
  [.request c ino, .lookup k, if (s.manager ino).isSome then .cas k 0 else .insert k, .deliver k]

theorem getElem?_appended {α : Type} (xs : List α) (x : α) : (xs ++ [x])[xs.length]? = some x := by
  simp

theorem set_appended {α : Type} (xs : List α) (x y : α) :
    (xs ++ [x]).set xs.length y = xs ++ [y] := by
  simp

omit [DecidableEq C] in
theorem AllInfoOk.isMine_unique {c' : C} (hi : AllInfoOk remote s) (h : isMine s c ino = true)
    (h' : isMine s c' ino = true) : c = c' := by
  obtain ⟨e, he, haddr, -⟩ := hi.holds_of_isMine h
  obtain ⟨e', he', haddr', -⟩ := hi.holds_of_isMine h'
  rw [he] at he'
  cases he'
  exact remote.injective (haddr.symm.trans haddr')

omit [DecidableEq C] in
/-- What the client has been told before is no later than a lease that has run out. -/
theorem AllInfoOk.update_granted (hi : AllInfoOk remote s) (hout : RunOut s ino) :
    (s.tables c).update ino (s.now + period) true =
      Function.update (s.tables c) ino (some ⟨s.now + period, true⟩) := by
  unfold LeaseTableClient.update
  congr 2
  cases ht : s.tables c ino with
  | none => rfl
  | some e =>
      obtain ⟨d, m⟩ := e
      obtain ⟨e, he, hle, -⟩ := hi c ino d m (Or.inl ht)
      have := hout e he
      have := period_pos
      exact if_pos (by show d < s.now + period; omega)

/-- A directory whose lease has run out is never stuck: any client that asks for it, with nobody in
    between, is the leader at once. -/
theorem runOut_acquired (remote : C ↪ Addr) (acts : List (Action C)) (s : System C)
    (hrun : run (step remote) (System.init C) acts = some s) (ino : Uuid) (hout : RunOut s ino)
    (c : C) :
    ∃ s', run (step remote) s (acquireCall s c ino) = some s' ∧ s'.now = s.now ∧
      isMine s' c ino = true ∧ ∀ c', isMine s' c' ino = true → c' = c := by
  have hi := allInfoOk_run hrun
  have hfree : ((s.tables c).isMine ino s.now) = false := by
    rw [Bool.eq_false_iff]
    intro hmine
    obtain ⟨e, he, -, hlt⟩ := hi.holds_of_isMine hmine
    have := hout e he
    omega
  have hupd := hi.update_granted (c := c) hout
  have hperiod : milliseconds leasePeriodMs = period := rfl
  obtain ⟨s', hs', hnow, htable⟩ : ∃ s', run (step remote) s (acquireCall s c ino) = some s' ∧
      s'.now = s.now ∧ s'.tables c ino = some ⟨s.now + period, true⟩ := by
    cases hm : s.manager ino with
    | none =>
        simp only [acquireCall, run, step, System.setStage, LeaseTable.insert, hfree, hm, hperiod,
          hupd, getElem?_appended, set_appended, Option.bind_some, Option.isSome_none, if_false,
          Bool.false_eq_true]
        exact ⟨_, rfl, rfl, by simp⟩
    | some e =>
        have hle := hout e hm
        simp only [acquireCall, run, step, System.setStage, LeaseEntry.cas, hfree, hm, hperiod,
          hupd, hle, getElem?_appended, set_appended, Option.bind_some, Option.isSome_some,
          Option.map_some, if_true, if_false, Bool.false_eq_true, Nat.add_zero]
        exact ⟨_, rfl, rfl, by simp⟩
  have hmine : isMine s' c ino = true := by
    have := period_pos
    exact isMine_iff.mpr ⟨_, htable, by omega⟩
  refine ⟨s', hs', hnow, hmine, fun c' hc' => ?_⟩
  exact (allInfoOk_run (run_append.mpr ⟨s, hrun, hs'⟩)).isMine_unique hc' hmine

theorem runOut_acquired_first :
    ∃ s', run (step twoClients) (System.init Bool) (acquireCall (System.init Bool) true Uuid.rootIno) =
        some s' ∧ s'.now = (System.init Bool).now ∧ isMine s' true Uuid.rootIno = true ∧
      ∀ c', isMine s' c' Uuid.rootIno = true → c' = true :=
  runOut_acquired twoClients [] (System.init Bool) rfl Uuid.rootIno (fun _ h => (nomatch h)) true

end Nmfs.Lease
