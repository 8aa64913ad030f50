import Nmfs.Lease.Terms

/-
  Managers that restart. The manager keeps its `lease_table` in memory only, so a restart forgets
  every lease, while the clients go on believing what they were told. What the old manager promised
  ends within a period; from then on there is again one leader at most. A client that restarts
  forgets what it was told, which takes nothing from the others.
-/

namespace Nmfs.Lease.Restart

open Lib

structure State (C : Type) where
  lease : System C
  /-- when the manager was last started anew -/
  restartedAt : Option Nat

def init (C : Type) : State C := ⟨System.init C, none⟩

inductive Action (C : Type) where
  | lease (a : Lease.Action C)
  | restart
  | clientRestart (c : C)
  deriving DecidableEq

/-- The manager is done with the call. -/
def replied {C : Type} (call : Call C) : Bool :=
  match call.stage with
  | .answered _ | .returned _ => true
  | _ => false

/-- The calls the manager has in hand end with an error, and `acquire` throws. -/
def restarted {C : Type} (s : System C) : System C :=
  { s with manager := fun _ => none, calls := s.calls.filter replied }

variable {C : Type} {remote : C ↪ Addr} {s s' : State C} {c c' : C} {ino : Uuid} {d : Nat} {m : Bool}

/-- Told by a manager that is no more. -/
def Old (s : State C) (d : Nat) : Prop := ∃ r, s.restartedAt = some r ∧ d ≤ r + period

/-- The last restart is less than a period ago. -/
def Recent (s : State C) : Prop := ∃ r, s.restartedAt = some r ∧ s.lease.now < r + period

structure Inv (remote : C ↪ Addr) (s : State C) : Prop where
  past : ∀ r, s.restartedAt = some r → r ≤ s.lease.now
  reach : ∀ ino e, s.lease.manager ino = some e → e.due ≤ s.lease.now + period
  info : ∀ c ino d m, HasInfo s.lease c ino d m → InfoOk remote s.lease c ino d m ∨ Old s d

theorem inv_init : Inv remote (init C) where
  past := nofun
  reach := nofun
  info := fun c ino d m h => Or.inl (allInfoOk_init c ino d m h)

/-- No promise goes further than a period. -/
theorem Inv.info_reach (h : Inv remote s) (hi : HasInfo s.lease c ino d m) :
    d ≤ s.lease.now + period := by
  rcases h.info c ino d m hi with ⟨e, he, hle, -⟩ | ⟨r, hr, hle⟩
  · exact hle.trans (h.reach ino e he)
  · have := h.past r hr
    omega

theorem hasInfo_restarted {lease : System C} (h : HasInfo (restarted lease) c ino d m) :
    HasInfo lease c ino d m := by
  rcases h with h | ⟨call, hmem, h⟩
  · exact Or.inl h
  · exact Or.inr ⟨call, (List.mem_filter.mp hmem).1, h⟩

theorem Inv.restart (h : Inv remote s) :
    Inv remote ⟨restarted s.lease, some s.lease.now⟩ where
  past := by
    rintro r ⟨⟩
    exact Nat.le_refl _
  reach := nofun
  info := fun _ _ _ _ hi => Or.inr ⟨_, rfl, h.info_reach (hasInfo_restarted hi)⟩

/-- What a client believes of its own lease is so, when the restart is long past. -/
theorem Inv.holds (h : Inv remote s) (hmine : isMine s.lease c ino = true) :
    Holds remote s.lease c ino ∨ Recent s := by
  obtain ⟨d, ht, hd⟩ := isMine_iff.mp hmine
  rcases h.info c ino d true (Or.inl ht) with ⟨e, he, hle, -, haddr⟩ | ⟨r, hr, hle⟩
  · refine Or.inl ⟨e, he, ?_, by omega⟩
    rcases haddr rfl with haddr | hover
    · exact haddr
    · omega
  · exact Or.inr ⟨r, hr, by omega⟩

variable [DecidableEq C]

/-- The client comes up with an empty `lease_table_client` and no call under way. -/
def clientRestarted (s : System C) (c : C) : System C :=
  { s with
    tables := Function.update s.tables c fun _ => none
    calls := s.calls.filter fun call => call.client ≠ c }

def step (remote : C ↪ Addr) (s : State C) : Action C → Option (State C)
  | .lease a => (Lease.step remote s.lease a).map fun lease => { s with lease }
  | .restart => some ⟨restarted s.lease, some s.lease.now⟩
  | .clientRestart c => some { s with lease := clientRestarted s.lease c }

theorem hasInfo_clientRestarted {lease : System C} (h : HasInfo (clientRestarted lease c') c ino d m) :
    HasInfo lease c ino d m := by
  rcases h with h | ⟨call, hmem, h⟩
  · dsimp only [clientRestarted] at h
    by_cases hc : c = c'
    · subst hc
      rw [Function.update_self] at h
      cases h
    · rw [Function.update_of_ne hc] at h
      exact Or.inl h
  · exact Or.inr ⟨call, (List.mem_filter.mp hmem).1, h⟩

theorem Inv.clientRestart (h : Inv remote s) :
    Inv remote { s with lease := clientRestarted s.lease c } where
  past := h.past
  reach := h.reach
  info := fun _ _ _ _ hi => h.info _ _ _ _ (hasInfo_clientRestarted hi)

theorem Inv.lease {a : Lease.Action C} {lease : System C} (h : Inv remote s)
    (hs : Lease.step remote s.lease a = some lease) : Inv remote { s with lease } := by
  obtain ⟨hadv, hinfo⟩ := step_spec hs
  refine ⟨fun r hr => (h.past r hr).trans hadv.now, fun ino e he => ?_, fun c ino d m hi => ?_⟩
  · rcases entry_or_begins hs ino with hkeep | hbegins
    · have := h.reach ino e (hkeep ▸ he)
      have := hadv.now
      dsimp only
      omega
    · obtain ⟨addr, hnew⟩ := hbegins.entry
      rw [hnew] at he
      cases he
      exact Nat.le_refl _
  · rcases hinfo c ino d m hi with hold | hnew
    · exact (h.info c ino d m hold).imp_left fun hok => hok.advance hadv
    · exact Or.inl hnew

theorem inv_step {a : Action C} (h : Inv remote s) (hs : step remote s a = some s') :
    Inv remote s' := by
  cases a with
  | lease a =>
      obtain ⟨lease, hlease, rfl⟩ := Option.map_eq_some_iff.mp hs
      exact h.lease hlease
  | restart =>
      cases hs
      exact h.restart
  | clientRestart c =>
      cases hs
      exact h.clientRestart

/-- However often the manager and the clients restart, once a period has passed since the manager's
    last restart at most one client finds the lease its own, and it is the one the manager's entry
    names. -/
theorem lease_exclusion_restarts (remote : C ↪ Addr) (acts : List (Action C)) (s : State C)
    (hrun : run (step remote) (init C) acts = some s) (hlong : ¬ Recent s) (ino : Uuid) :
    (∀ c, isMine s.lease c ino = true → Holds remote s.lease c ino) ∧
      ∀ c c', isMine s.lease c ino = true → isMine s.lease c' ino = true → c = c' := by
  have hi : Inv remote s := run_invariant (fun _ _ _ => inv_step) inv_init hrun
  have hholds : ∀ c, isMine s.lease c ino = true → Holds remote s.lease c ino :=
    fun c hc => (hi.holds hc).resolve_right hlong
  refine ⟨hholds, fun c c' hc hc' => ?_⟩
  obtain ⟨e, he, haddr, -⟩ := hholds c hc
  obtain ⟨e', he', haddr', -⟩ := hholds c' hc'
  rw [he] at he'
  cases he'
  exact remote.injective (haddr.symm.trans haddr')

/-- The first client's lease ends a period after the restart, and the second one takes over. -/
def restartedRun : List (Action Bool) :=
  [.lease (.request false Uuid.rootIno), .lease (.lookup 0), .lease (.insert 0),
    .lease (.deliver 0), .restart, .lease (.tick period), .lease (.request true Uuid.rootIno),
    .lease (.lookup 1), .lease (.insert 1), .lease (.deliver 1)]

theorem lease_exclusion_restarts_taken :
    ∃ s, run (step twoClients) (init Bool) restartedRun = some s ∧
      isMine s.lease true Uuid.rootIno = true ∧
      ((∀ c, isMine s.lease c Uuid.rootIno = true → Holds twoClients s.lease c Uuid.rootIno) ∧
        ∀ c c', isMine s.lease c Uuid.rootIno = true → isMine s.lease c' Uuid.rootIno = true →
          c = c') := by
  refine ⟨_, rfl, by decide, lease_exclusion_restarts twoClients restartedRun _ rfl ?_ _⟩
  rintro ⟨r, hr, hlt⟩
  cases hr
  exact absurd hlt (by decide)

/-- Right after a restart two clients may both find the lease their own. -/
example : ∃ s, run (step twoClients) (init Bool)
      (restartedRun.filter (· ≠ .lease (.tick period))) = some s ∧
    isMine s.lease false Uuid.rootIno = true ∧ isMine s.lease true Uuid.rootIno = true :=
  ⟨_, rfl, by decide, by decide⟩

end Nmfs.Lease.Restart
