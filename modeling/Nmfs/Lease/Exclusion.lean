import Nmfs.Lease.LeaseTable

/-
  Mutual exclusion of leases. `InfoOk` is what an answer keeps meaning while it travels and while
  it sits in a client's table: it is not ahead of the manager's entry, it names the leader of its
  own due rightly, and if it says "leader" then the client is still the manager's leader or the
  due has passed. `step_spec` says once what a step can do to the manager and to the answers;
  every invariant of the lease modules comes from it.
-/

namespace Nmfs.Lease

open Lib

variable {C : Type} {remote : C ↪ Addr} {s s' : System C} {c : C} {ino : Uuid} {d : Nat}
  {m : Bool}

/-- The client has been told `(d, m)` and keeps it, or the answer is on its way. -/
def HasInfo (s : System C) (c : C) (ino : Uuid) (d : Nat) (m : Bool) : Prop :=
  s.tables c ino = some ⟨d, m⟩ ∨
    ∃ call ∈ s.calls, ∃ answer, call = ⟨c, ino, .answered answer⟩ ∧ answer.due = d ∧
      answer.granted = m

def InfoOk (remote : C ↪ Addr) (s : System C) (c : C) (ino : Uuid) (d : Nat) (m : Bool) : Prop :=
  ∃ e, s.manager ino = some e ∧ d ≤ e.due ∧ (d = e.due → (m = true ↔ e.addr = remote c)) ∧
    (m = true → e.addr = remote c ∨ d ≤ s.now)

/-- The manager moved on: an entry is kept, or it had expired and its due grew. -/
structure Advance (s s' : System C) : Prop where
  now : s.now ≤ s'.now
  entry : ∀ ino e, s.manager ino = some e → ∃ e', s'.manager ino = some e' ∧
    (e' = e ∨ (e.due ≤ s.now ∧ e.due < e'.due))

theorem Advance.of_eq (hn : s.now ≤ s'.now) (hm : s'.manager = s.manager) : Advance s s' :=
  ⟨hn, fun _ e he => ⟨e, by rw [hm]; exact he, Or.inl rfl⟩⟩

/-- What an answer says stays right. -/
theorem InfoOk.advance (h : InfoOk remote s c ino d m) (ha : Advance s s') :
    InfoOk remote s' c ino d m := by
  obtain ⟨e, he, hle, heq, hmine⟩ := h
  have hnow := ha.now
  obtain ⟨e', he', rfl | ⟨hexp, hgrow⟩⟩ := ha.entry ino e he
  · exact ⟨e', he', hle, heq, fun hm => (hmine hm).imp_right fun h => h.trans hnow⟩
  · refine ⟨e', he', by omega, fun h => by omega, fun _ => Or.inr ?_⟩
    omega

/-- Every answer that is under way or kept is right. -/
def AllInfoOk (remote : C ↪ Addr) (s : System C) : Prop :=
  ∀ c ino d m, HasInfo s c ino d m → InfoOk remote s c ino d m

theorem allInfoOk_init : AllInfoOk remote (System.init C) := by
  rintro c ino d m (h | ⟨call, hmem, -⟩)
  · cases h
  · cases hmem

/-! ## Believing to be the leader -/

/-- The manager's entry says that `c` leads `ino`, and has not expired. -/
def Holds (remote : C ↪ Addr) (s : System C) (c : C) (ino : Uuid) : Prop :=
  ∃ e, s.manager ino = some e ∧ e.addr = remote c ∧ s.now < e.due

def isMine (s : System C) (c : C) (ino : Uuid) : Bool := (s.tables c).isMine ino s.now

theorem isMine_iff : isMine s c ino = true ↔ ∃ d, s.tables c ino = some ⟨d, true⟩ ∧ s.now < d := by
  unfold isMine LeaseTableClient.isMine
  cases h : s.tables c ino with
  | none => simp
  | some e =>
      obtain ⟨d, l⟩ := e
      simp

/-- What a client believes of its own lease is so. -/
theorem AllInfoOk.holds_of_isMine (hi : AllInfoOk remote s) (h : isMine s c ino = true) :
    Holds remote s c ino := by
  obtain ⟨d, ht, hd⟩ := isMine_iff.mp h
  obtain ⟨e, he, hle, -, hmine⟩ := hi c ino d true (Or.inl ht)
  refine ⟨e, he, ?_, by omega⟩
  rcases hmine rfl with h | h
  · exact h
  · omega

/-! ## What a step does -/

theorem cas_spec (e : LeaseEntry) {now now' : Nat} (hn : now ≤ now') (r : Addr) :
    let (answer, e') := e.cas now now' r
    answer.due = e'.due ∧ (answer.granted = true ↔ e'.addr = r) ∧
      (e' = e ∨ (e.due ≤ now ∧ e.due < e'.due)) := by
  have hp := milliseconds_leasePeriodMs_pos
  unfold LeaseEntry.cas
  by_cases hexp : e.due ≤ now
  · simp only [hexp, if_true]
    exact ⟨trivial, by simp, Or.inr ⟨trivial, by omega⟩⟩
  · by_cases haddr : e.addr = r
    · simp [hexp, haddr]
    · simp [hexp, haddr]

theorem insert_spec (map : LeaseTable) (ino : Uuid) (now : Nat) (r : Addr) :
    let (answer, map') := map.insert ino now r
    ∃ e', map' = Function.update map ino (some e') ∧ answer.due = e'.due ∧
      (answer.granted = true ↔ e'.addr = r) ∧ ∀ e, map ino = some e → e' = e := by
  unfold LeaseTable.insert
  cases hm : map ino with
  | none => exact ⟨⟨now + milliseconds leasePeriodMs, r⟩, rfl, rfl, by simp, by simp⟩
  | some e =>
      refine ⟨e, ?_, rfl, by simp, by simp⟩
      rw [← hm, Function.update_eq_self]

/-- The manager has answered call `k` from its entry, which it keeps or renews. -/
structure Served (remote : C ↪ Addr) (s s' : System C) (k : Nat) (c : C) (ino : Uuid)
    (answer : Answer) (e' : LeaseEntry) : Prop where
  now : s.now ≤ s'.now
  manager : s'.manager = Function.update s.manager ino (some e')
  tables : s'.tables = s.tables
  call : ∃ stage, s.calls[k]? = some ⟨c, ino, stage⟩ ∧ ∀ answer, stage ≠ .returned answer
  calls : s'.calls = s.calls.set k ⟨c, ino, .answered answer⟩
  grants : s'.grants = s.grants ++ Call.grant ⟨c, ino, .cas⟩ answer
  due : answer.due = e'.due
  granted : answer.granted = true ↔ e'.addr = remote c
  renew : ∀ e, s.manager ino = some e → e' = e ∨ (e.due ≤ s.now ∧ e.due < e'.due)

/-- The client's table has taken the answer of call `k`. -/
structure Delivered (s s' : System C) (k : Nat) (c : C) (ino : Uuid) (answer : Answer) :
    Prop where
  now : s'.now = s.now
  manager : s'.manager = s.manager
  call : s.calls[k]? = some ⟨c, ino, .answered answer⟩
  tables : s'.tables c = (s.tables c).update ino answer.due answer.granted
  others : ∀ c', c' ≠ c → s'.tables c' = s.tables c'
  calls : s'.calls = s.calls.set k ⟨c, ino, .returned answer⟩
  grants : s'.grants = s.grants

/-- Nothing but the clock and the calls not yet answered. -/
structure Quiet (s s' : System C) : Prop where
  now : s.now ≤ s'.now
  manager : s'.manager = s.manager
  tables : s'.tables = s.tables
  grants : s'.grants = s.grants
  calls : ∀ c ino answer, ⟨c, ino, .answered answer⟩ ∈ s'.calls ↔
    ⟨c, ino, .answered answer⟩ ∈ s.calls
  keep : ∀ (k : Nat) (c : C) (ino : Uuid) (stage : Stage), s.calls[k]? = some ⟨c, ino, stage⟩ →
    ∃ stage', s'.calls[k]? = some ⟨c, ino, stage'⟩ ∧
      (stage' = stage ∨ stage' = .cas ∨ stage' = .insert)

theorem answered_mem_set {calls : List (Call C)} {k : Nat} {call call' : Call C}
    (hk : calls[k]? = some call) (hc : ∀ answer, call.stage ≠ .answered answer)
    (hc' : ∀ answer, call'.stage ≠ .answered answer) (c : C) (ino : Uuid) (answer : Answer) :
    ⟨c, ino, .answered answer⟩ ∈ calls.set k call' ↔ ⟨c, ino, .answered answer⟩ ∈ calls := by
  have hlt := (List.getElem?_eq_some_iff.mp hk).1
  constructor
  · intro h
    rcases List.mem_or_eq_of_mem_set h with h | rfl
    · exact h
    · exact absurd rfl (hc' answer)
  · intro h
    obtain ⟨i, hi⟩ := List.mem_iff_getElem?.mp h
    have hne : k ≠ i := by
      rintro rfl
      rw [hk] at hi
      cases hi
      exact hc answer rfl
    exact List.mem_of_getElem? (by rw [List.getElem?_set_ne hne]; exact hi)

theorem Served.advance {k : Nat} {answer : Answer} {e' : LeaseEntry}
    (h : Served remote s s' k c ino answer e') : Advance s s' := by
  refine ⟨h.now, fun ino' e he => ?_⟩
  rw [h.manager]
  by_cases hi : ino' = ino
  · subst hi
    exact ⟨e', Function.update_self _ _ _, h.renew e he⟩
  · exact ⟨e, by rw [Function.update_of_ne hi]; exact he, Or.inl rfl⟩

variable [DecidableEq C]

/-- Everything a step can do. -/
theorem step_cases {a : Action C} (h : step remote s a = some s') :
    Quiet s s' ∨ (∃ k c ino answer e', Served remote s s' k c ino answer e') ∨
      ∃ k c ino answer, a = .deliver k ∧ Delivered s s' k c ino answer := by
  cases a with
  | tick d =>
      cases h
      exact Or.inl ⟨Nat.le_add_right _ _, rfl, rfl, rfl, fun _ _ _ => Iff.rfl,
        fun _ _ _ stage hk => ⟨stage, hk, Or.inl rfl⟩⟩
  | request c ino =>
      simp only [step] at h
      split at h
      · cases h
      · cases h
        refine Or.inl ⟨Nat.le_refl _, rfl, rfl, rfl, by simp, fun k _ _ stage hk => ?_⟩
        have hlt := (List.getElem?_eq_some_iff.mp hk).1
        exact ⟨stage, by rw [List.getElem?_append_left hlt, hk], Or.inl rfl⟩
  | lookup k =>
      simp only [step] at h
      split at h
      · rename_i c ino hk
        cases h
        refine Or.inl ⟨Nat.le_refl _, rfl, rfl, rfl, answered_mem_set hk (by simp) ?_, ?_⟩
        · intro answer
          dsimp only
          split <;> simp
        · intro j c' ino' stage hj
          by_cases hkj : k = j
          · subst hkj
            rw [hk] at hj
            cases hj
            refine ⟨if (s.manager ino).isSome then .cas else .insert, ?_, Or.inr ?_⟩
            · simp only [System.setStage]
              rw [List.getElem?_set_self (List.getElem?_eq_some_iff.mp hk).1]
            · split <;> simp
          · exact ⟨stage, (List.getElem?_set_ne hkj).trans hj, Or.inl rfl⟩
      · cases h
  | cas k d =>
      simp only [step] at h
      split at h
      · rename_i c ino hk
        rw [Option.map_eq_some_iff] at h
        obtain ⟨e, he, rfl⟩ := h
        have hspec := cas_spec e (Nat.le_add_right s.now d) (remote c)
        cases hcas : e.cas s.now (s.now + d) (remote c) with
        | mk answer e' =>
            rw [hcas] at hspec
            obtain ⟨hdue, hgr, hren⟩ := hspec
            refine Or.inr (Or.inl ⟨k, c, ino, answer, e', Nat.le_add_right _ _, rfl, rfl,
              ⟨_, hk, by simp⟩, rfl, rfl, hdue, hgr, ?_⟩)
            intro e₁ he₁
            rw [he] at he₁
            cases he₁
            exact hren
      · cases h
  | insert k =>
      simp only [step] at h
      split at h
      · rename_i c ino hk
        have hspec := insert_spec s.manager ino s.now (remote c)
        cases hins : s.manager.insert ino s.now (remote c) with
        | mk answer map' =>
            rw [hins] at h hspec
            obtain ⟨e', hmap, hdue, hgr, hold⟩ := hspec
            cases h
            exact Or.inr (Or.inl ⟨k, c, ino, answer, e', Nat.le_refl _, hmap, rfl, ⟨_, hk, by simp⟩,
              rfl, rfl, hdue, hgr, fun e he => Or.inl (hold e he)⟩)
      · cases h
  | deliver k =>
      simp only [step] at h
      split at h
      · rename_i c ino answer hk
        cases h
        exact Or.inr (Or.inr ⟨k, c, ino, answer, rfl, rfl, rfl, hk, Function.update_self _ _ _,
          fun c' hne => Function.update_of_ne hne _ _, rfl, rfl⟩)
      · cases h

theorem quiet_or_served {a : Action C} (h : step remote s a = some s') (ha : ∀ k, a ≠ .deliver k) :
    Quiet s s' ∨ ∃ k c ino answer e', Served remote s s' k c ino answer e' := by
  obtain hq | hs | ⟨k, c, ino, answer, hk, -⟩ := step_cases h
  · exact Or.inl hq
  · exact Or.inr hs
  · exact absurd hk (ha k)

/-- The clients' tables are set by deliveries only. -/
theorem tables_of_step {a : Action C} (h : step remote s a = some s') (ha : ∀ k, a ≠ .deliver k) :
    s'.tables = s.tables := by
  obtain hq | ⟨k, c, ino, answer, e', hs⟩ := quiet_or_served h ha
  · exact hq.tables
  · exact hs.tables

theorem delivered_of_step {k : Nat} {answer : Answer}
    (hk : s.calls[k]? = some ⟨c, ino, .answered answer⟩)
    (h : step remote s (.deliver k) = some s') : Delivered s s' k c ino answer := by
  simp only [step, hk] at h
  cases h
  exact ⟨rfl, rfl, hk, Function.update_self _ _ _, fun c' hne => Function.update_of_ne hne _ _, rfl,
    rfl⟩

theorem request_eq (h : step remote s (.request c ino) = some s') :
    s' = { s with calls := s.calls ++ [⟨c, ino, .lookup⟩] } := by
  simp only [step] at h
  split at h
  · cases h
  · cases h
    rfl

/-- An answer is not new, or it has been read off the manager's entry in this step. -/
theorem hasInfo_cases {a : Action C} (h : step remote s a = some s') (hi : HasInfo s' c ino d m) :
    HasInfo s c ino d m ∨
      ∃ e, s'.manager ino = some e ∧ d = e.due ∧ (m = true ↔ e.addr = remote c) := by
  rcases step_cases h with hq | ⟨k, c', ino', answer, e', hs⟩ | ⟨k, c', ino', answer, -, hd⟩
  · refine Or.inl ?_
    rcases hi with ht | ⟨call, hmem, answer, rfl, hdue, hgr⟩
    · rw [hq.tables] at ht
      exact Or.inl ht
    · exact Or.inr ⟨_, (hq.calls c ino answer).mp hmem, answer, rfl, hdue, hgr⟩
  · rcases hi with ht | ⟨call, hmem, answer', rfl, hdue, hgr⟩
    · rw [hs.tables] at ht
      exact Or.inl (Or.inl ht)
    · rw [hs.calls] at hmem
      rcases List.mem_or_eq_of_mem_set hmem with hmem | heq
      · exact Or.inl (Or.inr ⟨_, hmem, answer', rfl, hdue, hgr⟩)
      · cases heq
        subst hdue hgr
        exact Or.inr ⟨e', by rw [hs.manager, Function.update_self], hs.due, hs.granted⟩
  · refine Or.inl ?_
    have hcall := List.mem_of_getElem? hd.call
    rcases hi with ht | ⟨call, hmem, answer', rfl, hdue, hgr⟩
    · by_cases hc : c = c'
      · subst hc
        rw [hd.tables, LeaseTableClient.update] at ht
        by_cases hino : ino = ino'
        · subst hino
          rw [Function.update_self] at ht
          cases hold : s.tables c ino with
          | none =>
              rw [hold] at ht
              cases ht
              exact Or.inr ⟨_, hcall, answer, rfl, rfl, rfl⟩
          | some e =>
              rw [hold] at ht
              simp only [ClientEntry.setInfo, Option.some.injEq] at ht
              split at ht
              · cases ht
                exact Or.inr ⟨_, hcall, answer, rfl, rfl, rfl⟩
              · subst ht
                exact Or.inl hold
        · rw [Function.update_of_ne hino] at ht
          exact Or.inl ht
      · rw [hd.others c hc] at ht
        exact Or.inl ht
    · rw [hd.calls] at hmem
      rcases List.mem_or_eq_of_mem_set hmem with hmem | heq
      · exact Or.inr ⟨_, hmem, answer', rfl, hdue, hgr⟩
      · cases heq

/-- A step moves the manager on, and the answers it brings about are right. -/
theorem step_spec {a : Action C} (h : step remote s a = some s') :
    Advance s s' ∧ ∀ c ino d m, HasInfo s' c ino d m →
      HasInfo s c ino d m ∨ InfoOk remote s' c ino d m := by
  constructor
  · rcases step_cases h with hq | ⟨k, c, ino, answer, e', hs⟩ | ⟨k, c, ino, answer, -, hd⟩
    · exact Advance.of_eq hq.now hq.manager
    · exact hs.advance
    · exact Advance.of_eq (le_of_eq hd.now.symm) hd.manager
  · intro c ino d m hi
    obtain hold | ⟨e, he, rfl, hmine⟩ := hasInfo_cases h hi
    · exact Or.inl hold
    · exact Or.inr ⟨e, he, Nat.le_refl _, fun _ => hmine, fun hm => Or.inl (hmine.mp hm)⟩

/-! ## Runs -/

theorem allInfoOk_step {a : Action C} (hi : AllInfoOk remote s) (h : step remote s a = some s') :
    AllInfoOk remote s' := by
  obtain ⟨hadv, hinfo⟩ := step_spec h
  intro c ino d m hm
  rcases hinfo c ino d m hm with hold | hnew
  · exact (hi c ino d m hold).advance hadv
  · exact hnew

theorem allInfoOk_run {acts : List (Action C)} (h : run (step remote) (System.init C) acts = some s) :
    AllInfoOk remote s :=
  run_invariant (fun _ _ _ => allInfoOk_step) allInfoOk_init h

/-- At every instant at most one client finds the lease its own, and it is the client whose address
    the manager's entry holds. -/
theorem lease_exclusion (remote : C ↪ Addr) (acts : List (Action C)) (s : System C)
    (hrun : run (step remote) (System.init C) acts = some s) (ino : Uuid) :
    (∀ c, isMine s c ino = true → Holds remote s c ino) ∧
      ∀ c c', isMine s c ino = true → isMine s c' ino = true → c = c' := by
  have hi := allInfoOk_run hrun
  constructor
  · intro c hc
    exact hi.holds_of_isMine hc
  · intro c c' hc hc'
    obtain ⟨e, he, haddr, -⟩ := hi.holds_of_isMine hc
    obtain ⟨e', he', haddr', -⟩ := hi.holds_of_isMine hc'
    rw [he] at he'
    cases he'
    exact remote.injective (haddr.symm.trans haddr')

/-- Two clients. -/
def twoClients : Bool ↪ Addr where
  toFun c := if c then ['b'] else ['a']
  inj' := by
    intro a b
    cases a <;> cases b <;> simp

/-- The first client takes the lease, and the second one is refused. -/
def refusedRun : List (Action Bool) :=
  [.request false Uuid.rootIno, .lookup 0, .request true Uuid.rootIno, .insert 0, .lookup 1,
    .cas 1 5, .deliver 1, .deliver 0]

theorem lease_exclusion_refused :
    ∃ s, run (step twoClients) (System.init Bool) refusedRun = some s ∧
      isMine s false Uuid.rootIno = true ∧
      ((∀ c, isMine s c Uuid.rootIno = true → Holds twoClients s c Uuid.rootIno) ∧
        ∀ c c', isMine s c Uuid.rootIno = true → isMine s c' Uuid.rootIno = true → c = c') :=
  ⟨_, rfl, by decide, lease_exclusion twoClients refusedRun _ rfl Uuid.rootIno⟩

end Nmfs.Lease
