import Nmfs.Journal.TransactionFlow

/-
  The callers of the journal and what they put into the transactions. `Content` is the invariant of
  what is in a transaction, `Calls` that of the callers, `Ordered` that of operations one of which
  returned before the other started: a caller that has lost the race against the commit thread comes
  back for a transaction, and finds the newest of its directory.
-/

namespace Nmfs.CommitCycle

open Lib Transaction

variable {T : Type} [DecidableEq T]

/-! ## What is in a transaction -/

theorem mutate_append (tx : Transaction) (ms : List Mutation) (m : Mutation) :
    tx.mutate (ms ++ [m]) = (m.apply (tx.mutate ms)).2 := by
  unfold Transaction.mutate
  rw [List.foldl_append]
  rfl

theorem recordedIn_append (t : Nat) (es fs : List Event) :
    recordedIn t (es ++ fs) = recordedIn t es ++ recordedIn t fs :=
  List.filterMap_append

theorem recordedOf_append (op : Op) (es fs : List Event) :
    recordedOf op (es ++ fs) = recordedOf op es ++ recordedOf op fs :=
  List.filterMap_append

theorem recordedIn_eq_nil {t : Nat} {es : List Event} (h : ∀ op, .recorded op t ∉ es) :
    recordedIn t es = [] := by
  apply List.filterMap_eq_nil_iff.mpr
  intro e he
  cases e with
  | recorded op t' =>
      dsimp only
      split
      · rename_i heq
        subst heq
        exact absurd he (h op)
      · rfl
  | _ => rfl

theorem recordedOf_eq_nil {op : Op} {es : List Event} (h : ∀ o t, .recorded o t ∉ es) :
    recordedOf op es = [] := by
  apply List.filterMap_eq_nil_iff.mpr
  intro e he
  cases e with
  | recorded o t => exact absurd he (h o t)
  | _ => rfl

/-- What follows records nothing. -/
theorem recordedIn_append_quiet {t : Nat} {es fs : List Event} (h : ∀ op, .recorded op t ∉ fs) :
    recordedIn t (es ++ fs) = recordedIn t es := by
  rw [recordedIn_append, recordedIn_eq_nil h, List.append_nil]

theorem recordedOf_append_quiet {op : Op} {es fs : List Event} (h : ∀ o t, .recorded o t ∉ fs) :
    recordedOf op (es ++ fs) = recordedOf op es := by
  rw [recordedOf_append, recordedOf_eq_nil h, List.append_nil]

theorem mem_serialised {es : List Event} {t : Nat} :
    t ∈ serialised es ↔ ∃ raw, .serialised t raw ∈ es := by
  constructor
  · intro h
    obtain ⟨e, he, heq⟩ := List.mem_filterMap.mp h
    cases e with
    | serialised t' raw =>
        cases heq
        exact ⟨raw, he⟩
    | _ => cases heq
  · rintro ⟨raw, h⟩
    exact List.mem_filterMap.mpr ⟨_, h, rfl⟩

/-- A transaction without what `commit` puts into it. -/
def uncommitted (x : Transaction) : Transaction := { x with committed := false, offset := 0 }

structure Content (s : State T) : Prop where
  heap : ∀ t x, s.heap[t]? = some x →
    uncommitted x = (new x.sIno).mutate ((recordedIn t s.events).map Op.mutation)
  fresh : ∀ (t : Nat) (x : Transaction), s.heap[t]? = some x → x.committed = false → x.offset = 0
  mutating : ∀ thread op t, s.callers thread = .mutate op t → s.ino t = some op.ino
  recorded : ∀ op t, .recorded op t ∈ s.events → s.ino t = some op.ino
  written : ∀ t raw, .serialised t raw ∈ s.events →
    s.heap[t]?.map Transaction.serialize = some raw
  before : ∀ op t raw, .recorded op t ∈ s.events → .serialised t raw ∈ s.events →
    Before (.recorded op t) (.serialised t raw) s.events

omit [DecidableEq T] in
/-- Only what is recorded or serialised matters, and the transactions in the hands of callers. -/
theorem Content.congr {s s' : State T} (h : Content s) (hh : s'.heap = s.heap) {fs : List Event}
    (he : s'.events = s.events ++ fs) (hr : ∀ op t, .recorded op t ∉ fs)
    (hs : ∀ t raw, .serialised t raw ∉ fs)
    (hm : ∀ thread op t, s'.callers thread = .mutate op t → s'.ino t = some op.ino) :
    Content s' := by
  have hino : s'.ino = s.ino := by
    funext t
    unfold State.ino
    rw [hh]
  constructor
  · intro t x hx
    rw [hh] at hx
    rw [he, recordedIn_append_quiet fun op => hr op t]
    exact h.heap t x hx
  · rw [hh]
    exact h.fresh
  · exact hm
  · intro op t ht
    rw [he] at ht
    rw [hino]
    exact h.recorded op t ((List.mem_append.mp ht).resolve_right (hr op t))
  · intro t raw ht
    rw [he] at ht
    rw [hh]
    exact h.written t raw ((List.mem_append.mp ht).resolve_right (hs t raw))
  · intro op t raw ht ht'
    rw [he] at ht ht' ⊢
    exact (h.before op t raw ((List.mem_append.mp ht).resolve_right (hr op t))
      ((List.mem_append.mp ht').resolve_right (hs t raw))).append fs

omit [DecidableEq T] in
theorem Content.of_not_committed {s : State T} (h : Content s) {t : Nat} {x : Transaction}
    (hx : s.heap[t]? = some x) (hc : x.committed = false) :
    x = (new x.sIno).mutate ((recordedIn t s.events).map Op.mutation) := by
  rw [← h.heap t x hx]
  unfold uncommitted
  rw [← hc, ← h.fresh t x hx hc]

/-- The caller is handed a transaction of its directory. -/
theorem mutating_update {callers : T → Stage} {ino : Nat → Option Uuid}
    (h : ∀ thread op t, callers thread = .mutate op t → ino t = some op.ino) {thread : T}
    {stage : Stage} (hstage : ∀ op t, stage = .mutate op t → ino t = some op.ino) (thread' : T)
    (op : Op) (t : Nat) (hs : Function.update callers thread stage thread' = .mutate op t) :
    ino t = some op.ino := by
  rw [Function.update_apply] at hs
  split at hs
  · exact hstage op t hs
  · exact h thread' op t hs

theorem getElem?_set_some {α : Type} {xs : List α} {i j : Nat} {a x : α}
    (h : (xs.set i a)[j]? = some x) : (j = i ∧ x = a) ∨ (j ≠ i ∧ xs[j]? = some x) := by
  rw [List.getElem?_set] at h
  split at h
  · rename_i hij
    split at h
    · exact .inl ⟨hij.symm, (Option.some.inj h).symm⟩
    · cases h
  · rename_i hij
    exact .inr ⟨fun heq => hij heq.symm, h⟩

/-- What the commit thread does to a transaction does not change what is in it. It may be serialised
    then. -/
theorem Content.commit {s s' : State T} (h : Content s) (hm : Moves s s') {k : Nat}
    {x x' : Transaction} (hx : s.heap[k]? = some x) (hh : s'.heap = s.heap.set k x')
    (hsame : uncommitted x' = uncommitted x) (hc : x'.committed = true) {fs : List Event}
    (he : s'.events = s.events ++ fs) (hr : ∀ op t, .recorded op t ∉ fs)
    (hs : ∀ t raw, .serialised t raw ∈ fs → t = k ∧ raw = x.serialize)
    (hcallers : s'.callers = s.callers) : Content s' := by
  have hsIno : x'.sIno = x.sIno := by
    show (uncommitted x').sIno = (uncommitted x).sIno
    rw [hsame]
  have hraw : x'.serialize = x.serialize := by
    show (uncommitted x').serialize = (uncommitted x).serialize
    rw [hsame]
  have hlt : k < s.heap.length := (List.getElem?_eq_some_iff.mp hx).1
  have hkept : ∀ t : Nat, s'.heap[t]?.map Transaction.serialize =
      s.heap[t]?.map Transaction.serialize := by
    intro t
    rw [hh]
    by_cases htk : k = t
    · subst htk
      rw [List.getElem?_set_self hlt, hx]
      exact congrArg some hraw
    · rw [List.getElem?_set_ne htk]
  have hold : ∀ {op t}, .recorded op t ∈ s'.events → .recorded op t ∈ s.events := by
    intro op t ho
    rw [he] at ho
    exact (List.mem_append.mp ho).resolve_right (hr op t)
  constructor
  · intro t y hy
    rw [hh] at hy
    rw [he, recordedIn_append_quiet fun op => hr op t]
    rcases getElem?_set_some hy with ⟨rfl, rfl⟩ | ⟨-, hy⟩
    · rw [hsame, hsIno]
      exact h.heap t x hx
    · exact h.heap t y hy
  · intro t y hy hyc
    rw [hh] at hy
    rcases getElem?_set_some hy with ⟨-, rfl⟩ | ⟨-, hy⟩
    · rw [hc] at hyc
      cases hyc
    · exact h.fresh t y hy hyc
  · intro thread op t hst
    rw [hcallers] at hst
    exact hm.ino (h.mutating thread op t hst)
  · exact fun op t ho => hm.ino (h.recorded op t (hold ho))
  · intro t raw hw
    rw [he] at hw
    rw [hkept]
    rcases List.mem_append.mp hw with hw | hw
    · exact h.written t raw hw
    · obtain ⟨rfl, rfl⟩ := hs t raw hw
      rw [hx]
      rfl
  · intro op t raw ho hw
    rw [he] at hw ⊢
    rcases List.mem_append.mp hw with hw | hw
    · exact (h.before op t raw (hold ho) hw).append fs
    · exact before_append.mpr (.inr (.inr ⟨hold ho, hw⟩))

/-- A new transaction has nothing recorded in it. -/
theorem Content.make {s s' : State T} (h : Content s) (ht : Table s) (hm : Moves s s') {ino : Uuid}
    (hh : s'.heap = s.heap ++ [new ino]) (he : s'.events = s.events)
    (hmutating : ∀ thread op t, s'.callers thread = .mutate op t → s'.ino t = some op.ino) :
    Content s' := by
  have hcases : ∀ {t : Nat} {x : Transaction}, s'.heap[t]? = some x →
      s.heap[t]? = some x ∨ (t = s.heap.length ∧ x = new ino) := by
    intro t x hx
    rw [hh, List.getElem?_append] at hx
    split at hx
    · exact .inl hx
    · rename_i hlt
      rw [List.getElem?_singleton] at hx
      split at hx
      · exact .inr ⟨by omega, (Option.some.inj hx).symm⟩
      · cases hx
  constructor
  · intro t x hx
    rw [he]
    rcases hcases hx with hx | ⟨rfl, rfl⟩
    · exact h.heap t x hx
    · have hnil : recordedIn s.heap.length s.events = [] := by
        apply recordedIn_eq_nil
        intro o ho
        exact absurd (ino_lt (h.recorded o _ ho)) (Nat.lt_irrefl _)
      rw [hnil]
      rfl
  · intro t x hx hc
    rcases hcases hx with hx | ⟨rfl, rfl⟩
    · exact h.fresh t x hx hc
    · rfl
  · exact hmutating
  · intro o t ho
    rw [he] at ho
    exact hm.ino (h.recorded o t ho)
  · intro t raw hw
    rw [he] at hw
    obtain ⟨ino', hi⟩ := ht.takenIno t (ht.serialised_taken (mem_serialised.mpr ⟨raw, hw⟩))
    rw [hh, List.getElem?_append_left (ino_lt hi)]
    exact h.written t raw hw
  · rw [he]
    exact h.before

theorem Moves.content {s s' : State T} (hm : Moves s s') (ht : Table s) (h : Content s) :
    Content s' := by
  have hmoves := hm
  cases hm with
  | call thread ino m hs =>
      refine h.congr rfl rfl (by simp) (by simp) ?_
      exact mutating_update h.mutating fun _ _ heq => (nomatch heq)
  | hit thread op tx hs hl =>
      refine h.congr rfl (List.append_nil _).symm (by simp) (by simp) ?_
      refine mutating_update h.mutating ?_
      rintro op' t heq
      cases heq
      exact (ht.mapped op.ino tx hl).1
  | miss thread op hs =>
      refine h.congr rfl (List.append_nil _).symm (by simp) (by simp) ?_
      exact mutating_update h.mutating fun _ _ heq => (nomatch heq)
  | make thread op hs hl =>
      refine h.make ht hmoves rfl rfl (mutating_update (fun thread' o t hst => ?_) ?_)
      · exact hmoves.ino (h.mutating thread' o t hst)
      · intro o t heq
        cases heq
        dsimp only [State.ino, State.setStage]
        rw [List.getElem?_append_right (Nat.le_refl _), Nat.sub_self]
        rfl
  | record thread op tx x x' hs hx ha =>
      obtain ⟨hc, hc', hsIno, hoffset⟩ := not_committed_of_apply ha
      have hnot : tx ∉ serialised s.events := by
        intro hmem
        have := (ht.committed tx x hx).mpr (.inl hmem)
        rw [hc] at this
        cases this
      constructor
      · intro t y hy
        dsimp only [State.log, State.setStage] at hy ⊢
        rw [recordedIn_append]
        rcases getElem?_set_some hy with ⟨rfl, rfl⟩ | ⟨hne, hy⟩
        · have hin : recordedIn t [.recorded op t] = [op] := by simp [recordedIn]
          have hopen : uncommitted y = y := by
            unfold uncommitted
            rw [← hc', ← (hoffset.trans (h.fresh t x hx hc))]
          rw [hin, List.map_append, List.map_singleton, mutate_append, hsIno,
            ← h.of_not_committed hx hc, ha, hopen]
        · have hin : recordedIn t [.recorded op tx] = [] := by
            simp [recordedIn, Ne.symm hne]
          rw [hin, List.append_nil]
          exact h.heap t y hy
      · intro t y hy hyc
        rcases getElem?_set_some hy with ⟨rfl, rfl⟩ | ⟨hne, hy⟩
        · exact hoffset.trans (h.fresh t x hx hc)
        · exact h.fresh t y hy hyc
      · refine mutating_update (fun thread' o t hst => ?_) fun _ _ heq => (nomatch heq)
        exact hmoves.ino (h.mutating thread' o t hst)
      · intro o t ho
        apply hmoves.ino
        rcases List.mem_append.mp ho with ho | ho
        · exact h.recorded o t ho
        · cases List.mem_singleton.mp ho
          exact h.mutating thread op tx hs
      · intro t raw hw
        have hw : .serialised t raw ∈ s.events :=
          (List.mem_append.mp hw).resolve_right (by simp)
        have hne : tx ≠ t := by
          rintro rfl
          exact hnot (mem_serialised.mpr ⟨raw, hw⟩)
        dsimp only [State.log, State.setStage]
        rw [List.getElem?_set_ne hne]
        exact h.written t raw hw
      · intro o t raw ho hw
        have hw : .serialised t raw ∈ s.events :=
          (List.mem_append.mp hw).resolve_right (by simp)
        rcases List.mem_append.mp ho with ho | ho
        · exact (h.before o t raw ho hw).append _
        · cases List.mem_singleton.mp ho
          exact absurd (mem_serialised.mpr ⟨raw, hw⟩) hnot
  | retry thread op tx hs =>
      refine h.congr rfl (List.append_nil _).symm (by simp) (by simp) ?_
      exact mutating_update h.mutating fun _ _ heq => (nomatch heq)
  | ret thread op hs =>
      refine h.congr rfl rfl (by simp) (by simp) ?_
      exact mutating_update h.mutating fun _ _ heq => (nomatch heq)
  | take order hcom ho => exact h.congr rfl rfl (by simp) (by simp) h.mutating
  | flag p rest x hcom hx hc =>
      exact h.commit hmoves hx rfl rfl rfl (List.append_nil _).symm (by simp) (by simp) rfl
  | write p rest x objSize hcom hx =>
      have hc : x.committed = true := by
        apply (ht.committed p.2 x hx).mpr
        right
        rw [hcom]
        rfl
      exact h.commit hmoves hx rfl rfl hc rfl (by simp) (by simp) rfl
  | issue p rest hcom => exact h.congr rfl rfl (by simp) (by simp) h.mutating
  | stop hcom => exact h.congr rfl (List.append_nil _).symm (by simp) (by simp) h.mutating
  | issueNull n hcom hn =>
      exact h.congr rfl (List.append_nil _).symm (by simp) (by simp) h.mutating
  | dispatch i tx queue hc hq =>
      exact h.congr rfl (List.append_nil _).symm (by simp) (by simp) h.mutating
  | dispatchNull i queue hc hq =>
      exact h.congr rfl (List.append_nil _).symm (by simp) (by simp) h.mutating
  | checkpoint i tx hc => exact h.congr rfl rfl (by simp) (by simp) h.mutating

omit [DecidableEq T] in
theorem content_init : Content (State.init : State T) := by
  refine ⟨?_, ?_, ?_, ?_, ?_, ?_⟩
  · intro t x hx
    cases hx
  · intro t x hx
    cases hx
  · intro thread op t hs
    cases hs
  · intro op t ht
    cases ht
  · intro t raw ht
    cases ht
  · intro op t raw ht
    cases ht

/-! ## The callers -/

namespace Stage

/-- The operation in the hands of a caller. -/
def op : Stage → Option Op
  | idle => none
  | find op => some op
  | insert op => some op
  | mutate op _ => some op
  | leave op => some op

/-- It has been recorded. -/
def done : Stage → Bool
  | leave _ => true
  | _ => false

end Stage

structure Calls (s : State T) : Prop where
  called : ∀ thread op, (s.callers thread).op = some op → .called op ∈ s.events
  number : ∀ op, .called op ∈ s.events → op.id < s.calls
  unique : ∀ op op', .called op ∈ s.events → .called op' ∈ s.events → op.id = op'.id → op = op'
  alone : ∀ thread thread' op, (s.callers thread).op = some op →
    (s.callers thread').op = some op → thread = thread'
  pending : ∀ thread op, (s.callers thread).op = some op → (s.callers thread).done = false →
    recordedOf op s.events = []
  left : ∀ thread op, (s.callers thread).op = some op → (s.callers thread).done = true →
    ∃ t, recordedOf op s.events = [t]
  returned : ∀ op, .returned op ∈ s.events → .called op ∈ s.events ∧
    (∃ t, recordedOf op s.events = [t]) ∧ ∀ thread, (s.callers thread).op ≠ some op
  recorded : ∀ op t, .recorded op t ∈ s.events → .called op ∈ s.events

omit [DecidableEq T] in
/-- An operation is known by its number. -/
theorem Calls.mem_recordedOf {s : State T} (h : Calls s) {op : Op} {t : Nat}
    (hop : .called op ∈ s.events) : t ∈ recordedOf op s.events ↔ .recorded op t ∈ s.events := by
  constructor
  · intro ht
    obtain ⟨e, he, heq⟩ := List.mem_filterMap.mp ht
    cases e with
    | recorded o t' =>
        dsimp only at heq
        split at heq
        · rename_i hid
          cases heq
          rw [← h.unique o op (h.recorded o t he) hop hid]
          exact he
        · cases heq
    | _ => cases heq
  · intro ht
    exact List.mem_filterMap.mpr ⟨_, ht, if_pos rfl⟩

omit [DecidableEq T] in
/-- A caller goes on with its operation, or nothing happens at all that the callers see. -/
theorem Calls.turn {s s' : State T} (h : Calls s)
    (hop : ∀ thread, (s'.callers thread).op = (s.callers thread).op)
    (hdone : ∀ thread, (s'.callers thread).done = (s.callers thread).done)
    (hcalls : s'.calls = s.calls) {fs : List Event} (he : s'.events = s.events ++ fs)
    (hcalled : ∀ op, .called op ∉ fs) (hrecorded : ∀ op t, .recorded op t ∉ fs)
    (hreturned : ∀ op, .returned op ∉ fs) : Calls s' := by
  have hin : ∀ op, recordedOf op s'.events = recordedOf op s.events := by
    intro op
    rw [he, recordedOf_append_quiet hrecorded]
  have hc : ∀ op, .called op ∈ s'.events ↔ .called op ∈ s.events := by
    intro op
    rw [he, List.mem_append, or_iff_left (hcalled op)]
  have hrt : ∀ op, .returned op ∈ s'.events ↔ .returned op ∈ s.events := by
    intro op
    rw [he, List.mem_append, or_iff_left (hreturned op)]
  have hrc : ∀ op t, .recorded op t ∈ s'.events ↔ .recorded op t ∈ s.events := by
    intro op t
    rw [he, List.mem_append, or_iff_left (hrecorded op t)]
  constructor
  · intro thread op hs
    rw [hop] at hs
    exact (hc op).mpr (h.called thread op hs)
  · intro op hop
    rw [hcalls]
    exact h.number op ((hc op).mp hop)
  · exact fun op op' h1 h2 => h.unique op op' ((hc op).mp h1) ((hc op').mp h2)
  · intro thread thread' op
    rw [hop, hop]
    exact h.alone thread thread' op
  · intro thread op
    rw [hop, hdone, hin]
    exact h.pending thread op
  · intro thread op
    rw [hop, hdone, hin]
    exact h.left thread op
  · intro op hret
    obtain ⟨h1, h2, h3⟩ := h.returned op ((hrt op).mp hret)
    refine ⟨(hc op).mpr h1, ?_, fun thread => ?_⟩
    · rw [hin]
      exact h2
    · rw [hop]
      exact h3 thread
  · exact fun op t hr => (hc op).mpr (h.recorded op t ((hrc op t).mp hr))

/-- The stage of a caller is replaced by one that is the same to `f`. -/
theorem update_stage {β : Type} (f : Stage → β) {callers : T → Stage} {thread : T} {stage : Stage}
    (h : f stage = f (callers thread)) (thread' : T) :
    f (Function.update callers thread stage thread') = f (callers thread') := by
  rw [Function.update_apply]
  split
  · rename_i heq
    rw [heq, h]
  · rfl

theorem op_update_eq_some {callers : T → Stage} {thread thread' : T} {stage : Stage} {op : Op}
    (h : (Function.update callers thread stage thread').op = some op) :
    (thread' = thread ∧ stage.op = some op) ∨
      (thread' ≠ thread ∧ (callers thread').op = some op) := by
  rw [Function.update_apply] at h
  split at h
  · rename_i heq
    exact .inl ⟨heq, h⟩
  · rename_i hne
    exact .inr ⟨hne, h⟩

theorem recordedOf_recorded (op o : Op) (t : Nat) :
    recordedOf o [.recorded op t] = if op.id = o.id then [t] else [] := by
  unfold recordedOf
  by_cases h : op.id = o.id <;> simp [h]

/-- A thread starts an operation, under a new number. -/
theorem Calls.call {s : State T} (h : Calls s) {thread : T} {op : Op} (hid : op.id = s.calls) :
    Calls (({ s with calls := s.calls + 1 }.setStage thread (.find op)).log (.called op)) := by
  have hnew : ∀ o, .called o ∈ s.events → o.id ≠ op.id := by
    intro o ho
    have := h.number o ho
    omega
  have hin : ∀ o, recordedOf o (s.events ++ [.called op]) = recordedOf o s.events := by
    exact fun o => recordedOf_append_quiet (by simp)
  have hfresh : recordedOf op s.events = [] := by
    apply List.filterMap_eq_nil_iff.mpr
    intro e he
    cases e with
    | recorded o t => exact if_neg (hnew o (h.recorded o t he))
    | _ => rfl
  constructor
  · intro thread' o hs
    rcases op_update_eq_some hs with ⟨rfl, heq⟩ | ⟨-, hs⟩
    · cases heq
      exact List.mem_append_right _ List.mem_cons_self
    · exact List.mem_append_left _ (h.called thread' o hs)
  · intro o ho
    dsimp only [State.log, State.setStage] at ho ⊢
    rcases List.mem_append.mp ho with ho | ho
    · have := h.number o ho
      omega
    · cases List.mem_singleton.mp ho
      omega
  · intro o o' ho ho' heq
    rcases List.mem_append.mp ho with ho | ho <;> rcases List.mem_append.mp ho' with ho' | ho'
    · exact h.unique o o' ho ho' heq
    · cases List.mem_singleton.mp ho'
      exact absurd heq (hnew o ho)
    · cases List.mem_singleton.mp ho
      exact absurd heq.symm (hnew o' ho')
    · cases List.mem_singleton.mp ho
      cases List.mem_singleton.mp ho'
      rfl
  · intro t1 t2 o h1 h2
    rcases op_update_eq_some h1 with ⟨rfl, heq1⟩ | ⟨-, hs1⟩ <;>
      rcases op_update_eq_some h2 with ⟨rfl, heq2⟩ | ⟨-, hs2⟩
    · rfl
    · cases heq1
      exact absurd rfl (hnew _ (h.called t2 _ hs2))
    · cases heq2
      exact absurd rfl (hnew _ (h.called t1 _ hs1))
    · exact h.alone t1 t2 o hs1 hs2
  · intro thread' o hs hd
    show recordedOf o (s.events ++ [.called op]) = []
    rw [hin]
    rcases op_update_eq_some hs with ⟨rfl, heq⟩ | ⟨hne, hs⟩
    · cases heq
      exact hfresh
    · refine h.pending thread' o hs ?_
      dsimp only [State.log, State.setStage] at hd
      rw [Function.update_of_ne hne] at hd
      exact hd
  · intro thread' o hs hd
    show ∃ t, recordedOf o (s.events ++ [.called op]) = [t]
    rw [hin]
    rcases op_update_eq_some hs with ⟨rfl, heq⟩ | ⟨hne, hs⟩
    · dsimp only [State.log, State.setStage] at hd
      rw [Function.update_self] at hd
      cases hd
    · refine h.left thread' o hs ?_
      dsimp only [State.log, State.setStage] at hd
      rw [Function.update_of_ne hne] at hd
      exact hd
  · intro o ho
    obtain ⟨h1, h2, h3⟩ := h.returned o ((List.mem_append.mp ho).resolve_right (by simp))
    refine ⟨List.mem_append_left _ h1, ?_, fun thread' hs => ?_⟩
    · show ∃ t, recordedOf o (s.events ++ [.called op]) = [t]
      rw [hin]
      exact h2
    · rcases op_update_eq_some hs with ⟨rfl, heq⟩ | ⟨-, hs⟩
      · cases heq
        exact hnew _ h1 rfl
      · exact h3 thread' hs
  · intro o t ho
    exact List.mem_append_left _ (h.recorded o t ((List.mem_append.mp ho).resolve_right (by simp)))

/-- The operation of a thread is recorded. -/
theorem Calls.record {s : State T} (h : Calls s) {thread : T} {op : Op} {t : Nat}
    {heap : List Transaction} (hs : s.callers thread = .mutate op t) :
    Calls (({ s with heap := heap }.setStage thread (.leave op)).log (.recorded op t)) := by
  have hop : (s.callers thread).op = some op := by rw [hs]; rfl
  have hdone : (s.callers thread).done = false := by rw [hs]; rfl
  have hold : ∀ o, .called o ∈ s.events → o ≠ op →
      recordedOf o (s.events ++ [.recorded op t]) = recordedOf o s.events := by
    intro o ho hne
    have hid : ¬ op.id = o.id :=
      fun heq => hne (h.unique o op ho (h.called thread op hop) heq.symm)
    rw [recordedOf_append, recordedOf_recorded, if_neg hid, List.append_nil]
  have hop' : ∀ thread', (Function.update s.callers thread (.leave op) thread').op =
      (s.callers thread').op := update_stage Stage.op (by rw [hs]; rfl)
  have hmem : ∀ o, .called o ∈ s.events ++ [.recorded op t] ↔ .called o ∈ s.events := by simp
  constructor
  · intro thread' o ho
    exact List.mem_append_left _ (h.called thread' o ((hop' thread').symm.trans ho))
  · exact fun o ho => h.number o ((hmem o).mp ho)
  · exact fun o o' ho ho' => h.unique o o' ((hmem o).mp ho) ((hmem o').mp ho')
  · exact fun t1 t2 o h1 h2 =>
      h.alone t1 t2 o ((hop' t1).symm.trans h1) ((hop' t2).symm.trans h2)
  · intro thread' o ho hd
    rcases op_update_eq_some ho with ⟨rfl, heq⟩ | ⟨hne, ho⟩
    · dsimp only [State.log, State.setStage] at hd
      rw [Function.update_self] at hd
      cases hd
    · have hne' : o ≠ op :=
        fun heq => hne (h.alone thread' thread o ho (by rw [heq]; exact hop))
      dsimp only [State.log, State.setStage] at hd ⊢
      rw [Function.update_of_ne hne] at hd
      rw [hold o (h.called thread' o ho) hne']
      exact h.pending thread' o ho hd
  · intro thread' o ho hd
    rcases op_update_eq_some ho with ⟨rfl, heq⟩ | ⟨hne, ho⟩
    · cases heq
      refine ⟨t, ?_⟩
      dsimp only [State.log, State.setStage]
      rw [recordedOf_append, recordedOf_recorded, if_pos rfl, h.pending _ op hop hdone,
        List.nil_append]
    · have hne' : o ≠ op :=
        fun heq => hne (h.alone thread' thread o ho (by rw [heq]; exact hop))
      dsimp only [State.log, State.setStage] at hd ⊢
      rw [Function.update_of_ne hne] at hd
      rw [hold o (h.called thread' o ho) hne']
      exact h.left thread' o ho hd
  · intro o ho
    obtain ⟨h1, h2, h3⟩ := h.returned o ((List.mem_append.mp ho).resolve_right (by simp))
    have hne : o ≠ op := by
      rintro rfl
      exact h3 thread hop
    refine ⟨List.mem_append_left _ h1, ?_, fun thread' hs' => ?_⟩
    · dsimp only [State.log, State.setStage]
      rw [hold o h1 hne]
      exact h2
    · exact h3 thread' ((hop' thread').symm.trans hs')
  · intro o t' ho
    apply List.mem_append_left
    rcases List.mem_append.mp ho with ho | ho
    · exact h.recorded o t' ho
    · cases List.mem_singleton.mp ho
      exact h.called thread op hop

/-- A call comes back. -/
theorem Calls.ret {s : State T} (h : Calls s) {thread : T} {op : Op}
    (hs : s.callers thread = .leave op) :
    Calls ((s.setStage thread .idle).log (.returned op)) := by
  have hop : (s.callers thread).op = some op := by rw [hs]; rfl
  have hin : ∀ o, recordedOf o (s.events ++ [.returned op]) = recordedOf o s.events := by
    exact fun o => recordedOf_append_quiet (by simp)
  have hmem : ∀ o, .called o ∈ s.events ++ [.returned op] ↔ .called o ∈ s.events := by simp
  have hother : ∀ {thread' o}, (Function.update s.callers thread .idle thread').op = some o →
      thread' ≠ thread ∧ (s.callers thread').op = some o := by
    intro thread' o ho
    rcases op_update_eq_some ho with ⟨-, heq⟩ | ho
    · cases heq
    · exact ho
  constructor
  · exact fun thread' o ho => List.mem_append_left _ (h.called thread' o (hother ho).2)
  · exact fun o ho => h.number o ((hmem o).mp ho)
  · exact fun o o' ho ho' => h.unique o o' ((hmem o).mp ho) ((hmem o').mp ho')
  · exact fun t1 t2 o h1 h2 => h.alone t1 t2 o (hother h1).2 (hother h2).2
  · intro thread' o ho hd
    obtain ⟨hne, ho⟩ := hother ho
    dsimp only [State.log, State.setStage] at hd ⊢
    rw [Function.update_of_ne hne] at hd
    rw [hin]
    exact h.pending thread' o ho hd
  · intro thread' o ho hd
    obtain ⟨hne, ho⟩ := hother ho
    dsimp only [State.log, State.setStage] at hd ⊢
    rw [Function.update_of_ne hne] at hd
    rw [hin]
    exact h.left thread' o ho hd
  · intro o ho
    have hback : .called o ∈ s.events ∧ (∃ t, recordedOf o s.events = [t]) ∧
        ∀ thread', (Function.update s.callers thread .idle thread').op ≠ some o := by
      rcases List.mem_append.mp ho with ho | ho
      · obtain ⟨h1, h2, h3⟩ := h.returned o ho
        exact ⟨h1, h2, fun thread' hs' => h3 thread' (hother hs').2⟩
      · cases List.mem_singleton.mp ho
        refine ⟨h.called thread op hop, h.left thread op hop (by rw [hs]; rfl), ?_⟩
        intro thread' hs'
        obtain ⟨hne, ho⟩ := hother hs'
        exact hne (h.alone thread' thread op ho hop)
    obtain ⟨h1, h2, h3⟩ := hback
    refine ⟨(hmem o).mpr h1, ?_, h3⟩
    dsimp only [State.log, State.setStage]
    rw [hin]
    exact h2
  · intro o t ho
    exact (hmem o).mpr (h.recorded o t ((List.mem_append.mp ho).resolve_right (by simp)))

theorem Moves.calls {s s' : State T} (hm : Moves s s') (h : Calls s) : Calls s' := by
  cases hm with
  | call thread ino m hs => exact h.call rfl
  | hit thread op tx hs hl =>
      refine h.turn (update_stage Stage.op ?_) (update_stage Stage.done ?_) rfl
        (List.append_nil _).symm (by simp) (by simp) (by simp)
      · rcases hs with hs | hs <;> rw [hs] <;> rfl
      · rcases hs with hs | hs <;> rw [hs] <;> rfl
  | miss thread op hs =>
      exact h.turn (update_stage Stage.op (by rw [hs]; rfl))
        (update_stage Stage.done (by rw [hs]; rfl)) rfl (List.append_nil _).symm (by simp) (by simp)
        (by simp)
  | make thread op hs hl =>
      exact h.turn (update_stage Stage.op (by rw [hs]; rfl))
        (update_stage Stage.done (by rw [hs]; rfl)) rfl (List.append_nil _).symm (by simp) (by simp)
        (by simp)
  | record thread op tx x x' hs hx ha => exact h.record hs
  | retry thread op tx hs =>
      exact h.turn (update_stage Stage.op (by rw [hs]; rfl))
        (update_stage Stage.done (by rw [hs]; rfl)) rfl (List.append_nil _).symm (by simp) (by simp)
        (by simp)
  | ret thread op hs => exact h.ret hs
  | take order hcom ho =>
      exact h.turn (fun _ => rfl) (fun _ => rfl) rfl rfl (by simp) (by simp) (by simp)
  | flag p rest x hcom hx hc =>
      exact h.turn (fun _ => rfl) (fun _ => rfl) rfl (List.append_nil _).symm (by simp) (by simp)
        (by simp)
  | write p rest x objSize hcom hx =>
      exact h.turn (fun _ => rfl) (fun _ => rfl) rfl rfl (by simp) (by simp) (by simp)
  | issue p rest hcom =>
      exact h.turn (fun _ => rfl) (fun _ => rfl) rfl rfl (by simp) (by simp) (by simp)
  | stop hcom =>
      exact h.turn (fun _ => rfl) (fun _ => rfl) rfl (List.append_nil _).symm (by simp) (by simp)
        (by simp)
  | issueNull n hcom hn =>
      exact h.turn (fun _ => rfl) (fun _ => rfl) rfl (List.append_nil _).symm (by simp) (by simp)
        (by simp)
  | dispatch i tx queue hc hq =>
      exact h.turn (fun _ => rfl) (fun _ => rfl) rfl (List.append_nil _).symm (by simp) (by simp)
        (by simp)
  | dispatchNull i queue hc hq =>
      exact h.turn (fun _ => rfl) (fun _ => rfl) rfl (List.append_nil _).symm (by simp) (by simp)
        (by simp)
  | checkpoint i tx hc =>
      exact h.turn (fun _ => rfl) (fun _ => rfl) rfl rfl (by simp) (by simp) (by simp)

omit [DecidableEq T] in
theorem calls_init : Calls (State.init : State T) := by
  constructor
  · intro thread op hs
    cases hs
  · intro op ho
    cases ho
  · intro op op' ho
    cases ho
  · intro thread thread' op hs
    cases hs
  · intro thread op hs
    cases hs
  · intro thread op hs
    cases hs
  · intro op ho
    cases ho
  · intro op t ho
    cases ho

/-! ## The order of calls -/

/-- What returned before `op` started is in no later transaction than `t`. -/
def After (es : List Event) (op : Op) (t : Nat) : Prop :=
  ∀ a t', Before (.returned a) (.called op) es → .recorded a t' ∈ es → a.ino = op.ino → t' ≤ t

structure Ordered (s : State T) : Prop where
  pending : ∀ thread op t, s.callers thread = .mutate op t → After s.events op t
  recorded : ∀ op t, .recorded op t ∈ s.events → After s.events op t

theorem After.append {es fs : List Event} {op : Op} {t : Nat} (h : After es op t)
    (hc : .called op ∉ fs) (hr : ∀ a t', .recorded a t' ∈ fs → .returned a ∉ es) :
    After (es ++ fs) op t := by
  intro a t' hbefore ha hino
  have hbefore : Before (.returned a) (.called op) es := by
    rcases before_append.mp hbefore with hb | hb | ⟨-, hb⟩
    · exact hb
    · exact absurd hb.right hc
    · exact absurd hb hc
  rcases List.mem_append.mp ha with ha | ha
  · exact h a t' hbefore ha hino
  · exact absurd hbefore.left (hr a t' ha)

omit [DecidableEq T] in
theorem Ordered.turn {s s' : State T} (h : Ordered s) (hcalls : Calls s) {fs : List Event}
    (he : s'.events = s.events ++ fs) (hc : ∀ op, .called op ∈ fs → .called op ∉ s.events)
    (hr : ∀ op t, .recorded op t ∈ fs → ∃ thread, s.callers thread = .mutate op t)
    (hp : ∀ thread op t, s'.callers thread = .mutate op t → s.callers thread = .mutate op t ∨
      (.called op ∈ s.events ∧ After s.events op t)) : Ordered s' := by
  have hmutate : ∀ {thread op t}, s.callers thread = .mutate op t →
      (s.callers thread).op = some op := by
    intro thread op t hs
    rw [hs]
    rfl
  have hlater : ∀ {op t}, .called op ∈ s.events → After s.events op t → After s'.events op t := by
    intro op t hcalled ha
    rw [he]
    refine ha.append (fun hmem => hc op hmem hcalled) ?_
    intro a t' hmem hret
    obtain ⟨thread, hs⟩ := hr a t' hmem
    exact (hcalls.returned a hret).2.2 thread (hmutate hs)
  constructor
  · intro thread op t hs
    rcases hp thread op t hs with hs | ⟨hcalled, ha⟩
    · exact hlater (hcalls.called thread op (hmutate hs)) (h.pending thread op t hs)
    · exact hlater hcalled ha
  · intro op t ho
    rw [he] at ho
    rcases List.mem_append.mp ho with ho | ho
    · exact hlater (hcalls.recorded op t ho) (h.recorded op t ho)
    · obtain ⟨thread, hs⟩ := hr op t ho
      exact hlater (hcalls.called thread op (hmutate hs)) (h.pending thread op t hs)

theorem update_eq_mutate {callers : T → Stage} {thread thread' : T} {stage : Stage} {op : Op}
    {t : Nat} (h : Function.update callers thread stage thread' = .mutate op t) :
    stage = .mutate op t ∨ callers thread' = .mutate op t := by
  rw [Function.update_apply] at h
  split at h
  · exact .inl h
  · exact .inr h

theorem Moves.ordered {s s' : State T} (hm : Moves s s') (ht : Table s) (hcontent : Content s)
    (hcalls : Calls s) (h : Ordered s) : Ordered s' := by
  -- a caller that gets no transaction
  have hkeep : ∀ {thread : T} {stage : Stage}, (∀ op t, stage ≠ .mutate op t) →
      ∀ thread' op t, Function.update s.callers thread stage thread' = .mutate op t →
        s.callers thread' = .mutate op t ∨ (.called op ∈ s.events ∧ After s.events op t) :=
    fun hstage thread' op t hs =>
      .inl ((update_eq_mutate hs).resolve_left fun heq => hstage op t heq)
  -- and one that gets the newest of its directory
  have hnewest : ∀ {thread : T} {op : Op} {tx : Nat}, (s.callers thread).op = some op →
      (∀ t', s.ino t' = some op.ino → t' ≤ tx) →
      ∀ thread' o t, Function.update s.callers thread (.mutate op tx) thread' = .mutate o t →
        s.callers thread' = .mutate o t ∨ (.called o ∈ s.events ∧ After s.events o t) := by
    intro thread op tx hop hle thread' o t hs
    rcases update_eq_mutate hs with heq | hs
    · cases heq
      refine .inr ⟨hcalls.called thread op hop, fun a t' _ ha hino => hle t' ?_⟩
      rw [← hino]
      exact hcontent.recorded a t' ha
    · exact .inl hs
  have hsame : ∀ (thread : T) (op : Op) (t : Nat), s.callers thread = .mutate op t →
      s.callers thread = .mutate op t ∨ (.called op ∈ s.events ∧ After s.events op t) :=
    fun _ _ _ hs => .inl hs
  cases hm with
  | call thread ino m hs =>
      refine h.turn hcalls rfl ?_ (by simp) (hkeep (by simp))
      intro op hmem hold
      cases List.mem_singleton.mp hmem
      exact absurd (hcalls.number _ hold) (Nat.lt_irrefl _)
  | hit thread op tx hs hl =>
      refine h.turn hcalls (List.append_nil _).symm (by simp) (by simp) (hnewest ?_ ?_)
      · rcases hs with hs | hs <;> rw [hs] <;> rfl
      · exact (ht.mapped op.ino tx hl).2.2
  | miss thread op hs =>
      exact h.turn hcalls (List.append_nil _).symm (by simp) (by simp) (hkeep (by simp))
  | make thread op hs hl =>
      refine h.turn hcalls (List.append_nil _).symm (by simp) (by simp) (hnewest ?_ ?_)
      · rw [hs]
        rfl
      · exact fun t' hi => (ino_lt hi).le
  | record thread op tx x x' hs hx ha =>
      refine h.turn hcalls rfl (by simp) ?_ (hkeep (by simp))
      intro o t hmem
      cases List.mem_singleton.mp hmem
      exact ⟨thread, hs⟩
  | retry thread op tx hs =>
      exact h.turn hcalls (List.append_nil _).symm (by simp) (by simp) (hkeep (by simp))
  | ret thread op hs => exact h.turn hcalls rfl (by simp) (by simp) (hkeep (by simp))
  | take order hcom ho => exact h.turn hcalls rfl (by simp) (by simp) hsame
  | flag p rest x hcom hx hc =>
      exact h.turn hcalls (List.append_nil _).symm (by simp) (by simp) hsame
  | write p rest x objSize hcom hx => exact h.turn hcalls rfl (by simp) (by simp) hsame
  | issue p rest hcom => exact h.turn hcalls rfl (by simp) (by simp) hsame
  | stop hcom => exact h.turn hcalls (List.append_nil _).symm (by simp) (by simp) hsame
  | issueNull n hcom hn => exact h.turn hcalls (List.append_nil _).symm (by simp) (by simp) hsame
  | dispatch i tx queue hc hq =>
      exact h.turn hcalls (List.append_nil _).symm (by simp) (by simp) hsame
  | dispatchNull i queue hc hq =>
      exact h.turn hcalls (List.append_nil _).symm (by simp) (by simp) hsame
  | checkpoint i tx hc => exact h.turn hcalls rfl (by simp) (by simp) hsame

omit [DecidableEq T] in
theorem ordered_init : Ordered (State.init : State T) := by
  constructor
  · intro thread op t hs
    cases hs
  · intro op t ht
    cases ht

end Nmfs.CommitCycle
