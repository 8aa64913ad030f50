import Nmfs.Journal.CommitCycle
import Mathlib.Data.List.ReduceOption

/-
  The way of a transaction from the map through the commit thread and a queue. `Moves` says what a
  step can do; `Table` is the invariant of the map and the commit thread, `Pipeline` that of the
  queues. The transactions of one directory are made one after the other, and keep that order.
-/

namespace Nmfs.CommitCycle

open Lib Transaction

variable {T : Type} [DecidableEq T]

/-! ## Steps -/

/-- The ways a step can go. -/
inductive Moves (s : State T) : State T → Prop
  | call (thread : T) (ino : Uuid) (m : Mutation) (h : s.callers thread = .idle) :
      Moves s (({ s with calls := s.calls + 1 }.setStage thread (.find ⟨s.calls, ino, m⟩)).log
        (.called ⟨s.calls, ino, m⟩))
  | hit (thread : T) (op : Op) (tx : Nat)
      (h : s.callers thread = .find op ∨ s.callers thread = .insert op)
      (hl : s.map.lookup op.ino = some tx) : Moves s (s.setStage thread (.mutate op tx))
  | miss (thread : T) (op : Op) (h : s.callers thread = .find op) :
      Moves s (s.setStage thread (.insert op))
  | make (thread : T) (op : Op) (h : s.callers thread = .insert op)
      (hl : s.map.lookup op.ino = none) :
      Moves s ({ s with
        map := s.map.insert op.ino s.heap.length
        heap := s.heap ++ [new op.ino] }.setStage thread (.mutate op s.heap.length))
  | record (thread : T) (op : Op) (tx : Nat) (x x' : Transaction)
      (h : s.callers thread = .mutate op tx) (hx : s.heap[tx]? = some x)
      (ha : op.mutation.apply x = (.ok 0, x')) :
      Moves s (({ s with heap := s.heap.set tx x' }.setStage thread (.leave op)).log
        (.recorded op tx))
  | retry (thread : T) (op : Op) (tx : Nat) (h : s.callers thread = .mutate op tx) :
      Moves s (s.setStage thread (.find op))
  | ret (thread : T) (op : Op) (h : s.callers thread = .leave op) :
      Moves s ((s.setStage thread .idle).log (.returned op))
  | take (order : List ((_ : Uuid) × Nat)) (h : s.committer = .cycle [])
      (ho : order.Perm s.map.entries) :
      Moves s { s with
        map := ∅
        committer := .cycle order
        events := s.events ++ order.map fun p => .took p.2 }
  | flag (p : (_ : Uuid) × Nat) (rest : List ((_ : Uuid) × Nat)) (x : Transaction)
      (h : s.committer = .cycle (p :: rest)) (hx : s.heap[p.2]? = some x)
      (hc : x.committed = false) :
      Moves s { s with
        heap := s.heap.set p.2 { x with committed := true }
        committer := .write p rest }
  | write (p : (_ : Uuid) × Nat) (rest : List ((_ : Uuid) × Nat)) (x : Transaction) (objSize : Nat)
      (h : s.committer = .write p rest) (hx : s.heap[p.2]? = some x) :
      Moves s ({ s with
        heap := s.heap.set p.2 { x with offset := objSize }
        committer := .issue p rest }.log (.serialised p.2 x.serialize))
  | issue (p : (_ : Uuid) × Nat) (rest : List ((_ : Uuid) × Nat))
      (h : s.committer = .issue p rest) :
      Moves s ({ s with
        committer := .cycle rest
        queues := Function.update s.queues (queueIndex p.1)
          (s.queues (queueIndex p.1) ++ [some p.2]) }.log (.issued (queueIndex p.1) p.2))
  | stop (h : s.committer = .cycle []) : Moves s { s with committer := .stopping 0 }
  | issueNull (n : Nat) (h : s.committer = .stopping n) (hn : n < NUM_CP_THREAD) :
      Moves s { s with
        committer := .stopping (n + 1)
        queues := Function.update s.queues n (s.queues n ++ [none]) }
  | dispatch (i tx : Nat) (queue : List (Option Nat)) (hc : s.checkpointers i = .waiting)
      (hq : s.queues i = some tx :: queue) :
      Moves s { s with
        queues := Function.update s.queues i queue
        checkpointers := Function.update s.checkpointers i (.busy tx) }
  | dispatchNull (i : Nat) (queue : List (Option Nat)) (hc : s.checkpointers i = .waiting)
      (hq : s.queues i = none :: queue) :
      Moves s { s with
        queues := Function.update s.queues i queue
        checkpointers := Function.update s.checkpointers i .stopped }
  | checkpoint (i tx : Nat) (hc : s.checkpointers i = .busy tx) :
      Moves s ({ s with
        checkpointers := Function.update s.checkpointers i .waiting }.log (.checkpointed i tx))

theorem step_moves {s s' : State T} {a : Action T} (h : step s a = some s') : Moves s s' := by
  cases a with
  | call thread ino m =>
      simp only [step] at h
      split at h
      · rename_i hs
        cases h
        exact .call thread ino m hs
      · cases h
  | find thread =>
      simp only [step] at h
      split at h
      · rename_i op hs
        split at h
        · rename_i tx hl
          cases h
          exact .hit thread op tx (.inl hs) hl
        · cases h
          exact .miss thread op hs
      · cases h
  | insert thread =>
      simp only [step] at h
      split at h
      · rename_i op hs
        split at h
        · rename_i tx hl
          cases h
          exact .hit thread op tx (.inr hs) hl
        · rename_i hl
          cases h
          exact .make thread op hs hl
      · cases h
  | mutate thread =>
      simp only [step] at h
      split at h
      · rename_i op tx hs
        split at h
        · cases h
        · rename_i x hx
          split at h
          · cases h
          · rename_i code x' ha
            split at h
            · rename_i hcode
              subst hcode
              cases h
              exact .record thread op tx x x' hs hx ha
            · cases h
              exact .retry thread op tx hs
      · cases h
  | ret thread =>
      simp only [step] at h
      split at h
      · rename_i op hs
        cases h
        exact .ret thread op hs
      · cases h
  | replaceMap order =>
      simp only [step] at h
      split at h
      · rename_i hc
        split at h
        · rename_i ho
          cases h
          exact .take order hc ho
        · cases h
      · cases h
  | setCommitted =>
      simp only [step] at h
      split at h
      · rename_i p rest hc
        split at h
        · cases h
        · rename_i x hx
          split at h
          · cases h
          · rename_i hx'
            cases h
            exact .flag p rest x hc hx (by simpa using hx')
      · cases h
  | write objSize =>
      simp only [step] at h
      split at h
      · rename_i p rest hc
        split at h
        · cases h
        · rename_i x hx
          cases h
          exact .write p rest x objSize hc hx
      · cases h
  | issue =>
      simp only [step] at h
      split at h
      · rename_i p rest hc
        cases h
        exact .issue p rest hc
      · cases h
  | stop =>
      simp only [step] at h
      split at h
      · rename_i hc
        cases h
        exact .stop hc
      · cases h
  | issueNull =>
      simp only [step] at h
      split at h
      · rename_i n hc
        split at h
        · rename_i hn
          cases h
          exact .issueNull n hc hn
        · cases h
      · cases h
  | dispatch i =>
      simp only [step] at h
      split at h
      · split at h
        · rename_i tx queue hc hq
          cases h
          exact .dispatch i tx queue hc hq
        · rename_i queue hc hq
          cases h
          exact .dispatchNull i queue hc hq
        · cases h
      · cases h
  | checkpoint i =>
      simp only [step] at h
      split at h
      · rename_i tx hc
        cases h
        exact .checkpoint i tx hc
      · cases h

/-! ## What a call that is recorded leaves alone -/

theorem not_committed_of_apply {m : Mutation} {tx tx' : Transaction}
    (h : m.apply tx = (.ok 0, tx')) :
    tx.committed = false ∧ tx'.committed = false ∧ tx'.sIno = tx.sIno ∧ tx'.offset = tx.offset := by
  have hc : tx.committed = false := by
    rw [← Bool.not_eq_true]
    intro hc
    rw [apply_committed hc] at h
    cases h
  have hframe := apply_frame m tx
  rw [h] at hframe
  exact ⟨hc, hframe.committed.trans hc, hframe.sIno, hframe.offset⟩

/-! ## The map and the commit thread -/

/-- The directory of a transaction. -/
def State.ino (s : State T) (t : Nat) : Option Uuid := s.heap[t]?.map Transaction.sIno

namespace Committer

/-- What has been taken and not serialised. -/
def toSerialise : Committer → List Nat
  | cycle rest => rest.map fun p => p.2
  | write p rest => p.2 :: rest.map fun p => p.2
  | issue _ rest => rest.map fun p => p.2
  | stopping _ => []

/-- What has been serialised and not issued. -/
def toIssue : Committer → List Nat
  | issue p _ => [p.2]
  | _ => []

def entries : Committer → List ((_ : Uuid) × Nat)
  | cycle rest => rest
  | write p rest => p :: rest
  | issue p rest => p :: rest
  | stopping _ => []

/-- The transaction that has been flagged and not been serialised. -/
def writing : Committer → Option Nat
  | write p _ => some p.2
  | _ => none

end Committer

omit [DecidableEq T] in
theorem ino_lt {s : State T} {t : Nat} {ino : Uuid} (h : s.ino t = some ino) :
    t < s.heap.length := by
  obtain ⟨x, hx, -⟩ := Option.map_eq_some_iff.mp h
  exact (List.getElem?_eq_some_iff.mp hx).1

theorem taken_append (es fs : List Event) : taken (es ++ fs) = taken es ++ taken fs :=
  List.filterMap_append

theorem serialised_append (es fs : List Event) :
    serialised (es ++ fs) = serialised es ++ serialised fs :=
  List.filterMap_append

theorem taken_took (order : List ((_ : Uuid) × Nat)) :
    taken (order.map fun p => .took p.2) = order.map fun p => p.2 := by
  induction order with
  | nil => rfl
  | cons p order ih => exact congrArg (p.2 :: ·) ih

structure Table (s : State T) : Prop where
  /-- the map has the newest transaction of a directory, and it has not been taken -/
  mapped : ∀ ino t, s.map.lookup ino = some t →
    s.ino t = some ino ∧ t ∉ taken s.events ∧ ∀ t', s.ino t' = some ino → t' ≤ t
  known : ∀ t ino, s.ino t = some ino → s.map.lookup ino = some t ∨ t ∈ taken s.events
  takenIno : ∀ t ∈ taken s.events, ∃ ino, s.ino t = some ino
  order : (taken s.events).Pairwise fun t t' => s.ino t = s.ino t' → t < t'
  serialised : taken s.events = serialised s.events ++ s.committer.toSerialise
  entries : ∀ p ∈ s.committer.entries, s.ino p.2 = some p.1
  committed : ∀ t x, s.heap[t]? = some x →
    (x.committed = true ↔ t ∈ CommitCycle.serialised s.events ∨ s.committer.writing = some t)

section

omit [DecidableEq T]

variable {s s' : State T}

/-- The commit thread goes on. -/
theorem Table.turn (h : Table s) (hm : s'.map = s.map) (hh : s'.heap = s.heap)
    (hser : s'.committer.toSerialise = s.committer.toSerialise)
    (hent : ∀ p ∈ s'.committer.entries, p ∈ s.committer.entries)
    (hw : s'.committer.writing = s.committer.writing) (ht : taken s'.events = taken s.events)
    (hs : CommitCycle.serialised s'.events = CommitCycle.serialised s.events) : Table s' := by
  have hino : s'.ino = s.ino := by
    funext t
    unfold State.ino
    rw [hh]
  constructor
  · rw [hm, hino, ht]
    exact h.mapped
  · rw [hm, hino, ht]
    exact h.known
  · rw [hino, ht]
    exact h.takenIno
  · rw [hino, ht]
    exact h.order
  · rw [ht, hs, hser]
    exact h.serialised
  · rw [hino]
    exact fun p hp => h.entries p (hent p hp)
  · rw [hh, hs, hw]
    exact h.committed

/-- The table does not depend on anything else. -/
theorem Table.congr (h : Table s) (hm : s'.map = s.map) (hh : s'.heap = s.heap)
    (hc : s'.committer = s.committer) (ht : taken s'.events = taken s.events)
    (hs : CommitCycle.serialised s'.events = CommitCycle.serialised s.events) : Table s' :=
  h.turn hm hh (by rw [hc]) (by rw [hc]; exact fun _ hp => hp) (by rw [hc]) ht hs

theorem Table.serialised_taken (h : Table s) {t : Nat}
    (ht : t ∈ CommitCycle.serialised s.events) : t ∈ taken s.events := by
  rw [h.serialised]
  exact List.mem_append_left _ ht

theorem Table.writing_taken (h : Table s) {t : Nat} (ht : s.committer.writing = some t) :
    t ∈ taken s.events := by
  rw [h.serialised]
  apply List.mem_append_right
  unfold Committer.writing at ht
  split at ht
  · rename_i p rest hc
    cases ht
    rw [hc]
    exact List.mem_cons_self
  · cases ht

theorem Table.taken_lt (h : Table s) {t : Nat} (ht : t ∈ taken s.events) : t < s.heap.length := by
  obtain ⟨ino, hino⟩ := h.takenIno t ht
  exact ino_lt hino

/-- A transaction is replaced by one of the same directory. -/
theorem Table.set (h : Table s) {t : Nat} {x x' : Transaction} (hx : s.heap[t]? = some x)
    (hino : x'.sIno = x.sIno) (hh : s'.heap = s.heap.set t x') (hm : s'.map = s.map)
    (ht : taken s'.events = taken s.events)
    (hser : CommitCycle.serialised s'.events ++ s'.committer.toSerialise =
      CommitCycle.serialised s.events ++ s.committer.toSerialise)
    (hent : s'.committer.entries = s.committer.entries)
    (hc : ∀ t' y, s'.heap[t']? = some y →
      (y.committed = true ↔ t' ∈ CommitCycle.serialised s'.events ∨
        s'.committer.writing = some t')) : Table s' := by
  have hsame : s'.ino = s.ino := by
    funext t'
    unfold State.ino
    rw [hh, List.getElem?_set]
    by_cases htt : t = t'
    · subst htt
      have hlt := (List.getElem?_eq_some_iff.mp hx).1
      rw [if_pos rfl, if_pos hlt, hx, Option.map_some, Option.map_some, hino]
    · rw [if_neg htt]
  constructor
  · rw [hm, hsame, ht]
    exact h.mapped
  · rw [hm, hsame, ht]
    exact h.known
  · rw [hsame, ht]
    exact h.takenIno
  · rw [hsame, ht]
    exact h.order
  · rw [ht, hser]
    exact h.serialised
  · rw [hsame, hent]
    exact h.entries
  · exact hc

/-- A new transaction comes into the map. -/
theorem Table.make (h : Table s) {ino : Uuid} (hl : s.map.lookup ino = none)
    (hm : s'.map = s.map.insert ino s.heap.length) (hh : s'.heap = s.heap ++ [new ino])
    (hc : s'.committer = s.committer) (he : s'.events = s.events) : Table s' := by
  have hold : ∀ t, t < s.heap.length → s'.ino t = s.ino t := by
    intro t ht
    unfold State.ino
    rw [hh, List.getElem?_append_left ht]
  have hnew : s'.ino s.heap.length = some ino := by
    unfold State.ino
    rw [hh, List.getElem?_append_right (Nat.le_refl _), Nat.sub_self]
    rfl
  have hcases : ∀ t i, s'.ino t = some i → s.ino t = some i ∨ (t = s.heap.length ∧ i = ino) := by
    intro t i hi
    have hlt := ino_lt hi
    rw [hh, List.length_append, List.length_singleton] at hlt
    by_cases ht : t < s.heap.length
    · rw [hold t ht] at hi
      exact .inl hi
    · have : t = s.heap.length := by omega
      subst this
      rw [hnew] at hi
      exact .inr ⟨rfl, (Option.some.inj hi).symm⟩
  have hser : CommitCycle.serialised s'.events = CommitCycle.serialised s.events := by rw [he]
  constructor
  · intro i t hi
    rw [hm] at hi
    rcases lookup_insert_eq_some hi with ⟨rfl, rfl⟩ | ⟨hino, hi⟩
    · refine ⟨hnew, ?_, ?_⟩
      · rw [he]
        exact fun hmem => absurd (h.taken_lt hmem) (Nat.lt_irrefl _)
      · intro t' ht'
        have := ino_lt ht'
        rw [hh, List.length_append, List.length_singleton] at this
        omega
    · obtain ⟨h1, h2, h3⟩ := h.mapped i t hi
      refine ⟨(hold t (ino_lt h1)).trans h1, by rw [he]; exact h2, ?_⟩
      intro t' ht'
      rcases hcases t' i ht' with hold' | ⟨-, heq⟩
      · exact h3 t' hold'
      · exact absurd heq hino
  · intro t i hi
    rw [hm, he]
    rcases hcases t i hi with hold' | ⟨rfl, rfl⟩
    · rcases h.known t i hold' with hmap | htaken
      · refine .inl ?_
        rw [AList.lookup_insert_ne]
        · exact hmap
        · rintro rfl
          rw [hl] at hmap
          cases hmap
      · exact .inr htaken
    · exact .inl (AList.lookup_insert _)
  · intro t ht
    rw [he] at ht
    obtain ⟨i, hi⟩ := h.takenIno t ht
    exact ⟨i, (hold t (ino_lt hi)).trans hi⟩
  · rw [he]
    refine h.order.imp_of_mem ?_
    intro t t' ht ht' hlt heq
    rw [hold t (h.taken_lt ht), hold t' (h.taken_lt ht')] at heq
    exact hlt heq
  · rw [he, hc]
    exact h.serialised
  · intro p hp
    rw [hc] at hp
    have hp' := h.entries p hp
    exact (hold p.2 (ino_lt hp')).trans hp'
  · intro t x hx
    rw [hser, hc]
    rw [hh] at hx
    by_cases ht : t < s.heap.length
    · rw [List.getElem?_append_left ht] at hx
      exact h.committed t x hx
    · have hlen := (List.getElem?_eq_some_iff.mp hx).1
      rw [List.length_append, List.length_singleton] at hlen
      have : t = s.heap.length := by omega
      subst this
      rw [List.getElem?_append_right (Nat.le_refl _), Nat.sub_self] at hx
      cases hx
      constructor
      · intro hcommitted
        cases hcommitted
      · rintro (hmem | hw)
        · exact absurd (h.taken_lt (h.serialised_taken hmem)) ht
        · exact absurd (h.taken_lt (h.writing_taken hw)) ht

/-- The commit thread takes the map. -/
theorem Table.take (h : Table s) {order : List ((_ : Uuid) × Nat)} (hcom : s.committer = .cycle [])
    (ho : order.Perm s.map.entries) : Table { s with
      map := ∅
      committer := .cycle order
      events := s.events ++ order.map fun p => .took p.2 } := by
  have htaken : taken (s.events ++ order.map fun p => .took p.2) =
      taken s.events ++ order.map fun p => p.2 := by
    rw [taken_append, taken_took]
  have hser : CommitCycle.serialised (s.events ++ order.map fun p => .took p.2) =
      CommitCycle.serialised s.events := by
    rw [serialised_append]
    have hnil : CommitCycle.serialised (order.map fun p => Event.took p.2) = [] := by
      clear ho htaken
      induction order with
      | nil => rfl
      | cons p order ih => exact ih
    rw [hnil, List.append_nil]
  have hmap : ∀ p ∈ order, s.map.lookup p.1 = some p.2 :=
    fun p hp => AList.mem_lookup_iff.mpr (ho.mem_iff.mp hp)
  constructor
  · intro ino t hi
    rw [AList.lookup_empty] at hi
    cases hi
  · intro t ino hi
    right
    dsimp only
    rw [htaken]
    rcases h.known t ino hi with hl | hold
    · exact List.mem_append_right _ (List.mem_map.mpr
        ⟨⟨ino, t⟩, ho.mem_iff.mpr (AList.mem_lookup_iff.mp hl), rfl⟩)
    · exact List.mem_append_left _ hold
  · intro t ht
    dsimp only at ht
    rw [htaken] at ht
    rcases List.mem_append.mp ht with hold | hnew
    · exact h.takenIno t hold
    · obtain ⟨p, hp, rfl⟩ := List.mem_map.mp hnew
      exact ⟨p.1, (h.mapped _ _ (hmap p hp)).1⟩
  · dsimp only
    rw [htaken, List.pairwise_append]
    refine ⟨h.order, ?_, ?_⟩
    · -- the keys of a map differ
      rw [List.pairwise_map]
      have hkeys : order.Pairwise fun p p' => p.1 ≠ p'.1 := by
        have hnodup : (order.map Sigma.fst).Nodup :=
          (ho.map Sigma.fst).nodup_iff.mpr s.map.keys_nodup
        exact List.pairwise_map.mp hnodup
      refine hkeys.imp_of_mem ?_
      intro p p' hp hp' hne heq
      have h1 := (h.mapped _ _ (hmap p hp)).1
      have h2 := (h.mapped _ _ (hmap p' hp')).1
      have heq' : s.ino p.2 = s.ino p'.2 := heq
      rw [h1, h2] at heq'
      exact absurd (Option.some.inj heq') hne
    · intro t ht t' ht' heq
      obtain ⟨p, hp, rfl⟩ := List.mem_map.mp ht'
      obtain ⟨h1, h2, h3⟩ := h.mapped _ _ (hmap p hp)
      have hle := h3 t (Eq.trans (b := s.ino p.2) heq h1)
      have hne : t ≠ p.2 := fun hcontra => h2 (hcontra ▸ ht)
      omega
  · have hold := h.serialised
    rw [hcom] at hold
    dsimp only
    rw [htaken, hser, hold, Committer.toSerialise, List.map_nil, List.append_nil]
    rfl
  · intro p hp
    exact (h.mapped _ _ (hmap p hp)).1
  · intro t x hx
    have hold := h.committed t x hx
    rw [hcom] at hold
    dsimp only
    rw [hser]
    exact hold

end

theorem Moves.table {s s' : State T} (hm : Moves s s') (h : Table s) : Table s' := by
  cases hm with
  | call thread ino m hs =>
      exact h.congr rfl rfl rfl (by simp [State.log, State.setStage, taken])
        (by simp [State.log, State.setStage, CommitCycle.serialised])
  | hit thread op tx hs hl => exact h.congr rfl rfl rfl rfl rfl
  | miss thread op hs => exact h.congr rfl rfl rfl rfl rfl
  | make thread op hs hl => exact h.make hl rfl rfl rfl rfl
  | record thread op tx x x' hs hx ha =>
      obtain ⟨hc, hc', hino, -⟩ := not_committed_of_apply ha
      have hser : CommitCycle.serialised (s.events ++ [.recorded op tx]) =
          CommitCycle.serialised s.events := by
        simp [CommitCycle.serialised]
      refine h.set hx hino rfl rfl (by simp [State.log, State.setStage, taken])
        (congrArg (· ++ _) hser) rfl ?_
      intro t y hy
      dsimp only [State.log, State.setStage] at hy ⊢
      rw [hser]
      rw [List.getElem?_set] at hy
      split at hy
      · rename_i htt
        subst htt
        split at hy
        · cases hy
          rw [hc', ← hc]
          exact h.committed tx x hx
        · cases hy
      · exact h.committed t y hy
  | retry thread op tx hs => exact h.congr rfl rfl rfl rfl rfl
  | ret thread op hs =>
      exact h.congr rfl rfl rfl (by simp [State.log, State.setStage, taken])
        (by simp [State.log, State.setStage, CommitCycle.serialised])
  | take order hcom ho => exact h.take hcom ho
  | flag p rest x hcom hx hc =>
      have hino : ({ x with committed := true } : Transaction).sIno = x.sIno := rfl
      refine h.set hx hino rfl rfl rfl (by rw [hcom]; rfl) (by rw [hcom]; rfl) ?_
      intro t y hy
      dsimp only at hy ⊢
      rw [List.getElem?_set] at hy
      split at hy
      · rename_i htt
        subst htt
        split at hy
        · cases hy
          exact ⟨fun _ => .inr rfl, fun _ => rfl⟩
        · cases hy
      · rename_i hne
        have hold := h.committed t y hy
        rw [hcom] at hold
        rw [hold]
        simp only [Committer.writing, Option.some.injEq]
        constructor
        · rintro (hmem | hw)
          · exact .inl hmem
          · cases hw
        · rintro (hmem | hw)
          · exact .inl hmem
          · exact absurd hw hne
  | write p rest x objSize hcom hx =>
      have hino : ({ x with offset := objSize } : Transaction).sIno = x.sIno := rfl
      have hser : CommitCycle.serialised (s.events ++ [.serialised p.2 x.serialize]) =
          CommitCycle.serialised s.events ++ [p.2] := by
        simp [CommitCycle.serialised]
      refine h.set hx hino rfl rfl (by simp [State.log, taken]) ?_ (by rw [hcom]; rfl) ?_
      · dsimp only [State.log]
        rw [hser, hcom, List.append_assoc]
        rfl
      · -- it was the one in the hands of the commit thread, and is the last one serialised
        have hcommitted : ∀ t y, s.heap[t]? = some y →
            (y.committed = true ↔ t ∈ CommitCycle.serialised s.events ++ [p.2]) := by
          intro t y hy
          have hold := h.committed t y hy
          rw [hcom] at hold
          rw [hold, List.mem_append, List.mem_singleton, Committer.writing, Option.some.injEq,
            eq_comm (a := p.2)]
        intro t y hy
        dsimp only [State.log] at hy ⊢
        rw [hser]
        simp only [Committer.writing, reduceCtorEq, or_false]
        rw [List.getElem?_set] at hy
        split at hy
        · rename_i htt
          subst htt
          split at hy
          · cases hy
            exact hcommitted p.2 x hx
          · cases hy
        · exact hcommitted t y hy
  | issue p rest hcom =>
      refine h.turn rfl rfl (by rw [hcom]; rfl) ?_ (by rw [hcom]; rfl) (by simp [State.log, taken])
        (by simp [State.log, CommitCycle.serialised])
      rw [hcom]
      exact fun q hq => List.mem_cons_of_mem _ hq
  | stop hcom =>
      exact h.turn rfl rfl (by rw [hcom]; rfl) (fun p hp => (nomatch hp)) (by rw [hcom]; rfl) rfl rfl
  | issueNull n hcom hn =>
      exact h.turn rfl rfl (by rw [hcom]; rfl) (fun p hp => (nomatch hp)) (by rw [hcom]; rfl) rfl rfl
  | dispatch i tx queue hc hq => exact h.congr rfl rfl rfl rfl rfl
  | dispatchNull i queue hc hq => exact h.congr rfl rfl rfl rfl rfl
  | checkpoint i tx hc =>
      exact h.congr rfl rfl rfl (by simp [State.log, taken])
        (by simp [State.log, CommitCycle.serialised])

omit [DecidableEq T] in
theorem table_init : Table (State.init : State T) := by
  refine ⟨?_, ?_, ?_, List.Pairwise.nil, rfl, ?_, ?_⟩
  · intro ino t hi
    cases hi
  · intro t ino hi
    cases hi
  · intro t ht
    cases ht
  · intro p hp
    cases hp
  · intro t x hx
    cases hx

/-! ## The queues -/

def Checkpointer.inHand : Checkpointer → List Nat
  | busy tx => [tx]
  | _ => []

theorem issued_append (es fs : List Event) : issued (es ++ fs) = issued es ++ issued fs :=
  List.filterMap_append

theorem checkpointed_append (es fs : List Event) :
    checkpointed (es ++ fs) = checkpointed es ++ checkpointed fs :=
  List.filterMap_append

theorem issuedTo_append (i : Nat) (es fs : List Event) :
    issuedTo i (es ++ fs) = issuedTo i es ++ issuedTo i fs :=
  List.filterMap_append

theorem checkpointedBy_append (i : Nat) (es fs : List Event) :
    checkpointedBy i (es ++ fs) = checkpointedBy i es ++ checkpointedBy i fs :=
  List.filterMap_append

theorem issuedTo_sublist (i : Nat) (es : List Event) : (issuedTo i es).Sublist (issued es) := by
  apply filterMap_sublist
  intro e t h
  cases e with
  | issued j t' =>
      dsimp only at h
      split at h
      · exact h
      · cases h
  | _ => cases h

theorem checkpointedBy_sublist (i : Nat) (es : List Event) :
    (checkpointedBy i es).Sublist (checkpointed es) := by
  apply filterMap_sublist
  intro e t h
  cases e with
  | checkpointed j t' =>
      dsimp only at h
      split at h
      · exact h
      · cases h
  | _ => cases h

theorem mem_issued {es : List Event} {t : Nat} : t ∈ issued es ↔ ∃ i, t ∈ issuedTo i es := by
  constructor
  · intro h
    obtain ⟨e, he, heq⟩ := List.mem_filterMap.mp h
    cases e with
    | issued i t' =>
        cases heq
        exact ⟨i, List.mem_filterMap.mpr ⟨_, he, if_pos rfl⟩⟩
    | _ => cases heq
  · rintro ⟨i, h⟩
    exact (issuedTo_sublist i es).subset h

theorem mem_checkpointed {es : List Event} {t : Nat} :
    t ∈ checkpointed es ↔ ∃ i, t ∈ checkpointedBy i es := by
  constructor
  · intro h
    obtain ⟨e, he, heq⟩ := List.mem_filterMap.mp h
    cases e with
    | checkpointed i t' =>
        cases heq
        exact ⟨i, List.mem_filterMap.mpr ⟨_, he, if_pos rfl⟩⟩
    | _ => cases heq
  · rintro ⟨i, h⟩
    exact (checkpointedBy_sublist i es).subset h

structure Pipeline (s : State T) : Prop where
  issued : serialised s.events = CommitCycle.issued s.events ++ s.committer.toIssue
  queue : ∀ i, issuedTo i s.events = checkpointedBy i s.events ++ (s.checkpointers i).inHand ++
    (s.queues i).reduceOption
  index : ∀ i t, t ∈ issuedTo i s.events → ∃ ino, s.ino t = some ino ∧ queueIndex ino = i
  once : (checkpointed s.events).Nodup

/-- A transaction keeps its directory. -/
theorem Moves.ino {s s' : State T} (hm : Moves s s') {t : Nat} {ino : Uuid}
    (h : s.ino t = some ino) : s'.ino t = some ino := by
  have hset : ∀ (k : Nat) (x x' : Transaction), s.heap[k]? = some x → x'.sIno = x.sIno →
      (s.heap.set k x')[t]?.map Transaction.sIno = some ino := by
    intro k x x' hx hino
    rw [List.getElem?_set]
    split
    · rename_i hkt
      subst hkt
      have hlt := (List.getElem?_eq_some_iff.mp hx).1
      unfold State.ino at h
      rw [hx] at h
      rw [if_pos hlt, Option.map_some, hino]
      exact h
    · exact h
  cases hm with
  | make thread op hs hl =>
      refine Eq.trans ?_ h
      dsimp only [State.ino, State.setStage]
      rw [List.getElem?_append_left (ino_lt h)]
  | record thread op tx x x' hs hx ha => exact hset tx x x' hx (not_committed_of_apply ha).2.2.1
  | flag p rest x hcom hx hc => exact hset p.2 x _ hx rfl
  | write p rest x objSize hcom hx => exact hset p.2 x _ hx rfl
  | _ => exact h

theorem issuedTo_eq_nil {es : List Event} (h : issued es = []) (i : Nat) : issuedTo i es = [] :=
  List.sublist_nil.mp (h ▸ issuedTo_sublist i es)

theorem checkpointedBy_eq_nil {es : List Event} (h : checkpointed es = []) (i : Nat) :
    checkpointedBy i es = [] :=
  List.sublist_nil.mp (h ▸ checkpointedBy_sublist i es)

theorem filterMap_took {β : Type} {f : Event → Option β} (hf : ∀ t, f (.took t) = none)
    (ps : List ((_ : Uuid) × Nat)) : (ps.map fun p => Event.took p.2).filterMap f = [] := by
  rw [List.filterMap_map]
  exact List.filterMap_eq_nil_iff.mpr fun p _ => hf p.2

/-- Nothing is issued or checkpointed, and what a checkpoint thread has in hand comes from its own
    queue. -/
theorem Pipeline.congr {s s' : State T} (h : Pipeline s) (hm : Moves s s') {fs : List Event}
    (he : s'.events = s.events ++ fs) (hissued : CommitCycle.issued fs = [])
    (hcp : checkpointed fs = [])
    (hcom : s'.committer.toIssue = s.committer.toIssue ++ serialised fs)
    (hq : ∀ i, (s'.checkpointers i).inHand ++ (s'.queues i).reduceOption =
      (s.checkpointers i).inHand ++ (s.queues i).reduceOption) : Pipeline s' := by
  have hto : ∀ i, issuedTo i s'.events = issuedTo i s.events := by
    intro i
    rw [he, issuedTo_append, issuedTo_eq_nil hissued, List.append_nil]
  have hby : ∀ i, checkpointedBy i s'.events = checkpointedBy i s.events := by
    intro i
    rw [he, checkpointedBy_append, checkpointedBy_eq_nil hcp, List.append_nil]
  constructor
  · rw [he, serialised_append, issued_append, hissued, hcom, List.append_nil, h.issued,
      List.append_assoc]
  · intro i
    rw [hto, hby, List.append_assoc, hq, ← List.append_assoc]
    exact h.queue i
  · intro i t ht
    rw [hto] at ht
    obtain ⟨ino, hino, hi⟩ := h.index i t ht
    exact ⟨ino, hm.ino hino, hi⟩
  · rw [he, checkpointed_append, hcp, List.append_nil]
    exact h.once

/-- A checkpoint thread turns to what is in front of its queue. -/
theorem handed_on {queues : Nat → List (Option Nat)} {checkpointers : Nat → Checkpointer} {i : Nat}
    {queue : List (Option Nat)} {checkpointer : Checkpointer}
    (h : checkpointer.inHand ++ queue.reduceOption =
      (checkpointers i).inHand ++ (queues i).reduceOption) (j : Nat) :
    (Function.update checkpointers i checkpointer j).inHand ++
        (Function.update queues i queue j).reduceOption =
      (checkpointers j).inHand ++ (queues j).reduceOption := by
  by_cases hj : j = i
  · subst hj
    rw [Function.update_self, Function.update_self]
    exact h
  · rw [Function.update_of_ne hj, Function.update_of_ne hj]

omit [DecidableEq T] in
theorem Table.taken_nodup {s : State T} (h : Table s) : (taken s.events).Nodup := by
  refine h.order.imp_of_mem ?_
  intro t t' ht ht' hlt heq
  exact absurd (hlt (by rw [heq])) (by omega)

omit [DecidableEq T] in
theorem Table.serialised_nodup {s : State T} (h : Table s) :
    (CommitCycle.serialised s.events).Nodup := by
  have := h.taken_nodup
  rw [h.serialised] at this
  exact this.of_append_left

omit [DecidableEq T] in
theorem Pipeline.issuedTo_nodup {s : State T} (h : Pipeline s) (ht : Table s) (i : Nat) :
    (issuedTo i s.events).Nodup := by
  have hser := ht.serialised_nodup
  rw [h.issued] at hser
  exact hser.of_append_left.sublist (issuedTo_sublist i s.events)

omit [DecidableEq T] in
/-- A transaction is issued once, so the one in hand has not been checkpointed. -/
theorem Pipeline.not_checkpointed {s : State T} (h : Pipeline s) (ht : Table s) {i tx : Nat}
    (hc : s.checkpointers i = .busy tx) : tx ∉ checkpointed s.events := by
  intro hmem
  have hqueue := h.queue i
  rw [hc] at hqueue
  have hin : tx ∈ issuedTo i s.events := by
    rw [hqueue]
    exact List.mem_append_left _ (List.mem_append_right _ List.mem_cons_self)
  obtain ⟨j, hj⟩ := mem_checkpointed.mp hmem
  have hjissued : tx ∈ issuedTo j s.events := by
    rw [h.queue j]
    exact List.mem_append_left _ (List.mem_append_left _ hj)
  obtain ⟨ino, hino, hi⟩ := h.index i tx hin
  obtain ⟨ino', hino', hj'⟩ := h.index j tx hjissued
  obtain rfl : ino = ino' := Option.some.inj (hino.symm.trans hino')
  obtain rfl : j = i := hj'.symm.trans hi
  have hnodup := h.issuedTo_nodup ht j
  rw [hqueue] at hnodup
  exact List.disjoint_of_nodup_append hnodup.of_append_left hj List.mem_cons_self

theorem Moves.pipeline {s s' : State T} (hm : Moves s s') (ht : Table s) (h : Pipeline s) :
    Pipeline s' := by
  have hmoves := hm
  have hnil : s.events = s.events ++ [] := (List.append_nil _).symm
  have hsame : s.committer.toIssue = s.committer.toIssue ++ [] := (List.append_nil _).symm
  cases hm with
  | call thread ino m hs => exact h.congr hmoves rfl rfl rfl hsame fun _ => rfl
  | hit thread op tx hs hl => exact h.congr hmoves hnil rfl rfl hsame fun _ => rfl
  | miss thread op hs => exact h.congr hmoves hnil rfl rfl hsame fun _ => rfl
  | make thread op hs hl => exact h.congr hmoves hnil rfl rfl hsame fun _ => rfl
  | record thread op tx x x' hs hx ha => exact h.congr hmoves rfl rfl rfl hsame fun _ => rfl
  | retry thread op tx hs => exact h.congr hmoves hnil rfl rfl hsame fun _ => rfl
  | ret thread op hs => exact h.congr hmoves rfl rfl rfl hsame fun _ => rfl
  | take order hcom ho =>
      have hnone : serialised (order.map fun p => Event.took p.2) = [] :=
        filterMap_took (fun _ => rfl) order
      exact h.congr hmoves rfl (filterMap_took (fun _ => rfl) order)
        (filterMap_took (fun _ => rfl) order) (by rw [hcom, hnone]; rfl) fun _ => rfl
  | flag p rest x hcom hx hc =>
      exact h.congr hmoves hnil rfl rfl (by rw [hcom]; rfl) fun _ => rfl
  | write p rest x objSize hcom hx =>
      exact h.congr hmoves rfl rfl rfl (by rw [hcom]; rfl) fun _ => rfl
  | issue p rest hcom =>
      have hp : s.ino p.2 = some p.1 := ht.entries p (by rw [hcom]; exact List.mem_cons_self)
      constructor
      · have hold := h.issued
        rw [hcom, Committer.toIssue] at hold
        simp only [State.log]
        rw [serialised_append, issued_append, hold]
        simp [serialised, issued, Committer.toIssue]
      · intro i
        simp only [State.log]
        rw [issuedTo_append, checkpointedBy_append, h.queue i]
        by_cases hi : i = queueIndex p.1
        · subst hi
          simp [issuedTo, checkpointedBy, List.reduceOption_append]
        · rw [Function.update_of_ne hi]
          have hne : ¬ queueIndex p.1 = i := fun heq => hi heq.symm
          simp [issuedTo, checkpointedBy, hne]
      · intro i t hi
        simp only [State.log] at hi
        rw [issuedTo_append] at hi
        rcases List.mem_append.mp hi with hold | hnew
        · exact h.index i t hold
        · by_cases hq : queueIndex p.1 = i
          · have htp : t = p.2 := by simpa [issuedTo, hq] using hnew
            subst htp
            exact ⟨p.1, hp, hq⟩
          · simp [issuedTo, hq] at hnew
      · simp only [State.log]
        rw [checkpointed_append]
        simpa [checkpointed] using h.once
  | stop hcom => exact h.congr hmoves hnil rfl rfl (by rw [hcom]; rfl) fun _ => rfl
  | issueNull n hcom hn =>
      refine h.congr hmoves hnil rfl rfl (by rw [hcom]; rfl) fun i => ?_
      dsimp only
      by_cases hi : i = n
      · subst hi
        rw [Function.update_self, List.reduceOption_append]
        exact congrArg _ (List.append_nil _)
      · rw [Function.update_of_ne hi]
  | dispatch i tx queue hc hq =>
      exact h.congr hmoves hnil rfl rfl hsame (handed_on (by rw [hc, hq]; rfl))
  | dispatchNull i queue hc hq =>
      exact h.congr hmoves hnil rfl rfl hsame (handed_on (by rw [hc, hq]; rfl))
  | checkpoint i tx hc =>
      constructor
      · simp only [State.log]
        rw [serialised_append, issued_append, h.issued]
        simp [serialised, issued]
      · intro j
        simp only [State.log]
        rw [issuedTo_append, checkpointedBy_append, h.queue j]
        by_cases hj : j = i
        · subst hj
          simp [issuedTo, checkpointedBy, hc, Checkpointer.inHand]
        · have hne : ¬ i = j := fun heq => hj heq.symm
          rw [Function.update_of_ne hj]
          simp [issuedTo, checkpointedBy, hne]
      · intro j t hj
        simp only [State.log] at hj
        rw [issuedTo_append] at hj
        exact h.index j t (by simpa [issuedTo] using hj)
      · simp only [State.log]
        rw [checkpointed_append]
        refine List.Nodup.append h.once (List.nodup_singleton tx) ?_
        intro t ht1 ht2
        rw [List.mem_singleton.mp ht2] at ht1
        exact h.not_checkpointed ht hc ht1

omit [DecidableEq T] in
theorem pipeline_init : Pipeline (State.init : State T) := by
  refine ⟨rfl, fun _ => rfl, ?_, List.nodup_nil⟩
  intro i t ht
  cases ht

end Nmfs.CommitCycle
