import Nmfs.Journal.CallOrder

/-
  Every operation is journaled exactly once, in the order of its directory, whatever the interleaving
  of the callers with the commit thread and the checkpoint threads.
-/

namespace Nmfs.CommitCycle

open Lib Transaction

variable {T : Type} [DecidableEq T]

/-! ## The end of a queue -/

/-- A null pointer is the last in its queue, and comes after the last cycle. -/
structure Nulls (s : State T) : Prop where
  stopping : ∀ i, s.checkpointers i = .stopped ∨ none ∈ s.queues i →
    ∃ n, s.committer = .stopping n ∧ i < n
  last : ∀ i pre queue, s.queues i = pre ++ none :: queue → queue = []
  stopped : ∀ i, s.checkpointers i = .stopped → s.queues i = []
  range : ∀ i, s.queues i ≠ [] → i < NUM_CP_THREAD

omit [DecidableEq T] in
theorem Nulls.congr {s s' : State T} (h : Nulls s) (hq : s'.queues = s.queues)
    (hc : s'.checkpointers = s.checkpointers)
    (hcom : ∀ n, s.committer = .stopping n → s'.committer = .stopping n) : Nulls s' := by
  constructor
  · intro i
    rw [hq, hc]
    intro hi
    obtain ⟨n, hn, hlt⟩ := h.stopping i hi
    exact ⟨n, hcom n hn, hlt⟩
  · rw [hq]
    exact h.last
  · rw [hq, hc]
    exact h.stopped
  · rw [hq]
    exact h.range

omit [DecidableEq T] in
/-- A queue gets one at its end. -/
theorem Nulls.push {s s' : State T} (h : Nulls s) {i : Nat} {x : Option Nat}
    (hlt : i < NUM_CP_THREAD) (hq : s'.queues = Function.update s.queues i (s.queues i ++ [x]))
    (hc : s'.checkpointers = s.checkpointers) (hopen : ¬ ∃ n, s.committer = .stopping n ∧ i < n)
    (hcom : ∀ j, (∃ n, s.committer = .stopping n ∧ j < n) ∨ (j = i ∧ x = none) →
      ∃ n, s'.committer = .stopping n ∧ j < n) : Nulls s' := by
  have hnone : none ∉ s.queues i := fun hmem => hopen (h.stopping i (.inr hmem))
  have hother : ∀ j, j ≠ i → s'.queues j = s.queues j := by
    intro j hj
    rw [hq, Function.update_of_ne hj]
  have hthis : s'.queues i = s.queues i ++ [x] := by
    rw [hq, Function.update_self]
  constructor
  · intro j hj
    apply hcom
    rw [hc] at hj
    rcases hj with hj | hj
    · exact .inl (h.stopping j (.inl hj))
    · by_cases hji : j = i
      · subst hji
        rw [hthis] at hj
        refine .inr ⟨rfl, ?_⟩
        exact (List.mem_singleton.mp ((List.mem_append.mp hj).resolve_left hnone)).symm
      · rw [hother j hji] at hj
        exact .inl (h.stopping j (.inr hj))
  · intro j pre queue hj
    by_cases hji : j = i
    · subst hji
      rw [hthis] at hj
      rcases List.eq_nil_or_concat queue with hnil | ⟨queue', y, hy⟩
      · exact hnil
      · -- the null pointer would have been in the queue before
        rw [hy, List.concat_eq_append, ← List.cons_append, ← List.append_assoc] at hj
        have hpre := (List.append_inj' hj rfl).1
        rw [hpre] at hnone
        exact absurd (List.mem_append_right _ List.mem_cons_self) hnone
    · rw [hother j hji] at hj
      exact h.last j pre queue hj
  · intro j hj
    rw [hc] at hj
    by_cases hji : j = i
    · subst hji
      exact absurd (h.stopping j (.inl hj)) hopen
    · rw [hother j hji]
      exact h.stopped j hj
  · intro j hj
    by_cases hji : j = i
    · subst hji
      exact hlt
    · rw [hother j hji] at hj
      exact h.range j hj

omit [DecidableEq T] in
/-- A checkpoint thread takes the first of its queue. -/
theorem Nulls.pop {s s' : State T} (h : Nulls s) {i : Nat} {x : Option Nat}
    {queue : List (Option Nat)} (hi : s.queues i = x :: queue)
    (hq : s'.queues = Function.update s.queues i queue) {c : Checkpointer}
    (hc : s'.checkpointers = Function.update s.checkpointers i c) (hx : c = .stopped → x = none)
    (hcom : s'.committer = s.committer) : Nulls s' := by
  constructor
  · intro j hj
    rw [hcom]
    apply h.stopping
    rw [hq, hc] at hj
    by_cases hji : j = i
    · subst hji
      rw [Function.update_self, Function.update_self] at hj
      right
      rw [hi]
      rcases hj with hj | hj
      · rw [hx hj]
        exact List.mem_cons_self
      · exact List.mem_cons_of_mem _ hj
    · rw [Function.update_of_ne hji, Function.update_of_ne hji] at hj
      exact hj
  · intro j pre rest hj
    rw [hq] at hj
    by_cases hji : j = i
    · subst hji
      rw [Function.update_self] at hj
      refine h.last j (x :: pre) rest ?_
      rw [hi, hj]
      rfl
    · rw [Function.update_of_ne hji] at hj
      exact h.last j pre rest hj
  · intro j hj
    rw [hc] at hj
    rw [hq]
    by_cases hji : j = i
    · subst hji
      rw [Function.update_self] at hj ⊢
      refine h.last j [] queue ?_
      rw [hi, hx hj]
      rfl
    · rw [Function.update_of_ne hji] at hj ⊢
      exact h.stopped j hj
  · intro j hj
    rw [hq] at hj
    apply h.range
    by_cases hji : j = i
    · subst hji
      rw [hi]
      exact List.cons_ne_nil _ _
    · rw [Function.update_of_ne hji] at hj
      exact hj

theorem queueIndex_lt (ino : Uuid) : queueIndex ino < NUM_CP_THREAD :=
  Nat.mod_lt _ (by decide)

theorem Moves.nulls {s s' : State T} (hm : Moves s s') (h : Nulls s) : Nulls s' := by
  cases hm with
  | issue p rest hcom =>
      refine h.push (queueIndex_lt p.1) rfl rfl ?_ ?_
      · rintro ⟨n, hn, -⟩
        rw [hcom] at hn
        cases hn
      · rintro j (⟨n, hn, -⟩ | ⟨-, hx⟩)
        · rw [hcom] at hn
          cases hn
        · cases hx
  | issueNull n hcom hn =>
      refine h.push hn rfl rfl ?_ ?_
      · rintro ⟨m, hm, hlt⟩
        rw [hcom] at hm
        cases hm
        exact absurd hlt (Nat.lt_irrefl _)
      · rintro j (⟨m, hm, hlt⟩ | ⟨rfl, -⟩)
        · rw [hcom] at hm
          cases hm
          exact ⟨n + 1, rfl, by omega⟩
        · exact ⟨j + 1, rfl, by omega⟩
  | dispatch i tx queue hc hq => exact h.pop hq rfl rfl (fun hx => (nomatch hx)) rfl
  | dispatchNull i queue hc hq => exact h.pop hq rfl rfl (fun _ => rfl) rfl
  | checkpoint i tx hc =>
      have hstopped : ∀ j, (Function.update s.checkpointers i .waiting) j = .stopped →
          s.checkpointers j = .stopped := by
        intro j hj
        by_cases hji : j = i
        · subst hji
          rw [Function.update_self] at hj
          cases hj
        · rw [Function.update_of_ne hji] at hj
          exact hj
      refine ⟨fun j hj => ?_, h.last, fun j hj => h.stopped j (hstopped j hj), h.range⟩
      exact h.stopping j (hj.imp_left (hstopped j))
  | take order hcom ho => exact h.congr rfl rfl (by rw [hcom]; exact fun n hn => (nomatch hn))
  | flag p rest x hcom hx hc => exact h.congr rfl rfl (by rw [hcom]; exact fun n hn => (nomatch hn))
  | write p rest x objSize hcom hx =>
      exact h.congr rfl rfl (by rw [hcom]; exact fun n hn => (nomatch hn))
  | stop hcom => exact h.congr rfl rfl (by rw [hcom]; exact fun n hn => (nomatch hn))
  | _ => exact h.congr rfl rfl fun _ hn => hn

omit [DecidableEq T] in
theorem nulls_init : Nulls (State.init : State T) := by
  constructor
  · rintro i (hi | hi)
    · cases hi
    · cases hi
  · intro i pre queue hi
    have hnil : [] = pre ++ none :: queue := hi
    simp at hnil
  · exact fun _ _ => rfl
  · exact fun i hi => absurd rfl hi

/-! ## The invariant of a run -/

structure Invariant (s : State T) : Prop where
  table : Table s
  pipeline : Pipeline s
  content : Content s
  calls : Calls s
  ordered : Ordered s
  nulls : Nulls s

theorem step_invariant {s s' : State T} {a : Action T} (h : Invariant s)
    (hs : step s a = some s') : Invariant s' := by
  have hm := step_moves hs
  exact ⟨hm.table h.table, hm.pipeline h.table h.pipeline, hm.content h.table h.content,
    hm.calls h.calls, hm.ordered h.table h.content h.calls h.ordered, hm.nulls h.nulls⟩

theorem run_invariant {s s' : State T} {as : List (Action T)} (h : Invariant s)
    (hr : Lib.run step s as = some s') : Invariant s' :=
  Lib.run_invariant (fun _ _ _ => step_invariant) h hr

omit [DecidableEq T] in
theorem invariant_init : Invariant (State.init : State T) :=
  ⟨table_init, pipeline_init, content_init, calls_init, ordered_init, nulls_init⟩

/-! ## A serialised transaction is left alone -/

theorem Moves.events {s s' : State T} (hm : Moves s s') : ∃ fs, s'.events = s.events ++ fs := by
  cases hm with
  | call thread ino m h => exact ⟨_, rfl⟩
  | record thread op tx x x' h hx ha => exact ⟨_, rfl⟩
  | ret thread op h => exact ⟨_, rfl⟩
  | take order h ho => exact ⟨_, rfl⟩
  | write p rest x objSize h hx => exact ⟨_, rfl⟩
  | issue p rest h => exact ⟨_, rfl⟩
  | checkpoint i tx h => exact ⟨_, rfl⟩
  | _ => exact ⟨[], (List.append_nil _).symm⟩

theorem Moves.serialised {s s' : State T} (hm : Moves s s') {t : Nat}
    (h : t ∈ serialised s.events) : t ∈ CommitCycle.serialised s'.events := by
  obtain ⟨fs, he⟩ := hm.events
  rw [he, serialised_append]
  exact List.mem_append_left _ h

theorem Moves.frozen {s s' : State T} (hm : Moves s s') (ht : Table s) {t : Nat}
    (h : t ∈ CommitCycle.serialised s.events) :
    s'.heap[t]? = s.heap[t]? ∧ recordedIn t s'.events = recordedIn t s.events := by
  have hcommitted : ∀ {x : Transaction}, s.heap[t]? = some x → x.committed = true :=
    fun hx => (ht.committed t _ hx).mpr (.inl h)
  cases hm with
  | make thread op hs hl =>
      exact ⟨List.getElem?_append_left (ht.taken_lt (ht.serialised_taken h)), rfl⟩
  | record thread op tx x x' hs hx ha =>
      have hne : tx ≠ t := by
        rintro rfl
        have := hcommitted hx
        rw [(not_committed_of_apply ha).1] at this
        cases this
      refine ⟨List.getElem?_set_ne hne, ?_⟩
      dsimp only [State.log, State.setStage]
      rw [recordedIn_append]
      simp [recordedIn, hne]
  | flag p rest x hcom hx hc =>
      have hne : p.2 ≠ t := by
        rintro rfl
        have := hcommitted hx
        rw [hc] at this
        cases this
      exact ⟨List.getElem?_set_ne hne, rfl⟩
  | write p rest x objSize hcom hx =>
      have hne : p.2 ≠ t := by
        rintro rfl
        have hnodup := ht.taken_nodup
        rw [ht.serialised, hcom] at hnodup
        exact List.disjoint_of_nodup_append hnodup h List.mem_cons_self
      exact ⟨List.getElem?_set_ne hne, recordedIn_append_quiet (by simp)⟩
  | take order hcom ho =>
      exact ⟨rfl, recordedIn_append_quiet (by simp)⟩
  | hit thread op tx hs hl => exact ⟨rfl, rfl⟩
  | miss thread op hs => exact ⟨rfl, rfl⟩
  | retry thread op tx hs => exact ⟨rfl, rfl⟩
  | stop hcom => exact ⟨rfl, rfl⟩
  | issueNull n hcom hn => exact ⟨rfl, rfl⟩
  | dispatch i tx queue hc hq => exact ⟨rfl, rfl⟩
  | dispatchNull i queue hc hq => exact ⟨rfl, rfl⟩
  | call thread ino m hs => exact ⟨rfl, recordedIn_append_quiet (by simp)⟩
  | ret thread op hs => exact ⟨rfl, recordedIn_append_quiet (by simp)⟩
  | issue p rest hcom => exact ⟨rfl, recordedIn_append_quiet (by simp)⟩
  | checkpoint i tx hc => exact ⟨rfl, recordedIn_append_quiet (by simp)⟩

theorem run_frozen {s s' : State T} {as : List (Action T)} (h : Invariant s) {t : Nat}
    (ht : t ∈ serialised s.events) (hr : Lib.run step s as = some s') :
    s'.heap[t]? = s.heap[t]? ∧ recordedIn t s'.events = recordedIn t s.events := by
  have hall : Invariant s' ∧ t ∈ serialised s'.events ∧
      s'.heap[t]? = s.heap[t]? ∧ recordedIn t s'.events = recordedIn t s.events := by
    refine Lib.run_invariant (I := fun u => Invariant u ∧ t ∈ serialised u.events ∧
      u.heap[t]? = s.heap[t]? ∧ recordedIn t u.events = recordedIn t s.events) ?_
      ⟨h, ht, rfl, rfl⟩ hr
    rintro u a u' ⟨hu, hmem, hheap, hrec⟩ hstep
    have hm := step_moves hstep
    obtain ⟨h1, h2⟩ := hm.frozen hu.table hmem
    exact ⟨step_invariant hu hstep, hm.serialised hmem, h1.trans hheap, h2.trans hrec⟩
  exact hall.2.2

/-! ## The order of a directory -/

section

omit [DecidableEq T]

variable {s : State T} {t t' : Nat} {ino : Uuid}

/-- Of two transactions of a directory the older one is serialised first. -/
theorem Table.serialised_before (h : Table s) (hi : s.ino t = some ino) (hi' : s.ino t' = some ino)
    (hlt : t < t') (hmem : t' ∈ CommitCycle.serialised s.events) :
    Before t t' (CommitCycle.serialised s.events) := by
  have htaken' := h.serialised_taken hmem
  have htaken : t ∈ taken s.events := by
    rcases h.known t ino hi with hmap | htaken
    · have := (h.mapped ino t hmap).2.2 t' hi'
      omega
    · exact htaken
  have hbefore : Before t t' (taken s.events) := by
    rcases before_or htaken htaken' (by omega) with hb | hb
    · exact hb
    · have := hb.rel h.order (hi'.trans hi.symm)
      omega
  have hnodup := h.taken_nodup
  rw [h.serialised] at hbefore hnodup
  exact hbefore.front hnodup hmem

/-- And it is checkpointed first: the two go through one queue. -/
theorem Pipeline.checkpointed_before (h : Pipeline s) (ht : Table s) (hi : s.ino t = some ino)
    (hi' : s.ino t' = some ino) (hlt : t < t') (hmem : t' ∈ checkpointed s.events) :
    Before t t' (checkpointed s.events) := by
  obtain ⟨i, hby⟩ := mem_checkpointed.mp hmem
  have hto : t' ∈ issuedTo i s.events := by
    rw [h.queue i, List.append_assoc]
    exact List.mem_append_left _ hby
  have hiss : t' ∈ CommitCycle.issued s.events := mem_issued.mpr ⟨i, hto⟩
  have hser : t' ∈ CommitCycle.serialised s.events := by
    rw [h.issued]
    exact List.mem_append_left _ hiss
  have hbefore : Before t t' (CommitCycle.issued s.events) := by
    have hb := ht.serialised_before hi hi' hlt hser
    have hnodup := ht.serialised_nodup
    rw [h.issued] at hb hnodup
    exact hb.front hnodup hiss
  have hto' : t ∈ issuedTo i s.events := by
    obtain ⟨j, hj⟩ := mem_issued.mp hbefore.left
    obtain ⟨ino₁, h1, h2⟩ := h.index j t hj
    obtain ⟨ino₂, h3, h4⟩ := h.index i t' hto
    rw [hi] at h1
    rw [hi'] at h3
    cases h1
    cases h3
    rw [← h4, h2]
    exact hj
  have hqueue : Before t t' (issuedTo i s.events) := by
    rcases before_or hto' hto (by omega) with hb | hb
    · exact hb
    · -- otherwise it would come twice among all that have been issued
      have hsub := issuedTo_sublist i s.events
      have hord : (CommitCycle.issued s.events).Pairwise fun u u' => s.ino u = s.ino u' → u < u' := by
        have hord := ht.order
        rw [ht.serialised, h.issued, List.append_assoc] at hord
        exact (List.pairwise_append.mp hord).1
      have hissued : Before t' t (CommitCycle.issued s.events) := hb.trans hsub
      have := hissued.rel hord (hi'.trans hi.symm)
      omega
  have hnodup := h.issuedTo_nodup ht i
  rw [h.queue i, List.append_assoc] at hqueue hnodup
  exact (hqueue.front hnodup hby).trans (checkpointedBy_sublist i s.events)

end

/-! ## The commit thread and the checkpoint threads come to an end -/

/-- A step of the commit thread or of a checkpoint thread on what has been taken. -/
def Action.background : Action T → Bool
  | .setCommitted => true
  | .write _ => true
  | .issue => true
  | .dispatch _ => true
  | .checkpoint _ => true
  | _ => false

/-- Nothing that has been taken is on its way. -/
def Settled (s : State T) : Prop :=
  s.committer.toSerialise = [] ∧ s.committer.toIssue = [] ∧
    ∀ i, (s.checkpointers i).inHand = [] ∧ (s.queues i).reduceOption = []

def progress (es : List Event) : Nat :=
  (serialised es).length + (issued es).length + (checkpointed es).length

theorem progress_append (es fs : List Event) : progress (es ++ fs) = progress es + progress fs := by
  unfold progress
  rw [serialised_append, issued_append, checkpointed_append, List.length_append, List.length_append,
    List.length_append]
  omega

section

omit [DecidableEq T]

variable {s : State T}

theorem Pipeline.checkpointed_issued (h : Pipeline s) {t : Nat} (ht : t ∈ checkpointed s.events) :
    t ∈ CommitCycle.issued s.events := by
  obtain ⟨i, hi⟩ := mem_checkpointed.mp ht
  refine mem_issued.mpr ⟨i, ?_⟩
  rw [h.queue i, List.append_assoc]
  exact List.mem_append_left _ hi

theorem Pipeline.issued_serialised (h : Pipeline s) {t : Nat}
    (ht : t ∈ CommitCycle.issued s.events) : t ∈ serialised s.events := by
  rw [h.issued]
  exact List.mem_append_left _ ht

theorem Invariant.progress_le (h : Invariant s) :
    progress s.events ≤ 3 * (taken s.events).length := by
  have h1 : (serialised s.events).length ≤ (taken s.events).length := by
    rw [h.table.serialised, List.length_append]
    omega
  have h2 : (issued s.events).length ≤ (serialised s.events).length := by
    rw [h.pipeline.issued, List.length_append]
    omega
  have h3 : (checkpointed s.events).length ≤ (issued s.events).length :=
    (List.subperm_of_subset h.pipeline.once fun _ => h.pipeline.checkpointed_issued).length_le
  unfold progress
  omega

/-- All that was taken has been serialised and checkpointed. -/
theorem Invariant.settled (h : Invariant s) (hs : Settled s) :
    serialised s.events = taken s.events ∧ (checkpointed s.events).Perm (taken s.events) := by
  obtain ⟨h1, h2, h3⟩ := hs
  have hser : serialised s.events = taken s.events := by
    rw [h.table.serialised, h1, List.append_nil]
  have hiss : issued s.events = taken s.events := by
    rw [← hser, h.pipeline.issued, h2, List.append_nil]
  refine ⟨hser, (List.perm_ext_iff_of_nodup h.pipeline.once h.table.taken_nodup).mpr fun t => ?_⟩
  rw [← hiss, mem_issued, mem_checkpointed]
  refine exists_congr fun i => ?_
  rw [h.pipeline.queue i, (h3 i).1, (h3 i).2, List.append_nil, List.append_nil]

end

omit [DecidableEq T] in
/-- A transaction that is to be committed has not been. -/
theorem Invariant.commit_ok {s : State T} (h : Invariant s) {p : (_ : Uuid) × Nat}
    {rest : List ((_ : Uuid) × Nat)} (hcom : s.committer = .cycle (p :: rest)) :
    ∃ x, s.heap[p.2]? = some x ∧ x.committed = false := by
  have hi := h.table.entries p (by rw [hcom]; exact List.mem_cons_self)
  obtain ⟨x, hx, -⟩ := Option.map_eq_some_iff.mp hi
  refine ⟨x, hx, ?_⟩
  rw [← Bool.not_eq_true]
  intro hc
  have hnodup := h.table.taken_nodup
  rw [h.table.serialised, hcom] at hnodup
  rcases (h.table.committed p.2 x hx).mp hc with hmem | hw
  · exact List.disjoint_of_nodup_append hnodup hmem List.mem_cons_self
  · rw [hcom] at hw
    cases hw

/-- One of the threads takes something further. -/
def Progresses (s : State T) : Prop :=
  ∃ as s', (∀ a ∈ as, a.background = true) ∧ Lib.run step s as = some s' ∧
    taken s'.events = taken s.events ∧ progress s.events < progress s'.events

/-- What it does is one event, or two steps with one. -/
theorem progresses_of_event {s : State T} (as : List (Action T)) (e : Event)
    (hb : ∀ a ∈ as, a.background = true)
    (hr : ∃ s', Lib.run step s as = some s' ∧ s'.events = s.events ++ [e]) (ht : taken [e] = [])
    (hp : 0 < progress [e]) : Progresses s := by
  obtain ⟨s', hr, he⟩ := hr
  refine ⟨as, s', hb, hr, ?_, ?_⟩
  · rw [he, taken_append, ht, List.append_nil]
  · rw [he, progress_append]
    omega

/-- A checkpoint thread is never in the way of its own queue. -/
theorem Invariant.checkpoint_progresses {s : State T} (h : Invariant s) {i : Nat}
    (hi : (s.checkpointers i).inHand ≠ [] ∨ (s.queues i).reduceOption ≠ []) : Progresses s := by
  match hc : s.checkpointers i, hq : s.queues i with
  | .busy tx, _ =>
      refine progresses_of_event [.checkpoint i] (.checkpointed i tx) (by simp [Action.background])
        ?_ rfl (by simp [progress, checkpointed])
      simp only [Lib.run, step, hc]
      exact ⟨_, rfl, rfl⟩
  | .stopped, _ =>
      rw [hc, h.nulls.stopped i hc] at hi
      simp [Checkpointer.inHand] at hi
  | .waiting, [] =>
      rw [hc, hq] at hi
      simp [Checkpointer.inHand] at hi
  | .waiting, none :: queue =>
      rw [hc, hq, h.nulls.last i [] queue hq] at hi
      simp [Checkpointer.inHand] at hi
  | .waiting, some tx :: queue =>
      have hlt := h.nulls.range i (by rw [hq]; exact List.cons_ne_nil _ _)
      refine progresses_of_event [.dispatch i, .checkpoint i] (.checkpointed i tx)
        (by simp [Action.background]) ?_ rfl (by simp [progress, checkpointed])
      simp only [Lib.run, step, if_pos hlt, hc, hq, Option.bind_some, Function.update_self]
      exact ⟨_, rfl, rfl⟩

/-- Where something is on its way, one of the threads takes it further. -/
theorem Invariant.progresses {s : State T} (h : Invariant s) (hs : ¬ Settled s) : Progresses s := by
  have hqueue : s.committer.toSerialise = [] → s.committer.toIssue = [] → Progresses s := by
    intro h1 h2
    by_contra hnone
    refine hs ⟨h1, h2, fun i => ?_⟩
    by_contra hi
    exact hnone (h.checkpoint_progresses (Decidable.not_and_iff_or_not.mp hi))
  match hcom : s.committer with
  | .cycle [] => exact hqueue (by rw [hcom]; rfl) (by rw [hcom]; rfl)
  | .stopping n => exact hqueue (by rw [hcom]; rfl) (by rw [hcom]; rfl)
  | .cycle (p :: rest) =>
      obtain ⟨x, hx, hc⟩ := h.commit_ok hcom
      have hlt := (List.getElem?_eq_some_iff.mp hx).1
      refine progresses_of_event [.setCommitted, .write 0]
        (.serialised p.2 { x with committed := true }.serialize) (by simp [Action.background]) ?_ rfl
        (by simp [progress, serialised])
      simp only [Lib.run, step, hcom, hx, hc, Option.bind_some, Bool.false_eq_true, if_false,
        List.getElem?_set_self hlt]
      exact ⟨_, rfl, rfl⟩
  | .write p rest =>
      have hi := h.table.entries p (by rw [hcom]; exact List.mem_cons_self)
      obtain ⟨x, hx, -⟩ := Option.map_eq_some_iff.mp hi
      refine progresses_of_event [.write 0] (.serialised p.2 x.serialize)
        (by simp [Action.background]) ?_ rfl (by simp [progress, serialised])
      simp only [Lib.run, step, hcom, hx]
      exact ⟨_, rfl, rfl⟩
  | .issue p rest =>
      refine progresses_of_event [.issue] (.issued (queueIndex p.1) p.2)
        (by simp [Action.background]) ?_ rfl (by simp [progress, issued])
      simp only [Lib.run, step, hcom]
      exact ⟨_, rfl, rfl⟩

/-- So they finish with everything that has been taken. -/
theorem Invariant.drained {s : State T} (h : Invariant s) :
    ∃ as s', (∀ a ∈ as, a.background = true) ∧ Lib.run step s as = some s' ∧
      taken s'.events = taken s.events ∧ Settled s' := by
  -- by induction on how far they can still go
  induction hn : 3 * (taken s.events).length - progress s.events using
    Nat.strong_induction_on generalizing s with
  | _ n ih =>
    by_cases hs : Settled s
    · exact ⟨[], s, by simp, rfl, rfl, hs⟩
    · obtain ⟨as, s₁, hb, hr, ht, hp⟩ := h.progresses hs
      have h₁ := run_invariant h hr
      have hle := h₁.progress_le
      rw [ht] at hle
      obtain ⟨bs, s', hb', hr', ht', hs'⟩ :=
        ih (3 * (taken s₁.events).length - progress s₁.events) (by rw [ht]; omega) h₁ rfl
      refine ⟨as ++ bs, s', ?_, run_append.mpr ⟨s₁, hr, hr'⟩, ht'.trans ht, hs'⟩
      intro a ha
      rcases List.mem_append.mp ha with ha | ha
      · exact hb a ha
      · exact hb' a ha

/-! ## Exactly once -/

structure ExactlyOnce (s : State T) : Prop where
  /-- an operation that returned is in one transaction, of its directory, once -/
  once : ∀ op, .returned op ∈ s.events →
    ∃ tx, recordedOf op s.events = [tx] ∧ s.ino tx = some op.ino
  /-- before that transaction is serialised -/
  before : ∀ op tx raw, .recorded op tx ∈ s.events → .serialised tx raw ∈ s.events →
    Before (.recorded op tx) (.serialised tx raw) s.events
  /-- what is serialised is what the recorded operations made -/
  written : ∀ tx raw, .serialised tx raw ∈ s.events →
    ∃ x, s.heap[tx]? = some x ∧ x.serialize = raw ∧
      uncommitted x = (new x.sIno).mutate ((recordedIn tx s.events).map Op.mutation)
  /-- and stays so -/
  frozen : ∀ tx ∈ serialised s.events, ∀ as s', Lib.run step s as = some s' →
    s'.heap[tx]? = s.heap[tx]? ∧ recordedIn tx s'.events = recordedIn tx s.events
  /-- what is taken is committed and checkpointed once at most, and `commit` does not raise -/
  atMostOnce : (taken s.events).Nodup ∧ (serialised s.events).Nodup ∧
    (checkpointed s.events).Nodup ∧ serialised s.events ⊆ taken s.events ∧
      checkpointed s.events ⊆ serialised s.events
  commits : ∀ p rest, s.committer = .cycle (p :: rest) →
    ∃ x, s.heap[p.2]? = some x ∧ x.committed = false
  /-- once at least, when the threads have gone through with it, and they can -/
  settled : Settled s →
    serialised s.events = taken s.events ∧ (checkpointed s.events).Perm (taken s.events)
  drained : ∃ as s', (∀ a ∈ as, a.background = true) ∧ Lib.run step s as = some s' ∧
    taken s'.events = taken s.events ∧ Settled s'
  /-- two operations on one directory, the first of which returned before the other started -/
  order : ∀ a b t t', Before (.returned a) (.called b) s.events → a.ino = b.ino →
    .recorded a t ∈ s.events → .recorded b t' ∈ s.events → t = t' ∨
      (t' ∈ serialised s.events → Before t t' (serialised s.events)) ∧
        (t' ∈ checkpointed s.events → Before t t' (checkpointed s.events))

theorem Invariant.exactlyOnce {s : State T} (h : Invariant s) : ExactlyOnce s := by
  refine ⟨?_, h.content.before, ?_, ?_, ?_, ?_, h.settled, h.drained, ?_⟩
  · intro op ho
    obtain ⟨hop, ⟨tx, htx⟩, -⟩ := h.calls.returned op ho
    refine ⟨tx, htx, h.content.recorded op tx ((h.calls.mem_recordedOf hop).mp ?_)⟩
    rw [htx]
    exact List.mem_cons_self
  · intro tx raw hw
    obtain ⟨x, hx, hraw⟩ := Option.map_eq_some_iff.mp (h.content.written tx raw hw)
    exact ⟨x, hx, hraw, h.content.heap tx x hx⟩
  · exact fun tx ht as s' hr => run_frozen h ht hr
  · exact ⟨h.table.taken_nodup, h.table.serialised_nodup, h.pipeline.once,
      fun _ => h.table.serialised_taken,
      fun _ ht => h.pipeline.issued_serialised (h.pipeline.checkpointed_issued ht)⟩
  · exact fun p rest hcom => h.commit_ok hcom
  · intro a b t t' hbefore hino ha hb
    have hi := h.content.recorded a t ha
    have hi' := h.content.recorded b t' hb
    rw [← hino] at hi'
    rcases Nat.eq_or_lt_of_le (h.ordered.recorded b t' hb a t hbefore ha hino) with heq | hlt
    · exact .inl heq
    · exact .inr ⟨h.table.serialised_before hi hi' hlt,
        h.pipeline.checkpointed_before h.table hi hi' hlt⟩

/-- In every run, whatever the threads. -/
theorem journal_exactlyOnce {s : State T} {as : List (Action T)}
    (h : Lib.run step State.init as = some s) : ExactlyOnce s :=
  (run_invariant invariant_init h).exactlyOnce

/-- One thread loses the race: it has been handed a transaction that is then committed, comes back,
    and makes a second one. -/
def race : List (Action Bool) :=
  [.call false Uuid.rootIno .rmself, .call true Uuid.rootIno .rmself, .find false, .insert false,
    .find true, .mutate false, .ret false, .replaceMap [⟨Uuid.rootIno, 0⟩], .setCommitted,
    .mutate true, .write 0, .find true, .insert true, .mutate true, .issue, .ret true]

theorem journal_exactlyOnce_race : ∃ s, Lib.run step State.init race = some s ∧
    recordedOf ⟨0, Uuid.rootIno, .rmself⟩ s.events = [0] ∧
    recordedOf ⟨1, Uuid.rootIno, .rmself⟩ s.events = [1] ∧ ExactlyOnce s :=
  ⟨_, rfl, rfl, rfl, @journal_exactlyOnce Bool _ _ race rfl⟩

end Nmfs.CommitCycle
