import Nmfs.Journal.Check
import Nmfs.Journal.Sync

/-
  `Log` is what a directory's journal comes to: what is stored, which transactions are pending, and
  the records one after the other. The code follows it, step by step and run by run.
-/

namespace Nmfs.Journal

open Lib RadosIo Transaction

/-! ## The log -/

structure Log where
  stored : Stored
  pending : List Transaction
  bytes : Bytes
  /-- nothing has been checkpointed -/
  clean : Bool

namespace Log

def step (l : Log) : Event → Option Log
  | .commit tx => some { l with pending := l.pending ++ [tx], bytes := l.bytes ++ tx.serialize }
  | .checkpoint =>
    match l.pending with
    | [] => none
    | tx :: pending =>
      match l.stored.sync tx with
      | .error _ => none
      | .ok stored => some { l with stored := stored, pending := pending, clean := false }

end Log

/-- The transaction of the queue that `tx` has become. -/
def Queued (q tx : Transaction) : Prop := q = { tx with committed := true, offset := q.offset }

structure Follows (dir : Uuid) (s : State) (l : Log) : Prop where
  stores : Stores s.pool dir l.stored
  journal : ∃ bytes, Holds s.pool .journal dir.toStr bytes ∧ bytes.length = l.bytes.length ∧
    (l.clean = true → bytes = l.bytes)
  queue : List.Forall₂ Queued s.queue l.pending
  sIno : ∀ tx ∈ l.pending, tx.sIno = dir
  offset : ∀ q ∈ s.queue, q.offset < l.bytes.length

/-- What `commit` is given. -/
def Fresh (dir : Uuid) : Event → Prop
  | .commit tx => tx.committed = false ∧ tx.sIno = dir
  | .checkpoint => True

theorem stores_frame {dir : Uuid} {m : Stored} {pool pool' : Pool} {key : Str}
    (h : Stores pool dir m) (hf : Frame .journal key pool pool') : Stores pool' dir m := by
  constructor
  · exact hf.storedAs (fun heq => nomatch (Prod.mk.inj heq).1) h.dentry
  · intro u
    exact hf.holds (fun heq => nomatch (Prod.mk.inj heq).1) (h.inodes u)

theorem serialize_pos (tx : Transaction) : 4 < tx.serialize.length := by
  simp only [serialize, body, List.length_append, leBytes_length, List.length_cons]
  omega

/-- A commit appends the record. -/
theorem commit_follows {dir : Uuid} {s : State} {l : Log} (h : Follows dir s l)
    {tx : Transaction} (hc : tx.committed = false) (hino : tx.sIno = dir) :
    ∃ s', step s (.commit tx) = some s' ∧
      Follows dir s' { l with pending := l.pending ++ [tx], bytes := l.bytes ++ tx.serialize } := by
  obtain ⟨bytes, hbytes, hlen, hclean⟩ := h.journal
  subst hino
  have hstat : (RadosIo.stat s.pool .journal tx.sIno.toStr).2 = bytes.length := by
    obtain ⟨n, hn⟩ := hbytes
    rw [stat_eq hn]
  have hpos := serialize_pos tx
  have hstep : step s (.commit tx) = some
      ⟨(RadosIo.write s.pool .journal tx.sIno.toStr tx.serialize bytes.length).2,
        s.queue ++ [{ tx with committed := true, offset := bytes.length }]⟩ := by
    simp only [step, Transaction.commit, hc, hstat, Bool.false_eq_true, if_false]
  refine ⟨_, hstep, ?_⟩
  refine ⟨stores_frame h.stores (frame_write_file _ _), ?_, ?_, ?_, ?_⟩
  · refine ⟨bytes ++ tx.serialize, ?_, ?_, ?_⟩
    · rw [← overwrite_end 0 bytes tx.serialize]
      exact (write_holds hbytes _ _).2
    · simp only [List.length_append, hlen]
    · intro hcl
      rw [hclean hcl]
  · exact List.rel_append h.queue (List.Forall₂.cons rfl List.Forall₂.nil)
  · intro tx' htx'
    rcases List.mem_append.mp htx' with hold | hnew
    · exact h.sIno tx' hold
    · rw [List.mem_singleton.mp hnew]
  · intro q hq
    rw [List.length_append]
    rcases List.mem_append.mp hq with hold | hnew
    · have := h.offset q hold
      omega
    · rw [List.mem_singleton.mp hnew]
      dsimp only
      omega

/-- `sync` does not look at what `commit` has set. -/
theorem Queued.sync {q tx : Transaction} (h : Queued q tx) (m : Stored) : m.sync q = m.sync tx := by
  rw [h]
  rfl

/-- A checkpoint can be made exactly when the first pending transaction can be stored. -/
theorem checkpoint_follows {dir : Uuid} {s : State} {l : Log} (h : Follows dir s l) :
    (∀ s', step s .checkpoint = some s' →
      ∃ l', l.step .checkpoint = some l' ∧ Follows dir s' l') ∧
    (∀ l', l.step .checkpoint = some l' →
      ∃ s', step s .checkpoint = some s' ∧ Follows dir s' l') := by
  obtain ⟨pool, queue⟩ := s
  obtain ⟨stored, pending, lbytes, clean⟩ := l
  obtain ⟨hstores, hjournal, hqueue, hsIno, hoffset⟩ := h
  dsimp only at hstores hjournal hqueue hsIno hoffset
  cases hqueue with
  | nil => exact ⟨fun s' hs' => (nomatch hs'), fun l' hl' => (nomatch hl')⟩
  | @cons q tx queue pending hq hrest =>
      have htx : tx.sIno = dir := hsIno tx List.mem_cons_self
      have hqIno : q.sIno = dir := by
        rw [hq]
        exact htx
      subst hqIno
      obtain ⟨herr, hok⟩ := sync_stores q hstores
      cases hsync : stored.sync q with
      | error e =>
          have hs : step ⟨pool, q :: queue⟩ .checkpoint = none := by
            have := herr e hsync
            unfold step Transaction.checkpoint
            dsimp only
            generalize q.sync pool = r at this ⊢
            obtain ⟨r, pool'⟩ := r
            cases this
            rfl
          have hl : Log.step ⟨stored, tx :: pending, lbytes, clean⟩ .checkpoint = none := by
            unfold Log.step
            dsimp only
            rw [← hq.sync, hsync]
          rw [hs, hl]
          exact ⟨fun s' hs' => (nomatch hs'), fun l' hl' => (nomatch hl')⟩
      | ok m' =>
          obtain ⟨hres, hstores'⟩ := hok m' hsync
          have hs : step ⟨pool, q :: queue⟩ .checkpoint = some
              ⟨(RadosIo.write (q.sync pool).2 .journal q.sIno.toStr [0] q.offset).2, queue⟩ := by
            unfold step Transaction.checkpoint
            dsimp only
            generalize q.sync pool = r at hres ⊢
            obtain ⟨r, pool'⟩ := r
            cases hres
            rfl
          have hl : Log.step ⟨stored, tx :: pending, lbytes, clean⟩ .checkpoint =
              some ⟨m', pending, lbytes, false⟩ := by
            unfold Log.step
            dsimp only
            rw [← hq.sync, hsync]
          rw [hs, hl]
          have hfollows : Follows q.sIno
              ⟨(RadosIo.write (q.sync pool).2 .journal q.sIno.toStr [0] q.offset).2, queue⟩
              ⟨m', pending, lbytes, false⟩ := by
            obtain ⟨bytes, hbytes, hlen, -⟩ := hjournal
            have hoff := hoffset q List.mem_cons_self
            refine ⟨stores_frame hstores' (frame_write_file _ _), ?_, hrest,
              fun t ht => hsIno t (List.mem_cons_of_mem _ ht),
              fun t ht => hoffset t (List.mem_cons_of_mem _ ht)⟩
            refine ⟨overwrite 0 bytes q.offset [0], ?_, ?_, fun hc => (nomatch hc)⟩
            · exact (write_holds ((sync_metaFrame q pool).holds (by decide) (by decide) hbytes) _ _).2
            · rw [overwrite_length, hlen, List.length_singleton]
              dsimp only
              omega
          constructor
          · intro s' hs'
            cases hs'
            exact ⟨_, rfl, hfollows⟩
          · intro l' hl'
            cases hl'
            exact ⟨_, rfl, hfollows⟩

/-! ## Runs -/

/-- Every run of the code is one of the log. -/
theorem run_follows {dir : Uuid} {s s' : State} {l : Log} {evs : List Event} (h : Follows dir s l)
    (hevs : ∀ e ∈ evs, Fresh dir e) (hr : run step s evs = some s') :
    ∃ l', run Log.step l evs = some l' ∧ Follows dir s' l' := by
  refine run_simulation (R := Follows dir) ?_ h hevs hr
  intro s l e s' h he hs'
  cases e with
  | commit tx =>
      obtain ⟨s'', hs'', h'⟩ := commit_follows h he.1 he.2
      rw [hs''] at hs'
      cases hs'
      exact ⟨_, rfl, h'⟩
  | checkpoint => exact (checkpoint_follows h).1 s' hs'

/-- Every run of the log is one of the code. -/
theorem run_followed {dir : Uuid} {s : State} {l l' : Log} {evs : List Event} (h : Follows dir s l)
    (hevs : ∀ e ∈ evs, Fresh dir e) (hr : run Log.step l evs = some l') :
    ∃ s', run step s evs = some s' ∧ Follows dir s' l' := by
  refine run_simulation (R := fun l s => Follows dir s l) ?_ h hevs hr
  intro l s e l' h he hl'
  cases e with
  | commit tx =>
      cases hl'
      exact commit_follows h he.1 he.2
  | checkpoint => exact (checkpoint_follows h).2 l' hl'

/-- What a log comes to. -/
theorem log_run {l l' : Log} {evs : List Event} (hr : run Log.step l evs = some l') :
    l'.pending = (l.pending ++ committed evs).drop (checkpointed evs) ∧
      checkpointed evs ≤ (l.pending ++ committed evs).length ∧
      ((l.pending ++ committed evs).take (checkpointed evs)).foldlM Stored.sync l.stored =
        .ok l'.stored ∧
      l'.bytes = l.bytes ++ (committed evs).flatMap serialize ∧
      l'.clean = (l.clean && checkpointed evs == 0) := by
  induction evs generalizing l with
  | nil =>
      cases hr
      simp [committed, checkpointed]
      rfl
  | cons e evs ih =>
      obtain ⟨l₁, h₁, hr⟩ := run_cons.mp hr
      obtain ⟨hp, hle, hm, hb, hc⟩ := ih hr
      cases e with
      | commit tx =>
          cases h₁
          dsimp only at hp hle hm hb hc
          simp only [List.append_assoc, List.singleton_append] at hp hle hm hb
          exact ⟨hp, hle, hm, hb, hc⟩
      | checkpoint =>
          obtain ⟨m, pending, bytes, clean⟩ := l
          unfold Log.step at h₁
          dsimp only at h₁
          cases pending with
          | nil => cases h₁
          | cons tx pending =>
              dsimp only at h₁
              cases hsync : m.sync tx with
              | error e =>
                  rw [hsync] at h₁
                  cases h₁
              | ok m' =>
                  rw [hsync] at h₁
                  cases h₁
                  dsimp only at hp hle hm hb hc
                  refine ⟨hp, ?_, ?_, hb, ?_⟩
                  · simp only [checkpointed, committed, List.length_append, List.length_cons] at hle ⊢
                    omega
                  · simp only [checkpointed, committed, List.cons_append, List.take_succ_cons,
                      List.foldlM_cons, hsync]
                    exact hm
                  · rw [hc]
                    simp [checkpointed]

end Nmfs.Journal
