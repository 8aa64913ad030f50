import Mathlib

/-
  Threads over one store. A program is the calls it makes, each with what comes after it for every
  reply. Threads that call on different cells of the store end as if each had run alone.
-/

namespace Nmfs.Lib

/-- What is left to do: nothing, or a call, and what to do with the reply. -/
inductive Prog {Call : Type} (Reply : Call → Type) (ε α : Type) where
  | done (result : Except ε α)
  | call (c : Call) (next : Reply c → Prog Reply ε α)

namespace Prog

variable {Call : Type} {Reply : Call → Type} {ε α β σ : Type}

protected def bind : Prog Reply ε α → (α → Prog Reply ε β) → Prog Reply ε β
  | done (.ok a), f => f a
  | done (.error e), _ => done (.error e)
  | call c next, f => call c fun r => (next r).bind f

instance : Monad (Prog Reply ε) where
  pure a := done (.ok a)
  bind := Prog.bind

/-- One call. -/
def make (c : Call) : Prog Reply ε (Reply c) := call c fun r => done (.ok r)

/-- From beginning to end, with nobody else at the store. -/
def run (exec : (c : Call) → σ → Reply c × σ) : Prog Reply ε α → σ → Except ε α × σ
  | done result, s => (result, s)
  | call c next, s => (next (exec c s).1).run exec (exec c s).2

/-- How many calls it makes. -/
def length (exec : (c : Call) → σ → Reply c × σ) : Prog Reply ε α → σ → Nat
  | done _, _ => 0
  | call c next, s => (next (exec c s).1).length exec (exec c s).2 + 1

/-- It makes no other calls. -/
def Calls (P : Call → Prop) : Prog Reply ε α → Prop
  | done _ => True
  | call c next => P c ∧ ∀ r, (next r).Calls P

/-- As long as the replies are such as `R` says, whoever else is at the store, the result is one of
    `post`. -/
def Ends (R : (c : Call) → Reply c → Prop) (post : Except ε α → Prop) : Prog Reply ε α → Prop
  | done result => post result
  | call c next => ∀ r, R c r → (next r).Ends R post

variable {exec : (c : Call) → σ → Reply c × σ} {p : Prog Reply ε α} {f : α → Prog Reply ε β}
  {P Q : Call → Prop} {s : σ}

@[simp] theorem run_pure (a : α) : (pure a : Prog Reply ε α).run exec s = (.ok a, s) := rfl

@[simp] theorem run_make (c : Call) :
    (make c : Prog Reply ε (Reply c)).run exec s = (.ok (exec c s).1, (exec c s).2) := rfl

theorem run_bind : (p >>= f).run exec s =
    match p.run exec s with
    | (.ok a, s') => (f a).run exec s'
    | (.error e, s') => (.error e, s') := by
  show (p.bind f).run exec s = _
  induction p generalizing s with
  | done result => cases result <;> rfl
  | call c next ih => exact ih _

theorem run_bind_ok {a : α} {s' : σ} (h : p.run exec s = (.ok a, s')) :
    (p >>= f).run exec s = (f a).run exec s' := by
  rw [run_bind, h]

theorem run_bind_error {e : ε} {s' : σ} (h : p.run exec s = (.error e, s')) :
    (p >>= f).run exec s = (.error e, s') := by
  rw [run_bind, h]

theorem Calls.bind (hp : p.Calls P) (hf : ∀ a, (f a).Calls P) : (p >>= f).Calls P := by
  show (p.bind f).Calls P
  induction p with
  | done result =>
      cases result with
      | ok a => exact hf a
      | error e => trivial
  | call c next ih => exact ⟨hp.1, fun r => ih r (hp.2 r)⟩

theorem Calls.make {c : Call} (h : P c) : (make c : Prog Reply ε (Reply c)).Calls P :=
  ⟨h, fun _ => trivial⟩

theorem Calls.mono (hp : p.Calls P) (h : ∀ c, P c → Q c) : p.Calls Q := by
  induction p with
  | done result => trivial
  | call c next ih => exact ⟨h c hp.1, fun r => ih r (hp.2 r)⟩

theorem Ends.make {R : (c : Call) → Reply c → Prop} {c : Call}
    {post : Except ε (Reply c) → Prop} (h : ∀ r, R c r → post (.ok r)) :
    (make c : Prog Reply ε (Reply c)).Ends R post := h

theorem Ends.bind {R : (c : Call) → Reply c → Prop} {post : Except ε β → Prop} {mid : α → Prop}
    (hp : p.Ends R fun result => ∃ a, result = .ok a ∧ mid a)
    (hf : ∀ a, mid a → (f a).Ends R post) : (p >>= f).Ends R post := by
  show (p.bind f).Ends R post
  induction p with
  | done result =>
      obtain ⟨a, rfl, ha⟩ := hp
      exact hf a ha
  | call c next ih => exact fun r hr => ih r (hp r hr)

theorem Ends.mono {R : (c : Call) → Reply c → Prop} {post post' : Except ε α → Prop}
    (hp : p.Ends R post) (h : ∀ result, post result → post' result) : p.Ends R post' := by
  induction p with
  | done result => exact h result hp
  | call c next ih => exact fun r hr => ih r (hp r hr)

/-- Two stores that answer alike. -/
theorem run_simulation {τ : Type} {exec' : (c : Call) → τ → Reply c × τ} {R : σ → τ → Prop}
    (hsim : ∀ c s t, P c → R s t →
      (exec c s).1 = (exec' c t).1 ∧ R (exec c s).2 (exec' c t).2)
    (hp : p.Calls P) {t : τ} (h : R s t) :
    (p.run exec s).1 = (p.run exec' t).1 ∧ R (p.run exec s).2 (p.run exec' t).2 := by
  induction p generalizing s t with
  | done result => exact ⟨rfl, h⟩
  | call c next ih =>
      obtain ⟨hreply, hR⟩ := hsim c s t hp.1 h
      unfold run
      rw [hreply]
      exact ih _ (hp.2 _) hR

/-! ## Cells -/

variable {K V : Type} [DecidableEq K]

/-- A call that looks at one cell and changes one cell. -/
def cells (key : Call → K) (act : (c : Call) → V → Reply c × V) (c : Call) (s : K → V) :
    Reply c × (K → V) :=
  ((act c (s (key c))).1, Function.update s (key c) (act c (s (key c))).2)

variable {key : Call → K} (act : (c : Call) → V → Reply c × V) {F : Set K} {s s' : K → V}

/-- What is not called on stays. -/
theorem run_frame (hp : p.Calls fun c => key c ∈ F) {k : K} (hk : k ∉ F) :
    (p.run (cells key act) s).2 k = s k := by
  induction p generalizing s with
  | done result => rfl
  | call c next ih =>
      have hne : k ≠ key c := fun heq => hk (heq ▸ hp.1)
      exact (ih _ (hp.2 _)).trans (Function.update_of_ne hne _ _)

/-- What is not called on does not matter. -/
theorem run_congr (hp : p.Calls fun c => key c ∈ F) (hs : ∀ k ∈ F, s k = s' k) :
    (p.run (cells key act) s).1 = (p.run (cells key act) s').1 ∧
      (∀ k ∈ F, (p.run (cells key act) s).2 k = (p.run (cells key act) s').2 k) ∧
      p.length (cells key act) s = p.length (cells key act) s' := by
  induction p generalizing s s' with
  | done result => exact ⟨rfl, hs, rfl⟩
  | call c next ih =>
      have hcell : s (key c) = s' (key c) := hs _ hp.1
      have hnext : ∀ k ∈ F, (cells key act c s).2 k = (cells key act c s').2 k := by
        intro k hk
        unfold cells
        dsimp only
        rw [hcell]
        by_cases heq : k = key c
        · rw [heq, Function.update_self, Function.update_self]
        · rw [Function.update_of_ne heq, Function.update_of_ne heq]
          exact hs k hk
      have hreply : (cells key act c s).1 = (cells key act c s').1 := by
        unfold cells
        dsimp only
        rw [hcell]
      unfold run length
      rw [hreply]
      obtain ⟨h₁, h₂, h₃⟩ := ih _ (hp.2 (cells key act c s').1) hnext
      exact ⟨h₁, h₂, by rw [h₃]⟩

end Prog

/-! ## Threads -/

structure Threads {Call : Type} (T : Type) (Reply : Call → Type) (ε α σ : Type) where
  progs : T → Prog Reply ε α
  store : σ

namespace Threads

open Prog

variable {Call T : Type} {Reply : Call → Type} {ε α σ : Type} [DecidableEq T]

/-- The thread makes its next call. -/
def turn (exec : (c : Call) → σ → Reply c × σ) (s : Threads T Reply ε α σ) (t : T) :
    Threads T Reply ε α σ :=
  match s.progs t with
  | .done _ => s
  | .call c next =>
    ⟨Function.update s.progs t (next (exec c s.store).1), (exec c s.store).2⟩

/-- In the order of the schedule. -/
def turns (exec : (c : Call) → σ → Reply c × σ) (s : Threads T Reply ε α σ) (schedule : List T) :
    Threads T Reply ε α σ :=
  schedule.foldl (turn exec) s

variable {exec : (c : Call) → σ → Reply c × σ} {s : Threads T Reply ε α σ} {t : T}
  {P : Call → Prop}

theorem turn_done {result : Except ε α} (h : s.progs t = .done result) : s.turn exec t = s := by
  unfold turn
  rw [h]

theorem turn_call {c : Call} {next : Reply c → Prog Reply ε α} (h : s.progs t = .call c next) :
    s.turn exec t =
      ⟨Function.update s.progs t (next (exec c s.store).1), (exec c s.store).2⟩ := by
  unfold turn
  rw [h]

theorem turn_calls {P : T → Call → Prop} (h : ∀ u, (s.progs u).Calls (P u)) (t u : T) :
    ((s.turn exec t).progs u).Calls (P u) := by
  cases hp : s.progs t with
  | done result =>
      rw [turn_done hp]
      exact h u
  | call c next =>
      rw [turn_call hp]
      dsimp only
      by_cases hu : u = t
      · subst hu
        have hc := h u
        rw [hp] at hc
        rw [Function.update_self]
        exact hc.2 _
      · rw [Function.update_of_ne hu]
        exact h u

/-- The same turns over two stores that answer alike. -/
theorem turns_simulation {τ : Type} {exec' : (c : Call) → τ → Reply c × τ} {R : σ → τ → Prop}
    (hsim : ∀ c s t, P c → R s t →
      (exec c s).1 = (exec' c t).1 ∧ R (exec c s).2 (exec' c t).2)
    {s : Threads T Reply ε α σ} {s' : Threads T Reply ε α τ} (hprogs : s.progs = s'.progs)
    (hP : ∀ t, (s.progs t).Calls P) (h : R s.store s'.store) (schedule : List T) :
    (s.turns exec schedule).progs = (s'.turns exec' schedule).progs ∧
      R (s.turns exec schedule).store (s'.turns exec' schedule).store := by
  induction schedule generalizing s s' with
  | nil => exact ⟨hprogs, h⟩
  | cons t schedule ih =>
      have hturn : (s.turn exec t).progs = (s'.turn exec' t).progs ∧
          R (s.turn exec t).store (s'.turn exec' t).store := by
        cases hp : s.progs t with
        | done result =>
            rw [turn_done hp, turn_done (hprogs ▸ hp)]
            exact ⟨hprogs, h⟩
        | call c next =>
            have hc := hP t
            rw [hp] at hc
            obtain ⟨hreply, hR⟩ := hsim c s.store s'.store hc.1 h
            rw [turn_call hp, turn_call (hprogs ▸ hp)]
            dsimp only
            rw [hreply, hprogs]
            exact ⟨rfl, hR⟩
      exact ih hturn.1 (turn_calls hP t) hturn.2

/-! ## Threads that share no cell -/

section

variable {K V : Type} [DecidableEq K] {key : Call → K} {act : (c : Call) → V → Reply c × V}
  {F : T → Set K} {s s₀ : Threads T Reply ε α (K → V)}

/-- Each thread has before it what it would have had alone. -/
structure Alone (key : Call → K) (act : (c : Call) → V → Reply c × V) (F : T → Set K)
    (s₀ s : Threads T Reply ε α (K → V)) : Prop where
  calls : ∀ t, (s.progs t).Calls fun c => key c ∈ F t
  result : ∀ t, ((s.progs t).run (cells key act) s.store).1 =
    ((s₀.progs t).run (cells key act) s₀.store).1
  own : ∀ t, ∀ k ∈ F t, ((s.progs t).run (cells key act) s.store).2 k =
    ((s₀.progs t).run (cells key act) s₀.store).2 k
  other : ∀ k, (∀ t, k ∉ F t) → s.store k = s₀.store k

/-- Another thread's turn does not touch the cells of this one. -/
theorem turn_other (hdisj : ∀ t u, t ≠ u → Disjoint (F t) (F u))
    (hcalls : ∀ t, (s.progs t).Calls fun c => key c ∈ F t) {t u : T} (hu : u ≠ t) :
    (s.turn (cells key act) t).progs u = s.progs u ∧
      ∀ k ∈ F u, (s.turn (cells key act) t).store k = s.store k := by
  cases hp : s.progs t with
  | done result =>
      rw [turn_done hp]
      exact ⟨rfl, fun _ _ => rfl⟩
  | call c next =>
      have hc := hcalls t
      rw [hp] at hc
      rw [turn_call hp]
      refine ⟨Function.update_of_ne hu _ _, fun k hk => ?_⟩
      have hne : k ≠ key c := fun heq =>
        Set.disjoint_left.mp (hdisj u t hu) hk (heq ▸ hc.1)
      exact Function.update_of_ne hne _ _

theorem turn_own (t : T) :
    ((s.turn (cells key act) t).progs t).run (cells key act) (s.turn (cells key act) t).store =
        (s.progs t).run (cells key act) s.store ∧
      ((s.turn (cells key act) t).progs t).length (cells key act)
          (s.turn (cells key act) t).store =
        (s.progs t).length (cells key act) s.store - 1 := by
  cases hp : s.progs t with
  | done result =>
      rw [turn_done hp, hp]
      exact ⟨rfl, rfl⟩
  | call c next =>
      rw [turn_call hp]
      dsimp only
      rw [Function.update_self]
      exact ⟨rfl, rfl⟩

theorem Alone.turn (hdisj : ∀ t u, t ≠ u → Disjoint (F t) (F u)) (h : Alone key act F s₀ s)
    (t : T) : Alone key act F s₀ (s.turn (cells key act) t) := by
  refine ⟨turn_calls h.calls t, fun u => ?_, fun u k hk => ?_, fun k hk => ?_⟩
  · by_cases hu : u = t
    · subst hu
      rw [(turn_own u).1]
      exact h.result u
    · obtain ⟨hprog, hstore⟩ := turn_other hdisj h.calls hu
      rw [hprog, (run_congr act (h.calls u) hstore).1]
      exact h.result u
  · by_cases hu : u = t
    · subst hu
      rw [(turn_own u).1]
      exact h.own u k hk
    · obtain ⟨hprog, hstore⟩ := turn_other hdisj h.calls hu
      rw [hprog, (run_congr act (h.calls u) hstore).2.1 k hk]
      exact h.own u k hk
  · refine Eq.trans ?_ (h.other k hk)
    cases hp : s.progs t with
    | done result => rw [turn_done hp]
    | call c next =>
        have hc := h.calls t
        rw [hp] at hc
        rw [turn_call hp]
        have hne : k ≠ key c := fun heq => hk t (heq ▸ hc.1)
        exact Function.update_of_ne hne _ _

theorem turns_alone (hdisj : ∀ t u, t ≠ u → Disjoint (F t) (F u)) (h : Alone key act F s₀ s)
    (schedule : List T) : Alone key act F s₀ (s.turns (cells key act) schedule) := by
  induction schedule generalizing s with
  | nil => exact h
  | cons t schedule ih => exact ih (h.turn hdisj t)

omit [DecidableEq T] in
variable (act) in
theorem alone_refl (hcalls : ∀ t, (s.progs t).Calls fun c => key c ∈ F t) :
    Alone key act F s s := ⟨hcalls, fun _ => rfl, fun _ _ _ => rfl, fun _ _ => rfl⟩

variable (act) in
/-- A thread gets through its calls by its own turns, whatever the others do. -/
theorem length_turns (hdisj : ∀ t u, t ≠ u → Disjoint (F t) (F u))
    (hcalls : ∀ t, (s.progs t).Calls fun c => key c ∈ F t) (schedule : List T) (u : T) :
    ((s.turns (cells key act) schedule).progs u).length (cells key act)
        (s.turns (cells key act) schedule).store =
      (s.progs u).length (cells key act) s.store - schedule.count u := by
  induction schedule generalizing s with
  | nil => rfl
  | cons t schedule ih =>
      refine (ih (turn_calls hcalls t)).trans ?_
      by_cases hu : u = t
      · subst hu
        rw [(turn_own u).2, List.count_cons_self]
        omega
      · obtain ⟨hprog, hstore⟩ := turn_other hdisj hcalls hu
        rw [hprog, (run_congr act (hcalls u) hstore).2.2, List.count_cons_of_ne (Ne.symm hu)]

/-- With as many turns as it has calls a thread comes to its end. -/
theorem turns_done (hdisj : ∀ t u, t ≠ u → Disjoint (F t) (F u))
    (hcalls : ∀ t, (s.progs t).Calls fun c => key c ∈ F t) {schedule : List T} {u : T}
    (hturns : (s.progs u).length (cells key act) s.store ≤ schedule.count u) :
    ∃ result, (s.turns (cells key act) schedule).progs u = .done result := by
  have hlength := length_turns act hdisj hcalls schedule u
  rw [Nat.sub_eq_zero_of_le hturns] at hlength
  cases hp : (s.turns (cells key act) schedule).progs u with
  | done result => exact ⟨result, rfl⟩
  | call c next =>
      rw [hp] at hlength
      cases hlength

end

/-! ## One after the other -/

section

variable {K V X : Type} [DecidableEq K] {key : Call → K} {act : (c : Call) → V → Reply c × V}
  {F : T → Set K} {prog : X → Prog Reply ε Unit} {owner : X → T} {s : K → V}

/-- A program begins when the one before it is through, unless that one has raised. -/
def inOrder (prog : X → Prog Reply ε Unit) : List X → Prog Reply ε Unit
  | [] => pure ()
  | x :: xs => prog x >>= fun _ => inOrder prog xs

theorem calls_inOrder {xs : List X} (h : ∀ x ∈ xs, (prog x).Calls P) :
    (inOrder prog xs).Calls P := by
  induction xs with
  | nil => trivial
  | cons x xs ih =>
      exact (h x List.mem_cons_self).bind fun _ =>
        ih fun y hy => h y (List.mem_cons_of_mem _ hy)

theorem run_inOrder_cons {x : X} {xs : List X} {s' : σ} {s : σ} {u : Unit}
    (h : (prog x).run exec s = (.ok u, s')) :
    (inOrder prog (x :: xs)).run exec s = (inOrder prog xs).run exec s' := run_bind_ok h

/-- The programs of one thread. -/
abbrev owned (owner : X → T) (xs : List X) (t : T) : List X := xs.filter fun x => owner x = t

omit [DecidableEq K] in
theorem calls_owned {xs : List X} (hcalls : ∀ x ∈ xs, (prog x).Calls fun c => key c ∈ F (owner x))
    (t : T) : (inOrder prog (owned owner xs t)).Calls fun c => key c ∈ F t := by
  apply calls_inOrder
  intro x hx
  obtain ⟨hmem, heq⟩ := List.mem_filter.mp hx
  exact of_decide_eq_true heq ▸ hcalls x hmem

variable (act) in
/-- All of them in one order: none raises if none raises in the order of its thread, and then each
    cell is as its thread leaves it. -/
theorem run_inOrder (hdisj : ∀ t u, t ≠ u → Disjoint (F t) (F u)) {xs : List X}
    (hcalls : ∀ x ∈ xs, (prog x).Calls fun c => key c ∈ F (owner x)) :
    (((inOrder prog xs).run (cells key act) s).1 = .ok () ↔
        ∀ t, ((inOrder prog (owned owner xs t)).run (cells key act) s).1 = .ok ()) ∧
      (((inOrder prog xs).run (cells key act) s).1 = .ok () →
        ∀ t, ∀ k ∈ F t, ((inOrder prog xs).run (cells key act) s).2 k =
          ((inOrder prog (owned owner xs t)).run (cells key act) s).2 k) := by
  induction xs generalizing s with
  | nil => exact ⟨⟨fun _ _ => rfl, fun _ => rfl⟩, fun _ _ _ _ => rfl⟩
  | cons x xs ih =>
      have hx := hcalls x List.mem_cons_self
      have hxs : ∀ y ∈ xs, (prog y).Calls fun c => key c ∈ F (owner y) :=
        fun y hy => hcalls y (List.mem_cons_of_mem _ hy)
      have hown : owned owner (x :: xs) (owner x) = x :: owned owner xs (owner x) :=
        List.filter_cons_of_pos (decide_eq_true rfl)
      have hothers : ∀ t, t ≠ owner x → owned owner (x :: xs) t = owned owner xs t :=
        fun t ht => List.filter_cons_of_neg (by simpa using Ne.symm ht)
      cases hrun : (prog x).run (cells key act) s with
      | mk result s₁ =>
      cases result with
      | error e =>
          have hraised : ∀ ys, (inOrder prog (x :: ys)).run (cells key act) s = (.error e, s₁) :=
            fun ys => run_bind_error hrun
          rw [hraised]
          refine ⟨⟨fun h => (nomatch h), fun h => ?_⟩, fun h => (nomatch h)⟩
          have ht := h (owner x)
          rw [hown, hraised] at ht
          cases ht
      | ok u =>
          have hs₁ : ∀ t, t ≠ owner x → ∀ k ∈ F t, s₁ k = s k := by
            intro t ht k hk
            have hframe := run_frame act (s := s) hx
              (Set.disjoint_left.mp (hdisj t (owner x) ht) hk)
            rwa [hrun] at hframe
          -- what a thread does after `x` is what it does from the beginning
          have hrest : ∀ t, ((inOrder prog (owned owner xs t)).run (cells key act) s₁).1 =
              ((inOrder prog (owned owner (x :: xs) t)).run (cells key act) s).1 ∧
              ∀ k ∈ F t, ((inOrder prog (owned owner xs t)).run (cells key act) s₁).2 k =
                ((inOrder prog (owned owner (x :: xs) t)).run (cells key act) s).2 k := by
            intro t
            by_cases ht : t = owner x
            · rw [ht, hown, run_inOrder_cons hrun]
              exact ⟨rfl, fun _ _ => rfl⟩
            · rw [hothers t ht]
              have hcongr := run_congr act (calls_owned hxs t) (hs₁ t ht)
              exact ⟨hcongr.1, hcongr.2.1⟩
          obtain ⟨hiff, hstore⟩ := ih (s := s₁) hxs
          rw [run_inOrder_cons hrun]
          refine ⟨hiff.trans (forall_congr' fun t => by rw [(hrest t).1]), fun hok t k hk => ?_⟩
          exact (hstore hok t k hk).trans ((hrest t).2 k hk)

end

end Threads

end Nmfs.Lib
