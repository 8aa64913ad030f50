import Mathlib.Logic.Basic

/-
  Loops that need not end. `body` takes one round: it moves on to the next state, or leaves the loop
  with a value. `loop` takes so many rounds at most; a computation `Ends` with what some number of
  rounds brings it to, and `Stable` says that more of them bring it to the same. `ends_of_variant`
  is the rule of total correctness: an invariant that the rounds keep, and a number that they make
  smaller.
-/

namespace Nmfs.Lib

variable {σ α β : Type}

/-- More rounds do not change the answer. -/
def Stable (f : Nat → Option α) : Prop := ∀ m n a, m ≤ n → f m = some a → f n = some a

/-- With enough rounds, `f` comes to `a`. -/
def Ends (f : Nat → Option α) (a : α) : Prop := ∃ n, f n = some a

theorem Stable.some (a : α) : Stable fun _ => Option.some a := fun _ _ _ _ h => h

theorem Stable.map {f : Nat → Option α} (hf : Stable f) (g : α → β) :
    Stable fun n => (f n).map g := by
  intro m n b hle h
  obtain ⟨a, ha, hb⟩ := Option.map_eq_some_iff.mp h
  exact Option.map_eq_some_iff.mpr ⟨a, hf m n a hle ha, hb⟩

theorem Ends.map {f : Nat → Option α} {a : α} (h : Ends f a) (g : α → β) :
    Ends (fun n => (f n).map g) (g a) := by
  obtain ⟨n, hn⟩ := h
  exact ⟨n, Option.map_eq_some_iff.mpr ⟨a, hn, rfl⟩⟩

theorem Ends.unique {f : Nat → Option α} {a b : α} (hf : Stable f) (ha : Ends f a)
    (hb : Ends f b) : a = b := by
  obtain ⟨m, hm⟩ := ha
  obtain ⟨n, hn⟩ := hb
  have hma := hf m (max m n) a (Nat.le_max_left m n) hm
  have hnb := hf n (max m n) b (Nat.le_max_right m n) hn
  rw [hma] at hnb
  exact Option.some.inj hnb

def loop (body : σ → σ ⊕ α) : Nat → σ → Option α
  | 0, _ => none
  | n + 1, s =>
    match body s with
    | .inl t => loop body n t
    | .inr a => some a

variable {body : σ → σ ⊕ α} {s t : σ} {a : α}

theorem loop_round (h : body s = .inl t) (n : Nat) : loop body (n + 1) s = loop body n t := by
  simp only [loop, h]

theorem loop_leave (h : body s = .inr a) (n : Nat) : loop body (n + 1) s = some a := by
  simp only [loop, h]

theorem loop_stable (body : σ → σ ⊕ α) (s : σ) : Stable fun n => loop body n s := by
  intro m n a hle h
  dsimp only at h ⊢
  induction m generalizing n s with
  | zero => simp [loop] at h
  | succ m ih =>
      obtain ⟨n, rfl⟩ : ∃ k, n = k + 1 := ⟨n - 1, by omega⟩
      match hb : body s with
      | .inl t =>
          rw [loop_round hb] at h ⊢
          exact ih t n (by omega) h
      | .inr c =>
          rw [loop_leave hb] at h ⊢
          exact h

/-- What an invariant gives where the loop is left, if each other round keeps it and makes the
    variant smaller. -/
theorem ends_of_variant {I : σ → Prop} {Q : α → Prop} (variant : σ → Nat)
    (hbody : ∀ s, I s → (∃ t, body s = .inl t ∧ I t ∧ variant t < variant s) ∨
      ∃ a, body s = .inr a ∧ Q a) (h : I s) :
    ∃ a, Ends (fun n => loop body n s) a ∧ Q a := by
  generalize hm : variant s = m
  induction m using Nat.strongRecOn generalizing s with
  | ind m ih =>
      obtain ⟨t, hb, ht, hlt⟩ | ⟨a, hb, hQ⟩ := hbody s h
      · obtain ⟨a, ⟨n, hn⟩, hQ⟩ := ih (variant t) (hm ▸ hlt) ht rfl
        exact ⟨a, ⟨n + 1, (loop_round hb n).trans hn⟩, hQ⟩
      · exact ⟨a, ⟨1, loop_leave hb 0⟩, hQ⟩

end Nmfs.Lib
