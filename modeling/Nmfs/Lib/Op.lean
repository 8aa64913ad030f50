import Mathlib.Control.Basic

/-
  Operations on a state that may raise. What an operation did before it raised stays done.
-/

namespace Nmfs.Lib

theorem bind_eq_ok {ε α β : Type} {x : Except ε α} {f : α → Except ε β} {b : β} :
    (x >>= f) = .ok b ↔ ∃ a, x = .ok a ∧ f a = .ok b := by
  cases x with
  | error e => exact ⟨fun h => (nomatch h), fun ⟨_, h, _⟩ => (nomatch h)⟩
  | ok a => exact ⟨fun h => ⟨a, rfl, h⟩, fun ⟨_, h, hf⟩ => Except.ok.inj h ▸ hf⟩

/-- From a state to the result, or to what is raised, and the state afterwards. -/
abbrev Op (ε σ α : Type) : Type := ExceptT ε (StateM σ) α

namespace Op

variable {ε σ τ α β : Type}

/-- An operation that never raises. -/
def of (f : σ → α × σ) : Op ε σ α := fun s => (.ok (f s).1, (f s).2)

def read (f : σ → α) : Op ε σ α := of fun s => (f s, s)

def change (f : σ → σ) : Op ε σ Unit := of fun s => ((), f s)

def raise (e : ε) : Op ε σ α := fun s => (.error e, s)

def lift (x : Except ε α) : Op ε σ α := fun s => (x, s)

/-- Raise something else instead. -/
def mapError (m : Op ε σ α) (f : ε → ε) : Op ε σ α := fun s => ((m s).1.mapError f, (m s).2)

/-- Give back what stands for the exception, if there is something. -/
def handle (m : Op ε σ α) (f : ε → Option α) : Op ε σ α := fun s =>
  match m s with
  | (.ok a, s') => (.ok a, s')
  | (.error e, s') =>
    match f e with
    | some a => (.ok a, s')
    | none => (.error e, s')

variable {m : Op ε σ α} {f : α → Op ε σ β} {s s' : σ}

theorem bind_apply : (m >>= f) s =
    match (m s).1 with
    | .ok a => f a (m s).2
    | .error e => (.error e, (m s).2) := by
  show ExceptT.bindCont f (m s).1 (m s).2 = _
  cases (m s).1 <;> rfl

theorem bind_ok {a : α} (h : m s = (.ok a, s')) : (m >>= f) s = f a s' := by
  rw [bind_apply, h]

theorem bind_error {e : ε} (h : m s = (.error e, s')) : (m >>= f) s = (.error e, s') := by
  rw [bind_apply, h]

theorem lift_ok {x : Except ε α} {a : α} (h : x = .ok a) :
    (lift x : Op ε σ α) s = (.ok a, s) := by
  rw [h]
  rfl

theorem handle_ok {f : ε → Option α} {a : α} (h : m s = (.ok a, s')) :
    m.handle f s = (.ok a, s') := by
  unfold handle
  rw [h]

theorem handle_snd {f : ε → Option α} : (m.handle f s).2 = (m s).2 := by
  unfold handle
  cases hm : m s with
  | mk r s' =>
      cases r with
      | ok a => rfl
      | error e =>
          dsimp only
          cases f e <;> rfl

/-! ## Pre- and postconditions -/

/-- From a state with `P`, the result and the state afterwards have `Q`. -/
def Ensures (P : σ → Prop) (m : Op ε σ α) (Q : Except ε α → σ → Prop) : Prop :=
  ∀ s, P s → Q (m s).1 (m s).2

variable {P I : σ → Prop} {Q : Except ε β → σ → Prop} {R : Except ε α → σ → Prop}

theorem Ensures.bind (hm : Ensures P m R) (hok : ∀ a, Ensures (R (.ok a)) (f a) Q)
    (herror : ∀ e s, R (.error e) s → Q (.error e) s) : Ensures P (m >>= f) Q := by
  intro s hs
  have hr := hm s hs
  rw [bind_apply]
  revert hr
  cases (m s).1 with
  | ok a => exact hok a _
  | error e => exact herror e _

theorem Ensures.weaken {R' : Except ε α → σ → Prop} (hm : Ensures P m R)
    (h : ∀ r s, R r s → R' r s) : Ensures P m R' := fun s hs => h _ _ (hm s hs)

theorem Ensures.read_bind {g : σ → α} (h : ∀ a, Ensures P (f a) Q) :
    Ensures P (read g >>= f) Q := fun s hs => h (g s) s hs

/-- The operation keeps `I`, also where it raises. -/
def Keeps (I : σ → Prop) (m : Op ε σ α) : Prop := Ensures I m fun _ => I

theorem Keeps.bind (hm : Keeps I m) (hf : ∀ a, Keeps I (f a)) : Keeps I (m >>= f) :=
  Ensures.bind hm hf fun _ _ h => h

theorem Keeps.pure (a : α) : Keeps I (pure a : Op ε σ α) := fun _ h => h

/-- The operation leaves the state `s` as it is, and what it gives has `R`. -/
def Reads (s : σ) (m : Op ε σ α) (R : α → Prop) : Prop :=
  (m s).2 = s ∧ ∀ a, (m s).1 = .ok a → R a

section

variable {R R' : α → Prop} {S : β → Prop} {Q : Except ε β → σ → Prop}

/-- To start with, an operation that only reads. -/
theorem Reads.bind (hm : Reads s m R) (herror : ∀ e, (m s).1 = .error e → Q (.error e) s)
    (hok : ∀ a, R a → Q (f a s).1 (f a s).2) : Q ((m >>= f) s).1 ((m >>= f) s).2 := by
  obtain ⟨hs, hr⟩ := hm
  rw [bind_apply, hs]
  cases hms : (m s).1 with
  | ok a => exact hok a (hr a hms)
  | error e => exact herror e hms

theorem Reads.bind_reads (hm : Reads s m R) (hf : ∀ a, R a → Reads s (f a) S) :
    Reads s (m >>= f) S :=
  Reads.bind (Q := fun r s' => s' = s ∧ ∀ b, r = .ok b → S b) hm
    (fun _ _ => ⟨rfl, fun _ h => (nomatch h)⟩) hf

/-- What is known of the result without running the operation is that it is the result. -/
theorem Reads.result (hm : Reads s m R) : Reads s m fun a => R a ∧ (m s).1 = .ok a :=
  ⟨hm.1, fun a ha => ⟨hm.2 a ha, ha⟩⟩

theorem Reads.pure {a : α} (h : R a) : Reads s (pure a : Op ε σ α) R :=
  ⟨rfl, fun _ ha => Except.ok.inj ha ▸ h⟩

theorem Reads.raise {e : ε} : Reads s (raise e : Op ε σ α) R := ⟨rfl, fun _ h => (nomatch h)⟩

theorem Reads.lift {x : Except ε α} : Reads s (lift x : Op ε σ α) fun a => x = .ok a :=
  ⟨rfl, fun _ h => h⟩

end

end Op

end Nmfs.Lib
