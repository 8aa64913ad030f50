import Mathlib.Data.List.AList
import Mathlib.Logic.Function.Basic

/-
  Partial maps as functions to `Option` and as lists of entries, and what setting one key does to
  them.
-/

namespace Nmfs.Lib

variable {α β : Type} [DecidableEq α] {f : α → Option β} {a x : α} {b : Option β} {y : β}

theorem update_eq_some (h : Function.update f a b x = some y) :
    (x = a ∧ b = some y) ∨ (x ≠ a ∧ f x = some y) := by
  by_cases hx : x = a
  · subst hx
    rw [Function.update_self] at h
    exact .inl ⟨rfl, h⟩
  · rw [Function.update_of_ne hx] at h
    exact .inr ⟨hx, h⟩

theorem update_none_eq_some (h : Function.update f a none x = some y) : x ≠ a ∧ f x = some y := by
  rcases update_eq_some h with ⟨-, hn⟩ | h
  · cases hn
  · exact h

theorem lookup_insert_eq_some {m : AList fun _ : α => β} {z : β}
    (h : (m.insert a z).lookup x = some y) : (x = a ∧ y = z) ∨ (x ≠ a ∧ m.lookup x = some y) := by
  by_cases hx : x = a
  · subst hx
    rw [AList.lookup_insert] at h
    exact .inl ⟨rfl, (Option.some.inj h).symm⟩
  · rw [AList.lookup_insert_ne hx] at h
    exact .inr ⟨hx, h⟩

omit [DecidableEq α] in
/-- No two keys have the same value. -/
def Distinct (f : α → Option β) : Prop := ∀ a a' b, f a = some b → f a' = some b → a = a'

/-- No key has this value. -/
def Lacks (f : α → Option β) (b : β) : Prop := ∀ a, f a ≠ some b

theorem Distinct.insert (h : Distinct f) (hnew : Lacks f y) :
    Distinct (Function.update f a (some y)) := by
  intro n n' u hn hn'
  rcases update_eq_some hn with ⟨hna, hu⟩ | ⟨-, hfn⟩ <;>
    rcases update_eq_some hn' with ⟨hna', hu'⟩ | ⟨-, hfn'⟩
  · rw [hna, hna']
  · cases hu
    exact absurd hfn' (hnew n')
  · cases hu'
    exact absurd hfn (hnew n)
  · exact h n n' u hfn hfn'

theorem Distinct.erase (h : Distinct f) : Distinct (Function.update f a none) :=
  fun n n' u hn hn' => h n n' u (update_none_eq_some hn).2 (update_none_eq_some hn').2

theorem Distinct.lacks_erase (h : Distinct f) (ha : f a = some y) :
    Lacks (Function.update f a none) y := by
  intro n hn
  obtain ⟨hne, hn⟩ := update_none_eq_some hn
  exact hne (h n a y hn ha)

theorem Lacks.erase (h : Lacks f y) : Lacks (Function.update f a none) y :=
  fun n hn => h n (update_none_eq_some hn).2

end Nmfs.Lib
