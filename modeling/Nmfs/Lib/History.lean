import Mathlib.Data.List.Nodup

/-
  The order of events in a history, a list that grows at its end.
-/

namespace Nmfs.Lib

variable {α β : Type}

/-- `a` comes before `b`. -/
def Before (a b : α) (es : List α) : Prop := [a, b].Sublist es

variable {a b : α} {es fs : List α}

theorem Before.left (h : Before a b es) : a ∈ es := h.subset List.mem_cons_self

theorem Before.right (h : Before a b es) : b ∈ es :=
  h.subset (List.mem_cons_of_mem _ List.mem_cons_self)

theorem Before.append (h : Before a b es) (fs : List α) : Before a b (es ++ fs) :=
  h.trans (List.sublist_append_left es fs)

/-- Among two lists, or from the one to the other. -/
theorem before_append :
    Before a b (es ++ fs) ↔ Before a b es ∨ Before a b fs ∨ (a ∈ es ∧ b ∈ fs) := by
  constructor
  · intro h
    obtain ⟨l₁, l₂, heq, h₁, h₂⟩ := List.sublist_append_iff.mp h
    match l₁, heq with
    | [], heq =>
        rw [List.nil_append] at heq
        rw [← heq] at h₂
        exact .inr (.inl h₂)
    | [x], heq =>
        rw [List.singleton_append, List.cons.injEq] at heq
        obtain ⟨rfl, rfl⟩ := heq
        exact .inr (.inr ⟨h₁.subset List.mem_cons_self, h₂.subset List.mem_cons_self⟩)
    | x :: y :: l₁, heq =>
        rw [List.cons_append, List.cons_append, List.cons.injEq, List.cons.injEq] at heq
        obtain ⟨rfl, rfl, hnil⟩ := heq
        obtain ⟨rfl, rfl⟩ := List.append_eq_nil_iff.mp hnil.symm
        exact .inl h₁
  · rintro (h | h | ⟨ha, hb⟩)
    · exact h.append fs
    · exact h.trans (List.sublist_append_right es fs)
    · have h := (List.singleton_sublist.mpr ha).append (List.singleton_sublist.mpr hb)
      exact h

/-- A stricter filter keeps a part, in the same order. -/
theorem filterMap_sublist {f g : α → Option β} (h : ∀ a b, g a = some b → f a = some b)
    (es : List α) : (es.filterMap g).Sublist (es.filterMap f) := by
  induction es with
  | nil => exact List.Sublist.refl _
  | cons a es ih =>
      cases hg : g a with
      | none =>
          rw [List.filterMap_cons_none hg]
          exact ih.trans ((List.sublist_cons_self a es).filterMap f)
      | some b =>
          rw [List.filterMap_cons_some hg, List.filterMap_cons_some (h a b hg)]
          exact ih.cons_cons b

theorem Before.rel {R : α → α → Prop} (h : Before a b es) (hR : es.Pairwise R) : R a b := by
  have := hR.sublist h
  exact (List.pairwise_cons.mp this).1 b List.mem_cons_self

/-- Two members of a list come one before the other. -/
theorem before_or (ha : a ∈ es) (hb : b ∈ es) (hne : a ≠ b) : Before a b es ∨ Before b a es := by
  induction es with
  | nil => cases ha
  | cons x es ih =>
      rcases List.mem_cons.mp ha with rfl | ha'
      · rcases List.mem_cons.mp hb with rfl | hb'
        · exact absurd rfl hne
        · exact .inl ((List.singleton_sublist.mpr hb').cons_cons _)
      · rcases List.mem_cons.mp hb with rfl | hb'
        · exact .inr ((List.singleton_sublist.mpr ha').cons_cons _)
        · rcases ih ha' hb' with h | h
          · exact .inl (h.cons x)
          · exact .inr (h.cons x)

/-- What comes before a member of the front of a list is in the front too. -/
theorem Before.front (h : Before a b (es ++ fs)) (hnodup : (es ++ fs).Nodup) (hb : b ∈ es) :
    Before a b es := by
  have hdisj := List.disjoint_of_nodup_append hnodup
  rcases before_append.mp h with h | h | ⟨-, hb'⟩
  · exact h
  · exact absurd h.right (hdisj hb)
  · exact absurd hb' (hdisj hb)

end Nmfs.Lib
