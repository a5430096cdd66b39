import Mathlib.Logic.Function.Basic

namespace Netpoll.Lib.Registry

variable {K I : Type*}

/-- Owner `i` stands under key `k` exactly when it owns the key. -/
def Exact (table : K → Option I) (own : I → K → Prop) : Prop :=
  ∀ k i, table k = some i ↔ own i k

namespace Exact

variable {table : K → Option I} {own own' : I → K → Prop} {i i' : I} {k : K}

theorem congr (h : Exact table own) (he : ∀ i k, own' i k ↔ own i k) : Exact table own' :=
  fun k i => (h k i).trans (he i k).symm

theorem unique (h : Exact table own) (hi : own i k) (hi' : own i' k) : i = i' :=
  Option.some.inj (((h k i).mpr hi).symm.trans ((h k i').mpr hi'))

variable [DecidableEq K]

theorem store (h : Exact table own) (new : own' i k) (only : ∀ k', own' i k' → k' = k)
    (none_before : ∀ k', ¬ own i k') (free : ∀ i', ¬ own i' k)
    (others : ∀ i', i' ≠ i → ∀ k', own' i' k' ↔ own i' k') :
    Exact (Function.update table k (some i)) own' := by
  intro k' i'
  rcases eq_or_ne k' k with rfl | hk
  · rw [Function.update_self, Option.some.injEq]
    refine ⟨fun he => he ▸ new, fun hi' => ?_⟩
    by_contra hne
    exact free i' ((others i' (Ne.symm hne) k').mp hi')
  · rw [Function.update_of_ne hk, h k' i']
    rcases eq_or_ne i' i with rfl | hi
    · exact ⟨fun hi' => absurd hi' (none_before k'), fun hi' => absurd (only k' hi') hk⟩
    · exact (others i' hi k').symm

theorem delete (h : Exact table own) (old : own i k) (gone : ∀ k', ¬ own' i k')
    (only : ∀ k', own i k' → k' = k) (others : ∀ i', i' ≠ i → ∀ k', own' i' k' ↔ own i' k') :
    Exact (Function.update table k none) own' := by
  intro k' i'
  rcases eq_or_ne k' k with rfl | hk
  · rw [Function.update_self]
    refine ⟨nofun, fun hi' => ?_⟩
    rcases eq_or_ne i' i with rfl | hi
    · exact absurd hi' (gone k')
    · exact absurd (h.unique ((others i' hi k').mp hi') old) hi
  · rw [Function.update_of_ne hk, h k' i']
    rcases eq_or_ne i' i with rfl | hi
    · exact ⟨fun hi' => absurd (only k' hi') hk, fun hi' => absurd hi' (gone k')⟩
    · exact (others i' hi k').symm

end Exact

end Netpoll.Lib.Registry
