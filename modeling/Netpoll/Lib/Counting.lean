import Mathlib.Algebra.BigOperators.Group.Finset.Basic
import Mathlib.Algebra.Order.BigOperators.Group.Finset
import Netpoll.Lib.Threads

namespace Netpoll.Lib.Threads.State

variable {C P : Type*} {f : P → Nat} {T : P → Bool} {s : State C P} {k i n : Nat}

/-- The weights of all goroutines add up to `n`. -/
def Total (f : P → Nat) (s : State C P) (n : Nat) : Prop :=
  ∃ F : Finset Nat, (∀ i, i ∉ F → f (s.pc i) = 0) ∧ ∑ i ∈ F, f (s.pc i) = n

abbrev Count (T : P → Bool) (s : State C P) (n : Nat) : Prop := s.Total (fun p => (T p).toNat) n

theorem Total.zero (h : ∀ i, f (s.pc i) = 0) : s.Total f 0 :=
  ⟨∅, fun i _ => h i, rfl⟩

theorem Total.eq_zero (ht : s.Total f n) (h : ∀ i, f (s.pc i) = 0) : n = 0 := by
  obtain ⟨F, -, rfl⟩ := ht
  exact Finset.sum_eq_zero fun i _ => h i

theorem Total.le (ht : s.Total f n) (k : Nat) : f (s.pc k) ≤ n := by
  obtain ⟨F, hF, rfl⟩ := ht
  by_cases hk : k ∈ F
  · exact Finset.single_le_sum (fun i _ => Nat.zero_le (f (s.pc i))) hk
  · simp [hF k hk]

theorem Total.eq_of_alone (ht : s.Total f n) (h : ∀ i, i ≠ k → f (s.pc i) = 0) :
    n = f (s.pc k) := by
  obtain ⟨F, hF, rfl⟩ := ht
  by_cases hk : k ∈ F
  · exact Finset.sum_eq_single_of_mem k hk fun i _ hik => h i hik
  · rw [hF k hk]
    exact Finset.sum_eq_zero fun i hi => h i fun he => hk (he ▸ hi)

theorem Total.enter (ht : s.Total f n) (c : C) (k : Nat) (p : P) :
    ∃ n', (s.enter c k p).Total f n' ∧ n' + f (s.pc k) = n + f p := by
  obtain ⟨F, hF, rfl⟩ := ht
  have hk : k ∉ F.erase k := Finset.notMem_erase k F
  have hrest : ∑ i ∈ F, f (s.pc i) = f (s.pc k) + ∑ i ∈ F.erase k, f (s.pc i) := by
    by_cases hkF : k ∈ F
    · exact (Finset.add_sum_erase F (fun i => f (s.pc i)) hkF).symm
    · rw [Finset.erase_eq_of_notMem hkF, hF k hkF, Nat.zero_add]
  have hsame : ∑ i ∈ F.erase k, f ((s.enter c k p).pc i) = ∑ i ∈ F.erase k, f (s.pc i) :=
    Finset.sum_congr rfl fun i hi => by simp [Finset.ne_of_mem_erase hi]
  refine ⟨_, ⟨insert k (F.erase k), fun i hi => ?_, rfl⟩, ?_⟩
  · obtain ⟨hik, hiF⟩ : i ≠ k ∧ i ∉ F := by
      simp only [Finset.mem_insert, Finset.mem_erase, not_or, not_and] at hi
      exact ⟨hi.1, hi.2 hi.1⟩
    simp [hik, hF i hiF]
  · rw [Finset.sum_insert hk, hsame, hrest, enter_pc_self]
    omega

theorem Count.pos (hc : s.Count T n) (hk : T (s.pc k)) : 1 ≤ n := by
  have hle := Total.le hc k
  simpa [hk] using hle

theorem Count.two (hc : s.Count T n) (hk : T (s.pc k)) (hi : T (s.pc i)) (hik : i ≠ k) : 2 ≤ n := by
  obtain ⟨F, hF, rfl⟩ := hc
  have mem : ∀ l, T (s.pc l) = true → l ∈ F := by
    intro l hl
    by_contra hn
    simpa [hl] using hF l hn
  have hpair : ({i, k} : Finset Nat) ⊆ F := by
    intro l hl
    rcases Finset.mem_insert.mp hl with rfl | hl
    · exact mem l hi
    · exact Finset.mem_singleton.mp hl ▸ mem k hk
  calc 2 = ∑ l ∈ ({i, k} : Finset Nat), (T (s.pc l)).toNat := by simp [Finset.sum_pair hik, hi, hk]
    _ ≤ ∑ l ∈ F, (T (s.pc l)).toNat := Finset.sum_le_sum_of_subset hpair

end Netpoll.Lib.Threads.State
