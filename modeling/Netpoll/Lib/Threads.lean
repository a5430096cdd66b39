import Mathlib.Data.Option.Basic
import Mathlib.Logic.Function.Basic

/-! Goroutines over shared words.  Every goroutine stands at a program counter
and makes one access at a time; an access may hand a new task to an idle
goroutine. -/

namespace Netpoll.Lib.Threads

variable {C P : Type*}

structure State (C P : Type*) where
  shared : C
  pc : Nat → P

structure Move (C P : Type*) where
  shared : C
  pc : P
  task : Option P

namespace State

def enter (s : State C P) (c : C) (k : Nat) (p : P) : State C P :=
  ⟨c, Function.update s.pc k p⟩

/-- Goroutine `k` makes the access `next`; a task it starts becomes goroutine
`j`, which must be one of those numbered from `base` on and idle. -/
def run [DecidableEq P] (idle : P) (base : Nat) (next : C → Nat → Nat → P → Option (Move C P))
    (s : State C P) (k j : Nat) : Option (State C P) :=
  match next s.shared k j (s.pc k) with
  | none => none
  | some ⟨c, p, none⟩ => some (s.enter c k p)
  | some ⟨c, p, some t⟩ =>
    if base ≤ j ∧ j ≠ k ∧ s.pc j = idle then some ((s.enter c k p).enter c j t) else none

def move (next : C → Nat → P → Option (C × P)) (s : State C P) (k : Nat) : Option (State C P) :=
  (next s.shared k (s.pc k)).map fun m => s.enter m.1 k m.2

@[simp] theorem enter_shared (s : State C P) (c : C) (k : Nat) (p : P) :
    (s.enter c k p).shared = c := rfl

@[simp] theorem enter_pc_self (s : State C P) (c : C) (k : Nat) (p : P) :
    (s.enter c k p).pc k = p := by simp [enter]

@[simp] theorem enter_pc_of_ne (s : State C P) (c : C) (p : P) {i k : Nat} (hik : i ≠ k) :
    (s.enter c k p).pc i = s.pc i := by simp [enter, hik]

theorem run_cases [DecidableEq P] {idle : P} {base : Nat}
    {next : C → Nat → Nat → P → Option (Move C P)} {s s' : State C P} {k j : Nat}
    (h : s.run idle base next k j = some s') :
    (∃ c p, next s.shared k j (s.pc k) = some ⟨c, p, none⟩ ∧ s' = s.enter c k p) ∨
      ∃ c p t, next s.shared k j (s.pc k) = some ⟨c, p, some t⟩ ∧ base ≤ j ∧ j ≠ k ∧
        s.pc j = idle ∧ s' = (s.enter c k p).enter c j t := by
  unfold run at h
  split at h
  · cases h
  · rename_i c p hn
    exact .inl ⟨c, p, hn, (Option.some.inj h).symm⟩
  · rename_i c p t hn
    split at h
    · rename_i hj
      exact .inr ⟨c, p, t, hn, hj.1, hj.2.1, hj.2.2, (Option.some.inj h).symm⟩
    · cases h

def Unique (T : P → Bool) (s : State C P) : Prop :=
  ∀ i k, T (s.pc i) → T (s.pc k) → i = k

variable {T : P → Bool} {s : State C P} {c : C} {k j : Nat} {p t : P}

theorem Unique.enter (hu : s.Unique T) (hp : T p → T (s.pc k)) : (s.enter c k p).Unique T := by
  have hold : ∀ i, T ((s.enter c k p).pc i) → T (s.pc i) := by
    intro i hi
    rcases eq_or_ne i k with rfl | hik
    · exact hp (by simpa using hi)
    · simpa [hik] using hi
  exact fun i l hi hl => hu i l (hold i hi) (hold l hl)

theorem Unique.enter_first (hu : ∀ i, T (s.pc i) = false) : (s.enter c k p).Unique T := by
  have hk : ∀ i, T ((s.enter c k p).pc i) → i = k := by
    intro i hi
    by_contra hik
    simp [hik, hu] at hi
  exact fun i l hi hl => (hk i hi).trans (hk l hl).symm

theorem Unique.spawn (hu : s.Unique T) (hp : T p → T (s.pc k))
    (ht : T t → T (s.pc k) ∧ T p = false) : ((s.enter c k p).enter c j t).Unique T := by
  have hk := hu.enter (c := c) hp
  cases htt : T t with
  | false => exact hk.enter (by simp [htt])
  | true =>
    obtain ⟨hsk, hpf⟩ := ht htt
    refine Unique.enter_first fun i => ?_
    by_contra hi
    rcases eq_or_ne i k with rfl | hik
    · simp [hpf] at hi
    · exact hik (hu i k (by simpa [hik] using hi) hsk)

def Owned (owner : C → Option Nat) (holds : P → Bool) (s : State C P) : Prop :=
  ∀ i, holds (s.pc i) → owner s.shared = some i

variable {owner : C → Option Nat} {holds : P → Bool} {i : Nat}

theorem Owned.unique (ho : s.Owned owner holds) : s.Unique holds :=
  fun i k hi hk => Option.some.inj ((ho i hi).symm.trans (ho k hk))

theorem Owned.other_free (ho : s.Owned owner holds) (hk : holds (s.pc k)) (hik : i ≠ k) :
    holds (s.pc i) = false := by
  by_contra hi
  exact hik (ho.unique i k (by simpa using hi) hk)

theorem Owned.all_free (ho : s.Owned owner holds) (hf : owner s.shared = none) (i : Nat) :
    holds (s.pc i) = false := by
  by_contra hi
  simpa [hf] using ho i (by simpa using hi)

theorem Owned.keep (ho : s.Owned owner holds) (hc : owner c = owner s.shared)
    (hp : holds p → holds (s.pc k)) : (s.enter c k p).Owned owner holds := by
  intro i hi
  rcases eq_or_ne i k with rfl | hik
  · exact hc.trans (ho i (hp (by simpa using hi)))
  · exact hc.trans (ho i (by simpa [hik] using hi))

theorem Owned.first (hno : ∀ i, holds (s.pc i) = false) (hc : owner c = some k) :
    (s.enter c k p).Owned owner holds := by
  intro i hi
  rcases eq_or_ne i k with rfl | hik
  · exact hc
  · simp [hik, hno] at hi

theorem Owned.leave (ho : s.Owned owner holds) (hk : holds (s.pc k)) (hp : holds p = false)
    (i : Nat) : holds ((s.enter c k p).pc i) = false := by
  rcases eq_or_ne i k with rfl | hik
  · simpa using hp
  · simpa [hik] using ho.other_free hk hik

inductive LockStep (owner : C → Option Nat) (holds : P → Bool) (c : C) (k : Nat) (p : P) (c' : C)
    (p' : P) : Prop
  | keep : owner c' = owner c → holds p' = holds p → LockStep owner holds c k p c' p'
  | acquire : owner c = none → owner c' = some k → LockStep owner holds c k p c' p'
  | release : holds p → holds p' = false → LockStep owner holds c k p c' p'

theorem Owned.step (ho : s.Owned owner holds) (hl : LockStep owner holds s.shared k (s.pc k) c p) :
    (s.enter c k p).Owned owner holds := by
  cases hl with
  | keep hc hp => exact ho.keep hc (by simp [hp])
  | acquire hf hc => exact .first (ho.all_free hf) hc
  | release hk hp =>
    intro i hi
    simp [ho.leave hk hp] at hi

/-- A fact about the shared words goes with every goroutine's program counter. -/
def Facts (F : C → P → Prop) (s : State C P) : Prop :=
  ∀ i, F s.shared (s.pc i)

theorem Facts.enter {F : C → P → Prop} (hF : s.Facts F)
    (others : ∀ i, i ≠ k → F s.shared (s.pc i) → F c (s.pc i)) (own : F c p) :
    (s.enter c k p).Facts F := by
  intro i
  rcases eq_or_ne i k with rfl | hik
  · simpa using own
  · simpa [hik] using others i hik (hF i)

/-- A duty `D` that the shared words express has somebody at a program counter of
`W`, from where it will be met. -/
def Covered (D : C → Prop) (W : P → Bool) (s : State C P) : Prop :=
  D s.shared → ∃ i, W (s.pc i)

section

variable {D : C → Prop} {W : P → Bool}

theorem Covered.enter (hc : s.Covered D W) (new : D c → D s.shared ∨ W p)
    (leave : D c → W (s.pc k) → W p ∨ ∃ i, i ≠ k ∧ W (s.pc i)) :
    (s.enter c k p).Covered D W := by
  intro hD
  have of_other : (∃ i, i ≠ k ∧ W (s.pc i)) → ∃ i, W ((s.enter c k p).pc i) := by
    rintro ⟨i, hik, hi⟩
    exact ⟨i, by simpa [hik] using hi⟩
  rcases new hD with hs | hp
  · obtain ⟨i, hi⟩ := hc hs
    rcases eq_or_ne i k with rfl | hik
    · rcases leave hD hi with hp | ho
      · exact ⟨i, by simpa using hp⟩
      · exact of_other ho
    · exact of_other ⟨i, hik, hi⟩
  · exact ⟨k, by simpa using hp⟩

end

structure Sole {β : Type*} (f : C → P → Option β) (s : State C P) (v : Option β) : Prop where
  own : ∀ i b, f s.shared (s.pc i) = some b → v = some b
  owner : ∀ b, v = some b → ∃ i, f s.shared (s.pc i) = some b

section

variable {β : Type*} {f : C → P → Option β} {v : Option β}

theorem Sole.keep (hs : s.Sole f v) (hp : f c p = f s.shared (s.pc k))
    (others : ∀ i, i ≠ k → f c (s.pc i) = f s.shared (s.pc i)) : (s.enter c k p).Sole f v := by
  have same : ∀ i, f c ((s.enter c k p).pc i) = f s.shared (s.pc i) := by
    intro i
    rcases eq_or_ne i k with rfl | hik
    · simpa using hp
    · simpa [hik] using others i hik
  refine ⟨fun i b hb => hs.own i b ((same i).symm.trans hb), fun b hb => ?_⟩
  obtain ⟨i, hi⟩ := hs.owner b hb
  exact ⟨i, (same i).trans hi⟩

theorem Sole.eq_of_alone (hs : s.Sole f v) (others : ∀ i, i ≠ k → f s.shared (s.pc i) = none) :
    v = f s.shared (s.pc k) := by
  cases hk : f s.shared (s.pc k) with
  | some b => exact hs.own k b hk
  | none =>
    by_contra hv
    obtain ⟨b, rfl⟩ := Option.ne_none_iff_exists'.mp hv
    obtain ⟨i, hi⟩ := hs.owner b rfl
    rcases eq_or_ne i k with rfl | hik
    · simp [hk] at hi
    · simp [others i hik] at hi

theorem Sole.alone (others : ∀ i, i ≠ k → f c (s.pc i) = none) :
    (s.enter c k p).Sole f (f c p) := by
  refine ⟨fun i b hb => ?_, fun b hb => ⟨k, by simpa using hb⟩⟩
  rcases eq_or_ne i k with rfl | hik
  · simpa using hb
  · simp [hik, others i hik] at hb

end

end State

end Netpoll.Lib.Threads
