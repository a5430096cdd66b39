import Netpoll.Lib.Threads

/-! A lock whose last owner keeps it for good: goroutines work under the lock, and
one of them at most goes on to a final action that is never undone. -/

namespace Netpoll.Lib.CloseOnce

open Netpoll.Lib.Threads

variable {C P : Type*} {lock : C → Option Nat} {begun : C → Nat} {holds inside : P → Bool}
  {s : State C P} {c : C} {k j : Nat} {p t : P}

/-- `lock` names the goroutine inside the lock, `begun` counts the final actions;
`holds` and `inside` tell where a goroutine owns the lock and where it is in the
final action. -/
structure Locked (lock : C → Option Nat) (begun : C → Nat) (holds inside : P → Bool)
    (s : State C P) : Prop where
  owned : s.Owned lock holds
  before : ∀ i, holds (s.pc i) → inside (s.pc i) = false → begun s.shared = 0
  during : ∀ i, inside (s.pc i) → begun s.shared = 1
  free : lock s.shared = none → begun s.shared = 0
  owner : ∀ m, lock s.shared = some m → holds (s.pc m) ∨ begun s.shared = 1

inductive LockMove (lock : C → Option Nat) (begun : C → Nat) (holds inside : P → Bool) (c : C)
    (k j : Nat) (p : P) : Move C P → Prop
  | keep {c' p'} : lock c' = lock c → begun c' = begun c → holds p' = holds p →
      inside p' = inside p → LockMove lock begun holds inside c k j p ⟨c', p', none⟩
  | acquire {c' p'} : lock c = none → lock c' = some k → begun c' = begun c → holds p' →
      inside p' = false → LockMove lock begun holds inside c k j p ⟨c', p', none⟩
  | hand {c' p' t} : lock c = none → lock c' = some j → begun c' = begun c → holds p' = false →
      holds t → inside t = false → LockMove lock begun holds inside c k j p ⟨c', p', some t⟩
  | release {c' p'} : holds p → inside p = false → lock c' = none → begun c' = begun c →
      holds p' = false → LockMove lock begun holds inside c k j p ⟨c', p', none⟩
  | begin {c' p'} : holds p → inside p = false → lock c' = lock c → begun c' = begun c + 1 →
      inside p' → LockMove lock begun holds inside c k j p ⟨c', p', none⟩
  | finish {c' p'} : inside p → lock c' = lock c → begun c' = begun c → holds p' = false →
      LockMove lock begun holds inside c k j p ⟨c', p', none⟩

namespace Locked

theorem begun_le (hl : Locked lock begun holds inside s) : begun s.shared ≤ 1 := by
  cases hp : lock s.shared with
  | none => simp [hl.free hp]
  | some m =>
    obtain hm | hm := hl.owner m hp
    · cases ht : inside (s.pc m) with
      | false => simp [hl.before m hm ht]
      | true => simp [hl.during m ht]
    · omega

theorem keep (hl : Locked lock begun holds inside s) (hp : lock c = lock s.shared)
    (ht : begun c = begun s.shared) (hh : holds p = holds (s.pc k))
    (hv : inside p = inside (s.pc k)) : Locked lock begun holds inside (s.enter c k p) where
  owned := hl.owned.keep hp (by simp [hh])
  before i := by
    rcases eq_or_ne i k with rfl | hik
    · simpa [ht, hh, hv] using hl.before i
    · simpa [ht, hik] using hl.before i
  during i := by
    rcases eq_or_ne i k with rfl | hik
    · simpa [ht, hv] using hl.during i
    · simpa [ht, hik] using hl.during i
  free := by simpa [hp, ht] using hl.free
  owner m hm := by
    have hm' := hl.owner m (by simpa [hp] using hm)
    rcases eq_or_ne m k with rfl | hmk
    · simpa [ht, hh] using hm'
    · simpa [ht, hmk] using hm'

section

variable (hin : ∀ p, inside p → holds p)
include hin

theorem not_inside (hp : holds p = false) : inside p = false := by
  by_contra hi
  simpa [hp] using hin p (by simpa using hi)

theorem acquire (hl : Locked lock begun holds inside s) (hf : lock s.shared = none)
    (hp : lock c = some k) (ht : begun c = begun s.shared) (hh : holds p)
    (hv : inside p = false) : Locked lock begun holds inside (s.enter c k p) where
  owned := .first (hl.owned.all_free hf) hp
  before _ _ _ := ht.trans (hl.free hf)
  during i hi := by
    rcases eq_or_ne i k with rfl | hik
    · simp [hv] at hi
    · simp [hik, not_inside hin (hl.owned.all_free hf i)] at hi
  free _ := ht.trans (hl.free hf)
  owner m hm := by
    obtain rfl : k = m := by simpa [hp] using hm
    simp [hh]

theorem release (hl : Locked lock begun holds inside s) (hk : holds (s.pc k))
    (hv : inside (s.pc k) = false) (hp : lock c = none) (ht : begun c = begun s.shared)
    (hh : holds p = false) : Locked lock begun holds inside (s.enter c k p) where
  owned i hi := by simp [hl.owned.leave hk hh] at hi
  before _ _ _ := ht.trans (hl.before k hk hv)
  during i hi := by
    rcases eq_or_ne i k with rfl | hik
    · simp [not_inside hin hh] at hi
    · simp [hik, not_inside hin (hl.owned.other_free hk hik)] at hi
  free _ := ht.trans (hl.before k hk hv)
  owner m hm := by simp [hp] at hm

theorem finish (hl : Locked lock begun holds inside s) (hk : inside (s.pc k))
    (hp : lock c = lock s.shared) (ht : begun c = begun s.shared) (hh : holds p = false) :
    Locked lock begun holds inside (s.enter c k p) := by
  have h1 : begun c = 1 := ht.trans (hl.during k hk)
  have hkh := hin _ hk
  have hpk : lock c = some k := hp.trans (hl.owned k hkh)
  constructor
  · exact hl.owned.keep hp (by simp [hh])
  · intro i hi
    simp [hl.owned.leave hkh hh] at hi
  · exact fun _ _ => h1
  · intro hc
    simp [hpk] at hc
  · exact fun _ _ => .inr h1

end

theorem begin (hl : Locked lock begun holds inside s) (hk : holds (s.pc k))
    (hv : inside (s.pc k) = false) (hp : lock c = lock s.shared)
    (ht : begun c = begun s.shared + 1) (hh : inside p) :
    Locked lock begun holds inside (s.enter c k p) := by
  have h1 : begun c = 1 := by simp [ht, hl.before k hk hv]
  have hpk : lock c = some k := hp.trans (hl.owned k hk)
  constructor
  · exact hl.owned.keep hp (fun _ => hk)
  · intro i hi hn
    rcases eq_or_ne i k with rfl | hik
    · simp [hh] at hn
    · simp [hik, hl.owned.other_free hk hik] at hi
  · exact fun _ _ => h1
  · intro hc
    simp [hpk] at hc
  · exact fun _ _ => .inr h1

theorem move (hin : ∀ p, inside p → holds p) (hl : Locked lock begun holds inside s)
    (hm : LockMove lock begun holds inside s.shared k j (s.pc k) ⟨c, p, none⟩) :
    Locked lock begun holds inside (s.enter c k p) := by
  cases hm with
  | keep hp ht hh hv => exact hl.keep hp ht hh hv
  | acquire hf hp ht hh hv => exact hl.acquire hin hf hp ht hh hv
  | release hk hv hp ht hh => exact hl.release hin hk hv hp ht hh
  | begin hk hv hp ht hh => exact hl.begin hk hv hp ht hh
  | finish hk hp ht hh => exact hl.finish hin hk hp ht hh

theorem spawn (hin : ∀ p, inside p → holds p) (hl : Locked lock begun holds inside s)
    (hm : LockMove lock begun holds inside s.shared k j (s.pc k) ⟨c, p, some t⟩) :
    Locked lock begun holds inside ((s.enter c k p).enter c j t) := by
  cases hm with
  | hand hf hp ht hh hth htv =>
    have hk : Locked lock begun holds inside (s.enter s.shared k p) :=
      hl.keep rfl rfl (by simp [hh, hl.owned.all_free hf])
        (by simp [not_inside hin hh, not_inside hin (hl.owned.all_free hf k)])
    have ha := hk.acquire hin hf hp ht hth htv
    exact ha

end Locked

end Netpoll.Lib.CloseOnce
