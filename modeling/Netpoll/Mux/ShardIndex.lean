import Netpoll.Mux.Ring

namespace Netpoll.Mux

open Netpoll.Lib.Threads Netpoll.Lib.Transition

variable {G : Type*}

def Pc.target : Pc G → Option Nat
  | .addLock i _ | .addLen i _ | .addAppend i _ _ | .addUnlock i _ => some i
  | _ => none

def Pc.InBounds (size : Nat) (p : Pc G) :
    Prop := p ≠ .outOfRange ∧ ∀ i, p.target = some i → i < size

def Queue.Fits (q : Queue G) : Prop :=
  0 ≤ addInt32 q.idx 1 ∨ (q.size : Int) ∣ addInt32 q.idx 1

/-- The step increments the counter only to a value that fits. -/
def Label.Fits (s : System G) : Label G → Prop
  | .run k _ => ∀ gts, s.pc k = .addIdx gts → s.shared.Fits
  | _ => True

section

variable {grow : Nat → Nat → Nat} {size : Nat} {q q' : Queue G} {k j : Nat} {p p' : Pc G}
  {t : Option (Pc G)}

theorem shard_mem_iff (hsize : 1 ≤ q.size) :
    0 ≤ q.shard (addInt32 q.idx 1) ∧ q.shard (addInt32 q.idx 1) < q.size ↔ q.Fits := by
  constructor
  · rintro ⟨h0, -⟩
    by_cases hneg : addInt32 q.idx 1 < 0
    · -- the remainder of a negative number is not positive
      have hle : q.shard (addInt32 q.idx 1) ≤ 0 := by
        have h := Int.tmod_nonneg (q.size : Int) (show 0 ≤ -addInt32 q.idx 1 by omega)
        rw [Int.neg_tmod] at h
        exact Int.neg_nonneg.mp h
      exact .inr (Int.dvd_of_tmod_eq_zero (Int.le_antisymm hle h0))
    · exact .inl (Int.not_lt.mp hneg)
  · rintro (hpos | hdvd)
    · have h := shard_lt hsize hpos
      omega
    · have h0 : q.shard (addInt32 q.idx 1) = 0 := Int.tmod_eq_zero_of_dvd hdvd
      omega

theorem Pc.InBounds.of_target {p : Pc G} (hp : p ≠ .outOfRange) (ht : p.target = none) :
    p.InBounds size := by
  refine ⟨hp, fun i hi => ?_⟩
  rw [ht] at hi
  cases hi

theorem loop_inBounds (n m : Int) : (loop n m : Pc G).InBounds size := by
  unfold loop
  split <;> exact Pc.InBounds.of_target (by simp) rfl

theorem next_inBounds (hn : next grow q k j p = some ⟨q', p', t⟩) (hsize : 1 ≤ q.size)
    (hf : ∀ gts, p = .addIdx gts → q.Fits) (hp : p.InBounds q.size) :
    q'.size = q.size ∧ p'.InBounds q.size ∧ ∀ p'' ∈ t, p''.InBounds q.size := by
  have hnone : ∀ p'' ∈ (none : Option (Pc G)), p''.InBounds q.size := by simp
  cases p with
  | idle | outOfRange => simp [next] at hn
  | addIdx gts =>
    obtain ⟨h0, hlt⟩ := (shard_mem_iff hsize).mpr (hf gts rfl)
    cases hn
    rw [if_neg (by exact Int.not_lt.mpr h0)]
    refine ⟨rfl, ⟨by simp, fun i hi => ?_⟩, hnone⟩
    cases hi
    exact (Int.toNat_lt h0).mpr hlt
  | addLock i gts | swapLock i n d | listLock i =>
    simp only [next] at hn
    split at hn
    · cases hn
    · cases hn
      exact ⟨rfl, ⟨by simp, hp.2⟩, hnone⟩
  | addUnlock i b =>
    cases hn
    split <;> exact ⟨rfl, .of_target (by simp) rfl, hnone⟩
  | deal i gts l n d =>
    simp only [next] at hn
    split at hn
    · cases hn
      exact ⟨rfl, .of_target (by simp) rfl, hnone⟩
    · cases hn
      split
      · exact ⟨rfl, .of_target (by simp) rfl, hnone⟩
      · exact ⟨rfl, loop_inBounds _ _, hnone⟩
  | load | sub =>
    cases hn
    exact ⟨rfl, loop_inBounds _ _, hnone⟩
  | addState | trigger | recheck | closeLoop | closeTrigger =>
    cases hn
    split <;> exact ⟨rfl, .of_target (by simp) rfl, hnone⟩
  | foreach =>
    cases hn
    refine ⟨rfl, .of_target (by simp) rfl, ?_⟩
    split
    · exact hnone
    · rintro p'' ⟨⟩
      exact .of_target (by simp) rfl
  | closed =>
    cases hn
    split <;> exact ⟨rfl, .of_target (by simp) rfl, hnone⟩
  | closeCas =>
    simp only [next] at hn
    split at hn <;> cases hn <;> exact ⟨rfl, .of_target (by simp) rfl, hnone⟩
  | addLen | addAppend =>
    cases hn
    exact ⟨rfl, ⟨by simp, hp.2⟩, hnone⟩
  | listWrite | listUnlock | read | swap | swapUnlock | flush | stop | closeStore | closeReturned =>
    cases hn
    exact ⟨rfl, .of_target (by simp) rfl, hnone⟩

def InBounds (size : Nat) (s : System G) :
    Prop := s.shared.size = size ∧ ∀ k, (s.pc k).InBounds size

theorem InBounds.enter {s : System G} (h : InBounds size s) (hq : q.size = s.shared.size)
    (hp : p.InBounds size) : InBounds size (s.enter q k p) := by
  refine ⟨hq.trans h.1, fun i => ?_⟩
  rcases eq_or_ne i k with rfl | hik
  · simpa using hp
  · simpa [hik] using h.2 i

theorem InBounds.step [DecidableEq G] {s s' : System G} {a : Label G} (h : InBounds size s)
    (hsize : 1 ≤ size) (hf : a.Fits s) (hs : step grow s a = some s') : InBounds size s' := by
  cases a with
  | add i gts | close i =>
    obtain ⟨-, hs⟩ := Option.ite_none_right_eq_some.mp hs
    cases hs
    exact h.enter rfl ⟨nofun, nofun⟩
  | run i j =>
    have hnext (q p t) (hn : next grow s.shared i j (s.pc i) = some ⟨q, p, t⟩) :=
      next_inBounds hn (h.1 ▸ hsize) hf (h.1 ▸ h.2 i)
    rw [h.1] at hnext
    rcases State.run_cases hs with ⟨c, p, hn, rfl⟩ | ⟨c, p, t, hn, -, -, -, rfl⟩
    · obtain ⟨h1, h2, -⟩ := hnext _ _ _ hn
      exact h.enter (h1.trans h.1.symm) h2
    · obtain ⟨h1, h2, h3⟩ := hnext _ _ _ hn
      exact (h.enter (h1.trans h.1.symm) h2).enter rfl (h3 t rfl)

theorem Label.fits_of_admitted [DecidableEq G] {s : System G}
    (hr : Reach (step grow) (fun s a => a.admitted s) (init size) s) :
    Reach (step grow) (fun s a => a.Fits s) (init size) s := by
  refine hr.mono fun s a hs _ => ?_
  have hc : Counters s :=
    hs.invariant (I := Counters) (Counters.init size) fun _ _ _ hc ha hs => hc.step ha hs
  cases a with
  | add i gts | close i => trivial
  | run i j =>
    intro gts hi
    obtain ⟨h0, h1⟩ := (hc.bounded i).idx
    have hlt := h1 (by rw [hi]; rfl)
    left
    rw [addInt32_eq (by omega) hlt]
    omega

/-- In a run that increments the counter only to values that fit, no access of an
`Add` is out of bounds; and an increment gives a shard iff its value fits. -/
theorem shard_in_range [DecidableEq G] (hsize : 1 ≤ size) {s : System G}
    (hr : Reach (step grow) (fun s a => a.Fits s) (init size) s) (k : Nat) :
    (s.pc k).InBounds size ∧
      (0 ≤ s.shared.shard (addInt32 s.shared.idx 1) ∧
        s.shared.shard (addInt32 s.shared.idx 1) < size ↔ s.shared.Fits) := by
  have hI : InBounds size s := by
    refine hr.invariant (I := InBounds size) ⟨rfl, fun k => ⟨nofun, nofun⟩⟩ ?_
    intro s a s' hi hf hs
    exact hi.step hsize hf hs
  have hiff := shard_mem_iff (q := s.shared) (by rw [hI.1]; exact hsize)
  rw [hI.1] at hiff
  exact ⟨hI.2 k, hiff⟩

end

theorem shard_in_range_one :
    ∃ s : System Nat, Reach (step fun _ n => n) (fun s a => a.Fits s) (init 2) s ∧
      s.shared.idx = 1 ∧ 0 ≤ s.shared.shard (addInt32 s.shared.idx 1) ∧
      s.shared.shard (addInt32 s.shared.idx 1) < (2 : Nat) := by
  obtain ⟨s, hs, hidx⟩ : ∃ s : System Nat,
    runs (guarded (step fun _ n => n) fun s a => a.admitted s)
      (init 2) (.add 0 [7] :: List.replicate 9 (.run 0 0)) = some s ∧ s.shared.idx = 1 :=
        ⟨_, rfl, rfl⟩
  have hr := Label.fits_of_admitted (Reach.of_runs hs)
  have hfits : s.shared.Fits := .inl (by rw [hidx]; decide)
  exact ⟨s, hr, hidx, (shard_in_range (by decide) hr 0).2.mpr hfits⟩

structure Quiet (c : Int) (s : System Nat) : Prop where
  pc : s.pc 0 = .idle
  state : s.shared.state = .active
  size : s.shared.size = 3
  locks : ∀ i, s.shared.locks i = none
  len : ∀ i, i < 3 → (s.shared.getters i).len ≠ 0
  idx : s.shared.idx = c

theorem Quiet.add {c : Int} {s : System Nat} (hq : Quiet c s) (h0 : 0 ≤ c) (h1 : c + 1 < 2 ^ 31) :
    ∃ s', runs (guarded (step fun _ n => n) fun _ _ => true) s
      (.add 0 [7] :: List.replicate 6 (.run 0 0)) = some s' ∧ Quiet (c + 1) s' := by
  have hidx : addInt32 s.shared.idx 1 = c + 1 := by
    rw [hq.idx]
    exact addInt32_eq (by omega) h1
  have hlt : (c + 1).tmod 3 < 3 := Int.tmod_lt_of_pos _ (by decide)
  have hpos : 0 ≤ (c + 1).tmod 3 := Int.tmod_nonneg _ (by omega)
  have hneg : ¬ (c + 1).tmod 3 < 0 := by omega
  have hlen := hq.len ((c + 1).tmod 3).toNat (by omega)
  simp [runs, guarded, step, hq.pc, State.run, next, hq.state, hidx, Queue.shard, hq.size, hneg,
    hq.locks, hlen]
  refine ⟨by simp, rfl, rfl, fun i => ?_, fun i hi => ?_, rfl⟩
  · rcases eq_or_ne i ((c + 1).tmod 3).toNat with rfl | hne
    · simp
    · simp [hne, hq.locks i]
  · rcases eq_or_ne i ((c + 1).tmod 3).toNat with rfl | hne
    · simp
    · simpa [hne] using hq.len i hi

theorem quiet_three : ∃ s : System Nat,
    Reach (step fun _ n => n) (fun _ _ => true) (init 3) s ∧ Quiet 3 s := by
  obtain ⟨s, hs, hq⟩ : ∃ s : System Nat, runs (guarded (step fun _ n => n) fun _ _ => true) (init 3)
      (List.flatten [[.add 0 [7]], List.replicate 11 (.run 0 1), [.add 0 [7]],
        List.replicate 10 (.run 0 1), [.add 0 [7]], List.replicate 10 (.run 0 1)]) = some s ∧
      Quiet 3 s := by
    refine ⟨_, rfl, rfl, rfl, rfl, fun i => ?_, by decide, rfl⟩
    match i with
    | 0 | 1 | 2 | _ + 3 => rfl
  exact ⟨s, Reach.of_runs hs, hq⟩

theorem quiet_adds (n : Nat) (hn : 3 + n < 2 ^ 31) : ∃ s : System Nat,
    Reach (step fun _ n => n) (fun _ _ => true) (init 3) s ∧ Quiet (3 + n) s := by
  induction n with
  | zero => exact quiet_three
  | succ n ih =>
    obtain ⟨s, hr, hq⟩ := ih (by omega)
    obtain ⟨s', hs, hq'⟩ := hq.add (by omega) (by omega)
    refine ⟨s', hr.trans (Reach.of_runs hs), ?_⟩
    rwa [Int.natCast_succ, ← Int.add_assoc]

/-- The 2^31-th call of `Add` on a queue of three shards. -/
theorem shard_negative : ∃ s : System Nat,
    Reach (step fun _ n => n) (fun _ _ => True) (init 3) s ∧ s.pc 0 = .outOfRange ∧
      s.shared.idx = -2 ^ 31 ∧ s.shared.shard s.shared.idx = -2 := by
  obtain ⟨s, hr, hq⟩ := quiet_adds (2 ^ 31 - 4) (by decide)
  have hidx : addInt32 s.shared.idx 1 = -2 ^ 31 := by
    rw [hq.idx]
    decide
  have hneg : (-2 ^ 31 : Int).tmod 3 = -2 := by decide
  obtain ⟨s', hs', hend⟩ : ∃ s', runs (guarded (step fun _ n => n) fun _ _ => true) s
      [.add 0 [7], .run 0 0, .run 0 0] = some s' ∧ s'.pc 0 = .outOfRange ∧
      s'.shared.idx = -2 ^ 31 ∧ s'.shared.size = 3 := by
    simp [runs, guarded, step, hq.pc, State.run, next, hq.state, hidx, Queue.shard, hq.size]
  refine ⟨s', (hr.trans (Reach.of_runs hs')).mono fun _ _ _ _ => trivial, hend.1, hend.2.1, ?_⟩
  rw [Queue.shard, hend.2.1, hend.2.2]
  exact hneg

end Netpoll.Mux
