import Netpoll.Fifo.ReadFifoLaws

namespace Netpoll.ReadFifo

open Netpoll.Lib.Threads Netpoll.Lib.Transition Netpoll.Input

/-- `waitRead` is called inside the callback only. -/
def Label.inside : Label → Bool
  | .waitRead k _ => k != 3
  | _ => true

def Pc.tells (n : Nat) : Pc → Bool
  | .ackLock l | .ackWait l => n ≤ l
  | .ackTrigger => true
  | _ => false

def Pc.announces : Pc → Bool
  | .hupTrigger | .closeTrigger => true
  | _ => false

section Access

variable {f : Fifo} {k j n : Nat} {p : Pc} {m : Move Fifo Pc}

theorem next_inbox (hn : next f k j p = some m) (hw : ∀ w r, p ≠ .wait w r) :
    m.shared.inbox.waitReadSize = f.inbox.waitReadSize ∧
      (f.inbox.readTrigger.isSome → m.shared.inbox.readTrigger.isSome) ∧
      (m.shared.inbox.length ≤ f.inbox.length ∨ m.pc.tells m.shared.inbox.length) := by
  cases p
  case wait w r => exact absurd rfl (hw w r)
  case inputAck n =>
    obtain rfl := Option.some.inj hn
    refine ⟨rfl, id, ?_⟩
    dsimp only
    split_ifs <;> simp_all [Pc.tells]
  all_goals
    simp only [next] at hn
    (try split_ifs at hn) <;> cases hn <;> simp [Fifo.trigger]

theorem next_tells (hn : next f k j p = some m) (hp : p.tells n) (hl : f.processing.isSome)
    (hs : f.inbox.waitReadSize = n) : m.shared.inbox.readTrigger.isSome ∨ m.pc.tells n := by
  cases p <;> simp only [Pc.tells, Bool.false_eq_true] at hp <;> simp only [next] at hn
  case ackLock l =>
    obtain rfl := by simpa [hl] using hn
    exact .inr hp
  case ackWait l =>
    obtain rfl := Option.some.inj hn
    simp_all [Pc.tells]
  case ackTrigger =>
    obtain rfl := Option.some.inj hn
    simp [Fifo.trigger]

theorem next_announces (hn : next f k j p = some m) (hp : p.announces) :
    m.shared.inbox.readTrigger.isSome := by
  cases p <;> simp only [Pc.announces, Bool.false_eq_true] at hp <;> simp only [next] at hn
  all_goals
    obtain rfl := Option.some.inj hn
    simp [Fifo.trigger]

end Access

def Awake (s : System) : Prop :=
  ∀ k w r, s.pc k = .wait w r → r ≠ .outside ∧
    Heard s.shared.inbox w (fun n => ∃ i, (s.pc i).tells n) (∃ i, (s.pc i).announces)

theorem Pc.tells_mono {n l : Nat} {p : Pc} (hp : p.tells l) (hn : n ≤ l) : p.tells n := by
  cases p <;> simp_all [Pc.tells] <;> omega

theorem next_not_wait {f : Fifo} {k j : Nat} {p : Pc} {m : Move Fifo Pc}
    (hn : next f k j p = some m) (hw : ∀ w r, p ≠ .wait w r) (w : WaitPc) (r : Site) :
    m.pc ≠ .wait w r := by
  cases p
  case wait w r => exact absurd rfl (hw w r)
  case register caller ok => cases caller <;> cases ok <;> cases hn <;> simp [Attach.pc]
  all_goals
    simp only [next] at hn
    (try split_ifs at hn) <;> cases hn <;> simp

section

variable {s s' : System} {a : Label} {f : Fifo} {k : Nat} {p : Pc}

theorem exists_enter {T : Pc → Bool} (hi : ∃ i, T (s.pc i)) :
    T (s.pc k) ∨ ∃ i, T ((s.enter f k p).pc i) := by
  obtain ⟨i, hi⟩ := hi
  rcases eq_or_ne i k with rfl | hik
  · exact .inl hi
  · exact .inr ⟨i, by simpa [hik] using hi⟩

namespace Awake

theorem holds (ha : Awake s) {w : WaitPc} {r : Site} (hk : s.pc k = .wait w r) :
    (s.pc k).holds := by
  have hr := (ha k w r hk).1
  rw [hk]
  cases r <;> first | rfl | exact absurd rfl hr

theorem other (ha : Awake s) (hp : ∀ w r, p ≠ .wait w r)
    (size : f.inbox.waitReadSize = s.shared.inbox.waitReadSize)
    (slot : s.shared.inbox.readTrigger.isSome → f.inbox.readTrigger.isSome)
    (length : f.inbox.length ≤ s.shared.inbox.length ∨ p.tells f.inbox.length)
    (closing : f.inbox.closing ≠ .none → s.shared.inbox.closing ≠ .none ∨ p.announces)
    (tells : ∀ i w r, s.pc i = .wait w r → w.waits → (s.pc k).tells w.size →
      f.inbox.readTrigger.isSome ∨ p.tells w.size)
    (announces : (s.pc k).announces → f.inbox.readTrigger.isSome ∨ p.announces) :
    Awake (s.enter f k p) := by
  intro i w r hi
  have hik : i ≠ k := by
    rintro rfl
    exact hp w r (by simpa using hi)
  rw [State.enter_pc_of_ne _ _ _ hik] at hi
  obtain ⟨hr, hh⟩ := ha i w r hi
  have hself {T : Pc → Bool} (hT : T p) : ∃ i, T ((s.enter f k p).pc i) := ⟨k, by simpa using hT⟩
  refine ⟨hr, hh.other size slot ?_ ?_ ?_ ?_⟩
  · intro _ hle
    rcases length with hl | ht
    · exact .inl (Nat.le_trans hle hl)
    · exact .inr (hself (Pc.tells_mono ht hle))
  · intro hw hD
    rcases exists_enter hD with hk | hD
    · exact (tells i w r hi hw hk).imp id hself
    · exact .inr hD
  · exact fun hc => (closing hc).imp id hself
  · intro hK
    rcases exists_enter hK with hk | hK
    · exact (announces hk).imp id hself
    · exact .inr hK

theorem only (ha : Awake s) (hl : Locked s) {i : Nat} {w : WaitPc} {r : Site}
    (hi : s.pc i = .wait w r) (hk : (s.pc k).holds) : i = k :=
  hl.owned.unique i k (ha.holds hi) hk

theorem step (ha : Awake s) (hl : Locked s) (hc : Closed s) (hg : a.inside)
    (hs : step s a = some s') : Awake s' := by
  cases step_cases hs with
  | @begins k p f hb =>
    have he := hb.entry
    refine ha.other ?_ (by rw [hb.inbox]) (by simp [hb.inbox])
      (.inl (Nat.le_of_eq (by rw [hb.inbox]))) (by simp_all [hb.inbox])
      (by simp [hb.idle, Pc.tells]) (by simp [hb.idle, Pc.announces])
    rintro w r rfl
    simp [Pc.entry] at he
  | @waits k n r hak hr =>
    subst hak
    obtain ⟨hk, hout⟩ := site_pc hr
    have hne : r ≠ .outside := fun h => by simp [Label.inside, hout h] at hg
    intro i w r' hi
    rcases eq_or_ne i k with rfl | hik
    · obtain ⟨rfl, rfl⟩ : WaitPc.entry n = w ∧ r = r' := by simpa using hi
      refine ⟨hne, ?_⟩
      constructor <;> simp [WaitPc.armed, WaitPc.waits, WaitPc.blocked]
    · have hkh : (s.pc k).holds := by
        rw [hk]
        cases r <;> first | rfl | exact absurd rfl hne
      exact absurd (ha.only hl (by simpa [hik] using hi) hkh) hik
  | consume =>
    intro i w r hi
    obtain ⟨hr, hh⟩ := ha i w r hi
    refine ⟨hr, hh.other rfl id (fun _ hle => .inl ?_) (fun _ => .inr) .inl .inr⟩
    dsimp only at hle
    omega
  | @panic k _ hk =>
    refine ha.other (by simp) rfl id (.inl (Nat.le_refl _)) .inl ?_ ?_ <;>
      rcases hk with hk | hk <;> simp [hk, Pc.tells, Pc.announces]
  | @move k j f p _ hn =>
    by_cases hw : ∃ w r, s.pc k = .wait w r
    · obtain ⟨w, r, hk⟩ := hw
      rw [hk] at hn
      obtain ⟨⟨b, o⟩, hb, he⟩ := Option.map_eq_some_iff.mp hn
      cases he
      intro i w' r' hi
      rcases eq_or_ne i k with rfl | hik
      · obtain ⟨hr, hh⟩ := ha i w r hk
        cases o with
        | none => cases r <;> simp [Site.after, Site.pc] at hi
        | some v =>
          obtain ⟨rfl, rfl⟩ : v = w' ∧ r = r' := by simpa [Site.after] using hi
          refine ⟨hr, (hh.step hb).mono (fun n hD => ?_) (fun hK => ?_)⟩
          · exact (exists_enter hD).resolve_left (by simp [hk, Pc.tells])
          · exact (exists_enter hK).resolve_left (by simp [hk, Pc.announces])
      · exact absurd (ha.only hl (by simpa [hik] using hi) (ha.holds hk)) hik
    · simp only [not_exists] at hw
      obtain ⟨hsize, hslot, hlen⟩ := next_inbox hn hw
      obtain ⟨hcl, -⟩ := next_closing hn (hc k)
      refine ha.other (next_not_wait hn hw) hsize hslot hlen ?_ ?_ ?_
      · intro hne
        rcases hcl with hcl | ⟨-, hp | hp | hcl⟩
        · exact .inl (hcl ▸ hne)
        · exact .inr (by simp [show p = .hupTrigger from hp, Pc.announces])
        · exact .inr (by simp [show p = .closeTrigger from hp, Pc.announces])
        · exact .inl hcl
      · intro i w r hi hww ht
        have hlock : s.shared.processing = some i := hl.owned i (ha.holds hi)
        exact next_tells hn ht (by simp [hlock])
          ((ha i w r hi).2.armed (WaitPc.armed_of_waits hww))
      · exact fun hk => .inl (next_announces hn hk)
  | @spawn k j f p t _ hn _ hjk hj =>
    obtain ⟨rfl, hp, hf, rfl⟩ := next_spawn hn
    intro i w r hi
    exfalso
    rcases eq_or_ne i j with rfl | hij
    · simp at hi
    rcases eq_or_ne i k with rfl | hik
    · rcases hp with rfl | rfl <;> simp [hij] at hi
    · have hh := ha.holds (by simpa [hij, hik] using hi)
      simp [hl.owned.all_free hf i] at hh

theorem of_quiet (ha : Awake s) (hq : Quiet s) {n : Nat} {r : Site}
    (hk : s.pc k = .wait (.recv n) r) :
    s.shared.inbox.length < n ∧ s.shared.inbox.closing = .none := by
  have hslot : s.shared.inbox.readTrigger = none := by
    have h0 := hq k 0
    rw [hk] at h0
    rcases ht : s.shared.inbox.readTrigger with _ | _ | e
    · rfl
    all_goals simp [next, Input.waitRead, ht] at h0
  have quiet_tells : ¬ ∃ i, (s.pc i).tells n := by
    rintro ⟨i, hi⟩
    have h0 := hq i 0
    cases hp : s.pc i <;> simp [hp, Pc.tells] at hi <;> simp [hp, next] at h0
    split at h0 <;> simp at h0
  have quiet_announces : ¬ ∃ i, (s.pc i).announces := by
    rintro ⟨i, hi⟩
    have h0 := hq i 0
    cases hp : s.pc i <;> simp [hp, Pc.announces] at hi <;> simp [hp, next] at h0
  exact (ha k _ r hk).2.nothing_due rfl hslot quiet_tells quiet_announces

theorem init (onFifoRead : Bool) : Awake (init onFifoRead) := by
  simp [Awake, ReadFifo.init]

end Awake

theorem awake_of_reach {onFifoRead : Bool}
    (hr : Reach ReadFifo.step (fun _ a => a.inside) (init onFifoRead) s) :
    Locked s ∧ Closed s ∧ Awake s := by
  refine hr.invariant (I := fun s => Locked s ∧ Closed s ∧ Awake s)
    ⟨.init _, .init _, .init _⟩ ?_
  rintro s a s' ⟨hl, hc, ha⟩ hg hs
  exact ⟨hl.step hs, hc.step hs, ha.step hl hc hg hs⟩

end

/-- A reader that is blocked inside the callback while nobody else can move has
too few bytes and an open FIFO. -/
theorem waitRead_woken (onFifoRead : Bool) {s : System}
    (hr : Reach step (fun _ a => a.inside) (init onFifoRead) s) (hq : Quiet s) (k n : Nat)
    (r : Site) (hk : s.pc k = .wait (.recv n) r) :
    s.shared.inbox.length < n ∧ s.shared.inbox.closing = .none :=
  (awake_of_reach hr).2.2.of_quiet hq hk

theorem waitRead_woken_half :
    ∃ s, Reach step (fun _ a => a.inside) (init true) s ∧ Quiet s ∧
      s.pc 4 = .wait (.recv 2) .first ∧ s.shared.inbox.length < 2 ∧
      s.shared.inbox.closing = .none := by
  have hrun : ∃ s, runs (guarded step fun _ a => a.inside) (init true)
      (List.flatten [[.attach .readFifo true], List.replicate 3 (.run 1 4), [.readable 1],
        List.replicate 6 (.run 0 0), List.replicate 2 (.run 4 0), [.waitRead 4 2],
        List.replicate 7 (.run 4 0)]) = some s ∧
      s.pc 4 = .wait (.recv 2) .first ∧ Quiet s := by
    refine ⟨_, rfl, rfl, Quiet.of_one (k := 4) (fun _ => rfl) fun i hi => ?_⟩
    simp +contextual [State.enter, init, Function.update_apply, hi]
  obtain ⟨s, hs, hk, hq⟩ := hrun
  have hr := Reach.of_runs hs
  exact ⟨s, hr, hq, hk, waitRead_woken true hr hq 4 2 .first hk⟩

/-- Without a callback the first chunk counts as processed by a task that has
nothing to call, and the reader outside is not told. -/
theorem waitRead_not_woken :
    ∃ s, Reach step (fun _ _ => True) (init false) s ∧ Quiet s ∧
      s.pc 3 = .wait (.recv 1) .outside ∧ s.shared.inbox.readTrigger = none ∧
      1 ≤ s.shared.inbox.length := by
  have hrun : ∃ s, runs (guarded step fun _ _ => true) (init false)
      (List.flatten [[.attach .readFifo true], List.replicate 3 (.run 1 4),
        List.replicate 7 (.run 4 0), [.waitRead 3 1], List.replicate 4 (.run 3 0),
        [.readable 1], List.replicate 4 (.run 0 4), List.replicate 7 (.run 4 0)]) = some s ∧
      s.pc 3 = .wait (.recv 1) .outside ∧ s.shared.inbox.readTrigger = none ∧
      1 ≤ s.shared.inbox.length ∧ Quiet s := by
    refine ⟨_, rfl, rfl, rfl, Nat.le_refl 1, Quiet.of_one (k := 3) (fun _ => rfl) fun i hi => ?_⟩
    simp +contextual [State.enter, init, Function.update_apply, hi]
  obtain ⟨s, hs, hk, ht, hl, hq⟩ := hrun
  exact ⟨s, (Reach.of_runs hs).mono fun _ _ _ _ => trivial, hq, hk, ht, hl⟩

end Netpoll.ReadFifo
